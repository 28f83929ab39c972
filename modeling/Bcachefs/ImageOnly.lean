import Mathlib.Logic.Relation
import Bcachefs.Roots
import Bcachefs.SuperblockLoad
import Bcachefs.Traversal
import Bcachefs.WalkCore

/-! When the contents of fresh memory cannot reach the output: two runs on one image
whose superblock and nodes are all there take the same steps. -/

namespace Bcachefs

open ByteString Iteration Relation

inductive Scanning (node : Bytes) (blockSize : Nat) : BKeyIterator → BSetIterator → Prop
  | fresh {bsetIterator} : BSetIterator.new node.size = .ok bsetIterator →
      Scanning node blockSize BKeyIterator.empty bsetIterator
  | key {keyIterator bsetIterator key keyAfter} : Scanning node blockSize keyIterator bsetIterator →
      keyIterator.next node = .ok (some key, keyAfter) →
      Scanning node blockSize keyAfter bsetIterator
  | bset {keyIterator keyAfter bsetIterator bset bsetAfter entered} :
      Scanning node blockSize keyIterator bsetIterator →
      keyIterator.next node = .ok (none, keyAfter) →
      bsetIterator.next node blockSize = .ok (some bset, bsetAfter) →
      BKeyIterator.new node bset = .ok entered → Scanning node blockSize entered bsetAfter
  | finished {keyIterator keyAfter bsetIterator bsetAfter} :
      Scanning node blockSize keyIterator bsetIterator →
      keyIterator.next node = .ok (none, keyAfter) →
      bsetIterator.next node blockSize = .ok (none, bsetAfter) →
      Scanning node blockSize keyIterator bsetAfter

def LinksTo (image : Bytes) (size blockSize address next : Nat) : Prop :=
  ∃ keyIterator bsetIterator key keyAfter value,
    Scanning (image.window address size) blockSize keyIterator bsetIterator ∧
    keyIterator.next (image.window address size) = .ok (some key, keyAfter) ∧
    BKey.type (image.window address size) key = .ok keyTypeBtreePtrV2 ∧
    getValue (image.window address size) (image.window address size) key = .ok value ∧
    btreePtrAddress (image.window address size) value = .ok next

inductive Inside (image : Bytes) (size blockSize root : Nat) (world : World) :
    BTreeIterator → Prop
  | leaf {it address} : it.children = [] →
      ReflTransGen (LinksTo image size blockSize) root address →
      world.heap[it.iter]? = some (image.window address size) →
      Scanning (image.window address size) blockSize it.keyIterator it.bsetIterator →
      Inside image size blockSize root world it
  | inner {it child address} : it.children = [child] →
      Inside image size blockSize root world child →
      ReflTransGen (LinksTo image size blockSize) root address →
      world.heap[it.iter]? = some (image.window address size) →
      Scanning (image.window address size) blockSize it.keyIterator it.bsetIterator →
      Inside image size blockSize root world it

section

variable {image : Bytes} {size blockSize root : Nat} {reader : BCacheFSReader}

theorem Inside.extends {world next : World} {it : BTreeIterator}
    (inside : Inside image size blockSize root world it) (grown : world.Extends next) :
    Inside image size blockSize root next it := by
  induction inside with
  | leaf childless reached held scanning =>
      exact Inside.leaf childless reached (grown _ _ held) scanning
  | inner single _ reached held scanning ih =>
      exact Inside.inner single ih reached (grown _ _ held) scanning

theorem BTreeIterator.new_full {env : Env} {ptr : Ptr} {type : BTreeType} {world : World}
    {source : Bytes} {address : Nat} (mounted : Mounted reader size blockSize world)
    (pointed : world.heap[ptr.block]? = some source)
    (target : btreePtrAddress source ptr.offset = .ok address)
    (readable : ReadsFull env.image address size) :
    BTreeIterator.new env reader ptr type world = (do
      let bsetIterator ← BSetIterator.new size
      return ({ type := type, ptr := ptr, iter := world.heap.length, bsetIterator := bsetIterator
                keyIterator := BKeyIterator.empty, children := [] },
        { heap := world.heap ++ [env.image.window address size], position := address + size })) := by
  obtain ⟨sb, superblock, nodeSize, _⟩ := mounted.superblock
  have kept := World.heap_get (env.image.window address size) superblock
  have delivered : min size (env.image.size - address) = size := Nat.min_eq_left readable
  cases created : BSetIterator.new size with
  | error fault =>
      simp only [BTreeIterator.new, loadBtreeNode_ok superblock nodeSize pointed target, ok_bind,
        loadedNode_full readable, World.deref, kept, nodeSize, created, error_bind]
  | ok bsetIterator =>
      rw [new_ok superblock nodeSize pointed target created, loadedNode_full readable, delivered]
      rfl

theorem BTreeIterator.new_failed {env : Env} {ptr : Ptr} {type : BTreeType} {world : World}
    {source : Bytes} {fault : Fault} (mounted : Mounted reader size blockSize world)
    (pointed : world.heap[ptr.block]? = some source)
    (target : btreePtrAddress source ptr.offset = .error fault) :
    BTreeIterator.new env reader ptr type world = .error fault := by
  obtain ⟨sb, superblock, nodeSize, _⟩ := mounted.superblock
  have kept := World.heap_get (Bytes.ofFn size (env.junk world.heap.length)) pointed
  simp only [BTreeIterator.new, loadBtreeNode, World.deref, superblock, ok_bind, nodeSize,
    World.malloc, kept, target, error_bind]

theorem BTreeIterator.new_target {env : Env} {ptr : Ptr} {type : BTreeType} {world after : World}
    {it : BTreeIterator} {source : Bytes} (mounted : Mounted reader size blockSize world)
    (pointed : world.heap[ptr.block]? = some source)
    (created : BTreeIterator.new env reader ptr type world = .ok (it, after)) :
    ∃ address, btreePtrAddress source ptr.offset = .ok address := by
  cases target : btreePtrAddress source ptr.offset with
  | error fault => cases created.symm.trans (new_failed mounted pointed target)
  | ok address => exact ⟨address, rfl⟩

theorem BTreeIterator.new_same {left right : Env} (images : left.image = right.image) {ptr : Ptr}
    {world : World} {source : Bytes} (type : BTreeType) (mounted : Mounted reader size blockSize world)
    (pointed : world.heap[ptr.block]? = some source)
    (readable : ∀ address, btreePtrAddress source ptr.offset = .ok address →
      ReadsFull left.image address size) :
    BTreeIterator.new left reader ptr type world = BTreeIterator.new right reader ptr type world := by
  cases target : btreePtrAddress source ptr.offset with
  | error fault => rw [new_failed mounted pointed target, new_failed mounted pointed target]
  | ok address =>
      have full := readable address target
      rw [new_full mounted pointed target full, new_full mounted pointed target (images ▸ full),
        images]

theorem BTreeIterator.new_inside {env : Env} {ptr : Ptr} {type : BTreeType} {world after : World}
    {it : BTreeIterator} {source : Bytes} (mounted : Mounted reader size blockSize world)
    (pointed : world.heap[ptr.block]? = some source)
    (target : ∀ address, btreePtrAddress source ptr.offset = .ok address →
      ReadsFull env.image address size ∧
        ReflTransGen (LinksTo env.image size blockSize) root address)
    (created : BTreeIterator.new env reader ptr type world = .ok (it, after)) :
    Inside env.image size blockSize root after it := by
  obtain ⟨address, found⟩ := new_target mounted pointed created
  obtain ⟨readable, reached⟩ := target address found
  rw [new_full mounted pointed found readable] at created
  obtain ⟨bsetIterator, fresh, same⟩ := bind_eq_ok.mp created
  cases same
  exact Inside.leaf rfl reached List.getElem?_concat_length (Scanning.fresh fresh)

theorem child_target {image : Bytes} {address key value : Nat}
    {keyIterator keyAfter : BKeyIterator} {bsetIterator : BSetIterator}
    (complete : ∀ node, ReflTransGen (LinksTo image size blockSize) root node →
      ReadsFull image node size)
    (reached : ReflTransGen (LinksTo image size blockSize) root address)
    (scanning : Scanning (image.window address size) blockSize keyIterator bsetIterator)
    (scanned : keyIterator.next (image.window address size) = .ok (some key, keyAfter))
    (typed : BKey.type (image.window address size) key = .ok keyTypeBtreePtrV2)
    (valued : getValue (image.window address size) (image.window address size) key = .ok value) :
    ∀ next, btreePtrAddress (image.window address size) value = .ok next →
      ReadsFull image next size ∧ ReflTransGen (LinksTo image size blockSize) root next := by
  intro next target
  have linked : LinksTo image size blockSize address next :=
    ⟨_, _, key, keyAfter, value, scanning, scanned, typed, valued, target⟩
  exact ⟨complete next (reached.tail linked), reached.tail linked⟩

theorem returned_inside {env : Env} {it after : BTreeIterator} {world next : World}
    {result : Option Ptr}
    (complete : ∀ node, ReflTransGen (LinksTo env.image size blockSize) root node →
      ReadsFull env.image node size)
    (returned : Returned env reader it world result after next)
    (mounted : Mounted reader size blockSize world)
    (inside : Inside env.image size blockSize root world it) :
    Inside env.image size blockSize root next after := by
  induction returned with
  | @passed it world child key childAfter next last inner ih =>
      cases inside with
      | leaf childless _ _ _ => simp [childless] at last
      | @inner _ only address single below reached held scanning =>
          have same : only = child := by simpa [single] using last
          subst same
          have children : it.children.dropLast ++ [childAfter] = [childAfter] := by simp [single]
          exact Inside.inner children (ih mounted below) reached (inner.grows _ _ held) scanning
  | @popped it world child childAfter middle result after next last inner _ _ ih =>
      cases inside with
      | leaf childless _ _ _ => simp [childless] at last
      | @inner _ only address single below reached held scanning =>
          apply ih (mounted.extends inner.grows)
          have children : it.children.dropLast = [] := by simp [single]
          exact Inside.leaf children reached (inner.grows _ _ held) scanning
  | @key it world node key keyIterator type childless held scanned typed plain =>
      cases inside with
      | @leaf _ address _ reached loaded scanning =>
          cases held.symm.trans loaded
          exact Inside.leaf childless reached loaded (Scanning.key scanning scanned)
      | inner single _ _ _ _ => simp [childless] at single
  | @entered it world node key keyIterator value child middle result after next childless held
      scanned typed valued created _ ih =>
      cases inside with
      | @leaf _ address _ reached loaded scanning =>
          cases held.symm.trans loaded
          have grown := BTreeIterator.new_extends created
          have target := child_target complete reached scanning scanned typed valued
          have below := BTreeIterator.new_inside mounted loaded target created
          apply ih (mounted.extends grown)
          exact Inside.inner rfl below reached (grown _ _ loaded) (Scanning.key scanning scanned)
      | inner single _ _ _ _ => simp [childless] at single
  | @advanced it world node keyAfter sb otherSize bset bsetIterator keyIterator result after next
      childless held scanned block sized stepped entered _ ih =>
      cases inside with
      | @leaf _ address _ reached loaded scanning =>
          cases held.symm.trans loaded
          obtain ⟨_, superblock, _, same⟩ := mounted.superblock
          cases block.symm.trans superblock
          cases sized.symm.trans same
          apply ih mounted
          exact Inside.leaf childless reached loaded (Scanning.bset scanning scanned stepped entered)
      | inner single _ _ _ _ => simp [childless] at single
  | @finished it world node keyAfter sb otherSize bsetIterator childless held scanned block sized
      stepped =>
      cases inside with
      | @leaf _ address _ reached loaded scanning =>
          cases held.symm.trans loaded
          obtain ⟨_, superblock, _, same⟩ := mounted.superblock
          cases block.symm.trans superblock
          cases sized.symm.trans same
          exact Inside.leaf childless reached loaded (Scanning.finished scanning scanned stepped)
      | inner single _ _ _ _ => simp [childless] at single

theorem nextKey_same {left right : Env} (images : left.image = right.image)
    (complete : ∀ node, ReflTransGen (LinksTo left.image size blockSize) root node →
      ReadsFull left.image node size) (fuel : Nat) {it : BTreeIterator} {world : World}
    (mounted : Mounted reader size blockSize world)
    (inside : Inside left.image size blockSize root world it) :
    BTreeIterator.nextKey left reader fuel it world =
      BTreeIterator.nextKey right reader fuel it world := by
  induction fuel generalizing it world with
  | zero => rfl
  | succ fuel ih =>
      rw [BTreeIterator.nextKey, BTreeIterator.nextKey]
      cases inside with
      | @inner _ child address single below reached held scanning =>
          have last : it.children.getLast? = some child := by simp [single]
          simp only [last]
          rw [← ih mounted below]
          refine bind_congr_ok fun outcome returned => ?_
          obtain ⟨key, after, next⟩ := outcome
          cases key with
          | some key => rfl
          | none =>
              have grown := (BTreeIterator.nextKey_returned returned).grows
              have children : it.children.dropLast = [] := by simp [single]
              exact ih (mounted.extends grown)
                (Inside.leaf children reached (grown _ _ held) scanning)
      | @leaf _ address childless reached held scanning =>
          simp only [childless, List.getLast?_nil, World.deref_ok.mpr held, ok_bind]
          refine bind_congr_ok fun outcome scanned => ?_
          obtain ⟨key, keyAfter⟩ := outcome
          cases key with
          | some key =>
              refine bind_congr_ok fun type typed => ?_
              split
              · rename_i pointer
                subst pointer
                refine bind_congr_ok fun value valued => ?_
                have target := child_target complete reached scanning scanned typed valued
                have loads : BTreeIterator.new left reader ⟨it.iter, value⟩ it.type world =
                    BTreeIterator.new right reader ⟨it.iter, value⟩ it.type world :=
                  BTreeIterator.new_same images it.type mounted held fun next found =>
                    (target next found).1
                rw [← loads]
                refine bind_congr_ok fun outcome created => ?_
                obtain ⟨child, middle⟩ := outcome
                have grown := BTreeIterator.new_extends created
                have below := BTreeIterator.new_inside mounted held target created
                apply ih (mounted.extends grown)
                exact Inside.inner rfl below reached (grown _ _ held)
                  (Scanning.key scanning scanned)
              · rfl
          | none =>
              obtain ⟨sb, superblock, _, sized⟩ := mounted.superblock
              simp only [World.deref_ok.mpr superblock, sized, ok_bind]
              refine bind_congr_ok fun outcome stepped => ?_
              obtain ⟨bset, bsetAfter⟩ := outcome
              cases bset with
              | none => rfl
              | some bset =>
                  refine bind_congr_ok fun entered made => ?_
                  apply ih mounted
                  exact Inside.leaf rfl reached held (Scanning.bset scanning scanned stepped made)

theorem walkFrom_same {left right : Env} (images : left.image = right.image)
    (complete : ∀ node, ReflTransGen (LinksTo left.image size blockSize) root node →
      ReadsFull left.image node size) (callFuel fuel : Nat) {it : BTreeIterator} {world : World}
    (mounted : Mounted reader size blockSize world)
    (inside : Inside left.image size blockSize root world it) :
    walkFrom left reader callFuel fuel it world = walkFrom right reader callFuel fuel it world := by
  induction fuel generalizing it world with
  | zero => rfl
  | succ fuel ih =>
      rw [walkFrom, walkFrom, ← nextKey_same images complete callFuel mounted inside]
      refine bind_congr_ok fun outcome returned => ?_
      obtain ⟨key, after, next⟩ := outcome
      have derivation := BTreeIterator.nextKey_returned returned
      cases key with
      | none => rfl
      | some key =>
          dsimp only
          rw [ih (mounted.extends derivation.grows)
            (returned_inside complete derivation mounted inside)]

end

def RootAddress (sb : Bytes) (type : BTreeType) (address : Nat) : Prop :=
  ∃ fuel field table entry root, findSuperblockField sb sbFieldClean fuel = .ok (some field) ∧
    findJournalEntries sb field = .ok table ∧ table[type.id]? = some (some entry) ∧
    findBtreeRoot sb entry fuel = .ok root ∧ btreePtrAddress sb root = .ok address

/-- Nothing that the reader reads of the image is cut off: the superblock, and every
node that the pointers below a root of the type lead to. -/
structure Complete (image : Bytes) (type : BTreeType) : Prop where
  superblock : SuperblockComplete image
  nodes : HasMagic image → ∀ size blockSize root node,
    btreeNodeSize (superblockOf image) = .ok size →
    btreeBlockSize (superblockOf image) = .ok blockSize →
    RootAddress (superblockOf image) type root →
    ReflTransGen (LinksTo image size blockSize) root node → ReadsFull image node size

theorem reader_same {left right : Env} (images : left.image = right.image)
    (complete : SuperblockComplete left.image) (fuel : Nat) :
    BCacheFSReader.new left fuel World.start = BCacheFSReader.new right fuel World.start := by
  have loads := readSuperblock_full complete
  have again := @readSuperblock_full right (images ▸ complete)
  rw [BCacheFSReader.new, BCacheFSReader.new]
  by_cases marked : HasMagic left.image
  · rw [loads.2 marked, again.2 (images ▸ marked), images]
  · rw [loads.1 marked, again.1 (images ▸ marked)]

theorem reader_opened {env : Env} {fuel : Nat} {reader : BCacheFSReader} {world : World}
    (complete : SuperblockComplete env.image)
    (opened : BCacheFSReader.new env fuel World.start = .ok (reader, world)) :
    HasMagic env.image ∧ world.heap[reader.sblock]? = some (superblockOf env.image) ∧
      ∃ field, findSuperblockField (superblockOf env.image) sbFieldClean fuel = .ok (some field) ∧
        findJournalEntries (superblockOf env.image) field = .ok reader.btreeRoots := by
  rw [BCacheFSReader.new] at opened
  by_cases marked : HasMagic env.image
  · rw [(readSuperblock_full complete).2 marked, ok_bind] at opened
    simp only [World.deref, List.getElem?_cons_succ, List.getElem?_cons_zero, ok_bind] at opened
    obtain ⟨found, search, rest⟩ := bind_eq_ok.mp opened
    cases found with
    | none => cases rest
    | some field =>
        obtain ⟨table, filled, same⟩ := bind_eq_ok.mp rest
        cases same
        exact ⟨marked, rfl, field, search, filled⟩
  · rw [(readSuperblock_full complete).1 marked] at opened
    cases opened

section

variable {left right : Env} {reader : BCacheFSReader} {size blockSize : Nat} {type : BTreeType}
  {world : World} {fuel field : Nat}

theorem iterator_same (images : left.image = right.image) (complete : Complete left.image type)
    (marked : HasMagic left.image)
    (held : world.heap[reader.sblock]? = some (superblockOf left.image))
    (search : findSuperblockField (superblockOf left.image) sbFieldClean fuel = .ok (some field))
    (filled : findJournalEntries (superblockOf left.image) field = .ok reader.btreeRoots)
    (nodeSize : btreeNodeSize (superblockOf left.image) = .ok size)
    (blockSized : btreeBlockSize (superblockOf left.image) = .ok blockSize) :
    reader.iterator left fuel type world = reader.iterator right fuel type world ∧
      ∀ it after, reader.iterator left fuel type world = .ok (it, after) →
        ∃ root, RootAddress (superblockOf left.image) type root ∧ world.Extends after ∧
          Inside left.image size blockSize root after it := by
  have mounted : Mounted reader size blockSize world := ⟨_, held, nodeSize, blockSized⟩
  have loaded := World.deref_ok.mpr held
  cases slot : reader.btreeRoots[type.id]? with
  | none =>
      simp only [BCacheFSReader.iterator, slot]
      exact ⟨trivial, fun it after returned => by cases returned⟩
  | some recorded =>
      cases recorded with
      | none =>
          simp only [BCacheFSReader.iterator, slot]
          exact ⟨trivial, fun it after returned => by cases returned⟩
      | some entry =>
          simp only [BCacheFSReader.iterator, slot, loaded, ok_bind]
          have rooted : ∀ cursor address, findBtreeRoot (superblockOf left.image) entry fuel =
              .ok cursor → btreePtrAddress (superblockOf left.image) cursor = .ok address →
              RootAddress (superblockOf left.image) type address :=
            fun cursor address found target =>
              ⟨fuel, field, _, entry, cursor, search, filled, slot, found, target⟩
          have readable {address : Nat} (root : RootAddress (superblockOf left.image) type address) :=
            complete.nodes marked size blockSize address address nodeSize blockSized root
              ReflTransGen.refl
          constructor
          · refine bind_congr_ok fun id read => bind_congr_ok fun cursor found => ?_
            exact BTreeIterator.new_same images type mounted held fun address target =>
              readable (rooted cursor address found target)
          · intro it after returned
            obtain ⟨id, read, returned⟩ := bind_eq_ok.mp returned
            obtain ⟨cursor, found, created⟩ := bind_eq_ok.mp returned
            obtain ⟨address, target⟩ := BTreeIterator.new_target mounted held created
            have root := rooted cursor address found target
            refine ⟨address, root, BTreeIterator.new_extends created, ?_⟩
            apply BTreeIterator.new_inside mounted held ?_ created
            intro other again
            cases target.symm.trans again
            exact ⟨readable root, ReflTransGen.refl⟩

end

/-- Where the image has the superblock and every node below the root of the type, the
output of a whole run depends on the image only, whatever fresh memory holds. -/
theorem walk_same {left right : Env} (images : left.image = right.image) (type : BTreeType)
    (complete : Complete left.image type) (fuel : Nat) :
    walk left fuel type = walk right fuel type := by
  rw [walk, walk, ← reader_same images complete.superblock]
  refine bind_congr_ok fun outcome opened => ?_
  obtain ⟨reader, world⟩ := outcome
  obtain ⟨marked, held, field, search, filled⟩ := reader_opened complete.superblock opened
  obtain ⟨size, blockSize, nodeSize, blockSized⟩ := superblockOf_sizes left.image
  obtain ⟨same, started⟩ :=
    iterator_same images complete marked held search filled nodeSize blockSized
  dsimp only
  rw [← same]
  refine bind_congr_ok fun outcome returned => ?_
  obtain ⟨it, start⟩ := outcome
  obtain ⟨root, rooted, grown, inside⟩ := started it start returned
  have mounted : Mounted reader size blockSize start :=
    ⟨_, grown _ _ held, nodeSize, blockSized⟩
  have readable : ∀ node, ReflTransGen (LinksTo left.image size blockSize) root node →
      ReadsFull left.image node size :=
    fun node path => complete.nodes marked size blockSize root node nodeSize blockSized rooted path
  dsimp only
  rw [walkFrom_same images readable fuel fuel mounted inside]

/-! A finite tree is complete: the flattening meets every node that the scans lead to. -/

section

variable {image node : Bytes} {size blockSize : Nat}

theorem Scanning.rest {keyIterator : BKeyIterator} {bsetIterator : BSetIterator} {keys : List Nat}
    (scanning : Scanning node blockSize keyIterator bsetIterator)
    (scanned : nodeKeys node blockSize = .ok keys) :
    ∃ later, Rest node blockSize keyIterator bsetIterator later ∧ later ⊆ keys := by
  induction scanning with
  | fresh created =>
      obtain ⟨_, same, rest⟩ := nodeKeys_rest scanned
      cases created.symm.trans same
      exact ⟨keys, rest, List.Subset.refl _⟩
  | key _ returned ih =>
      obtain ⟨later, rest, part⟩ := ih
      cases rest with
      | done ended _ => cases returned.symm.trans ended
      | bset ended _ _ _ => cases returned.symm.trans ended
      | key again tail =>
          cases returned.symm.trans again
          exact ⟨_, tail, fun _ member => part (List.mem_cons_of_mem _ member)⟩
  | bset _ ended stepped entered ih =>
      obtain ⟨later, rest, part⟩ := ih
      cases rest with
      | done _ other => cases stepped.symm.trans other
      | bset _ again made tail =>
          cases stepped.symm.trans again
          cases entered.symm.trans made
          exact ⟨later, tail, part⟩
      | key returned _ => cases ended.symm.trans returned
  | finished _ ended stepped ih =>
      obtain ⟨later, rest, part⟩ := ih
      cases rest with
      | done _ again =>
          cases stepped.symm.trans again
          exact ⟨[], Rest.done ended (BSetIterator.next_none stepped), part⟩
      | bset _ other _ _ => cases stepped.symm.trans other
      | key returned _ => cases ended.symm.trans returned

theorem LinksTo.pointer {address next : Nat} {keys : List Nat}
    (linked : LinksTo image size blockSize address next)
    (scanned : nodeKeys (image.window address size) blockSize = .ok keys) :
    ∃ key ∈ keys, ∃ value, BKey.type (image.window address size) key = .ok keyTypeBtreePtrV2 ∧
      getValue (image.window address size) (image.window address size) key = .ok value ∧
      btreePtrAddress (image.window address size) value = .ok next := by
  obtain ⟨_, _, key, _, value, scanning, returned, typed, valued, target⟩ := linked
  obtain ⟨later, rest, part⟩ := scanning.rest scanned
  refine ⟨key, ?_, value, typed, valued, target⟩
  cases rest with
  | done ended _ => cases returned.symm.trans ended
  | bset ended _ _ _ => cases returned.symm.trans ended
  | key again _ =>
      cases returned.symm.trans again
      exact part List.mem_cons_self

theorem flat_readable {treeKeys flat : List TreeKey}
    (expanded : Flattening.Flat (Expands image size blockSize) treeKeys flat) {key : TreeKey}
    {value next reached : Nat} (member : key ∈ treeKeys)
    (typed : BKey.type key.node key.key = .ok keyTypeBtreePtrV2)
    (valued : getValue key.node key.node key.key = .ok value)
    (target : btreePtrAddress key.node value = .ok next)
    (path : ReflTransGen (LinksTo image size blockSize) next reached) :
    reached + size ≤ image.size := by
  induction expanded generalizing key value next with
  | done => exact absurd member List.not_mem_nil
  | keep plain _ ih =>
      rcases List.mem_cons.mp member with rfl | later
      · cases plain with
        | plain other notPointer =>
            cases typed.symm.trans other
            exact absurd rfl notPointer
      · exact ih later typed valued target path
  | enter pointer _ _ ihInner ihLater =>
      rcases List.mem_cons.mp member with rfl | later
      · cases pointer with
        | pointer _ again same readable scanned =>
            cases valued.symm.trans again
            cases target.symm.trans same
            rcases path.cases_head with rfl | ⟨_, linked, further⟩
            · exact readable
            · obtain ⟨below, found, _, belowTyped, belowValued, belowTarget⟩ := linked.pointer scanned
              exact ihInner (List.mem_map_of_mem found) belowTyped belowValued belowTarget further
      · exact ihLater later typed valued target path

theorem Tree.readable {root reached : Nat} {flat : List TreeKey}
    (tree : Tree image size blockSize root flat)
    (path : ReflTransGen (LinksTo image size blockSize) root reached) :
    reached + size ≤ image.size := by
  obtain ⟨readable, keys, scanned, expanded⟩ := tree
  rcases path.cases_head with rfl | ⟨_, linked, further⟩
  · exact readable
  · obtain ⟨key, found, value, typed, valued, target⟩ := linked.pointer scanned
    exact flat_readable expanded (List.mem_map_of_mem found) typed valued target further

end

def sectorImage (size : Nat) : Bytes := Bytes.ofCells size (magicCells ++
  [(4216, 1), (4220, 15), (4241, 16), (4848, 15), (4852, 6), (4872, 11), (4874, 2), (4876, 1),
   (4880, 11), (4960, 160), (5278, 11), (5280, 11), (5281, 1), (5282, 18), (5360, 176),
   (5790, 7), (5792, 7), (5793, 1), (5794, 10)])

def cleanEnv (size : Nat) : Env := { image := sectorImage size, junk := fun _ _ => 0 }

def dirtyEnv (size : Nat) : Env where
  image := sectorImage size
  junk _ index := ([(158, 7), (160, 7), (161, 1), (162, 10)].lookup index).getD 0

theorem walk_junk_sample : (cleanEnv 5790).image = (dirtyEnv 5790).image ∧
    (∃ ptr, walk (cleanEnv 5790) 9 .dirents = .ok (ptr, [])) ∧
    ∃ ptr key buffer entry ext, walk (dirtyEnv 5790) 9 .dirents =
      .ok (ptr, [⟨key, buffer, entry, ext⟩]) :=
  ⟨rfl, ⟨_, rfl⟩, _, _, _, _, _, rfl⟩

theorem sectorTree : Tree (sectorImage 6144) 512 512 5120
    [⟨1, (sectorImage 6144).window 5632 512, 160⟩] := by
  have root : OnePointer ((sectorImage 6144).window 5120 512) 512 160 200 5632 :=
    ⟨⟨by decide, rfl⟩, by decide, by decide⟩
  have leaf : OneKey ((sectorImage 6144).window 5632 512) 512 160 keyTypeDirent :=
    ⟨by decide, rfl⟩
  exact root.tree leaf (by decide) (by decide) (by decide)

theorem sectorRoot {address : Nat}
    (root : RootAddress (superblockOf (sectorImage 6144)) .dirents address) : address = 5120 := by
  obtain ⟨fuel, field, table, entry, cursor, search, filled, slot, found, target⟩ := root
  rcases fuel with _ | fuel
  · cases search
  · have clean : findSuperblockField (superblockOf (sectorImage 6144)) sbFieldClean (fuel + 1) =
        .ok (some 752) := rfl
    cases search.symm.trans clean
    have roots : findJournalEntries (superblockOf (sectorImage 6144)) 752 =
        .ok [none, none, some 776, none, none, none, none, none] := by decide
    cases filled.symm.trans roots
    cases slot
    have first : findBtreeRoot (superblockOf (sectorImage 6144)) 776 (fuel + 1) = .ok 824 := rfl
    cases found.symm.trans first
    have sector : btreePtrAddress (superblockOf (sectorImage 6144)) 824 = .ok 5120 := by
      decide
    cases target.symm.trans sector
    rfl

theorem sectorComplete : Complete (sectorImage 6144) .dirents where
  superblock := ⟨by unfold ReadsFull; decide, fun _ => by unfold ReadsFull; decide⟩
  nodes _ size blockSize root node nodeSize blockSized rooted path := by
    have sector : btreeNodeSize (superblockOf (sectorImage 6144)) = .ok 512 := rfl
    have block : btreeBlockSize (superblockOf (sectorImage 6144)) = .ok 512 := rfl
    cases nodeSize.symm.trans sector
    cases blockSized.symm.trans block
    cases sectorRoot rooted
    exact Nat.le_sub_of_add_le' (sectorTree.readable path)

theorem walk_same_sample : walk (cleanEnv 6144) 9 .dirents = walk (dirtyEnv 6144) 9 .dirents :=
  @walk_same (cleanEnv 6144) (dirtyEnv 6144) rfl .dirents sectorComplete 9

end Bcachefs
