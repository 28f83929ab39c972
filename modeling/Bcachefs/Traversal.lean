import Bcachefs.TreeScan

/-! `next_key` returns the depth-first flattening of the tree, from any state of
the chain of suspended iterators. -/

namespace Bcachefs

open ByteString Iteration Flattening

theorem btreePtrAddress_lt {node : Bytes} {value address : Nat}
    (target : btreePtrAddress node value = .ok address) : address < 2 ^ 53 := by
  obtain ⟨offset, read, rest⟩ := bind_eq_ok.mp target
  obtain ⟨word, _, sectors⟩ := bind_eq_ok.mp read
  cases sectors
  cases rest
  have bound : word / 2 ^ 4 % 2 ^ 44 < 2 ^ 44 := Nat.mod_lt _ (by decide)
  dsimp only [sectorSize]
  omega

structure TreeKey where
  depth : Nat
  node : Bytes
  key : Nat

def World.view (world : World) (ptr : Ptr) : Option (Bytes × Nat) :=
  world.heap[ptr.block]?.map fun node => (node, ptr.offset)

theorem World.view_some {world : World} {ptr : Ptr} {node : Bytes} {offset : Nat} :
    world.view ptr = some (node, offset) ↔
      world.heap[ptr.block]? = some node ∧ ptr.offset = offset := by
  unfold view
  cases world.heap[ptr.block]? with
  | none => simp
  | some held => simp

/-- A `btree_ptr_v2` key stands for the keys of the node it points to, which must
lie inside the image. -/
inductive Expands (image : Bytes) (size blockSize : Nat) :
    TreeKey → Option (List TreeKey) → Prop
  | plain {key type} : BKey.type key.node key.key = .ok type → type ≠ keyTypeBtreePtrV2 →
      Expands image size blockSize key none
  | pointer {key value address keys} : BKey.type key.node key.key = .ok keyTypeBtreePtrV2 →
      getValue key.node key.node key.key = .ok value →
      btreePtrAddress key.node value = .ok address → address + size ≤ image.size →
      nodeKeys (image.window address size) blockSize = .ok keys →
      Expands image size blockSize key
        (some (keys.map (TreeKey.mk (key.depth + 1) (image.window address size))))

/-- The flattening of the tree whose root node is at `address`. It exists when the
tree is finite and all its nodes can be read in full. -/
def Tree (image : Bytes) (size blockSize address : Nat) (flat : List TreeKey) : Prop :=
  address + size ≤ image.size ∧
    ∃ keys, nodeKeys (image.window address size) blockSize = .ok keys ∧
      Flat (Expands image size blockSize)
        (keys.map (TreeKey.mk 0 (image.window address size))) flat

theorem Expands.unique {image : Bytes} {size blockSize : Nat} {key : TreeKey} {left right : Option (List TreeKey)}
    (first : Expands image size blockSize key left)
    (second : Expands image size blockSize key right) : left = right := by
  cases first with
  | plain typed other =>
      cases second with
      | plain _ _ => rfl
      | pointer again _ _ _ _ => exact absurd (Except.ok.inj (typed.symm.trans again)) other
  | pointer typed valued target _ scanned =>
      cases second with
      | plain again other => exact absurd (Except.ok.inj (again.symm.trans typed)) other
      | pointer _ valuedAgain targetAgain _ scannedAgain =>
          cases valued.symm.trans valuedAgain
          cases target.symm.trans targetAgain
          cases scanned.symm.trans scannedAgain
          rfl

theorem Tree.unique {image : Bytes} {size blockSize address : Nat} {leftKeys rightKeys : List TreeKey}
    (first : Tree image size blockSize address leftKeys)
    (second : Tree image size blockSize address rightKeys) : leftKeys = rightKeys := by
  rcases first with ⟨_, keys, scanned, flat⟩
  rcases second with ⟨_, others, again, flatAgain⟩
  cases scanned.symm.trans again
  exact flat.unique (fun _ _ _ left right => left.unique right) flatAgain

inductive Chain : BTreeIterator → Nat → BTreeIterator → Prop
  | deepest {it : BTreeIterator} : it.children = [] → Chain it 0 it
  | child {it child last : BTreeIterator} {depth : Nat} : it.children = [child] →
      Chain child depth last → Chain it (depth + 1) last

structure Mounted (reader : BCacheFSReader) (size blockSize : Nat) (world : World) : Prop where
  superblock : ∃ sb, world.heap[reader.sblock]? = some sb ∧ btreeNodeSize sb = .ok size ∧
    btreeBlockSize sb = .ok blockSize

theorem Mounted.extends {reader : BCacheFSReader} {size blockSize : Nat} {world next : World}
    (mounted : Mounted reader size blockSize world) (grown : world.Extends next) :
    Mounted reader size blockSize next := by
  obtain ⟨sb, found, sizes⟩ := mounted.superblock
  exact ⟨sb, grown _ _ found, sizes⟩

section

variable {env : Env} {reader : BCacheFSReader} {size blockSize : Nat}

inductive Remaining (image : Bytes) (size blockSize : Nat) (world : World) :
    Nat → BTreeIterator → List TreeKey → Prop
  | own {depth it node keys flat} : it.children = [] → world.heap[it.iter]? = some node →
      Rest node blockSize it.keyIterator it.bsetIterator keys →
      Flat (Expands image size blockSize) (keys.map (TreeKey.mk depth node)) flat →
      Remaining image size blockSize world depth it flat
  | inner {depth it child node keys innerFlat flat} : it.children = [child] →
      Remaining image size blockSize world (depth + 1) child innerFlat →
      world.heap[it.iter]? = some node →
      Rest node blockSize it.keyIterator it.bsetIterator keys →
      Flat (Expands image size blockSize) (keys.map (TreeKey.mk depth node)) flat →
      Remaining image size blockSize world depth it (innerFlat ++ flat)

theorem Remaining.extends {image : Bytes} {world next : World} {depth : Nat} {it : BTreeIterator}
    {flat : List TreeKey} (remaining : Remaining image size blockSize world depth it flat)
    (grown : world.Extends next) : Remaining image size blockSize next depth it flat := by
  induction remaining with
  | own childless held rest expanded => exact .own childless (grown _ _ held) rest expanded
  | inner single _ held rest expanded ih => exact .inner single ih (grown _ _ held) rest expanded

def Delivered (image : Bytes) (size blockSize : Nat) (next : World) (depth : Nat)
    (after : BTreeIterator) (result : Option Ptr) : List TreeKey → Prop
  | [] => result = none ∧ Remaining image size blockSize next depth after []
  | key :: flat => ∃ ptr levels last, result = some ptr ∧
      next.view ptr = some (key.node, key.key) ∧
      Remaining image size blockSize next depth after flat ∧
      Chain after levels last ∧ ptr.block = last.iter ∧ key.depth = depth + levels

theorem Rest.advance (env : Env) {node : Bytes} {world : World} {it : BTreeIterator} {key : Nat}
    {keys : List Nat} (rest : Rest node blockSize it.keyIterator it.bsetIterator (key :: keys))
    (mounted : Mounted reader size blockSize world) (childless : it.children = [])
    (held : world.heap[it.iter]? = some node) :
    ∃ (paused : BTreeIterator) (after : BKeyIterator),
      paused.children = [] ∧ paused.iter = it.iter ∧
      paused.keyIterator.next node = .ok (some key, after) ∧
      Rest node blockSize after paused.bsetIterator keys ∧
      ∀ result final next, Returned env reader paused world result final next →
        Returned env reader it world result final next := by
  generalize keyEq : it.keyIterator = keyIterator at rest
  generalize bsetEq : it.bsetIterator = bsetIterator at rest
  generalize allEq : key :: keys = all at rest
  induction rest generalizing it with
  | done _ _ => cases allEq
  | key returned tail _ =>
      cases allEq
      subst keyEq bsetEq
      exact ⟨it, _, childless, rfl, returned, tail, fun _ _ _ derivation => derivation⟩
  | @bset _ _ _ bsetAfter _ entered _ finished stepped created _ ih =>
      subst keyEq bsetEq
      obtain ⟨sb, superblock, _, sized⟩ := mounted.superblock
      have moved := @ih { it with keyIterator := entered, bsetIterator := bsetAfter }
        childless held rfl rfl allEq
      obtain ⟨paused, after, pausedChildless, same, returned, tail, lift⟩ := moved
      exact ⟨paused, after, pausedChildless, same, returned, tail, fun _ _ _ derivation =>
        Returned.advanced childless held finished superblock sized stepped created
          (lift _ _ _ derivation)⟩

theorem Rest.exhaust (env : Env) {node : Bytes} {world : World} {it : BTreeIterator}
    (rest : Rest node blockSize it.keyIterator it.bsetIterator [])
    (mounted : Mounted reader size blockSize world) (childless : it.children = [])
    (held : world.heap[it.iter]? = some node) :
    ∃ after : BTreeIterator, after.children = [] ∧ after.iter = it.iter ∧
      Rest node blockSize after.keyIterator after.bsetIterator [] ∧
      Returned env reader it world none after world := by
  generalize keyEq : it.keyIterator = keyIterator at rest
  generalize bsetEq : it.bsetIterator = bsetIterator at rest
  generalize allEq : ([] : List Nat) = all at rest
  obtain ⟨sb, superblock, _, sized⟩ := mounted.superblock
  induction rest generalizing it with
  | @done _ _ _ bsetAfter finished stepped =>
      subst keyEq bsetEq
      exact ⟨{ it with bsetIterator := bsetAfter }, childless, rfl,
        Rest.done finished (BSetIterator.next_none stepped),
        Returned.finished childless held finished superblock sized stepped⟩
  | key _ _ _ => cases allEq
  | @bset _ _ _ bsetAfter _ entered _ finished stepped created _ ih =>
      subst keyEq bsetEq
      have moved := @ih { it with keyIterator := entered, bsetIterator := bsetAfter }
        childless held rfl rfl allEq
      obtain ⟨after, afterChildless, same, tail, derivation⟩ := moved
      exact ⟨after, afterChildless, same, tail,
        Returned.advanced childless held finished superblock sized stepped created derivation⟩

theorem new_child {world : World} {node : Bytes} {block value address : Nat} {keys : List Nat}
    (type : BTreeType) (mounted : Mounted reader size blockSize world)
    (held : world.heap[block]? = some node) (target : btreePtrAddress node value = .ok address)
    (scanned : nodeKeys (loadedNode env world.heap.length address size) blockSize = .ok keys) :
    ∃ child next, BTreeIterator.new env reader ⟨block, value⟩ type world = .ok (child, next) ∧
      child.children = [] ∧ next.heap[child.iter]? =
        some (loadedNode env world.heap.length address size) ∧
      Rest (loadedNode env world.heap.length address size) blockSize child.keyIterator
        child.bsetIterator keys := by
  obtain ⟨sb, superblock, nodeSize, _⟩ := mounted.superblock
  obtain ⟨bsetIterator, created, rest⟩ := nodeKeys_rest scanned
  have loaded : BTreeIterator.new env reader ⟨block, value⟩ type world = _ :=
    BTreeIterator.new_ok superblock nodeSize held target created
  exact ⟨_, _, loaded, rfl, List.getElem?_concat_length, rest⟩

theorem new_child_full {world : World} {node : Bytes} {block value address : Nat}
    {keys : List Nat} (type : BTreeType) (mounted : Mounted reader size blockSize world)
    (held : world.heap[block]? = some node) (target : btreePtrAddress node value = .ok address)
    (readable : address + size ≤ env.image.size)
    (scanned : nodeKeys (env.image.window address size) blockSize = .ok keys) :
    ∃ child next, BTreeIterator.new env reader ⟨block, value⟩ type world = .ok (child, next) ∧
      child.children = [] ∧ next.heap[child.iter]? = some (env.image.window address size) ∧
      Rest (env.image.window address size) blockSize child.keyIterator child.bsetIterator keys := by
  have full : loadedNode env world.heap.length address size = env.image.window address size :=
    loadedNode_full (by omega)
  rw [← full] at scanned ⊢
  exact new_child type mounted held target scanned

theorem own_delivered {expandedKeys flat : List TreeKey}
    (expanded : Flat (Expands env.image size blockSize) expandedKeys flat)
    {world : World} {depth : Nat} {it : BTreeIterator} {node : Bytes} {keys : List Nat}
    (own : expandedKeys = keys.map (TreeKey.mk depth node))
    (mounted : Mounted reader size blockSize world) (childless : it.children = [])
    (held : world.heap[it.iter]? = some node)
    (rest : Rest node blockSize it.keyIterator it.bsetIterator keys) :
    ∃ result after next, Returned env reader it world result after next ∧
      Delivered env.image size blockSize next depth after result flat := by
  -- a child's calls are covered by the hypothesis for the flattening of its own keys
  induction expanded generalizing world depth it node keys with
  | done =>
      have empty : keys = [] := by simpa using own.symm
      subst empty
      obtain ⟨after, afterChildless, same, tail, derivation⟩ := rest.exhaust env mounted childless held
      exact ⟨_, _, _, derivation, rfl,
        Remaining.own afterChildless (same ▸ held) tail Flat.done⟩
  | keep plain later _ =>
      cases keys with
      | nil => cases own
      | cons key keys =>
          cases own
          cases plain with
          | plain typed plain =>
              obtain ⟨paused, after, pausedChildless, same, returned, tail, lift⟩ :=
                rest.advance env mounted childless held
              have pausedHeld : world.heap[paused.iter]? = some node := same ▸ held
              have called := lift _ _ _
                (Returned.key pausedChildless pausedHeld returned typed plain)
              refine ⟨_, _, _, called, _, 0, _, rfl, ?_,
                Remaining.own pausedChildless pausedHeld tail later,
                Chain.deepest pausedChildless, rfl, rfl⟩
              simp [World.view, pausedHeld]
  | @enter _ _ _ innerKeys _ pointer _ later ihInner ihLater =>
      cases keys with
      | nil => cases own
      | cons key keys =>
          cases own
          cases pointer with
          | pointer typed valued target readable scanned =>
              obtain ⟨paused, after, pausedChildless, same, returned, tail, lift⟩ :=
                rest.advance env mounted childless held
              have pausedHeld : world.heap[paused.iter]? = some node := same ▸ held
              obtain ⟨child, middle, created, fresh, loaded, childRest⟩ :=
                new_child_full paused.type mounted pausedHeld target readable scanned
              have grown := BTreeIterator.new_extends created
              obtain ⟨result, childAfter, next, inner, delivered⟩ :=
                ihInner rfl (mounted.extends grown) fresh loaded childRest
              have stillHeld := inner.grows _ _ (grown _ _ pausedHeld)
              cases innerKeys with
              | nil =>
                  obtain ⟨rfl, _⟩ := delivered
                  obtain ⟨later, final, last, derivation, laterDelivered⟩ :=
                    @ihLater next depth { paused with keyIterator := after, children := [] } node keys
                      rfl ((mounted.extends grown).extends inner.grows) rfl stillHeld tail
                  refine ⟨later, final, last, ?_, laterDelivered⟩
                  exact lift _ _ _ (Returned.entered pausedChildless pausedHeld returned typed valued
                    created (Returned.popped rfl inner derivation))
              | cons first others =>
                  obtain ⟨ptr, levels, last, rfl, shown, remaining, chain, block, deep⟩ := delivered
                  refine ⟨some ptr, { paused with keyIterator := after, children := [childAfter] },
                    next, ?_, ptr, levels + 1, last, rfl, shown, ?_,
                    Chain.child rfl chain, block, ?_⟩
                  · exact lift _ _ _ (Returned.entered pausedChildless pausedHeld returned typed
                      valued created (Returned.passed rfl inner))
                  · exact Remaining.inner rfl remaining stillHeld tail later
                  · dsimp only at deep
                    omega

theorem nextKey_delivered (env : Env) {world : World} {depth : Nat} {it : BTreeIterator}
    {flat : List TreeKey} (mounted : Mounted reader size blockSize world)
    (remaining : Remaining env.image size blockSize world depth it flat) :
    ∃ result after next, Returned env reader it world result after next ∧
      Delivered env.image size blockSize next depth after result flat := by
  induction remaining with
  | own childless held rest expanded => exact own_delivered expanded rfl mounted childless held rest
  | @inner depth it child node keys innerFlat flat single _ held rest expanded ih =>
      obtain ⟨result, childAfter, next, inner, delivered⟩ := ih
      have last : it.children.getLast? = some child := by simp [single]
      have popped : it.children.dropLast = [] := by simp [single]
      have stillHeld := inner.grows _ _ held
      cases innerFlat with
      | nil =>
          obtain ⟨rfl, _⟩ := delivered
          obtain ⟨later, final, last', derivation, laterDelivered⟩ :=
            @own_delivered env reader size blockSize _ _ expanded next depth
              { it with children := it.children.dropLast } node keys rfl
              (mounted.extends inner.grows) popped stillHeld rest
          exact ⟨later, final, last', Returned.popped last inner derivation, laterDelivered⟩
      | cons first others =>
          obtain ⟨ptr, levels, deepest, rfl, shown, remaining, chain, block, deep⟩ := delivered
          have children : it.children.dropLast ++ [childAfter] = [childAfter] := by simp [popped]
          refine ⟨some ptr, _, next, Returned.passed last inner, ptr, levels + 1, deepest, rfl, shown,
            Remaining.inner children remaining stillHeld rest expanded,
            Chain.child children chain, block, by omega⟩

def Returns (env : Env) (reader : BCacheFSReader) (before : BTreeIterator × World)
    (result : Option Ptr) (after : BTreeIterator × World) : Prop :=
  ∃ fuel, BTreeIterator.nextKey env reader fuel before.1 before.2 = .ok (result, after.1, after.2)

theorem Returns.returned {before after : BTreeIterator × World} {result : Option Ptr}
    (returns : Returns env reader before result after) :
    Returned env reader before.1 before.2 result after.1 after.2 :=
  BTreeIterator.nextKey_iff.mp returns

theorem Returned.returns {it after : BTreeIterator} {world next : World} {result : Option Ptr}
    (returned : Returned env reader it world result after next) :
    Returns env reader (it, world) result (after, next) :=
  BTreeIterator.nextKey_iff.mpr returned

def Shows (world : World) : Option Ptr → Option TreeKey → Prop
  | none, none => True
  | some ptr, some key => world.view ptr = some (key.node, key.key)
  | _, _ => False

theorem Delivered.shows {image : Bytes} {next : World} {depth : Nat} {after : BTreeIterator}
    {result : Option Ptr} {flat : List TreeKey}
    (delivered : Delivered image size blockSize next depth after result flat) :
    Shows next result flat.head? ∧ Remaining image size blockSize next depth after flat.tail := by
  cases flat with
  | nil =>
      obtain ⟨rfl, remaining⟩ := delivered
      exact ⟨trivial, remaining⟩
  | cons key flat =>
      obtain ⟨ptr, _, _, rfl, shown, remaining, _⟩ := delivered
      exact ⟨shown, remaining⟩

theorem Delivered.placed {image : Bytes} {next : World} {depth : Nat} {after : BTreeIterator}
    {ptr : Ptr} {flat : List TreeKey}
    (delivered : Delivered image size blockSize next depth after (some ptr) flat) :
    ∃ key levels deepest, flat.head? = some key ∧ Chain after levels deepest ∧
      ptr.block = deepest.iter ∧ key.depth = depth + levels := by
  cases flat with
  | nil => cases delivered.1
  | cons key flat =>
      obtain ⟨returned, levels, deepest, same, _, _, chain, block, deep⟩ := delivered
      cases same
      exact ⟨key, levels, deepest, rfl, chain, block, deep⟩

theorem Remaining.chain {image : Bytes} {world : World} {depth : Nat} {it : BTreeIterator}
    {flat : List TreeKey} (remaining : Remaining image size blockSize world depth it flat) :
    ∃ levels deepest, Chain it levels deepest := by
  induction remaining with
  | own childless _ _ _ => exact ⟨0, _, Chain.deepest childless⟩
  | inner single _ _ _ _ ih =>
      obtain ⟨levels, deepest, chain⟩ := ih
      exact ⟨levels + 1, deepest, Chain.child single chain⟩

theorem returns_delivered {depth : Nat} {before after : BTreeIterator × World}
    {result : Option Ptr} {flat : List TreeKey} (mounted : Mounted reader size blockSize before.2)
    (remaining : Remaining env.image size blockSize before.2 depth before.1 flat)
    (returned : Returns env reader before result after) :
    Delivered env.image size blockSize after.2 depth after.1 result flat := by
  obtain ⟨expected, final, next, derivation, delivered⟩ := nextKey_delivered env mounted remaining
  obtain ⟨rfl, rfl, rfl⟩ := returned.returned.unique derivation
  exact delivered

theorem calls_remaining {depth : Nat} {first last : BTreeIterator × World}
    {results : List (Option Ptr)} {flat : List TreeKey}
    (calls : Calls (Returns env reader) first results last)
    (mounted : Mounted reader size blockSize first.2)
    (remaining : Remaining env.image size blockSize first.2 depth first.1 flat) :
    Mounted reader size blockSize last.2 ∧
      Remaining env.image size blockSize last.2 depth last.1 (flat.drop results.length) := by
  induction calls generalizing flat with
  | start _ => exact ⟨mounted, remaining⟩
  | call returned _ ih =>
      have delivered := returns_delivered mounted remaining returned
      have left := ih (mounted.extends returned.returned.grows) delivered.shows.2
      simpa [List.drop_drop, List.drop_one, Nat.add_comm] using left

theorem new_remaining {world : World} {source : Bytes} {ptr : Ptr} {address : Nat}
    {flat : List TreeKey} (type : BTreeType) (mounted : Mounted reader size blockSize world)
    (pointed : world.heap[ptr.block]? = some source)
    (target : btreePtrAddress source ptr.offset = .ok address)
    (tree : Tree env.image size blockSize address flat) :
    ∃ it start, BTreeIterator.new env reader ptr type world = .ok (it, start) ∧
      Mounted reader size blockSize start ∧
      Remaining env.image size blockSize start 0 it flat := by
  obtain ⟨readable, keys, scanned, expanded⟩ := tree
  obtain ⟨it, start, created, childless, loaded, rest⟩ :=
    new_child_full type mounted pointed target readable scanned
  exact ⟨it, start, created, mounted.extends (BTreeIterator.new_extends created),
    Remaining.own childless loaded rest expanded⟩

theorem fresh_delivered {world start : World} {source : Bytes} {ptr : Ptr} {address : Nat}
    {flat : List TreeKey} {type : BTreeType} {it : BTreeIterator} {results : List (Option Ptr)}
    {before after : BTreeIterator × World} {result : Option Ptr}
    (mounted : Mounted reader size blockSize world)
    (pointed : world.heap[ptr.block]? = some source)
    (target : btreePtrAddress source ptr.offset = .ok address)
    (tree : Tree env.image size blockSize address flat)
    (created : BTreeIterator.new env reader ptr type world = .ok (it, start))
    (calls : Calls (Returns env reader) (it, start) results before)
    (returned : Returns env reader before result after) :
    Delivered env.image size blockSize after.2 0 after.1 result (flat.drop results.length) := by
  obtain ⟨_, _, made, started, remaining⟩ := new_remaining type mounted pointed target tree
  cases created.symm.trans made
  obtain ⟨beforeMounted, left⟩ := calls_remaining calls started remaining
  exact returns_delivered beforeMounted left returned

/-- On a fresh iterator over a finite tree every call of `next_key` returns, the
call after `n` others shows the `n`-th key of the flattening or, behind its end, is
null; the chain never branches and a returned key lies in its deepest node. -/
theorem nextKey_depthFirst {world : World} {source : Bytes} {ptr : Ptr} {address : Nat}
    {flat : List TreeKey} (type : BTreeType) (mounted : Mounted reader size blockSize world)
    (pointed : world.heap[ptr.block]? = some source)
    (target : btreePtrAddress source ptr.offset = .ok address)
    (tree : Tree env.image size blockSize address flat) :
    ∃ it start, BTreeIterator.new env reader ptr type world = .ok (it, start) ∧
      ∀ results before, Calls (Returns env reader) (it, start) results before →
        (∃ levels deepest, Chain before.1 levels deepest) ∧
        (∃ result after, Returns env reader before result after) ∧
        ∀ result after, Returns env reader before result after →
          Shows after.2 result flat[results.length]? ∧
          ∀ key, result = some key →
            ∃ levels deepest, Chain after.1 levels deepest ∧ key.block = deepest.iter := by
  obtain ⟨it, start, created, started, remaining⟩ :=
    new_remaining type mounted pointed target tree
  refine ⟨it, start, created, ?_⟩
  intro results before calls
  obtain ⟨beforeMounted, left⟩ := calls_remaining calls started remaining
  refine ⟨left.chain, ?_, ?_⟩
  · obtain ⟨result, after, next, derivation, _⟩ := nextKey_delivered env beforeMounted left
    exact ⟨result, (after, next), derivation.returns⟩
  · intro result after returned
    have delivered := returns_delivered beforeMounted left returned
    refine ⟨by simpa [List.head?_drop] using delivered.shows.1, ?_⟩
    rintro key rfl
    obtain ⟨_, levels, deepest, _, chain, block, _⟩ := delivered.placed
    exact ⟨levels, deepest, chain, block⟩

end

/-! Small nodes: the trees of the examples are made of them. -/

structure OneKey (node : Bytes) (blockSize key type : Nat) : Prop where
  scanned : nodeKeys node blockSize = .ok [key]
  typed : BKey.type node key = .ok type

structure OnePointer (node : Bytes) (blockSize key value next : Nat) : Prop
    extends OneKey node blockSize key keyTypeBtreePtrV2 where
  valued : getValue node node key = .ok value
  target : btreePtrAddress node value = .ok next

theorem OnePointer.tree {image : Bytes} {size blockSize address key value next leafKey type : Nat}
    (root : OnePointer (image.window address size) blockSize key value next)
    (leaf : OneKey (image.window next size) blockSize leafKey type)
    (plain : type ≠ keyTypeBtreePtrV2) (readable : address + size ≤ image.size)
    (below : next + size ≤ image.size) :
    Tree image size blockSize address [⟨1, image.window next size, leafKey⟩] := by
  have kept : Expands image size blockSize ⟨1, image.window next size, leafKey⟩ none :=
    Expands.plain leaf.typed plain
  have entered : Expands image size blockSize ⟨0, image.window address size, key⟩
      (some [⟨1, image.window next size, leafKey⟩]) :=
    Expands.pointer root.typed root.valued root.target below leaf.scanned
  exact ⟨readable, [key], root.scanned, Flat.enter entered (Flat.keep kept Flat.done) Flat.done⟩

def sampleSuperblock : Bytes := Bytes.ofCells 760 [(120, 1), (145, 16), (752, 16)]

def sampleReader : BCacheFSReader := { sblock := 0, btreeRoots := [] }

def sampleRoot : Ptr := { block := 0, offset := 712 }

def sampleWorld : World := { heap := [sampleSuperblock], position := 0 }

def sampleImage : Bytes := Bytes.ofCells 1536
  [(670, 11), (672, 11), (673, 1), (674, 18), (752, 32),
   (1182, 7), (1184, 7), (1185, 1), (1186, 10)]

def sampleEnv : Env := { image := sampleImage, junk := fun _ _ => 0 }

def sampleLeafKey : TreeKey := { depth := 1, node := sampleImage.window 1024 512, key := 160 }

theorem sampleMounted : Mounted sampleReader 512 512 sampleWorld :=
  ⟨sampleSuperblock, rfl, rfl, rfl⟩

theorem samplePointed : sampleWorld.heap[sampleRoot.block]? = some sampleSuperblock := rfl

theorem sampleTarget : btreePtrAddress sampleSuperblock sampleRoot.offset = .ok 512 := by
  decide

theorem sampleRootNode : OnePointer (sampleImage.window 512 512) 512 160 200 1024 :=
  ⟨⟨by decide, rfl⟩, rfl, rfl⟩

theorem sampleLeafNode : OneKey (sampleImage.window 1024 512) 512 160 keyTypeDirent :=
  ⟨by decide, rfl⟩

theorem sampleTree : Tree sampleEnv.image 512 512 512 [sampleLeafKey] :=
  sampleRootNode.tree sampleLeafNode (by decide) (by decide) (by decide)

structure LeafNode (image : Bytes) (size blockSize address type : Nat) (keys : List Nat) :
    Prop where
  readable : address + size ≤ image.size
  scanned : nodeKeys (image.window address size) blockSize = .ok keys
  typed : ∀ key ∈ keys, BKey.type (image.window address size) key = .ok type
  plain : type ≠ keyTypeBtreePtrV2

theorem LeafNode.flat {image : Bytes} {size blockSize address type : Nat} {keys : List Nat}
    (leaf : LeafNode image size blockSize address type keys) (depth : Nat) :
    Flat (Expands image size blockSize) (keys.map (TreeKey.mk depth (image.window address size)))
      (keys.map (TreeKey.mk depth (image.window address size))) := by
  apply Flat.unchanged
  intro key member
  rcases List.mem_map.mp member with ⟨offset, listed, rfl⟩
  exact Expands.plain (leaf.typed offset listed) leaf.plain

theorem LeafNode.expands {image : Bytes} {size blockSize address type value : Nat}
    {keys : List Nat} {pointer : TreeKey} (leaf : LeafNode image size blockSize address type keys)
    (typed : BKey.type pointer.node pointer.key = .ok keyTypeBtreePtrV2)
    (valued : getValue pointer.node pointer.node pointer.key = .ok value)
    (target : btreePtrAddress pointer.node value = .ok address) :
    Expands image size blockSize pointer
      (some (keys.map (TreeKey.mk (pointer.depth + 1) (image.window address size)))) :=
  Expands.pointer typed valued target leaf.readable leaf.scanned

/-- In sector 1 a root with two pointers, to the leaves in sectors 2 and 3 with two
dirents each; in sector 4 a second tree, one node with two extents. -/
def forestImage : Bytes := Bytes.ofCells 2560
  [(670, 22), (672, 11), (673, 1), (674, 18), (696, 5), (704, 1), (752, 32),
   (760, 11), (761, 1), (762, 18), (784, 4), (792, 2), (824, 6), (832, 1), (840, 48),
   (1182, 14), (1184, 7), (1185, 1), (1186, 10), (1208, 3), (1216, 1), (1233, 97),
   (1240, 7), (1241, 1), (1242, 10), (1264, 5), (1272, 1), (1289, 98),
   (1694, 14), (1696, 7), (1697, 1), (1698, 10), (1720, 7), (1728, 1), (1745, 99),
   (1752, 7), (1753, 1), (1754, 10), (1776, 4), (1784, 2), (1801, 100),
   (2206, 12), (2208, 6), (2209, 1), (2210, 6), (2224, 8), (2232, 8), (2240, 7),
   (2256, 6), (2257, 1), (2258, 6), (2272, 8), (2280, 16), (2288, 7)]

def forestEnv : Env := { image := forestImage, junk := fun _ _ => 255 }

def forestSuperblock : Bytes := Bytes.ofCells 856 [(120, 1), (145, 16), (752, 16), (848, 64)]

def forestWorld : World := { heap := [forestSuperblock], position := 0 }

def forestNode (sector : Nat) : Bytes := forestImage.window (sector * sectorSize) 512

def forestKeys : List TreeKey :=
  [⟨1, forestNode 2, 160⟩, ⟨1, forestNode 2, 216⟩, ⟨1, forestNode 3, 160⟩, ⟨1, forestNode 3, 216⟩]

theorem forestMounted : Mounted sampleReader 512 512 forestWorld :=
  ⟨forestSuperblock, rfl, rfl, rfl⟩

theorem forestPointed : forestWorld.heap[sampleRoot.block]? = some forestSuperblock := rfl

theorem forestTarget : btreePtrAddress forestSuperblock sampleRoot.offset = .ok 512 := by decide

theorem forestRoot : nodeKeys (forestNode 1) 512 = .ok [160, 248] := by decide +kernel

theorem forestLeft : LeafNode forestImage 512 512 1024 keyTypeDirent [160, 216] :=
  ⟨by decide, by decide +kernel, by decide +kernel, by decide⟩

theorem forestRight : LeafNode forestImage 512 512 1536 keyTypeDirent [160, 216] :=
  ⟨by decide, by decide +kernel, by decide +kernel, by decide⟩

theorem forestLeftExpands : Expands forestImage 512 512 ⟨0, forestNode 1, 160⟩
    (some [⟨1, forestNode 2, 160⟩, ⟨1, forestNode 2, 216⟩]) := by
  apply @LeafNode.expands forestImage 512 512 1024 keyTypeDirent 200 _ ⟨0, forestNode 1, 160⟩
    forestLeft <;> decide +kernel

theorem forestRightExpands : Expands forestImage 512 512 ⟨0, forestNode 1, 248⟩
    (some [⟨1, forestNode 3, 160⟩, ⟨1, forestNode 3, 216⟩]) := by
  apply @LeafNode.expands forestImage 512 512 1536 keyTypeDirent 288 _ ⟨0, forestNode 1, 248⟩
    forestRight <;> decide +kernel

theorem forestTree : Tree forestEnv.image 512 512 512 forestKeys :=
  ⟨by decide, [160, 248], forestRoot, Flat.enter forestLeftExpands (forestLeft.flat 1)
    (Flat.enter forestRightExpands (forestRight.flat 1) Flat.done)⟩

theorem nextKey_depthFirst_sample :
    ∃ it start, BTreeIterator.new forestEnv sampleReader sampleRoot .dirents forestWorld =
        .ok (it, start) ∧
      ∀ results before, Calls (Returns forestEnv sampleReader) (it, start) results before →
        (∃ levels deepest, Chain before.1 levels deepest) ∧
        (∃ result after, Returns forestEnv sampleReader before result after) ∧
        ∀ result after, Returns forestEnv sampleReader before result after →
          Shows after.2 result forestKeys[results.length]? ∧
          ∀ key, result = some key →
            ∃ levels deepest, Chain after.1 levels deepest ∧ key.block = deepest.iter :=
  nextKey_depthFirst .dirents forestMounted forestPointed forestTarget forestTree

end Bcachefs
