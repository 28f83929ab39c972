import Bcachefs.ImageOnly
import Bcachefs.Interleaved

/-! What of an image a run depends on: the superblock and the nodes below the root.
Whatever else is written to the device, the output stays. -/

namespace Bcachefs

open ByteString Iteration Relation

def SameNodes (left right : Bytes) (size blockSize root : Nat) : Prop :=
  ∀ node, ReflTransGen (LinksTo left size blockSize) root node →
    ReadsFull left node size ∧ ReadsFull right node size ∧
      left.window node size = right.window node size

section

variable {left right : Bytes} {size blockSize root : Nat}

theorem LinksTo.same {address next : Nat} (linked : LinksTo left size blockSize address next)
    (same : left.window address size = right.window address size) :
    LinksTo right size blockSize address next := by
  unfold LinksTo at linked ⊢
  rwa [← same]

theorem SameNodes.path (same : SameNodes left right size blockSize root) {node : Nat}
    (path : ReflTransGen (LinksTo left size blockSize) root node) :
    ReflTransGen (LinksTo right size blockSize) root node := by
  induction path with
  | refl => exact ReflTransGen.refl
  | tail reached linked ih => exact ih.tail (linked.same (same _ reached).2.2)

theorem SameNodes.path_back (same : SameNodes left right size blockSize root) {node : Nat}
    (path : ReflTransGen (LinksTo right size blockSize) root node) :
    ReflTransGen (LinksTo left size blockSize) root node := by
  induction path with
  | refl => exact ReflTransGen.refl
  | tail _ linked ih => exact ih.tail (linked.same (same _ ih).2.2.symm)

theorem SameNodes.symm (same : SameNodes left right size blockSize root) :
    SameNodes right left size blockSize root := by
  intro node path
  have facts := same node (same.path_back path)
  exact ⟨facts.2.1, facts.1, facts.2.2.symm⟩

theorem SameNodes.inside (same : SameNodes left right size blockSize root) {world : World}
    {it : BTreeIterator} (inside : Inside left size blockSize root world it) :
    Inside right size blockSize root world it := by
  induction inside with
  | leaf childless reached held scanning =>
      rw [(same _ reached).2.2] at held scanning
      exact Inside.leaf childless (same.path reached) held scanning
  | inner single _ reached held scanning ih =>
      rw [(same _ reached).2.2] at held scanning
      exact Inside.inner single ih (same.path reached) held scanning

end

section

variable {left right : Env} {reader : BCacheFSReader} {size blockSize root : Nat}

theorem BTreeIterator.new_moved {ptr : Ptr} {type : BTreeType} {world : World} {source : Bytes}
    {outcome : BTreeIterator × World} (same : SameNodes left.image right.image size blockSize root)
    (mounted : Mounted reader size blockSize world)
    (pointed : world.heap[ptr.block]? = some source)
    (reached : ∀ address, btreePtrAddress source ptr.offset = .ok address →
      ReflTransGen (LinksTo left.image size blockSize) root address)
    (created : BTreeIterator.new left reader ptr type world = .ok outcome) :
    BTreeIterator.new right reader ptr type world = .ok outcome := by
  rcases new_target mounted pointed created with ⟨address, target⟩
  rcases same address (reached address target) with ⟨leftFull, rightFull, window⟩
  rw [new_full mounted pointed target leftFull, window] at created
  rw [new_full mounted pointed target rightFull]
  exact created

theorem Returned.moved {it after : BTreeIterator} {world next : World} {result : Option Ptr}
    (same : SameNodes left.image right.image size blockSize root)
    (returned : Returned left reader it world result after next)
    (mounted : Mounted reader size blockSize world)
    (inside : Inside left.image size blockSize root world it) :
    Returned right reader it world result after next := by
  have complete : ∀ node, ReflTransGen (LinksTo left.image size blockSize) root node →
      ReadsFull left.image node size := fun node path => (same node path).1
  induction returned with
  | @passed it world child key childAfter next last _ ih =>
      cases inside with
      | leaf childless _ _ _ => simp [childless] at last
      | @inner _ only _ single below _ _ _ =>
          have child_eq : only = child := by simpa [single] using last
          subst child_eq
          exact Returned.passed last (ih mounted below)
  | @popped it world child childAfter middle result after next last inner _ ihChild ihRest =>
      cases inside with
      | leaf childless _ _ _ => simp [childless] at last
      | @inner _ only _ single below reached held scanning =>
          have child_eq : only = child := by simpa [single] using last
          subst child_eq
          have children : it.children.dropLast = [] := by simp [single]
          apply Returned.popped last (ihChild mounted below)
          apply ihRest (mounted.extends inner.grows)
          exact Inside.leaf children reached (inner.grows _ _ held) scanning
  | key childless held scanned typed plain => exact Returned.key childless held scanned typed plain
  | @entered it world node key keyIterator value child middle result after next childless held
      scanned typed valued created _ ih =>
      cases inside with
      | inner single _ _ _ _ => simp [childless] at single
      | leaf _ reached loaded scanning =>
          cases held.symm.trans loaded
          have target := child_target complete reached scanning scanned typed valued
          have below := BTreeIterator.new_inside mounted loaded target created
          have made := BTreeIterator.new_moved same mounted loaded
            (fun address found => (target address found).2) created
          have grown := BTreeIterator.new_extends created
          apply Returned.entered childless held scanned typed valued made
          apply ih (mounted.extends grown)
          exact Inside.inner rfl below reached (grown _ _ loaded) (Scanning.key scanning scanned)
  | @advanced it world node keyAfter sb otherSize bset bsetIterator keyIterator result after next
      childless held scanned block sized stepped entered _ ih =>
      cases inside with
      | inner single _ _ _ _ => simp [childless] at single
      | leaf _ reached loaded scanning =>
          cases held.symm.trans loaded
          rcases mounted.superblock with ⟨_, superblock, _, blockSized⟩
          cases block.symm.trans superblock
          cases sized.symm.trans blockSized
          apply Returned.advanced childless held scanned block sized stepped entered
          apply ih mounted
          exact Inside.leaf childless reached loaded (Scanning.bset scanning scanned stepped entered)
  | finished childless held scanned block sized stepped =>
      exact Returned.finished childless held scanned block sized stepped

end

/-! More fuel changes nothing once a run has returned. -/

theorem findSuperblockField_mono {sb : Bytes} {type fuel more : Nat} {result : Option Nat}
    (enough : fuel ≤ more) (found : findSuperblockField sb type fuel = .ok result) :
    findSuperblockField sb type more = .ok result := by
  rcases bind_eq_ok.mp found with ⟨u64s, length, search⟩
  rw [findSuperblockField, length, ok_bind]
  clear found
  generalize sizeofSuperblock = iter at search ⊢
  induction fuel generalizing more iter with
  | zero => cases search
  | succ fuel ih =>
      rcases more with _ | more
      · omega
      · rw [findSuperblockFieldFrom] at search ⊢
        split at search
        · rename_i stopped
          rw [if_pos stopped]
          exact search
        · rename_i further
          rw [if_neg further]
          rcases bind_eq_ok.mp search with ⟨words, read, search⟩
          rcases bind_eq_ok.mp search with ⟨kind, typed, search⟩
          rw [read, ok_bind, typed, ok_bind]
          split at search
          · rename_i same
            rw [if_pos same]
            exact search
          · rename_i other
            rw [if_neg other]
            exact ih (by omega) _ search

theorem findSuperblockField_unique {sb : Bytes} {wanted fuel more : Nat} {left right : Option Nat}
    (first : findSuperblockField sb wanted fuel = .ok left)
    (second : findSuperblockField sb wanted more = .ok right) : left = right := by
  have moved := findSuperblockField_mono (Nat.le_max_left fuel more) first
  rw [findSuperblockField_mono (Nat.le_max_right fuel more) second] at moved
  cases moved
  rfl

section

variable {env : Env} {reader : BCacheFSReader}

theorem BCacheFSReader.new_mono {fuel more : Nat} {world : World}
    {outcome : BCacheFSReader × World} (enough : fuel ≤ more)
    (opened : BCacheFSReader.new env fuel world = .ok outcome) :
    BCacheFSReader.new env more world = .ok outcome := by
  rcases bind_eq_ok.mp opened with ⟨⟨sblock, loaded⟩, read, rest⟩
  rcases bind_eq_ok.mp rest with ⟨sb, held, rest⟩
  rcases bind_eq_ok.mp rest with ⟨field, found, rest⟩
  rw [BCacheFSReader.new, read, ok_bind]
  dsimp only
  rw [held, ok_bind, findSuperblockField_mono enough found, ok_bind]
  exact rest

theorem BCacheFSReader.iterator_mono {fuel more : Nat} {type : BTreeType} {world : World}
    {outcome : BTreeIterator × World} (enough : fuel ≤ more)
    (opened : reader.iterator env fuel type world = .ok outcome) :
    reader.iterator env more type world = .ok outcome := by
  unfold BCacheFSReader.iterator at opened ⊢
  split at opened
  · cases opened
  · cases opened
  · rcases bind_eq_ok.mp opened with ⟨sb, held, rest⟩
    rcases bind_eq_ok.mp rest with ⟨id, read, rest⟩
    rcases bind_eq_ok.mp rest with ⟨root, search, created⟩
    rcases bind_eq_ok.mp search with ⟨u64s, length, search⟩
    rcases bind_eq_ok.mp search with ⟨cursor, found, search⟩
    rw [held, ok_bind, read, ok_bind, findBtreeRoot, length, ok_bind,
      findBtreeRootFrom_mono enough found, ok_bind, search, ok_bind]
    exact created

theorem walkFrom_mono {callFuel moreCalls fuel more : Nat} {it : BTreeIterator} {world : World}
    {keys : List Decoded} (enoughCalls : callFuel ≤ moreCalls) (enough : fuel ≤ more)
    (walked : walkFrom env reader callFuel fuel it world = .ok keys) :
    walkFrom env reader moreCalls more it world = .ok keys := by
  induction fuel generalizing more it world keys with
  | zero => cases walked
  | succ fuel ih =>
      rcases more with _ | more
      · omega
      · rcases bind_eq_ok.mp walked with ⟨⟨key, after, next⟩, returned, rest⟩
        rw [walkFrom, BTreeIterator.nextKey_mono enoughCalls returned, ok_bind]
        cases key with
        | none => exact rest
        | some key =>
            rcases bind_eq_ok.mp rest with ⟨buffer, held, rest⟩
            rcases bind_eq_ok.mp rest with ⟨later, walked, rest⟩
            dsimp only
            rw [held, ok_bind, ih (by omega) walked, ok_bind]
            exact rest

theorem walk_mono {fuel more : Nat} {type : BTreeType} {output : Ptr × List Decoded}
    (enough : fuel ≤ more) (walked : walk env fuel type = .ok output) :
    walk env more type = .ok output := by
  rcases bind_eq_ok.mp walked with ⟨⟨reader, world⟩, opened, rest⟩
  rcases bind_eq_ok.mp rest with ⟨⟨it, start⟩, rooted, rest⟩
  rcases bind_eq_ok.mp rest with ⟨keys, listed, rest⟩
  rw [walk, BCacheFSReader.new_mono enough opened, ok_bind]
  dsimp only
  rw [BCacheFSReader.iterator_mono enough rooted, ok_bind]
  dsimp only
  rw [walkFrom_mono enough enough listed, ok_bind]
  exact rest

end

/-- All that a run for this btree reads is there in both images, and is the same. -/
structure SameReads (left right : Bytes) (type : BTreeType) : Prop where
  leftSuperblock : SuperblockComplete left
  rightSuperblock : SuperblockComplete right
  superblock : superblockOf left = superblockOf right
  nodes : ∀ size blockSize root, btreeNodeSize (superblockOf left) = .ok size →
    btreeBlockSize (superblockOf left) = .ok blockSize →
    RootAddress (superblockOf left) type root → SameNodes left right size blockSize root

theorem SameReads.symm {left right : Bytes} {type : BTreeType} (same : SameReads left right type) :
    SameReads right left type where
  leftSuperblock := same.rightSuperblock
  rightSuperblock := same.leftSuperblock
  superblock := same.superblock.symm
  nodes size blockSize root nodeSize blockSized rooted := by
    rw [← same.superblock] at nodeSize blockSized rooted
    exact (same.nodes size blockSize root nodeSize blockSized rooted).symm

theorem hasMagic_superblockOf (image : Bytes) :
    HasMagic image ↔ (superblockOf image).number 16 24 = bcacheMagic := by
  rw [HasMagic, superblockOf, Bytes.number_window (by simp only [sizeofSuperblock]; omega)]

theorem header_superblockOf (image : Bytes) :
    image.window (sbSector * sectorSize) sizeofSuperblock =
      (superblockOf image).window 0 sizeofSuperblock := by
  rw [superblockOf, Bytes.window_window (by omega), Nat.add_zero]

section

variable {left right : Env} {reader : BCacheFSReader} {size blockSize root fuel : Nat}
  {type : BTreeType}

theorem SameReads.opened (same : SameReads left.image right.image type) :
    BCacheFSReader.new left fuel World.start = BCacheFSReader.new right fuel World.start := by
  have leftLoads := readSuperblock_full same.leftSuperblock
  have rightLoads := readSuperblock_full same.rightSuperblock
  have marked : HasMagic left.image ↔ HasMagic right.image := by
    rw [hasMagic_superblockOf, hasMagic_superblockOf, same.superblock]
  rw [BCacheFSReader.new, BCacheFSReader.new]
  by_cases magic : HasMagic left.image
  · rw [leftLoads.2 magic, rightLoads.2 (marked.mp magic), header_superblockOf,
      header_superblockOf, same.superblock]
  · rw [leftLoads.1 magic, rightLoads.1 fun other => magic (marked.mpr other)]

theorem walkFrom_moved (same : SameNodes left.image right.image size blockSize root)
    {callFuel : Nat} {it : BTreeIterator} {world : World} {keys : List Decoded}
    (mounted : Mounted reader size blockSize world)
    (inside : Inside left.image size blockSize root world it)
    (walked : walkFrom left reader callFuel fuel it world = .ok keys) :
    ∃ more, walkFrom right reader more fuel it world = .ok keys := by
  induction fuel generalizing it world keys with
  | zero => cases walked
  | succ fuel ih =>
      rcases bind_eq_ok.mp walked with ⟨⟨key, after, next⟩, returned, rest⟩
      have derivation := BTreeIterator.nextKey_returned returned
      rcases BTreeIterator.returned_nextKey (derivation.moved same mounted inside) with
        ⟨enough, called⟩
      cases key with
      | none =>
          refine ⟨enough, ?_⟩
          rw [walkFrom, called, ok_bind]
          exact rest
      | some key =>
          rcases bind_eq_ok.mp rest with ⟨buffer, held, rest⟩
          rcases bind_eq_ok.mp rest with ⟨later, listed, rest⟩
          have following := returned_inside (fun node path => (same node path).1) derivation mounted
            inside
          rcases ih (mounted.extends derivation.grows) following listed with ⟨more, tail⟩
          refine ⟨max enough more, ?_⟩
          rw [walkFrom, BTreeIterator.nextKey_mono (Nat.le_max_left _ _) called, ok_bind]
          dsimp only
          rw [held, ok_bind, walkFrom_mono (Nat.le_max_right _ _) (Nat.le_refl _) tail, ok_bind]
          exact rest

theorem walk_moved {output : Ptr × List Decoded} (same : SameReads left.image right.image type)
    (walked : walk left fuel type = .ok output) : ∃ more, walk right more type = .ok output := by
  rcases bind_eq_ok.mp walked with ⟨⟨reader, world⟩, opened, rest⟩
  rcases bind_eq_ok.mp rest with ⟨⟨it, start⟩, rooted, rest⟩
  rcases bind_eq_ok.mp rest with ⟨keys, listed, rest⟩
  rcases reader_opened same.leftSuperblock opened with ⟨_, held, field, search, filled⟩
  rcases superblockOf_sizes left.image with ⟨size, blockSize, nodeSize, blockSized⟩
  have mounted : Mounted reader size blockSize world := ⟨_, held, nodeSize, blockSized⟩
  unfold BCacheFSReader.iterator at rooted
  split at rooted
  · cases rooted
  · cases rooted
  · rename_i entry slot
    rw [World.deref_ok.mpr held, ok_bind] at rooted
    rcases bind_eq_ok.mp rooted with ⟨id, read, rooted⟩
    rcases bind_eq_ok.mp rooted with ⟨cursor, found, created⟩
    rcases BTreeIterator.new_target mounted held created with ⟨address, target⟩
    have root : RootAddress (superblockOf left.image) type address :=
      ⟨fuel, field, _, entry, cursor, search, filled, slot, found, target⟩
    have nodes := same.nodes size blockSize address nodeSize blockSized root
    have reached : ∀ other, btreePtrAddress (superblockOf left.image) cursor = .ok other →
        ReflTransGen (LinksTo left.image size blockSize) address other := by
      intro other again
      cases target.symm.trans again
      exact ReflTransGen.refl
    have made := @BTreeIterator.new_moved left right reader size blockSize address
      ⟨reader.sblock, cursor⟩ type world _ _ nodes mounted held reached created
    have inside : Inside left.image size blockSize address start it := by
      apply BTreeIterator.new_inside mounted held ?_ created
      intro other again
      have path := reached other again
      exact ⟨(nodes other path).1, path⟩
    have grown := BTreeIterator.new_extends created
    rcases walkFrom_moved nodes (mounted.extends grown) inside listed with ⟨more, tail⟩
    have again : reader.iterator right fuel type world = .ok (it, start) := by
      simp only [BCacheFSReader.iterator, slot, World.deref_ok.mpr held, ok_bind, read, found, made]
    refine ⟨max fuel more, ?_⟩
    rw [walk, ← same.opened, BCacheFSReader.new_mono (Nat.le_max_left _ _) opened, ok_bind]
    dsimp only
    rw [BCacheFSReader.iterator_mono (Nat.le_max_left _ _) again, ok_bind]
    dsimp only
    rw [walkFrom_mono (Nat.le_max_right _ _) (Nat.le_max_left _ _) tail, ok_bind]
    exact rest

end

/-- Two images with the same superblock and the same nodes below the root of a btree give
the same output, whatever else is written to them and however long they are. -/
theorem walk_local {left right : Env} {type : BTreeType}
    (same : SameReads left.image right.image type) (output : Ptr × List Decoded) :
    (∃ fuel, walk left fuel type = .ok output) ↔ ∃ fuel, walk right fuel type = .ok output := by
  constructor
  · rintro ⟨fuel, walked⟩
    exact walk_moved same walked
  · rintro ⟨fuel, walked⟩
    exact walk_moved same.symm walked

def overwrittenImage : Bytes := Bytes.ofFn 8192 fun index =>
  if 4096 ≤ index ∧ index < 6144 then (sectorImage 6144).byte index else 255

def overwrittenEnv : Env := { image := overwrittenImage, junk := fun _ _ => 7 }

theorem overwritten_window {start size : Nat} (lower : 4096 ≤ start) (upper : start + size ≤ 6144) :
    (sectorImage 6144).window start size = overwrittenImage.window start size := by
  refine Bytes.ext_inside rfl ?_
  intro index below
  rw [Bytes.window_size] at below
  rw [Bytes.window, Bytes.ofFn_byte _ below, Bytes.window, Bytes.ofFn_byte _ below, overwrittenImage,
    Bytes.ofFn_byte _ (by omega), if_pos (by omega)]

theorem overwritten_superblock :
    superblockOf (sectorImage 6144) = superblockOf overwrittenImage := by
  have header : (sectorImage 6144).number 4 4220 = overwrittenImage.number 4 4220 := by
    have left := @Bytes.number_window (sectorImage 6144) 4096 752 4 124 (by omega)
    have right := @Bytes.number_window overwrittenImage 4096 752 4 124 (by omega)
    rw [← left, ← right, overwritten_window (by omega) (by omega)]
  have length : (sectorImage 6144).number 4 4220 = 15 := by decide
  simp only [superblockOf, sbSector, sectorSize] at header ⊢
  rw [← header, length]
  exact overwritten_window (by decide) (by decide)

theorem sectorRootNode : OnePointer ((sectorImage 6144).window 5120 512) 512 160 200 5632 :=
  ⟨⟨by decide, rfl⟩, by decide, by decide⟩

theorem sectorLeafNode : OneKey ((sectorImage 6144).window 5632 512) 512 160 keyTypeDirent :=
  ⟨by decide, rfl⟩

theorem sectorReached {node : Nat}
    (path : ReflTransGen (LinksTo (sectorImage 6144) 512 512) 5120 node) :
    node = 5120 ∨ node = 5632 := by
  induction path with
  | refl => exact Or.inl rfl
  | tail _ linked ih =>
      rcases ih with rfl | rfl
      · rcases linked.pointer sectorRootNode.scanned with ⟨key, listed, value, _, valued, target⟩
        cases List.mem_singleton.mp listed
        cases valued.symm.trans sectorRootNode.valued
        cases target.symm.trans sectorRootNode.target
        exact Or.inr rfl
      · rcases linked.pointer sectorLeafNode.scanned with ⟨key, listed, _, typed, _, _⟩
        cases List.mem_singleton.mp listed
        cases typed.symm.trans sectorLeafNode.typed

theorem overwritten_same : SameReads (sectorImage 6144) overwrittenImage .dirents where
  leftSuperblock := sectorComplete.superblock
  rightSuperblock := by
    refine ⟨by simp [ReadsFull, overwrittenImage, sizeofSuperblock, sbSector, sectorSize], fun _ => ?_⟩
    rw [← overwritten_superblock]
    have size : (superblockOf (sectorImage 6144)).size = 872 := by decide
    simp [ReadsFull, overwrittenImage, size, sbSector, sectorSize]
  superblock := overwritten_superblock
  nodes size blockSize root nodeSize blockSized rooted := by
    have sector : btreeNodeSize (superblockOf (sectorImage 6144)) = .ok 512 := rfl
    have block : btreeBlockSize (superblockOf (sectorImage 6144)) = .ok 512 := rfl
    cases nodeSize.symm.trans sector
    cases blockSized.symm.trans block
    cases sectorRoot rooted
    intro node path
    have bound : 4096 ≤ node ∧ node + 512 ≤ 6144 := by
      rcases sectorReached path with rfl | rfl <;> omega
    refine ⟨?_, ?_, overwritten_window bound.1 bound.2⟩
    · exact Nat.le_sub_of_add_le' bound.2
    · simp only [ReadsFull, overwrittenImage, Bytes.ofFn_size]
      omega

theorem walk_local_sample : (cleanEnv 6144).image ≠ overwrittenEnv.image ∧
    ∀ output, (∃ fuel, walk (cleanEnv 6144) fuel .dirents = .ok output) ↔
      ∃ fuel, walk overwrittenEnv fuel .dirents = .ok output := by
  refine ⟨?_, @walk_local (cleanEnv 6144) overwrittenEnv .dirents overwritten_same⟩
  intro same
  have sizes := congrArg Bytes.size same
  simp [cleanEnv, overwrittenEnv, sectorImage, overwrittenImage, Bytes.ofCells] at sizes

end Bcachefs
