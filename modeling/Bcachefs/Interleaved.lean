import Bcachefs.Support.Interleaving
import Bcachefs.Traversal

/-! Iterators of one reader: they share its file and with it the read position,
which no call depends on. -/

namespace Bcachefs

open ByteString Iteration Interleaving

def World.show (world : World) (result : Option Ptr) : Option (Bytes × Nat) :=
  result.bind world.view

def TreeKey.view (key : TreeKey) : Bytes × Nat := (key.node, key.key)

def readerMachine (env : Env) (reader : BCacheFSReader) :
    Machine World BTreeIterator (Option Ptr) BTreeType where
  create type world it after := ∃ fuel, reader.iterator env fuel type world = .ok (it, after)
  call it world result next after := Returns env reader (it, world) result (next, after)

structure RootedTree (env : Env) (reader : BCacheFSReader) (sb : Bytes) (size blockSize : Nat)
    (type : BTreeType) (flat : List TreeKey) : Prop where
  root : ∃ entry id fuel root address, reader.btreeRoots[type.id]? = some (some entry) ∧
    JsetEntry.btreeId sb entry = .ok id ∧ findBtreeRoot sb entry fuel = .ok root ∧
    btreePtrAddress sb root = .ok address ∧ Tree env.image size blockSize address flat

structure Loaded (reader : BCacheFSReader) (sb : Bytes) (size blockSize : Nat) (world : World) :
    Prop where
  held : world.heap[reader.sblock]? = some sb
  nodeSize : btreeNodeSize sb = .ok size
  blockSize : btreeBlockSize sb = .ok blockSize

section

variable {env : Env} {reader : BCacheFSReader} {sb : Bytes} {size blockSize : Nat}

theorem Loaded.mounted {world : World} (loaded : Loaded reader sb size blockSize world) :
    Mounted reader size blockSize world :=
  ⟨sb, loaded.held, loaded.nodeSize, loaded.blockSize⟩

theorem findBtreeRootFrom_succ {stop fuel cursor root : Nat}
    (found : findBtreeRootFrom sb stop fuel cursor = .ok root) :
    findBtreeRootFrom sb stop (fuel + 1) cursor = .ok root := by
  induction fuel generalizing cursor with
  | zero => cases found
  | succ fuel ih =>
      rw [findBtreeRootFrom] at found ⊢
      split at found
      · rename_i reached
        rw [if_pos reached]
        exact found
      · rename_i further
        rw [if_neg further]
        obtain ⟨unused, read, rest⟩ := bind_eq_ok.mp found
        rw [read, ok_bind]
        split at rest
        · rename_i used
          rw [if_pos used]
          exact rest
        · rename_i skipped
          rw [if_neg skipped]
          exact ih rest

theorem findBtreeRootFrom_mono {stop fuel more cursor root : Nat} (enough : fuel ≤ more)
    (found : findBtreeRootFrom sb stop fuel cursor = .ok root) :
    findBtreeRootFrom sb stop more cursor = .ok root := by
  induction enough with
  | refl => exact found
  | step _ ih => exact findBtreeRootFrom_succ ih

theorem findBtreeRoot_unique {entry fuel other root found : Nat}
    (left : findBtreeRoot sb entry fuel = .ok root)
    (right : findBtreeRoot sb entry other = .ok found) : root = found := by
  obtain ⟨words, read, left⟩ := bind_eq_ok.mp left
  obtain ⟨first, leftLoop, left⟩ := bind_eq_ok.mp left
  obtain ⟨_, again, right⟩ := bind_eq_ok.mp right
  obtain ⟨second, rightLoop, right⟩ := bind_eq_ok.mp right
  cases read.symm.trans again
  have same := (findBtreeRootFrom_mono (Nat.le_max_left fuel other) leftLoop).symm.trans
    (findBtreeRootFrom_mono (Nat.le_max_right fuel other) rightLoop)
  cases same
  obtain ⟨_, _, left⟩ := bind_eq_ok.mp left
  obtain ⟨_, _, right⟩ := bind_eq_ok.mp right
  cases left
  cases right
  rfl

theorem iterator_remaining {world : World} {type : BTreeType} {flat : List TreeKey}
    (loaded : Loaded reader sb size blockSize world)
    (rooted : RootedTree env reader sb size blockSize type flat) :
    (∃ fuel it after, reader.iterator env fuel type world = .ok (it, after)) ∧
      ∀ fuel it after, reader.iterator env fuel type world = .ok (it, after) →
        world.Extends after ∧ Remaining env.image size blockSize after 0 it flat := by
  obtain ⟨entry, id, fuel, root, address, slot, read, found, target, tree⟩ := rooted.root
  rcases @new_remaining env reader size blockSize world sb ⟨reader.sblock, root⟩ address flat type
    loaded.mounted loaded.held target tree with ⟨it, after, created, _, remaining⟩
  constructor
  · refine ⟨fuel, it, after, ?_⟩
    simp only [BCacheFSReader.iterator, slot, World.deref_ok.mpr loaded.held, ok_bind, read, found,
      created]
  · intro other again next returned
    simp only [BCacheFSReader.iterator, slot, World.deref_ok.mpr loaded.held, ok_bind, read]
      at returned
    obtain ⟨cursor, search, made⟩ := bind_eq_ok.mp returned
    cases findBtreeRoot_unique found search
    cases created.symm.trans made
    exact ⟨BTreeIterator.new_extends created, remaining⟩

theorem Shows.show {world : World} {result : Option Ptr} {key : Option TreeKey}
    (shows : Shows world result key) : world.show result = key.map TreeKey.view := by
  cases result with
  | none =>
      cases key with
      | none => rfl
      | some key => cases shows
  | some ptr =>
      cases key with
      | none => cases shows
      | some key => exact shows

def TypeValues (env : Env) (reader : BCacheFSReader) (sb : Bytes) (size blockSize : Nat)
    (type : BTreeType) (values : List (Bytes × Nat)) : Prop :=
  ∃ flat, RootedTree env reader sb size blockSize type flat ∧ values = flat.map TreeKey.view

def Left (env : Env) (size blockSize : Nat) (world : World) (it : BTreeIterator)
    (values : List (Bytes × Nat)) : Prop :=
  ∃ flat, Remaining env.image size blockSize world 0 it flat ∧ values = flat.map TreeKey.view

theorem reader_independent :
    Independent (readerMachine env reader) World.show (Loaded reader sb size blockSize)
      World.Extends (TypeValues env reader sb size blockSize) (Left env size blockSize) := by
  constructor
  · intro world after loaded grown
    exact ⟨grown _ _ loaded.held, loaded.nodeSize, loaded.blockSize⟩
  · rintro world after it _ ⟨flat, remaining, rfl⟩ grown
    exact ⟨flat, remaining.extends grown, rfl⟩
  · rintro world type _ loaded ⟨flat, rooted, rfl⟩
    obtain ⟨fuel, it, after, returned⟩ := (iterator_remaining loaded rooted).1
    exact ⟨it, after, fuel, returned⟩
  · rintro world type _ it after loaded ⟨flat, rooted, rfl⟩ ⟨fuel, returned⟩
    obtain ⟨grown, remaining⟩ := (iterator_remaining loaded rooted).2 fuel it after returned
    exact ⟨grown, flat, remaining, rfl⟩
  · rintro world it _ loaded ⟨flat, remaining, rfl⟩
    obtain ⟨result, next, after, returned, _⟩ := nextKey_delivered env loaded.mounted remaining
    exact ⟨result, next, after, returned.returns⟩
  · rintro world it _ result next after loaded ⟨flat, remaining, rfl⟩ called
    obtain ⟨shows, later⟩ := (returns_delivered loaded.mounted remaining called).shows
    refine ⟨called.returned.grows, ?_, flat.tail, later, ?_⟩
    · rw [List.head?_map]
      exact shows.show
    · rw [List.map_tail]

theorem initial_consistent {world : World} (loaded : Loaded reader sb size blockSize world) :
    Independent.Consistent (Loaded reader sb size blockSize) (TypeValues env reader sb size blockSize)
      (Left env size blockSize)
      { store := world, slots := ([] : List (Slot BTreeIterator (Bytes × Nat) BTreeType)) } :=
  ⟨loaded, fun _ member => absurd member List.not_mem_nil⟩

/-- In every schedule of `iterator(type)`, `next_key` and copies over finite trees each
iterator returns what it would return alone on a fresh reader, a copy from where its
original was; and every schedule can be carried out. -/
theorem interleaved_alone {world : World} (loaded : Loaded reader sb size blockSize world)
    (ops : List (Op BTreeType))
    (finite : Schedulable (TypeValues env reader sb size blockSize) 0 ops) :
    (∃ system, Run (readerMachine env reader) World.show { store := world, slots := [] } ops
      system) ∧
    ∀ system, Run (readerMachine env reader) World.show { store := world, slots := [] } ops
        system → ∀ slot ∈ system.slots, ∃ it start,
      (∃ fuel, reader.iterator env fuel slot.source world = .ok (it, start)) ∧
      (∃ last, Alone (readerMachine env reader) World.show (it, start) slot.log last) ∧
      ∀ log last, Alone (readerMachine env reader) World.show (it, start) log last →
        log.length = slot.log.length → log = slot.log := by
  have independent := @reader_independent env reader sb size blockSize
  constructor
  · exact independent.run_exists (initial_consistent loaded) finite
  · intro system run slot member
    have consistent := independent.run_consistent finite.known (initial_consistent loaded) run
    exact independent.alone_of_placed loaded (consistent.placed slot member)

end

def forestReader : BCacheFSReader :=
  { sblock := 0, btreeRoots := [some 760, none, some 664] }

theorem forestLoaded : Loaded forestReader forestSuperblock 512 512 forestWorld :=
  ⟨rfl, rfl, rfl⟩

theorem forestRooted :
    RootedTree forestEnv forestReader forestSuperblock 512 512 .dirents forestKeys :=
  ⟨664, 0, 1, 712, 512, rfl, rfl, rfl, forestTarget, forestTree⟩

theorem forestSingle : LeafNode forestImage 512 512 2048 keyTypeExtent [160, 208] :=
  ⟨by decide, by decide +kernel, by decide +kernel, by decide⟩

theorem forestExtents : RootedTree forestEnv forestReader forestSuperblock 512 512 .extents
    ([160, 208].map (TreeKey.mk 0 (forestNode 4))) :=
  ⟨760, 0, 1, 808, 2048, rfl, rfl, rfl, by decide, forestSingle.readable, [160, 208],
    forestSingle.scanned, forestSingle.flat 0⟩

def forestOps : List (Op BTreeType) :=
  [.create .dirents, .call 0, .create .extents, .copy 0, .call 2, .call 1, .call 0, .copy 1,
   .call 3, .call 0, .call 2]

theorem forestOps_schedulable :
    Schedulable (TypeValues forestEnv forestReader forestSuperblock 512 512) 0 forestOps := by
  simp only [forestOps, Schedulable, Op.Valid, Op.slots]
  exact ⟨⟨_, _, forestRooted, rfl⟩, by decide, ⟨_, _, forestExtents, rfl⟩, by decide⟩

theorem interleaved_alone_sample :
    (∃ system, Run (readerMachine forestEnv forestReader) World.show
      { store := forestWorld, slots := [] } forestOps system) ∧
    ∀ system, Run (readerMachine forestEnv forestReader) World.show
        { store := forestWorld, slots := [] } forestOps system → ∀ slot ∈ system.slots,
      ∃ it start,
      (∃ fuel, forestReader.iterator forestEnv fuel slot.source forestWorld = .ok (it, start)) ∧
      (∃ last, Alone (readerMachine forestEnv forestReader) World.show (it, start) slot.log
        last) ∧
      ∀ log last, Alone (readerMachine forestEnv forestReader) World.show (it, start) log last →
        log.length = slot.log.length → log = slot.log :=
  interleaved_alone forestLoaded forestOps forestOps_schedulable

end Bcachefs
