import Bcachefs.Support.Flatten
import Bcachefs.TreeCore
import Bcachefs.NodeScan

/-! One call of `_next_key` as a derivation, and what loading a node does to the
world. The later modules use these rules instead of the definition's recursion. -/

namespace Bcachefs

open ByteString Iteration

namespace World

theorem heap_get {heap : List Bytes} {block : Nat} {bytes : Bytes} (added : Bytes)
    (found : heap[block]? = some bytes) : (heap ++ [added])[block]? = some bytes := by
  have bound : block < heap.length := (List.getElem?_eq_some_iff.mp found).1
  rw [List.getElem?_append_left bound]
  exact found

end World

def loadedNode (env : Env) (block address size : Nat) : Bytes :=
  Bytes.ofFn size fun index =>
    if index < min size (env.image.size - address) then env.image.byte (address + index)
    else (Bytes.ofFn size (env.junk block)).byte index

theorem loadedNode_full {env : Env} {block address size : Nat}
    (readable : size ≤ env.image.size - address) :
    loadedNode env block address size = env.image.window address size := by
  refine Bytes.ext_inside ?_ ?_
  · rfl
  · intro index bound
    have inside : index < size := bound
    rw [loadedNode, Bytes.window, Bytes.ofFn_byte _ inside, if_pos (by omega),
      Bytes.ofFn_byte _ inside]

theorem BTreeIterator.loadBtreeNode_ok {env : Env} {reader : BCacheFSReader} {ptr : Ptr}
    {world : World} {sb source : Bytes} {size address : Nat}
    (superblock : world.heap[reader.sblock]? = some sb) (nodeSize : btreeNodeSize sb = .ok size)
    (pointed : world.heap[ptr.block]? = some source)
    (target : btreePtrAddress source ptr.offset = .ok address) :
    loadBtreeNode env reader ptr world = .ok (world.heap.length,
      { heap := world.heap ++ [loadedNode env world.heap.length address size]
        position := address + min size (env.image.size - address) }) := by
  have kept := World.heap_get (Bytes.ofFn size (env.junk world.heap.length)) pointed
  simp only [loadBtreeNode, World.deref, superblock, nodeSize, World.malloc, ok_bind,
    kept, target, World.fseek, World.fread, List.getElem?_concat_length,
    Bytes.ofFn_size, Nat.lt_irrefl, if_false, List.set_append_right _ _ (Nat.le_refl _),
    Nat.sub_self, List.set_cons_zero]
  rfl

theorem BTreeIterator.new_ok {env : Env} {reader : BCacheFSReader} {ptr : Ptr} {type : BTreeType}
    {world : World} {sb source : Bytes} {size address : Nat} {bsetIterator : BSetIterator}
    (superblock : world.heap[reader.sblock]? = some sb) (nodeSize : btreeNodeSize sb = .ok size)
    (pointed : world.heap[ptr.block]? = some source)
    (target : btreePtrAddress source ptr.offset = .ok address)
    (created : BSetIterator.new size = .ok bsetIterator) :
    BTreeIterator.new env reader ptr type world = .ok
      ({ type := type, ptr := ptr, iter := world.heap.length, bsetIterator := bsetIterator
         keyIterator := BKeyIterator.empty, children := [] },
       { heap := world.heap ++ [loadedNode env world.heap.length address size]
         position := address + min size (env.image.size - address) }) := by
  have superblockKept := World.heap_get (loadedNode env world.heap.length address size) superblock
  simp only [BTreeIterator.new, loadBtreeNode_ok superblock nodeSize pointed target, ok_bind,
    World.deref, superblockKept, nodeSize, created]
  rfl

inductive Returned (env : Env) (reader : BCacheFSReader) :
    BTreeIterator → World → Option Ptr → BTreeIterator → World → Prop
  | passed {it world child key childAfter next} :
      it.children.getLast? = some child →
      Returned env reader child world (some key) childAfter next →
      Returned env reader it world (some key)
        { it with children := it.children.dropLast ++ [childAfter] } next
  | popped {it world child childAfter middle result after next} :
      it.children.getLast? = some child →
      Returned env reader child world none childAfter middle →
      Returned env reader { it with children := it.children.dropLast } middle result after next →
      Returned env reader it world result after next
  | key {it : BTreeIterator} {world node key keyIterator type} :
      it.children = [] → world.heap[it.iter]? = some node →
      it.keyIterator.next node = .ok (some key, keyIterator) →
      BKey.type node key = .ok type → type ≠ keyTypeBtreePtrV2 →
      Returned env reader it world (some ⟨it.iter, key⟩)
        { it with keyIterator := keyIterator } world
  | entered {it : BTreeIterator}
      {world node key keyIterator value child middle result after next} :
      it.children = [] → world.heap[it.iter]? = some node →
      it.keyIterator.next node = .ok (some key, keyIterator) →
      BKey.type node key = .ok keyTypeBtreePtrV2 → getValue node node key = .ok value →
      BTreeIterator.new env reader ⟨it.iter, value⟩ it.type world = .ok (child, middle) →
      Returned env reader { it with keyIterator := keyIterator, children := [child] } middle
        result after next →
      Returned env reader it world result after next
  | advanced {it : BTreeIterator} {world node keyAfter sb blockSize bset bsetIterator keyIterator
        result after next} :
      it.children = [] → world.heap[it.iter]? = some node →
      it.keyIterator.next node = .ok (none, keyAfter) →
      world.heap[reader.sblock]? = some sb → btreeBlockSize sb = .ok blockSize →
      it.bsetIterator.next node blockSize = .ok (some bset, bsetIterator) →
      BKeyIterator.new node bset = .ok keyIterator →
      Returned env reader { it with keyIterator := keyIterator, bsetIterator := bsetIterator }
        world result after next →
      Returned env reader it world result after next
  | finished {it : BTreeIterator} {world node keyAfter sb blockSize bsetIterator} :
      it.children = [] → world.heap[it.iter]? = some node →
      it.keyIterator.next node = .ok (none, keyAfter) →
      world.heap[reader.sblock]? = some sb → btreeBlockSize sb = .ok blockSize →
      it.bsetIterator.next node blockSize = .ok (none, bsetIterator) →
      Returned env reader it world none { it with bsetIterator := bsetIterator } world

namespace BTreeIterator

theorem nextKey_returned {env : Env} {reader : BCacheFSReader} {fuel : Nat} {it after : BTreeIterator}
    {world next : World} {result : Option Ptr}
    (returned : nextKey env reader fuel it world = .ok (result, after, next)) :
    Returned env reader it world result after next := by
  induction fuel generalizing it world result after next with
  | zero => cases returned
  | succ fuel ih =>
      unfold nextKey at returned
      split at returned
      · rename_i child last
        obtain ⟨⟨key, childAfter, middle⟩, inner, rest⟩ := bind_eq_ok.mp returned
        cases key with
        | none => exact Returned.popped last (ih inner) (ih rest)
        | some key =>
            cases rest
            exact Returned.passed last (ih inner)
      · rename_i last
        have childless : it.children = [] := List.getLast?_eq_none_iff.mp last
        obtain ⟨node, found, rest⟩ := bind_eq_ok.mp returned
        have held := World.deref_ok.mp found
        obtain ⟨⟨key, keyIterator⟩, scanned, rest⟩ := bind_eq_ok.mp rest
        cases key with
        | some key =>
            obtain ⟨type, typed, rest⟩ := bind_eq_ok.mp rest
            split at rest
            · rename_i pointer
              subst pointer
              obtain ⟨value, valued, rest⟩ := bind_eq_ok.mp rest
              obtain ⟨⟨child, middle⟩, created, rest⟩ := bind_eq_ok.mp rest
              simp only [childless, List.nil_append] at rest
              exact Returned.entered childless held scanned typed valued created (ih rest)
            · rename_i plain
              cases rest
              exact Returned.key childless held scanned typed plain
        | none =>
            have still := BKeyIterator.next_none scanned
            subst still
            obtain ⟨sb, superblock, rest⟩ := bind_eq_ok.mp rest
            obtain ⟨blockSize, sized, rest⟩ := bind_eq_ok.mp rest
            obtain ⟨⟨bset, bsetIterator⟩, stepped, rest⟩ := bind_eq_ok.mp rest
            have block := World.deref_ok.mp superblock
            cases bset with
            | some bset =>
                obtain ⟨keyIterator, entered, rest⟩ := bind_eq_ok.mp rest
                exact Returned.advanced childless held scanned block sized stepped entered (ih rest)
            | none =>
                cases rest
                exact Returned.finished childless held scanned block sized stepped

theorem nextKey_succ {env : Env} {reader : BCacheFSReader} {fuel : Nat} {it : BTreeIterator}
    {world : World} {outcome : Option Ptr × BTreeIterator × World}
    (returned : nextKey env reader fuel it world = .ok outcome) :
    nextKey env reader (fuel + 1) it world = .ok outcome := by
  induction fuel generalizing it world outcome with
  | zero => cases returned
  | succ fuel ih =>
      rw [nextKey] at returned ⊢
      split at returned
      · rename_i child last
        obtain ⟨⟨key, childAfter, middle⟩, inner, rest⟩ := bind_eq_ok.mp returned
        simp only [ih inner, ok_bind]
        cases key with
        | none => exact ih rest
        | some key => exact rest
      · obtain ⟨node, found, rest⟩ := bind_eq_ok.mp returned
        obtain ⟨⟨key, keyIterator⟩, scanned, rest⟩ := bind_eq_ok.mp rest
        simp only [found, scanned, ok_bind]
        cases key with
        | some key =>
            obtain ⟨type, typed, rest⟩ := bind_eq_ok.mp rest
            simp only [typed, ok_bind]
            split at rest
            · rename_i pointer
              obtain ⟨value, valued, rest⟩ := bind_eq_ok.mp rest
              obtain ⟨⟨child, middle⟩, created, rest⟩ := bind_eq_ok.mp rest
              simp only [pointer, if_true, valued, created, ok_bind]
              exact ih rest
            · rename_i plain
              simpa only [plain, if_false] using rest
        | none =>
            obtain ⟨sb, superblock, rest⟩ := bind_eq_ok.mp rest
            obtain ⟨blockSize, sized, rest⟩ := bind_eq_ok.mp rest
            obtain ⟨⟨bset, bsetIterator⟩, stepped, rest⟩ := bind_eq_ok.mp rest
            simp only [superblock, sized, stepped, ok_bind]
            cases bset with
            | some bset =>
                obtain ⟨keyIterator, entered, rest⟩ := bind_eq_ok.mp rest
                simp only [entered, ok_bind]
                exact ih rest
            | none => exact rest

theorem nextKey_mono {env : Env} {reader : BCacheFSReader} {fuel more : Nat} {it : BTreeIterator}
    {world : World} {outcome : Option Ptr × BTreeIterator × World} (enough : fuel ≤ more)
    (returned : nextKey env reader fuel it world = .ok outcome) :
    nextKey env reader more it world = .ok outcome := by
  induction enough with
  | refl => exact returned
  | step _ ih => exact nextKey_succ ih

theorem nextKey_entered {env : Env} {reader : BCacheFSReader} {it child : BTreeIterator}
    {world middle : World} {node : Bytes} {key value : Nat} {keyIterator : BKeyIterator}
    (fuel : Nat) (childless : it.children = []) (held : world.heap[it.iter]? = some node)
    (scanned : it.keyIterator.next node = .ok (some key, keyIterator))
    (typed : BKey.type node key = .ok keyTypeBtreePtrV2) (valued : getValue node node key = .ok value)
    (created : BTreeIterator.new env reader ⟨it.iter, value⟩ it.type world = .ok (child, middle)) :
    nextKey env reader (fuel + 1) it world =
      nextKey env reader fuel { it with keyIterator := keyIterator, children := [child] } middle := by
  simp only [nextKey, childless, List.getLast?_nil, World.deref_ok.mpr held, scanned, typed,
    if_true, valued, created, ok_bind, List.nil_append]

theorem nextKey_advanced {env : Env} {reader : BCacheFSReader} {it : BTreeIterator}
    {world : World} {node sb : Bytes} {blockSize bset : Nat} {keyAfter keyIterator : BKeyIterator}
    {bsetIterator : BSetIterator} (fuel : Nat) (childless : it.children = [])
    (held : world.heap[it.iter]? = some node)
    (scanned : it.keyIterator.next node = .ok (none, keyAfter))
    (block : world.heap[reader.sblock]? = some sb) (sized : btreeBlockSize sb = .ok blockSize)
    (stepped : it.bsetIterator.next node blockSize = .ok (some bset, bsetIterator))
    (entered : BKeyIterator.new node bset = .ok keyIterator) :
    nextKey env reader (fuel + 1) it world = nextKey env reader fuel
      { it with keyIterator := keyIterator, bsetIterator := bsetIterator } world := by
  simp only [nextKey, childless, List.getLast?_nil, World.deref_ok.mpr held, scanned,
    World.deref_ok.mpr block, sized, stepped, entered, ok_bind]

theorem returned_nextKey {env : Env} {reader : BCacheFSReader} {it after : BTreeIterator}
    {world next : World} {result : Option Ptr}
    (returned : Returned env reader it world result after next) :
    ∃ fuel, nextKey env reader fuel it world = .ok (result, after, next) := by
  induction returned with
  | passed last _ ih =>
      obtain ⟨fuel, inner⟩ := ih
      exact ⟨fuel + 1, by simp only [nextKey, last, inner, ok_bind]; rfl⟩
  | popped last _ _ ihChild ihRest =>
      obtain ⟨childFuel, inner⟩ := ihChild
      obtain ⟨restFuel, rest⟩ := ihRest
      refine ⟨max childFuel restFuel + 1, ?_⟩
      simp only [nextKey, last, nextKey_mono (Nat.le_max_left childFuel restFuel) inner, ok_bind]
      exact nextKey_mono (Nat.le_max_right childFuel restFuel) rest
  | key childless held scanned typed plain =>
      refine ⟨1, ?_⟩
      simp only [nextKey, childless, List.getLast?_nil, World.deref_ok.mpr held, scanned, typed,
        plain, if_false, ok_bind]
      rfl
  | entered childless held scanned typed valued created _ ih =>
      obtain ⟨fuel, rest⟩ := ih
      exact ⟨fuel + 1, (nextKey_entered fuel childless held scanned typed valued created).trans rest⟩
  | advanced childless held scanned block sized stepped entered _ ih =>
      obtain ⟨fuel, rest⟩ := ih
      exact ⟨fuel + 1,
        (nextKey_advanced fuel childless held scanned block sized stepped entered).trans rest⟩
  | finished childless held scanned block sized stepped =>
      have still := BKeyIterator.next_none scanned
      subst still
      refine ⟨1, ?_⟩
      simp only [nextKey, childless, List.getLast?_nil, World.deref_ok.mpr held, scanned,
        World.deref_ok.mpr block, sized, stepped, ok_bind]
      rfl

theorem nextKey_iff {env : Env} {reader : BCacheFSReader} {it after : BTreeIterator}
    {world next : World} {result : Option Ptr} :
    (∃ fuel, nextKey env reader fuel it world = .ok (result, after, next)) ↔
      Returned env reader it world result after next :=
  ⟨fun ⟨_, returned⟩ => nextKey_returned returned, returned_nextKey⟩

end BTreeIterator

theorem Returned.unique {env : Env} {reader : BCacheFSReader} {it left right : BTreeIterator}
    {world leftNext rightNext : World} {leftResult rightResult : Option Ptr}
    (first : Returned env reader it world leftResult left leftNext)
    (second : Returned env reader it world rightResult right rightNext) :
    leftResult = rightResult ∧ left = right ∧ leftNext = rightNext := by
  obtain ⟨leftFuel, leftRun⟩ := BTreeIterator.returned_nextKey first
  obtain ⟨rightFuel, rightRun⟩ := BTreeIterator.returned_nextKey second
  have same := (BTreeIterator.nextKey_mono (Nat.le_max_left leftFuel rightFuel) leftRun).symm.trans
    (BTreeIterator.nextKey_mono (Nat.le_max_right leftFuel rightFuel) rightRun)
  simpa using same

theorem Returned.null_stays {env : Env} {reader : BCacheFSReader} {it after : BTreeIterator}
    {world next : World} {result : Option Ptr}
    (returned : Returned env reader it world result after next) (null : result = none) :
    Returned env reader after next none after next := by
  induction returned with
  | passed _ _ _ => cases null
  | popped _ _ _ _ ih => exact ih null
  | key _ _ _ _ _ => cases null
  | entered _ _ _ _ _ _ _ ih => exact ih null
  | advanced _ _ _ _ _ _ _ _ ih => exact ih null
  | @finished it world node keyAfter sb blockSize bsetIterator childless held scanned block sized
      stepped =>
      exact @Returned.finished env reader { it with bsetIterator := bsetIterator } world node
        keyAfter sb blockSize bsetIterator childless held scanned block sized
        (BSetIterator.next_none stepped)

theorem BTreeIterator.new_ptr {env : Env} {reader : BCacheFSReader} {ptr : Ptr}
    {type : BTreeType} {world next : World} {child : BTreeIterator}
    (created : BTreeIterator.new env reader ptr type world = .ok (child, next)) :
    child.ptr = ptr := by
  obtain ⟨_, _, rest⟩ := bind_eq_ok.mp created
  obtain ⟨_, _, rest⟩ := bind_eq_ok.mp rest
  obtain ⟨_, _, rest⟩ := bind_eq_ok.mp rest
  obtain ⟨_, _, rest⟩ := bind_eq_ok.mp rest
  cases rest
  rfl

theorem BTreeIterator.new_extends {env : Env} {reader : BCacheFSReader} {ptr : Ptr}
    {type : BTreeType} {world next : World} {child : BTreeIterator}
    (created : BTreeIterator.new env reader ptr type world = .ok (child, next)) :
    world.Extends next := by
  obtain ⟨⟨iter, loaded⟩, load, rest⟩ := bind_eq_ok.mp created
  obtain ⟨sb, _, load⟩ := bind_eq_ok.mp load
  obtain ⟨size, _, load⟩ := bind_eq_ok.mp load
  obtain ⟨source, _, load⟩ := bind_eq_ok.mp load
  obtain ⟨address, _, load⟩ := bind_eq_ok.mp load
  obtain ⟨filled, read, load⟩ := bind_eq_ok.mp load
  cases load
  obtain ⟨_, _, rest⟩ := bind_eq_ok.mp rest
  obtain ⟨_, _, rest⟩ := bind_eq_ok.mp rest
  obtain ⟨_, _, rest⟩ := bind_eq_ok.mp rest
  cases rest
  obtain ⟨old, _, read⟩ := bind_eq_ok.mp read
  split at read
  · cases read
  · cases read
    intro block bytes found
    have bound : block < world.heap.length := (List.getElem?_eq_some_iff.mp found).1
    simp only [World.fseek]
    rw [List.getElem?_set_ne (by omega)]
    exact World.heap_get _ found

theorem Returned.keeps {env : Env} {reader : BCacheFSReader} {it after : BTreeIterator}
    {world next : World} {result : Option Ptr}
    (returned : Returned env reader it world result after next) :
    after.iter = it.iter ∧ after.ptr = it.ptr := by
  induction returned with
  | passed _ _ _ => exact ⟨rfl, rfl⟩
  | popped _ _ _ _ ih => exact ih
  | key _ _ _ _ _ => exact ⟨rfl, rfl⟩
  | entered _ _ _ _ _ _ _ ih => exact ih
  | advanced _ _ _ _ _ _ _ _ ih => exact ih
  | finished _ _ _ _ _ _ => exact ⟨rfl, rfl⟩

theorem Returned.grows {env : Env} {reader : BCacheFSReader} {it after : BTreeIterator}
    {world next : World} {result : Option Ptr}
    (returned : Returned env reader it world result after next) : world.Extends next := by
  induction returned with
  | passed _ _ ih => exact ih
  | popped _ _ _ ihChild ihRest => exact ihChild.trans ihRest
  | key _ _ _ _ _ => exact World.Extends.refl _
  | entered _ _ _ _ _ created _ ih => exact (BTreeIterator.new_extends created).trans ih
  | advanced _ _ _ _ _ _ _ _ ih => exact ih
  | finished _ _ _ _ _ _ => exact World.Extends.refl _

end Bcachefs
