import Bcachefs.DecodeCore
import Bcachefs.Interleaved

/-! Which node buffers an iterator keeps alive. A buffer is freed with the last
iterator that has a share of it, and what happens to freed memory must not matter. -/

namespace Bcachefs

open ByteString Iteration Flattening

inductive BTreeIterator.Holds : BTreeIterator → Nat → Prop
  | own (it) : Holds it it.iter
  | child {it child block} : child ∈ it.children → Holds child block → Holds it block

structure SameHeld (reader : BCacheFSReader) (held : Nat → Prop) (left right : World) : Prop where
  blocks : left.heap.length = right.heap.length
  superblock : left.heap[reader.sblock]? = right.heap[reader.sblock]?
  held : ∀ block, held block → left.heap[block]? = right.heap[block]?

section

variable {env : Env} {reader : BCacheFSReader}

theorem BTreeIterator.Holds.entered {it child : BTreeIterator} {keyIterator : BKeyIterator}
    {block : Nat}
    (holds : Holds { it with keyIterator := keyIterator, children := [child] } block) :
    it.Holds block ∨ child.Holds block := by
  cases holds with
  | own => exact Or.inl (.own it)
  | child member holds =>
      cases List.mem_singleton.mp member
      exact Or.inr holds

theorem SameHeld.refl (held : Nat → Prop) (world : World) : SameHeld reader held world world :=
  ⟨rfl, rfl, fun _ _ => rfl⟩

variable {held : Nat → Prop}

theorem SameHeld.symm {left right : World} (same : SameHeld reader held left right) :
    SameHeld reader held right left where
  blocks := same.blocks.symm
  superblock := same.superblock.symm
  held block holds := (same.held block holds).symm

theorem SameHeld.trans {first second third : World} (left : SameHeld reader held first second)
    (right : SameHeld reader held second third) : SameHeld reader held first third where
  blocks := left.blocks.trans right.blocks
  superblock := left.superblock.trans right.superblock
  held block holds := (left.held block holds).trans (right.held block holds)

theorem BTreeIterator.new_loaded {ptr : Ptr} {type : BTreeType} {world after : World}
    {child : BTreeIterator} {source : Bytes} (pointed : world.heap[ptr.block]? = some source)
    (created : BTreeIterator.new env reader ptr type world = .ok (child, after)) :
    ∃ sb size address bsetIterator, world.heap[reader.sblock]? = some sb ∧
      btreeNodeSize sb = .ok size ∧ btreePtrAddress source ptr.offset = .ok address ∧
      BSetIterator.new size = .ok bsetIterator ∧
      child = { type := type, ptr := ptr, iter := world.heap.length, bsetIterator := bsetIterator
                keyIterator := BKeyIterator.empty, children := [] } ∧
      after = { heap := world.heap ++ [loadedNode env world.heap.length address size]
                position := address + min size (env.image.size - address) } := by
  rcases bind_eq_ok.mp created with ⟨_, load, rest⟩
  rcases bind_eq_ok.mp load with ⟨sb, superblock, load⟩
  rcases bind_eq_ok.mp load with ⟨size, sized, load⟩
  have held := World.deref_ok.mp superblock
  rcases bind_eq_ok.mp load with ⟨other, found, load⟩
  have kept := World.heap_get (Bytes.ofFn size (env.junk world.heap.length)) pointed
  have same : other = source := by
    simpa [World.malloc, kept] using (World.deref_ok.mp found).symm
  subst same
  rcases bind_eq_ok.mp load with ⟨address, target, _⟩
  rcases bind_eq_ok.mp rest with ⟨again, superblockAgain, rest⟩
  cases fresh : BSetIterator.new size with
  | ok bsetIterator =>
      cases created.symm.trans (BTreeIterator.new_ok held sized pointed target fresh)
      exact ⟨sb, size, address, bsetIterator, held, sized, target, fresh, rfl, rfl⟩
  | error fault =>
      have loads := @loadBtreeNode_ok env _ _ _ _ _ _ _ held sized pointed target
      rw [BTreeIterator.new, loads, ok_bind] at created
      have still := World.heap_get (loadedNode env world.heap.length address size) held
      simp [World.deref, still, sized, fresh] at created

theorem SameHeld.new {ptr : Ptr} {type : BTreeType} {left right leftAfter : World}
    {child : BTreeIterator} {source : Bytes} (same : SameHeld reader held left right)
    (live : held ptr.block) (pointed : left.heap[ptr.block]? = some source)
    (created : BTreeIterator.new env reader ptr type left = .ok (child, leftAfter)) :
    ∃ rightAfter, BTreeIterator.new env reader ptr type right = .ok (child, rightAfter) ∧
      child.children = [] ∧
      SameHeld reader (fun block => held block ∨ child.Holds block) leftAfter rightAfter := by
  rcases BTreeIterator.new_loaded pointed created with
    ⟨sb, size, address, bsetIterator, superblock, sized, target, fresh, rfl, rfl⟩
  have grown : ∀ block : Nat, left.heap[block]? = right.heap[block]? →
      (left.heap ++ [loadedNode env left.heap.length address size])[block]? =
        (right.heap ++ [loadedNode env left.heap.length address size])[block]? := by
    intro block alike
    rw [List.getElem?_append, List.getElem?_append, alike, same.blocks]
  have made : BTreeIterator.new env reader ptr type right = _ :=
    BTreeIterator.new_ok (same.superblock ▸ superblock) sized (same.held _ live ▸ pointed) target
      fresh
  rw [← same.blocks] at made
  refine ⟨_, made, rfl, ?_, grown _ same.superblock, ?_⟩
  · simp [same.blocks]
  · rintro block (older | newest)
    · exact grown block (same.held block older)
    · cases newest with
      | own =>
          dsimp only
          rw [List.getElem?_concat_length, same.blocks, List.getElem?_concat_length]
      | child member _ => cases member

theorem Returned.holds {it after : BTreeIterator} {world next : World} {result : Option Ptr}
    (returned : Returned env reader it world result after next) :
    ∀ key, result = some key → after.Holds key.block := by
  induction returned with
  | passed _ _ ih =>
      intro key same
      exact .child (List.mem_append_right _ List.mem_cons_self) (ih key same)
  | popped _ _ _ _ ih => exact ih
  | key _ _ _ _ _ =>
      intro key same
      cases same
      exact .own _
  | entered _ _ _ _ _ _ _ ih => exact ih
  | advanced _ _ _ _ _ _ _ _ ih => exact ih
  | finished _ _ _ _ _ _ =>
      intro key same
      cases same

theorem World.deref_congr {left right : World} {block : Nat}
    (same : left.heap[block]? = right.heap[block]?) : left.deref block = right.deref block := by
  simp only [World.deref, same]

theorem SameHeld.directory {it : BTreeIterator} {left right : World} {key : Ptr}
    (same : SameHeld reader it.Holds left right) (live : it.Holds key.block) :
    it.directory left (some key) = it.directory right (some key) := by
  have buffer := World.deref_congr (same.held _ live)
  have own := World.deref_congr (same.held _ (.own it))
  by_cases childless : it.children = []
  · simp [BTreeIterator.directory, BTreeIterator.iterator, BTreeIterator.hasChildren, childless,
      buffer, own]
  · have positive : 0 < it.children.length := List.length_pos_of_ne_nil childless
    simp [BTreeIterator.directory, BTreeIterator.iterator, BTreeIterator.hasChildren, positive,
      buffer]

theorem SameHeld.extend {it : BTreeIterator} {left right : World} {key : Ptr}
    (same : SameHeld reader it.Holds left right) (live : it.Holds key.block)
    (rooted : it.ptr.block = reader.sblock) :
    it.extend left (some key) = it.extend right (some key) := by
  have buffer := World.deref_congr (same.held _ live)
  have own := World.deref_congr (same.held _ (.own it))
  have source : left.deref it.ptr.block = right.deref it.ptr.block :=
    World.deref_congr (rooted ▸ same.superblock)
  by_cases childless : it.children = []
  · simp [BTreeIterator.extend, BTreeIterator.iterator, BTreeIterator.hasChildren, childless,
      buffer, own, extendIn, source]
  · have positive : 0 < it.children.length := List.length_pos_of_ne_nil childless
    simp [BTreeIterator.extend, BTreeIterator.iterator, BTreeIterator.hasChildren, positive, buffer]

end

end Bcachefs
