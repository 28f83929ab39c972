import Mathlib.Data.Prod.Lex
import Bcachefs.Encoding
import Bcachefs.Traversal

/-! The order of the returned keys. The keys of a set are sorted, and a node's keys lie
in the closed interval that its pointer states; then the traversal is sorted too. -/

namespace Bcachefs

open ByteString Iteration Flattening

def BPos.order (position : BPos) : ℕ ×ₗ ℕ ×ₗ ℕ :=
  toLex (position.inode, toLex (position.offset, position.snapshot))

def BTreePtr.minKey (block : Bytes) (ptr : Nat) : BPos where
  snapshot := block.number 4 (ptr + 20)
  offset := block.number 8 (ptr + 24)
  inode := block.number 8 (ptr + 32)

namespace TreeKey

def position (key : TreeKey) : BPos := keyPosition key.node key.key

def upper (key : TreeKey) : ℕ ×ₗ ℕ ×ₗ ℕ := key.position.order

def lower (key : TreeKey) : ℕ ×ₗ ℕ ×ₗ ℕ :=
  match BKey.type key.node key.key, getValue key.node key.node key.key with
  | .ok type, .ok value =>
      if type = keyTypeBtreePtrV2 then (BTreePtr.minKey key.node value).order else key.upper
  | _, _ => key.upper

end TreeKey

def rootKeys (image : Bytes) (size address : Nat) (keys : List Nat) : List TreeKey :=
  keys.map (TreeKey.mk 0 (image.window address size))

/-- Every node is sorted, and inside the interval of the pointer it was reached by. -/
structure SearchTree (image : Bytes) (size blockSize address : Nat) : Prop where
  root : ∀ keys, nodeKeys (image.window address size) blockSize = .ok keys →
    Ordered TreeKey.lower TreeKey.upper (rootKeys image size address keys)
  inside : ∀ keys key inner, nodeKeys (image.window address size) blockSize = .ok keys →
    Below (Expands image size blockSize) (rootKeys image size address keys) key →
    Expands image size blockSize key (some inner) →
    OrderedInside TreeKey.lower TreeKey.upper key inner

theorem BPos.inode_le {left right : BPos} (smaller : left.order < right.order) :
    left.inode ≤ right.inode := by
  rcases Prod.Lex.toLex_lt_toLex.mp smaller with less | ⟨same, _⟩
  · exact Nat.le_of_lt less
  · exact Nat.le_of_eq same

section

variable {env : Env} {reader : BCacheFSReader} {size blockSize address : Nat}
  {flat : List TreeKey}

theorem TreeKey.lower_plain {image : Bytes} {key : TreeKey}
    (plain : Expands image size blockSize key none) : key.lower = key.upper := by
  cases plain with
  | plain typed other =>
      unfold TreeKey.lower
      split
      · rename_i type value found _
        cases typed.symm.trans found
        rw [if_neg other]
      · rfl

theorem Tree.ordered {image : Bytes} (tree : Tree image size blockSize address flat)
    (search : SearchTree image size blockSize address) :
    flat.Pairwise fun left right => left.upper < right.upper := by
  rcases tree with ⟨_, keys, scanned, expanded⟩
  have sorted := expanded.ordered (search.root keys scanned) fun key inner =>
    search.inside keys key inner scanned
  apply sorted.apart.imp_of_mem
  intro left right _ listed apart
  rwa [TreeKey.lower_plain (expanded.plain listed)] at apart

/-- On a search tree `next_key` returns the keys in strictly increasing order of their
positions: none twice, and all keys of an inode one behind the other. -/
theorem keys_ordered {world : World} {source : Bytes} {ptr : Ptr} (type : BTreeType)
    (mounted : Mounted reader size blockSize world)
    (pointed : world.heap[ptr.block]? = some source)
    (target : btreePtrAddress source ptr.offset = .ok address)
    (tree : Tree env.image size blockSize address flat)
    (search : SearchTree env.image size blockSize address) :
    ∃ it start, BTreeIterator.new env reader ptr type world = .ok (it, start) ∧
      ∀ i j left right leftAfter rightAfter, i < j →
        Nth (Returns env reader) (it, start) i left leftAfter →
        Nth (Returns env reader) (it, start) j right rightAfter →
        ∃ leftKey rightKey, Shows leftAfter.2 (some left) (some leftKey) ∧
          Shows rightAfter.2 (some right) (some rightKey) ∧
          leftKey.position.order < rightKey.position.order ∧
          (leftKey.position.inode = rightKey.position.inode →
            ∀ between middle middleAfter middleKey, i < between → between < j →
              Nth (Returns env reader) (it, start) between middle middleAfter →
              Shows middleAfter.2 (some middle) (some middleKey) →
              middleKey.position.inode = leftKey.position.inode) := by
  have sorted := Iteration.pairwise_iff_positions.mp (tree.ordered search)
  rcases new_remaining type mounted pointed target tree with ⟨it, start, created, _, _⟩
  refine ⟨it, start, created, ?_⟩
  have shown : ∀ {position key after}, Nth (Returns env reader) (it, start) position key after →
      ∃ treeKey, flat[position]? = some treeKey ∧ Shows after.2 (some key) (some treeKey) := by
    rintro position key after ⟨results, before, rfl, calls, returned⟩
    have delivered := fresh_delivered mounted pointed target tree created calls returned
    have shows := delivered.shows.1
    rw [List.head?_drop] at shows
    cases listed : flat[results.length]? with
    | none => simp [listed, Shows] at shows
    | some treeKey => exact ⟨treeKey, rfl, listed ▸ shows⟩
  intro i j left right leftAfter rightAfter earlier first second
  rcases shown first with ⟨leftKey, leftListed, leftShown⟩
  rcases shown second with ⟨rightKey, rightListed, rightShown⟩
  have smaller := sorted i j leftKey rightKey earlier leftListed rightListed
  refine ⟨leftKey, rightKey, leftShown, rightShown, smaller, ?_⟩
  intro same between middle middleAfter middleKey above below third displayed
  rcases shown third with ⟨other, listed, otherShown⟩
  have view : middleKey.position = other.position := by
    have pair := Option.some.inj (displayed.symm.trans otherShown)
    simp only [Prod.mk.injEq] at pair
    simp only [TreeKey.position, pair]
  have low := BPos.inode_le (sorted i between leftKey other above leftListed listed)
  have high := BPos.inode_le (sorted between j other rightKey below listed rightListed)
  rw [view]
  omega

end

def forestPointers : List TreeKey := [⟨0, forestNode 1, 160⟩, ⟨0, forestNode 1, 248⟩]

theorem forestPointers_ordered : Ordered TreeKey.lower TreeKey.upper forestPointers :=
  ⟨by decide +kernel, by decide +kernel⟩

theorem forestInside {key : TreeKey} {inner : List TreeKey}
    (listed : key ∈ forestPointers ++ forestKeys)
    (expanded : Expands forestImage 512 512 key (some inner)) :
    OrderedInside TreeKey.lower TreeKey.upper key inner ∧
      ∀ other ∈ inner, other ∈ forestPointers ++ forestKeys := by
  rcases List.mem_append.mp listed with pointer | leaf
  · simp only [forestPointers, List.mem_cons, List.not_mem_nil, or_false] at pointer
    rcases pointer with rfl | rfl
    · cases expanded.unique forestLeftExpands
      exact ⟨⟨⟨by decide +kernel, by decide +kernel⟩, by decide +kernel⟩,
        by simp [forestKeys]⟩
    · cases expanded.unique forestRightExpands
      exact ⟨⟨⟨by decide +kernel, by decide +kernel⟩, by decide +kernel⟩,
        by simp [forestKeys]⟩
  · rcases forestTree with ⟨_, keys, _, flat⟩
    cases expanded.unique (flat.plain leaf)

theorem forestSearchTree : SearchTree forestImage 512 512 512 := by
  constructor
  · intro keys scanned
    cases scanned.symm.trans forestRoot
    exact forestPointers_ordered
  · intro keys key inner scanned below expanded
    cases scanned.symm.trans forestRoot
    have listed : key ∈ forestPointers ++ forestKeys := Below.closed
      (fun other member => List.mem_append_left _ member)
      (fun other inner among entered => (forestInside among entered).2) below
    exact (forestInside listed expanded).1

theorem keys_ordered_sample : ∃ it start,
    BTreeIterator.new forestEnv sampleReader sampleRoot .dirents forestWorld = .ok (it, start) ∧
      ∀ i j left right leftAfter rightAfter, i < j →
        Nth (Returns forestEnv sampleReader) (it, start) i left leftAfter →
        Nth (Returns forestEnv sampleReader) (it, start) j right rightAfter →
        ∃ leftKey rightKey, Shows leftAfter.2 (some left) (some leftKey) ∧
          Shows rightAfter.2 (some right) (some rightKey) ∧
          leftKey.position.order < rightKey.position.order ∧
          (leftKey.position.inode = rightKey.position.inode →
            ∀ between middle middleAfter middleKey, i < between → between < j →
              Nth (Returns forestEnv sampleReader) (it, start) between middle middleAfter →
              Shows middleAfter.2 (some middle) (some middleKey) →
              middleKey.position.inode = leftKey.position.inode) :=
  keys_ordered .dirents forestMounted forestPointed forestTarget forestTree forestSearchTree

end Bcachefs
