import Bcachefs.DecodeCore
import Bcachefs.Traversal

/-! Which iterator of the chain `iterator()` designates, and so which node's format
`directory` and `extend` decode a returned key with. -/

namespace Bcachefs

open ByteString Iteration Flattening

namespace BTreeIterator

theorem iterator_childless {it : BTreeIterator} (childless : it.children = []) :
    it.iterator = .ok it := by
  simp [iterator, hasChildren, childless]

theorem iterator_children {it : BTreeIterator} (children : it.children ≠ []) :
    it.iterator = .error .outOfBounds := by
  have positive : 0 < it.children.length := List.length_pos_iff.mpr children
  simp [iterator, hasChildren, positive]

theorem iterator_chain {it deepest : BTreeIterator} {levels : Nat}
    (chain : Chain it levels deepest) :
    it.iterator = if levels = 0 then .ok deepest else .error .outOfBounds := by
  cases chain with
  | deepest childless => simp [iterator_childless childless]
  | child single _ =>
      rw [iterator_children (by simp [single])]
      simp

end BTreeIterator

/-- `iterator()` exists and is the deepest iterator of the chain, the key lies in
its buffer, and both accessors decode the key with that buffer's format. -/
structure DecodedInPlace (world : World) (it : BTreeIterator) (key : Ptr) : Prop where
  designates : ∃ chosen levels, it.iterator = .ok chosen ∧ Chain it levels chosen ∧
    key.block = chosen.iter
  directory : ∀ node, world.heap[key.block]? = some node →
    BKey.type node key.offset = .ok keyTypeDirent →
    it.directory world (some key) = directoryIn node node key
  extend : ∀ node type, world.heap[key.block]? = some node →
    BKey.type node key.offset = .ok type → type = keyTypeExtent ∨ type = keyTypeInlineData →
    it.extend world (some key) = extendIn world it.ptr key.block node node key type

theorem decodedInPlace_iff {world : World} {it deepest : BTreeIterator} {key : Ptr} {levels : Nat}
    (chain : Chain it levels deepest) (placed : key.block = deepest.iter) :
    DecodedInPlace world it key ↔ levels = 0 := by
  have chosen := BTreeIterator.iterator_chain chain
  constructor
  · intro decoded
    obtain ⟨_, _, found, _⟩ := decoded.designates
    by_contra deeper
    rw [chosen, if_neg deeper] at found
    cases found
  · rintro rfl
    rw [if_pos rfl] at chosen
    refine ⟨⟨deepest, 0, chosen, chain, placed⟩, ?_, ?_⟩
    · intro node held typed
      have loaded := World.deref_ok.mpr held
      simp only [BTreeIterator.directory, loaded, typed, chosen, ← placed, ok_bind, if_true]
    · intro node type held typed located
      have loaded := World.deref_ok.mpr held
      simp only [BTreeIterator.extend, loaded, typed, chosen, ← placed, ok_bind, located, if_true]

/-- After any number of calls on a fresh iterator over a tree, the key returned last
is decoded in place exactly when it is a key of the root node itself. -/
theorem decodedInPlace_iff_root {env : Env} {reader : BCacheFSReader}
    {size blockSize address : Nat} {world : World} {source : Bytes} {ptr : Ptr}
    {flat : List TreeKey} {type : BTreeType} {it : BTreeIterator} {start : World}
    (mounted : Mounted reader size blockSize world)
    (pointed : world.heap[ptr.block]? = some source)
    (target : btreePtrAddress source ptr.offset = .ok address)
    (tree : Tree env.image size blockSize address flat)
    (created : BTreeIterator.new env reader ptr type world = .ok (it, start)) :
    ∀ results before key after, Calls (Returns env reader) (it, start) results before →
      Returns env reader before (some key) after →
      ∃ treeKey, flat[results.length]? = some treeKey ∧ Shows after.2 (some key) (some treeKey) ∧
        (DecodedInPlace after.2 after.1 key ↔ treeKey.depth = 0) := by
  intro results before key after calls returned
  have delivered := fresh_delivered mounted pointed target tree created calls returned
  obtain ⟨treeKey, levels, deepest, first, chain, placed, deep⟩ := delivered.placed
  have position : flat[results.length]? = some treeKey := by simpa [List.head?_drop] using first
  refine ⟨treeKey, position, ?_, ?_⟩
  · have shown := delivered.shows.1
    rwa [first] at shown
  · rw [decodedInPlace_iff chain placed]
    omega

theorem sampleFirstCall : ∃ it start key after levels deepest,
    BTreeIterator.new sampleEnv sampleReader sampleRoot .dirents sampleWorld = .ok (it, start) ∧
    Returns sampleEnv sampleReader (it, start) (some key) after ∧
    Chain after.1 levels deepest ∧ key.block = deepest.iter ∧ levels = 1 := by
  obtain ⟨it, start, created, started, remaining⟩ :=
    new_remaining .dirents sampleMounted samplePointed sampleTarget sampleTree
  obtain ⟨result, after, next, derivation, delivered⟩ :=
    nextKey_delivered sampleEnv started remaining
  obtain ⟨key, levels, deepest, rfl, _, _, chain, placed, deep⟩ := delivered
  refine ⟨it, start, key, (after, next), levels, deepest, created,
    derivation.returns, chain, placed, ?_⟩
  simpa [sampleLeafKey, eq_comm] using deep

theorem iterator_outside_sample : ∃ it start key after,
    BTreeIterator.new sampleEnv sampleReader sampleRoot .dirents sampleWorld = .ok (it, start) ∧
    Returns sampleEnv sampleReader (it, start) (some key) after ∧
    after.1.iterator = .error .outOfBounds ∧ ¬DecodedInPlace after.2 after.1 key := by
  obtain ⟨it, start, key, after, levels, deepest, created, returned, chain, placed, rfl⟩ :=
    sampleFirstCall
  refine ⟨it, start, key, after, created, returned, BTreeIterator.iterator_chain chain, ?_⟩
  rw [decodedInPlace_iff chain placed]
  decide

theorem decodedInPlace_iff_root_sample : ∃ it start key after treeKey,
    BTreeIterator.new sampleEnv sampleReader sampleRoot .dirents sampleWorld = .ok (it, start) ∧
    Returns sampleEnv sampleReader (it, start) (some key) after ∧
    [sampleLeafKey][0]? = some treeKey ∧ Shows after.2 (some key) (some treeKey) ∧
    (DecodedInPlace after.2 after.1 key ↔ treeKey.depth = 0) := by
  obtain ⟨it, start, key, after, _, _, created, returned, _⟩ := sampleFirstCall
  obtain ⟨treeKey, outcome⟩ := decodedInPlace_iff_root sampleMounted samplePointed
    sampleTarget sampleTree created [] (it, start) key after (Calls.start _) returned
  exact ⟨it, start, key, after, treeKey, created, returned, outcome⟩

end Bcachefs
