import Bcachefs.Extend

/-! Where the data of an inline extent lies in the image. `extend` takes the place of the
value in the node that `iterator()` designates, and the address of the node that the
iterator it is called on was made for. -/

namespace Bcachefs

open ByteString Bytes Iteration Flattening

namespace BTreeIterator

def extendBy (it iter : BTreeIterator) (world : World) (key : Option Ptr) : Result Extend :=
  match key with
  | none => .ok Extend.empty
  | some key => do
      let block ← world.deref key.block
      let type ← BKey.type block key.offset
      if type = keyTypeExtent ∨ type = keyTypeInlineData then do
        let btree ← world.deref iter.iter
        extendIn world it.ptr iter.iter btree block key type
      else return Extend.empty

theorem extend_designated {it iter : BTreeIterator} (designated : it.iterator = .ok iter)
    (world : World) (key : Option Ptr) : it.extend world key = it.extendBy iter world key := by
  cases key with
  | none => rfl
  | some key => simp only [extend, extendBy, designated, ok_bind]

end BTreeIterator

def InlineLocated (image : Bytes) (outcome : Result Extend) (value : Bytes) : Prop :=
  ∃ record, outcome = .ok record ∧ record.offset + record.size ≤ image.size ∧
    image.window record.offset record.size = value

def HeldByRoot (root : Bytes) (key : TreeKey) (value : Bytes) : Prop :=
  key.depth = 0 ∨ ∃ place, getValue key.node key.node key.key = .ok place ∧
    root.window place value.size = value

section

variable {reader : BCacheFSReader} {size blockSize address : Nat} {world : World}
  {image node source value : Bytes} {format : BKeyFormat} {it iter : BTreeIterator} {key : Ptr}

theorem Mounted.narrow (mounted : Mounted reader size blockSize world) : size < 2 ^ 25 := by
  obtain ⟨sb, _, sized, _⟩ := mounted.superblock
  obtain ⟨flags, _, same⟩ := bind_eq_ok.mp sized
  cases same
  simp only [sectorSize]
  omega

theorem extendBy_inline (held : world.heap[key.block]? = some node)
    (designated : key.block = iter.iter) (stored : StoredKey format node key.offset
      keyTypeInlineData value) :
    it.extendBy iter world (some key) =
      extendIn world it.ptr key.block node node key keyTypeInlineData := by
  obtain ⟨_, _, _, _, read, _⟩ := stored.read
  simp only [BTreeIterator.extendBy, World.deref_ok.mpr held, read.type, ok_bind, or_true, if_true,
    ← designated]

theorem extendBy_record (held : world.heap[key.block]? = some node)
    (designated : key.block = iter.iter)
    (stored : StoredKey format node key.offset keyTypeInlineData value)
    (pointed : world.heap[it.ptr.block]? = some source)
    (target : btreePtrAddress source it.ptr.offset = .ok address) (narrow : node.size < 2 ^ 25)
    (raw : key.offset + 32 ≤ node.size) :
    ∃ record place, it.extendBy iter world (some key) = .ok record ∧
      getValue node node key.offset = .ok place ∧ place + value.size ≤ node.size ∧
      node.window place value.size = value ∧
      record.offset = address + place ∧ record.size = value.size := by
  obtain ⟨loaded, parsed, keyFormat, keyU64s, read, located⟩ := stored.read
  have offset : BKey.offset node key.offset = .ok _ := load_inside (by omega)
  have size : BKey.size node key.offset = .ok _ := load_inside (by omega)
  rcases @extendIn_inline _ _ _ _ _ _ _ _ _ _ _ key.block _ read loaded located parsed offset size
    pointed target with ⟨record, returned, _, _, length, start⟩
  have inside := read.inside
  have below := btreePtrAddress_lt target
  refine ⟨record, _, ?_, located, inside, read.value, ?_, length⟩
  · rw [extendBy_inline held designated stored]
    exact returned
  · rw [start, wrap64, Nat.mod_eq_of_lt (by omega), Nat.add_comm]

theorem extendBy_located_iff (held : world.heap[key.block]? = some node)
    (designated : key.block = iter.iter)
    (stored : StoredKey format node key.offset keyTypeInlineData value)
    (pointed : world.heap[it.ptr.block]? = some source)
    (target : btreePtrAddress source it.ptr.offset = .ok address) (sized : node.size = size)
    (narrow : size < 2 ^ 25) (readable : address + size ≤ image.size) :
    InlineLocated image (it.extendBy iter world (some key)) value ↔
      key.offset + 32 ≤ size ∧ ∃ place, getValue node node key.offset = .ok place ∧
        (image.window address size).window place value.size = value := by
  subst sized
  constructor
  · rintro ⟨record, outcome, _, exact⟩
    by_cases raw : key.offset + 32 ≤ node.size
    · obtain ⟨_, place, returned, located, inside, _, start, length⟩ :=
        extendBy_record held designated stored pointed target narrow raw
      cases returned.symm.trans outcome
      refine ⟨raw, place, located, ?_⟩
      rw [window_window inside, ← start, ← length]
      exact exact
    · rw [extendBy_inline held designated stored] at outcome
      exact absurd outcome (extendIn_fails (by omega) record)
  · rintro ⟨raw, place, located, same⟩
    obtain ⟨record, _, returned, again, inside, _, start, length⟩ :=
      extendBy_record held designated stored pointed target narrow raw
    cases located.symm.trans again
    refine ⟨record, returned, by omega, ?_⟩
    rw [start, length, ← window_window inside]
    exact same

theorem flat_root {root : Bytes} {keys : List Nat} {flat : List TreeKey}
    (rootSize : root.size = size)
    (expanded : Flat (Expands image size blockSize) (keys.map (TreeKey.mk 0 root)) flat) :
    ∀ key ∈ flat, key.node.size = size ∧ (key.depth = 0 → key.node = root) := by
  intro key member
  refine (@Flat.keeps _ _ (fun key => key.node.size = size ∧ (key.depth = 0 → key.node = root))
    _ _ expanded ?_ ?_ key member).1
  · intro pointer inner entered _ other found
    cases entered with
    | pointer _ _ _ _ _ =>
        obtain ⟨offset, _, rfl⟩ := List.mem_map.mp found
        exact ⟨rfl, fun top => absurd top (Nat.succ_ne_zero _)⟩
  · intro other found
    obtain ⟨offset, _, rfl⟩ := List.mem_map.mp found
    exact ⟨rootSize, fun _ => rfl⟩

variable {env : Env} {start : World} {ptr : Ptr} {flat : List TreeKey} {type : BTreeType}
  {results : List (Option Ptr)} {before after : BTreeIterator × World} {treeKey : TreeKey}

theorem returned_treeKey (mounted : Mounted reader size blockSize world)
    (pointed : world.heap[ptr.block]? = some source)
    (target : btreePtrAddress source ptr.offset = .ok address)
    (tree : Tree env.image size blockSize address flat)
    (created : BTreeIterator.new env reader ptr type world = .ok (it, start))
    (calls : Calls (Returns env reader) (it, start) results before)
    (returned : Returns env reader before (some key) after)
    (listed : flat[results.length]? = some treeKey) :
    Shows after.2 (some key) (some treeKey) ∧
      (∃ levels chosen, Chain after.1 levels chosen ∧ key.block = chosen.iter) ∧
      after.1.ptr = ptr ∧ world.Extends after.2 ∧ treeKey.node.size = size ∧
      (treeKey.depth = 0 → treeKey.node = env.image.window address size) := by
  have delivered := fresh_delivered mounted pointed target tree created calls returned
  have step : ∀ {state : BTreeIterator × World} {result next}, Returns env reader state result next →
      state.1.ptr = ptr ∧ world.Extends state.2 → next.1.ptr = ptr ∧ world.Extends next.2 := by
    rintro state result next taken ⟨same, grown⟩
    exact ⟨taken.returned.keeps.2.trans same, grown.trans taken.returned.grows⟩
  have kept := step returned
    (calls.keeps step ⟨BTreeIterator.new_ptr created, BTreeIterator.new_extends created⟩)
  obtain ⟨first, levels, chosen, position, chain, placed, _⟩ := delivered.placed
  have shown := delivered.shows.1
  rw [List.head?_drop, listed] at position shown
  cases position
  obtain ⟨_, keys, _, expanded⟩ := tree
  have node := flat_root (Bytes.window_size _ _ _) expanded treeKey (List.mem_of_getElem? listed)
  exact ⟨shown, ⟨levels, chosen, chain, placed⟩, kept.1, kept.2, node⟩

end

/-- For every inline key that calls of `next_key` on a fresh iterator over a tree return,
and with the iterator of its node for `iterator()`: the record of `extend` is the value
exactly when the raw bytes of a `struct bkey` lie in the node up to `p.offset` and the
root has the value in the same place. -/
theorem inlineData_located_iff {env : Env} {reader : BCacheFSReader}
    {size blockSize address : Nat} {world start : World} {source value : Bytes} {ptr key : Ptr}
    {flat : List TreeKey} {type : BTreeType} {it : BTreeIterator} {results : List (Option Ptr)}
    {before after : BTreeIterator × World} {treeKey : TreeKey} {format : BKeyFormat}
    (mounted : Mounted reader size blockSize world)
    (pointed : world.heap[ptr.block]? = some source)
    (target : btreePtrAddress source ptr.offset = .ok address)
    (tree : Tree env.image size blockSize address flat)
    (created : BTreeIterator.new env reader ptr type world = .ok (it, start))
    (calls : Calls (Returns env reader) (it, start) results before)
    (returned : Returns env reader before (some key) after)
    (listed : flat[results.length]? = some treeKey)
    (stored : StoredKey format treeKey.node treeKey.key keyTypeInlineData value) :
    Shows after.2 (some key) (some treeKey) ∧ ∃ levels chosen, Chain after.1 levels chosen ∧
      key.block = chosen.iter ∧
      (InlineLocated env.image (after.1.extendBy chosen after.2 (some key)) value ↔
        treeKey.key + 32 ≤ size ∧
          HeldByRoot (env.image.window address size) treeKey value) := by
  obtain ⟨shown, ⟨levels, chosen, chain, placed⟩, same, grown, sized, root⟩ :=
    returned_treeKey mounted pointed target tree created calls returned listed
  refine ⟨shown, levels, chosen, chain, placed, ?_⟩
  obtain ⟨held, offset⟩ := World.view_some.mp shown
  rw [← offset] at stored ⊢
  rw [extendBy_located_iff held placed stored (same ▸ grown _ _ pointed) (same ▸ target) sized
    mounted.narrow tree.1, HeldByRoot, offset]
  constructor
  · rintro ⟨raw, held⟩
    exact ⟨raw, Or.inr held⟩
  · rintro ⟨raw, top | held⟩
    · obtain ⟨_, _, _, _, read, located⟩ := stored.read
      rw [offset] at read located
      refine ⟨raw, _, located, ?_⟩
      rw [← root top]
      exact read.value
    · exact ⟨raw, held⟩

def inlineImage : Bytes := Bytes.ofCells 1536
  [(670, 11), (672, 11), (673, 1), (674, 18), (752, 32),
   (1182, 6), (1184, 6), (1185, 1), (1186, 17), (1224, 104), (1225, 105)]

def inlineEnv : Env := { image := inlineImage, junk := fun _ _ => 0 }

def inlineLeafKey : TreeKey := { depth := 1, node := inlineImage.window 1024 512, key := 160 }

def inlineValue : Bytes := inlineImage.window 1224 8

theorem inlineTree : Tree inlineEnv.image 512 512 512 [inlineLeafKey] := by
  have root : OnePointer (inlineImage.window 512 512) 512 160 200 1024 :=
    ⟨⟨by decide, rfl⟩, rfl, rfl⟩
  have leaf : OneKey (inlineImage.window 1024 512) 512 160 keyTypeInlineData := ⟨by decide, rfl⟩
  exact root.tree leaf (by decide) (by decide) (by decide)

theorem inlineStored :
    StoredKey zeroFormat inlineLeafKey.node 160 keyTypeInlineData inlineValue := by
  have loaded : BTreeNode.loadFormat inlineLeafKey.node = .ok zeroFormat :=
    BTreeNode.loadFormat_ok (by decide) rfl rfl (by decide) (by decide)
  have stored : Stored inlineLeafKey.node 160 keyFormatCurrent bkeyU64s keyTypeInlineData
      inlineValue :=
    ⟨by decide, by decide, ⟨6, rfl, by decide⟩, rfl, rfl, by decide⟩
  exact StoredKey.current (stored.current loaded)

theorem inlineFirstCall : ∃ it start key after,
    BTreeIterator.new inlineEnv sampleReader sampleRoot .extents sampleWorld = .ok (it, start) ∧
    Returns inlineEnv sampleReader (it, start) (some key) after := by
  obtain ⟨it, start, created, started, remaining⟩ :=
    new_remaining .extents sampleMounted samplePointed sampleTarget inlineTree
  obtain ⟨result, after, next, derivation, delivered⟩ :=
    nextKey_delivered inlineEnv started remaining
  obtain ⟨key, _, _, rfl, _⟩ := delivered
  exact ⟨it, start, key, (after, next), created, derivation.returns⟩

theorem inlineData_misplaced : ∃ it start key after levels chosen record,
    BTreeIterator.new inlineEnv sampleReader sampleRoot .extents sampleWorld = .ok (it, start) ∧
    Returns inlineEnv sampleReader (it, start) (some key) after ∧
    Shows after.2 (some key) (some inlineLeafKey) ∧
    StoredKey zeroFormat inlineLeafKey.node inlineLeafKey.key keyTypeInlineData inlineValue ∧
    Chain after.1 levels chosen ∧ key.block = chosen.iter ∧
    after.1.extendBy chosen after.2 (some key) = .ok record ∧
    record.offset = 712 ∧ record.size = 8 ∧
    ¬InlineLocated inlineImage (after.1.extendBy chosen after.2 (some key)) inlineValue := by
  obtain ⟨it, start, key, after, created, returned⟩ := inlineFirstCall
  obtain ⟨shown, ⟨levels, chosen, chain, placed⟩, same, grown, sized, _⟩ :=
    returned_treeKey sampleMounted samplePointed sampleTarget inlineTree created
      (Calls.start _) returned rfl
  obtain ⟨held, offset⟩ := World.view_some.mp shown
  have stored := inlineStored
  rw [show (160 : Nat) = inlineLeafKey.key by rfl, ← offset] at stored
  have raw : key.offset + 32 ≤ inlineLeafKey.node.size := by
    rw [offset]
    decide
  obtain ⟨record, place, outcome, located, _, _, position, length⟩ :=
    extendBy_record held placed stored (same ▸ grown _ _ samplePointed) (same ▸ sampleTarget)
      (by decide) raw
  rw [offset] at located
  cases located
  refine ⟨it, start, key, after, levels, chosen, record, created, returned, shown, inlineStored,
    chain, placed, outcome, position, length, ?_⟩
  rintro ⟨_, again, _, same⟩
  cases outcome.symm.trans again
  rw [position, length] at same
  exact absurd same (by decide)

theorem inlineData_located_iff_sample : ∃ it start key after,
    BTreeIterator.new inlineEnv sampleReader sampleRoot .extents sampleWorld = .ok (it, start) ∧
    Returns inlineEnv sampleReader (it, start) (some key) after ∧
    Shows after.2 (some key) (some inlineLeafKey) ∧
    ∃ levels chosen, Chain after.1 levels chosen ∧ key.block = chosen.iter ∧
      (InlineLocated inlineImage (after.1.extendBy chosen after.2 (some key)) inlineValue ↔
        160 + 32 ≤ 512 ∧ HeldByRoot (inlineImage.window 512 512) inlineLeafKey inlineValue) := by
  obtain ⟨it, start, key, after, created, returned⟩ := inlineFirstCall
  exact ⟨it, start, key, after, created, returned,
    inlineData_located_iff sampleMounted samplePointed sampleTarget inlineTree created
      (Calls.start _) returned rfl inlineStored⟩

end Bcachefs
