import Bcachefs.ExtentEntries

/-! Sectors and bytes in the records of `extend`. The product for the length has the 32
bits of `key->size`, although the record has 64 for it. -/

namespace Bcachefs

open ByteString Iteration

structure SectorsExact (record : Extend) (offset size pointer : Nat) : Prop where
  length : record.size = sectorSize * size
  start : record.fileOffset = sectorSize * (offset - size)
  stop : record.fileOffset + record.size = sectorSize * offset
  place : record.offset = sectorSize * pointer

theorem wrap32_sectors_iff (size : Nat) :
    wrap32 (size * sectorSize) = sectorSize * size ↔ size < 2 ^ 23 := by
  simp only [wrap32, sectorSize]
  omega

theorem AtNode.sectorsExact_iff {world : World} {it : BTreeIterator} {node value : Bytes}
    {key : Nat} {format : BKeyFormat} {fields : Fin 6 → Nat} (atNode : AtNode world it node)
    (stored : StoredCurrent format node key keyTypeExtent fields value) (pointer : 8 ≤ value.size)
    (ordered : fields bkeyFieldSize ≤ fields bkeyFieldOffset)
    (bounded : sectorSize * fields bkeyFieldOffset < 2 ^ 64) :
    (∃ record, it.extend world (some ⟨it.iter, key⟩) = .ok record ∧
      SectorsExact record (fields bkeyFieldOffset) (fields bkeyFieldSize) (ptrOffset value 0)) ↔
      fields bkeyFieldSize < 2 ^ 23 := by
  obtain ⟨decoded, parsed, _⟩ := parseBkey_current stored
  obtain ⟨record, returned, start, _, extent, _⟩ :=
    atNode.extend_record stored.stored stored.loaded stored.getValue ⟨decoded, parsed⟩
      stored.offset stored.size (Or.inl ⟨rfl, pointer⟩)
  have length := (extent rfl).1
  have exactStart : record.fileOffset =
      sectorSize * (fields bkeyFieldOffset - fields bkeyFieldSize) := by
    rw [start]
    apply fileOffsetOf_exact ordered
    simp only [sectorSize] at bounded ⊢
    omega
  constructor
  · rintro ⟨other, outcome, exact⟩
    cases returned.symm.trans outcome
    apply (wrap32_sectors_iff _).mp
    rw [← length, exact.length]
  · intro narrow
    have exactSize := length.trans ((wrap32_sectors_iff _).mpr narrow)
    refine ⟨record, returned, exactSize, exactStart, ?_, ?_⟩
    · rw [exactStart, exactSize, ← Nat.mul_add, Nat.sub_add_cancel ordered]
    · exact (extent rfl).2.trans (extentOffset_exact value 0)

/-- For every `struct bkey` of an extent that a fresh iterator over a tree of one node
returns, the record is exact if and only if the extent is shorter than 2^23 sectors. -/
theorem extend_sectors_iff {env : Env} {reader : BCacheFSReader}
    {size blockSize address position : Nat} {world start : World} {source value : Bytes}
    {ptr key : Ptr} {keys : List Nat} {type : BTreeType} {it : BTreeIterator}
    {after : BTreeIterator × World} {format : BKeyFormat} {fields : Fin 6 → Nat}
    (mounted : Mounted reader size blockSize world)
    (pointed : world.heap[ptr.block]? = some source)
    (target : btreePtrAddress source ptr.offset = .ok address)
    (single : SingleNode env.image size blockSize address keys)
    (created : BTreeIterator.new env reader ptr type world = .ok (it, start))
    (returned : Nth (Returns env reader) (it, start) position key after)
    (stored : StoredCurrent format (env.image.window address size) key.offset keyTypeExtent fields
      value)
    (pointer : 8 ≤ value.size) (ordered : fields bkeyFieldSize ≤ fields bkeyFieldOffset)
    (bounded : sectorSize * fields bkeyFieldOffset < 2 ^ 64) :
    (∃ record, after.1.extend after.2 (some key) = .ok record ∧
      SectorsExact record (fields bkeyFieldOffset) (fields bkeyFieldSize) (ptrOffset value 0)) ↔
      fields bkeyFieldSize < 2 ^ 23 := by
  obtain ⟨offset, rfl, atNode⟩ := single_atNode mounted pointed target single created returned
  exact atNode.sectorsExact_iff stored pointer ordered bounded

def largeImage : Bytes := Bytes.ofCells 1024
  [(670, 6), (672, 6), (673, 1), (674, 6), (690, 128), (698, 128), (705, 16), (712, 65), (713, 6)]

def largeEnv : Env := { image := largeImage, junk := fun _ _ => 0 }

def largeFields : Fin 6 → Nat := ![4096, 2 ^ 23, 0, 2 ^ 23, 0, 0]

def largeValue : Bytes := largeImage.window 712 8

theorem largeSingle : SingleNode largeEnv.image 512 512 512 [160] :=
  @OneKey.singleNode largeImage 512 512 512 160 keyTypeExtent ⟨by decide, rfl⟩ (by decide)
    (by decide)

theorem largeStored : StoredCurrent zeroFormat (largeImage.window 512 512) 160 keyTypeExtent
    largeFields largeValue := by
  have loaded : BTreeNode.loadFormat (largeImage.window 512 512) = .ok zeroFormat :=
    BTreeNode.loadFormat_ok (by decide) rfl rfl (by decide) (by decide)
  have stored : Stored (largeImage.window 512 512) 160 keyFormatCurrent bkeyU64s
      keyTypeExtent largeValue :=
    ⟨by decide, by decide, ⟨6, rfl, by decide⟩, rfl, rfl, by decide⟩
  have fields : rawFields (largeImage.window 512 512) 160 = largeFields := by decide
  exact fields ▸ stored.current loaded

theorem extend_truncates : ∃ it start after record,
    BTreeIterator.new largeEnv sampleReader sampleRoot .extents sampleWorld = .ok (it, start) ∧
    Nth (Returns largeEnv sampleReader) (it, start) 0 ⟨after.1.iter, 160⟩ after ∧
    StoredCurrent zeroFormat (largeImage.window 512 512) 160 keyTypeExtent largeFields largeValue ∧
    after.1.extend after.2 (some ⟨after.1.iter, 160⟩) = .ok record ∧
    record.size = 0 ∧ ¬SectorsExact record (2 ^ 23) (2 ^ 23) (ptrOffset largeValue 0) := by
  rcases single_nth .extents sampleMounted samplePointed sampleTarget largeSingle
    (rfl : [160][0]? = some 160) with ⟨it, start, after, created, returned, atNode⟩
  obtain ⟨decoded, parsed, _⟩ := parseBkey_current largeStored
  obtain ⟨record, outcome, _, _, extent, _⟩ :=
    atNode.extend_record largeStored.stored largeStored.loaded largeStored.getValue
      ⟨decoded, parsed⟩ largeStored.offset largeStored.size (Or.inl ⟨rfl, by decide⟩)
  have empty : record.size = 0 := (extent rfl).1
  refine ⟨it, start, after, record, created, returned, largeStored, outcome, empty, ?_⟩
  intro exact
  exact absurd (empty.symm.trans exact.length) (by decide)

theorem extend_sectors_iff_sample : ∃ it start after,
    BTreeIterator.new largeEnv sampleReader sampleRoot .extents sampleWorld = .ok (it, start) ∧
    Nth (Returns largeEnv sampleReader) (it, start) 0 ⟨after.1.iter, 160⟩ after ∧
    ((∃ record, after.1.extend after.2 (some ⟨after.1.iter, 160⟩) = .ok record ∧
      SectorsExact record (largeFields bkeyFieldOffset) (largeFields bkeyFieldSize)
        (ptrOffset largeValue 0)) ↔ largeFields bkeyFieldSize < 2 ^ 23) := by
  rcases single_nth .extents sampleMounted samplePointed sampleTarget largeSingle
    (rfl : [160][0]? = some 160) with ⟨it, start, after, created, returned, _⟩
  exact ⟨it, start, after, created, returned, extend_sectors_iff sampleMounted samplePointed
    sampleTarget largeSingle created returned largeStored (by decide) (by decide) (by decide)⟩

end Bcachefs
