import Bcachefs.ParseKey
import Bcachefs.SingleNode

/-! What `extend` reads from a key. It looks at the raw bytes of a `struct bkey`,
whatever format the key is stored in. -/

namespace Bcachefs

open ByteString Iteration

def fileOffsetOf (offset size : Nat) : Nat :=
  wrap64 (wrap64 (offset + 2 ^ 64 - size) * sectorSize)

theorem fileOffsetOf_eq (offset size : Nat) :
    fileOffsetOf offset size = sectorSize * ((offset + 2 ^ 64 - size) % 2 ^ 55) := by
  simp only [fileOffsetOf, wrap64, sectorSize]
  omega

theorem fileOffsetOf_exact {offset size : Nat} (ordered : size ≤ offset)
    (bounded : sectorSize * (offset - size) < 2 ^ 64) :
    fileOffsetOf offset size = sectorSize * (offset - size) := by
  rw [fileOffsetOf_eq]
  simp only [sectorSize] at bounded ⊢
  omega

theorem fileOffsetOf_lt (offset size : Nat) : fileOffsetOf offset size < 2 ^ 64 :=
  Nat.mod_lt _ (by decide)

theorem sizeOf_iff (left right : Nat) :
    wrap32 (left * sectorSize) = wrap32 (right * sectorSize) ↔ left % 2 ^ 23 = right % 2 ^ 23 := by
  simp only [wrap32, sectorSize]
  omega

theorem fileOffsetOf_iff {rawOffset rawSize offset size : Nat} (narrow : rawSize < 2 ^ 32)
    (ordered : size ≤ offset) (bounded : sectorSize * (offset - size) < 2 ^ 64) :
    fileOffsetOf rawOffset rawSize = sectorSize * (offset - size) ↔
      (rawOffset + size) % 2 ^ 55 = (offset + rawSize) % 2 ^ 55 := by
  rw [fileOffsetOf_eq]
  simp only [sectorSize] at bounded ⊢
  omega

section

variable {node value : Bytes} {key keyFormat keyU64s type rawOffset rawSize : Nat}
  {format : BKeyFormat} {world : World} {it : BTreeIterator}

theorem extendIn_inline {ptr : Ptr} {source : Bytes} {block address : Nat}
    (stored : Stored node key keyFormat keyU64s keyTypeInlineData value)
    (loaded : BTreeNode.loadFormat node = .ok format)
    (located : getValue node node key = .ok (key + keyU64s * u64sSize))
    (parsed : ∃ decoded, parseBkey node key format = .ok decoded)
    (offset : BKey.offset node key = .ok rawOffset) (size : BKey.size node key = .ok rawSize)
    (held : world.heap[ptr.block]? = some source)
    (target : btreePtrAddress source ptr.offset = .ok address) :
    ∃ record, extendIn world ptr block node node ⟨block, key⟩ keyTypeInlineData = .ok record ∧
      record.fileOffset = fileOffsetOf rawOffset rawSize ∧ record.inode = 0 ∧
      record.size = value.size ∧
      record.offset = wrap64 (key + keyU64s * u64sSize + address) := by
  obtain ⟨decoded, returned⟩ := parsed
  obtain ⟨words, read, length⟩ := stored.u64s
  have byte : words < 256 := by
    rw [← (load_ok.mp read).2]
    exact Bytes.number_lt _ 1 key
  have other : ¬keyTypeInlineData = keyTypeExtent := by decide
  have same : ¬block ≠ block := fun different => different rfl
  simp only [extendIn, loaded, returned, located, offset, size, ok_bind, other, if_false,
    read, World.deref_ok.mpr held, target, same]
  refine ⟨_, rfl, rfl, rfl, ?_, rfl⟩
  simp only [wrap64, u64sSize] at length ⊢
  omega

theorem extendIn_fails {ptr : Ptr} {block : Nat} (short : node.size < key + 32)
    (record : Extend) : extendIn world ptr block node node ⟨block, key⟩ type ≠ .ok record := by
  intro returned
  obtain ⟨_, _, rest⟩ := bind_eq_ok.mp returned
  obtain ⟨_, _, rest⟩ := bind_eq_ok.mp rest
  obtain ⟨_, _, rest⟩ := bind_eq_ok.mp rest
  obtain ⟨_, offset, _⟩ := bind_eq_ok.mp rest
  have inside := (load_ok.mp offset).1
  dsimp only at inside
  omega

theorem AtNode.extend_record (atNode : AtNode world it node)
    (stored : Stored node key keyFormat keyU64s type value)
    (loaded : BTreeNode.loadFormat node = .ok format)
    (located : getValue node node key = .ok (key + keyU64s * u64sSize))
    (parsed : ∃ decoded, parseBkey node key format = .ok decoded)
    (offset : BKey.offset node key = .ok rawOffset) (size : BKey.size node key = .ok rawSize)
    (kind : type = keyTypeExtent ∧ 8 ≤ value.size ∨ type = keyTypeInlineData) :
    ∃ record, it.extend world (some ⟨it.iter, key⟩) = .ok record ∧
      record.fileOffset = fileOffsetOf rawOffset rawSize ∧ record.inode = 0 ∧
      (type = keyTypeExtent → record.size = wrap32 (rawSize * sectorSize) ∧
        record.offset = wrap64 (value.number 8 0 / 2 ^ 4 % 2 ^ 44 * sectorSize)) ∧
      (type = keyTypeInlineData → record.size = value.size) := by
  rcases kind with ⟨rfl, word⟩ | rfl
  · rw [atNode.extend stored.type (Or.inl rfl)]
    obtain ⟨decoded, returned⟩ := parsed
    have pointer := @Stored.load_value _ _ _ _ _ _ 8 0 stored (by omega)
    rw [Nat.add_zero] at pointer
    simp only [extendIn, loaded, returned, located, offset, size, ok_bind, if_true,
      ExtentPtr.offset, pointer]
    exact ⟨_, rfl, rfl, rfl, fun _ => ⟨rfl, rfl⟩, fun other => absurd other (by decide)⟩
  · rw [atNode.extend stored.type (Or.inr rfl)]
    obtain ⟨source, address, held, target⟩ := atNode.pointed
    rcases @extendIn_inline _ _ _ _ _ _ _ _ _ _ _ it.iter _ stored loaded located parsed offset
      size held target with ⟨record, returned, start, inode, length, _⟩
    exact ⟨record, returned, start, inode, fun extent => absurd extent (by decide), fun _ => length⟩

theorem AtNode.extend_fails (atNode : AtNode world it node)
    (typed : BKey.type node key = .ok type)
    (kind : type = keyTypeExtent ∨ type = keyTypeInlineData) (short : node.size < key + 32)
    (record : Extend) : it.extend world (some ⟨it.iter, key⟩) ≠ .ok record := by
  rw [atNode.extend typed kind]
  exact extendIn_fails short record

end

def LocatedAlike (offset size type : Nat) (left right : Result Extend) : Prop :=
  ∃ first second, left = .ok first ∧ right = .ok second ∧
    first.fileOffset = sectorSize * (offset - size) ∧
    second.fileOffset = sectorSize * (offset - size) ∧ first.size = second.size ∧
    (type = keyTypeExtent → first.offset = second.offset)

/-- The bytes of the key where a `struct bkey` has its `size` and `p.offset` lie in
the node and stand for the same range as the key's own fields. -/
structure RawFieldsAgree (node : Bytes) (key type offset size : Nat) : Prop where
  inside : key + 32 ≤ node.size
  bounded : sectorSize * (offset - size) < 2 ^ 64
  start : (node.number 8 (key + 24) + size) % 2 ^ 55 =
    (offset + node.number 4 (key + 16)) % 2 ^ 55
  length : type = keyTypeExtent → node.number 4 (key + 16) % 2 ^ 23 = size % 2 ^ 23

/-- `extend` gives the packed key and the `struct bkey` of one logical key the same
place exactly when the raw bytes of the packed key agree with its fields. -/
theorem extend_encodings_iff {packedWorld currentWorld : World}
    {packedIt currentIt : BTreeIterator} {packedNode currentNode value : Bytes}
    {packedKey currentKey type : Nat} {packedFormat currentFormat : BKeyFormat}
    {fields : Fin 6 → Nat}
    (packedAt : AtNode packedWorld packedIt packedNode)
    (currentAt : AtNode currentWorld currentIt currentNode)
    (packed : StoredLocal packedFormat packedNode packedKey type fields value)
    (current : StoredCurrent currentFormat currentNode currentKey type fields value)
    (kind : type = keyTypeExtent ∧ 8 ≤ value.size ∨ type = keyTypeInlineData)
    (ordered : fields bkeyFieldSize ≤ fields bkeyFieldOffset) :
    LocatedAlike (fields bkeyFieldOffset) (fields bkeyFieldSize) type
        (packedIt.extend packedWorld (some ⟨packedIt.iter, packedKey⟩))
        (currentIt.extend currentWorld (some ⟨currentIt.iter, currentKey⟩)) ↔
      RawFieldsAgree packedNode packedKey type (fields bkeyFieldOffset) (fields bkeyFieldSize) := by
  obtain ⟨packedDecoded, packedParsed, _⟩ := parseBkey_local packed
  obtain ⟨currentDecoded, currentParsed, _⟩ := parseBkey_current current
  rcases currentAt.extend_record current.stored current.loaded current.getValue
    ⟨_, currentParsed⟩ current.offset current.size kind with
    ⟨second, secondOk, secondStart, _, secondExtent, secondInline⟩
  have kinds : type = keyTypeExtent ∨ type = keyTypeInlineData := kind.imp_left And.left
  by_cases inside : packedKey + 32 ≤ packedNode.size
  · have offset : BKey.offset packedNode packedKey = .ok _ := load_inside (by omega)
    have size : BKey.size packedNode packedKey = .ok _ := load_inside (by omega)
    have narrow := Bytes.number_lt packedNode 4 (packedKey + 16)
    rcases packedAt.extend_record packed.stored packed.loaded packed.getValue
      ⟨_, packedParsed⟩ offset size kind with
      ⟨first, firstOk, firstStart, _, firstExtent, firstInline⟩
    constructor
    · rintro ⟨left, right, leftOk, rightOk, leftStart, rightStart, sizes, offsets⟩
      cases firstOk.symm.trans leftOk
      cases secondOk.symm.trans rightOk
      have bounded : sectorSize * (fields bkeyFieldOffset - fields bkeyFieldSize) < 2 ^ 64 := by
        rw [← rightStart, secondStart]
        exact fileOffsetOf_lt _ _
      refine ⟨inside, bounded, ?_, ?_⟩
      · apply (fileOffsetOf_iff narrow ordered bounded).mp
        rw [← firstStart, leftStart]
      · intro extent
        apply (sizeOf_iff _ _).mp
        rw [← (firstExtent extent).1, sizes, (secondExtent extent).1]
    · intro agree
      refine ⟨first, second, firstOk, secondOk, ?_, ?_, ?_, ?_⟩
      · rw [firstStart]
        exact (fileOffsetOf_iff narrow ordered agree.bounded).mpr agree.start
      · rw [secondStart]
        exact fileOffsetOf_exact ordered agree.bounded
      · rcases kinds with extent | inline
        · rw [(firstExtent extent).1, (secondExtent extent).1]
          exact (sizeOf_iff _ _).mpr (agree.length extent)
        · rw [firstInline inline, secondInline inline]
      · intro extent
        rw [(firstExtent extent).2, (secondExtent extent).2]
  · constructor
    · rintro ⟨left, _, leftOk, _⟩
      exact absurd leftOk (packedAt.extend_fails packed.stored.type kinds (by omega) left)
    · intro agree
      exact absurd agree.inside inside

/-! An extent of inode 4096, 8 sectors long and ending at sector 16, packed by a
format of four words, and the same extent as a `struct bkey`. -/

def extentFields : Fin 6 → Nat := ![4096, 16, 0, 8, 0, 0]

def packedExtentImage : Bytes := Bytes.ofCells 1024
  [(592, 4), (593, 6), (594, 64), (595, 64), (596, 32), (597, 32), (670, 5),
   (672, 5), (674, 6), (680, 8), (688, 16), (697, 16), (704, 64), (705, 6)]

def currentExtentImage : Bytes := Bytes.ofCells 1024
  [(670, 6), (672, 6), (673, 1), (674, 6), (688, 8), (696, 16), (705, 16), (712, 64), (713, 6)]

def packedExtentEnv : Env := { image := packedExtentImage, junk := fun _ _ => 0 }

def currentExtentEnv : Env := { image := currentExtentImage, junk := fun _ _ => 0 }

def zeroFormat : BKeyFormat where
  keyU64s := 0
  nrFields := 0
  bitsPerField := fun _ => 0
  fieldOffset := fun _ => 0

def extentFormat : BKeyFormat where
  keyU64s := 4
  nrFields := 6
  bitsPerField := ![64, 64, 32, 32, 0, 0]
  fieldOffset := fun _ => 0

def extentValue : Bytes := packedExtentImage.window 704 8

theorem packedExtentSingle : SingleNode packedExtentEnv.image 512 512 512 [160] :=
  @OneKey.singleNode packedExtentImage 512 512 512 160 keyTypeExtent ⟨by decide, rfl⟩ (by decide)
    (by decide)

theorem currentExtentSingle : SingleNode currentExtentEnv.image 512 512 512 [160] :=
  @OneKey.singleNode currentExtentImage 512 512 512 160 keyTypeExtent ⟨by decide, rfl⟩ (by decide)
    (by decide)

theorem packedExtentStored : StoredLocal extentFormat (packedExtentImage.window 512 512) 160
    keyTypeExtent extentFields extentValue where
  loaded := BTreeNode.loadFormat_ok (by decide) rfl rfl
    (by decide) (by decide)
  stored := {
    header := by decide
    inside := by decide
    u64s := ⟨5, rfl, by decide⟩
    keyFormat := rfl
    type := rfl
    value := by decide }
  packed := {
    offsets := fun _ => Nat.zero_le _
    stacked := by decide }

theorem currentExtentStored : StoredCurrent zeroFormat (currentExtentImage.window 512 512) 160
    keyTypeExtent extentFields extentValue := by
  have loaded : BTreeNode.loadFormat (currentExtentImage.window 512 512) = .ok zeroFormat :=
    BTreeNode.loadFormat_ok (by decide) rfl rfl (by decide) (by decide)
  have stored : Stored (currentExtentImage.window 512 512) 160 keyFormatCurrent bkeyU64s
      keyTypeExtent extentValue :=
    ⟨by decide, by decide, ⟨6, rfl, by decide⟩, rfl, rfl, by decide⟩
  have fields : rawFields (currentExtentImage.window 512 512) 160 = extentFields := by decide
  exact fields ▸ stored.current loaded

theorem extend_encodings_sample : ∃ packedIt packedStart packedAfter currentIt currentStart
    currentAfter,
    BTreeIterator.new packedExtentEnv sampleReader sampleRoot .extents sampleWorld =
      .ok (packedIt, packedStart) ∧
    Nth (Returns packedExtentEnv sampleReader) (packedIt, packedStart) 0
      ⟨packedAfter.1.iter, 160⟩ packedAfter ∧
    BTreeIterator.new currentExtentEnv sampleReader sampleRoot .extents sampleWorld =
      .ok (currentIt, currentStart) ∧
    Nth (Returns currentExtentEnv sampleReader) (currentIt, currentStart) 0
      ⟨currentAfter.1.iter, 160⟩ currentAfter ∧
    StoredLocal extentFormat (packedExtentImage.window 512 512) 160 keyTypeExtent extentFields
      extentValue ∧
    StoredCurrent zeroFormat (currentExtentImage.window 512 512) 160 keyTypeExtent extentFields
      extentValue ∧
    ¬LocatedAlike 16 8 keyTypeExtent
      (packedAfter.1.extend packedAfter.2 (some ⟨packedAfter.1.iter, 160⟩))
      (currentAfter.1.extend currentAfter.2 (some ⟨currentAfter.1.iter, 160⟩)) := by
  rcases single_nth .extents sampleMounted samplePointed sampleTarget packedExtentSingle
    (rfl : [160][0]? = some 160) with ⟨packedIt, packedStart, packedAfter, made, found, packedAt⟩
  rcases single_nth .extents sampleMounted samplePointed sampleTarget currentExtentSingle
    (rfl : [160][0]? = some 160) with
    ⟨currentIt, currentStart, currentAfter, currentMade, currentFound, currentAt⟩
  refine ⟨packedIt, packedStart, packedAfter, currentIt, currentStart, currentAfter, made, found,
    currentMade, currentFound, packedExtentStored, currentExtentStored, ?_⟩
  rintro ⟨first, _, returned, _, start, _⟩
  obtain ⟨decoded, parsed, _⟩ := parseBkey_local packedExtentStored
  have offset : BKey.offset (packedExtentImage.window 512 512) 160 = .ok 4096 := rfl
  have size : BKey.size (packedExtentImage.window 512 512) 160 = .ok 16 := rfl
  rcases packedAt.extend_record packedExtentStored.stored packedExtentStored.loaded
    packedExtentStored.getValue ⟨decoded, parsed⟩ offset size (Or.inl ⟨rfl, by decide⟩) with
    ⟨record, outcome, raw, _⟩
  cases outcome.symm.trans returned
  rw [raw] at start
  exact absurd start (by decide)

theorem extend_encodings_iff_sample : ∃ packedIt packedWorld currentIt currentWorld,
    AtNode packedWorld packedIt (packedExtentImage.window 512 512) ∧
    AtNode currentWorld currentIt (currentExtentImage.window 512 512) ∧
    (LocatedAlike 16 8 keyTypeExtent
        (packedIt.extend packedWorld (some ⟨packedIt.iter, 160⟩))
        (currentIt.extend currentWorld (some ⟨currentIt.iter, 160⟩)) ↔
      RawFieldsAgree (packedExtentImage.window 512 512) 160 keyTypeExtent 16 8) := by
  rcases single_nth .extents sampleMounted samplePointed sampleTarget packedExtentSingle
    (rfl : [160][0]? = some 160) with ⟨_, _, packedAfter, _, _, packedAt⟩
  rcases single_nth .extents sampleMounted samplePointed sampleTarget currentExtentSingle
    (rfl : [160][0]? = some 160) with ⟨_, _, currentAfter, _, _, currentAt⟩
  exact ⟨packedAfter.1, packedAfter.2, currentAfter.1, currentAfter.2, packedAt, currentAt,
    extend_encodings_iff packedAt currentAt packedExtentStored currentExtentStored
      (Or.inl ⟨rfl, by decide⟩) (by decide)⟩

end Bcachefs
