import Bcachefs.Encoding

/-! What `parse_bkey` makes of the keys that the packing rule writes. -/

namespace Bcachefs

open ByteString Iteration BitFields

abbrev decodableWidths : List Nat := [0, 8, 16, 32, 64]

namespace BKeyLocal

theorem setField_inode {field : Fin 6} (other : field ≠ bkeyFieldInode) (ret : BKeyLocal)
    (value : Nat) : (ret.setField field value).inode = ret.inode := by
  unfold setField
  split
  · exact absurd rfl other
  all_goals rfl

theorem benz_ok {block : Bytes} {bytes : Int} {width : Nat} (lower : 0 ≤ bytes)
    (upper : bytes + (width / 8 : Nat) ≤ block.size) :
    ∃ value, benzUintXXAsUint64 block bytes width = .ok value := by
  unfold benzUintXXAsUint64
  split
  · rw [if_neg (by omega)]
    exact ⟨_, load_inside (by omega)⟩
  · exact ⟨_, rfl⟩

theorem parseField_ok {block : Bytes} {format : BKeyFormat} {field : Fin 6} {cursor : Int}
    (ret : BKeyLocal) (lower : 0 ≤ cursor - (format.bitsPerField field / 8 : Nat))
    (upper : cursor ≤ block.size) :
    ∃ after, parseField block format field (cursor, ret) =
        .ok (cursor - (format.bitsPerField field / 8 : Nat), after) ∧
      (field ≠ bkeyFieldInode → after.inode = ret.inode) := by
  unfold parseField
  dsimp only
  split
  · rename_i empty
    exact ⟨ret, by simp [empty], fun _ => rfl⟩
  · have inside : cursor - (format.bitsPerField field / 8 : Nat) +
        (format.bitsPerField field / 8 : Nat) ≤ block.size := by omega
    obtain ⟨value, read⟩ := benz_ok lower inside
    rw [read, ok_bind]
    exact ⟨_, rfl, fun other => setField_inode other ret value⟩

theorem parseFields_ok {block : Bytes} {key word : Nat} {format : BKeyFormat}
    {stored : Fin 6 → Nat} {fields : List (Fin 6)} {top : Nat} {cursor : Int} (ret : BKeyLocal)
    (stacked : Stacked format.bitsPerField stored word 24 top fields)
    (lower : (key : Int) * 8 + top ≤ cursor * 8) (upper : cursor ≤ block.size) :
    ∃ last after, fields.foldlM (fun state field => parseField block format field state)
        (cursor, ret) = .ok (last, after) ∧
      (bkeyFieldInode ∉ fields → after.inode = ret.inode) := by
  -- the cursor stays above the header because the fields still to be read fit above it
  induction fields generalizing top cursor ret with
  | nil => exact ⟨cursor, ret, rfl, fun _ => rfl⟩
  | cons field fields ih =>
      obtain ⟨fits, _, rest⟩ := stacked
      have header := rest.low_le
      have positive : 0 ≤ cursor - (format.bitsPerField field / 8 : Nat) := by omega
      obtain ⟨middle, parsed, kept⟩ := parseField_ok ret positive upper
      rcases @ih _ (cursor - (format.bitsPerField field / 8 : Nat)) middle rest (by omega)
        (by omega) with ⟨last, after, others, keptLater⟩
      refine ⟨last, after, ?_, ?_⟩
      · rw [List.foldlM_cons, parsed, ok_bind]
        exact others
      · intro absent
        rw [keptLater (fun later => absent (List.mem_cons_of_mem _ later)),
          kept (fun same => absent (same ▸ List.mem_cons_self))]

def decodedField (width value : Nat) : Nat := if width ∈ decodableWidths then value else 2 ^ 64 - 1

theorem benz_stacked {block : Bytes} {key words top width value : Nat} (positive : width ≠ 0)
    (fits : width ≤ top) (aligned : top % 8 = 0) (within : top ≤ words * 8)
    (inside : key + words ≤ block.size)
    (holds : block.number words key / 2 ^ (top - width) % 2 ^ width = value) :
    benzUintXXAsUint64 block (((key + top / 8 : Nat) : Int) - (width / 8 : Nat)) width =
      .ok (decodedField width value) := by
  unfold benzUintXXAsUint64
  by_cases decodable : width ∈ decodableWidths
  · have choice : width = 64 ∨ width = 32 ∨ width = 16 ∨ width = 8 := by
      simp only [List.mem_cons, List.not_mem_nil, or_false] at decodable
      omega
    have low : top - width = 8 * ((top - width) / 8) := by omega
    have bytes : width = 8 * (width / 8) := by omega
    have start : (((key + top / 8 : Nat) : Int) - (width / 8 : Nat)).toNat =
        key + (top - width) / 8 := by omega
    have part := @Bytes.number_part block words ((top - width) / 8) (width / 8) key (by omega)
    rw [show (256 : Nat) = 2 ^ 8 by rfl, ← pow_mul, ← pow_mul, ← low, ← bytes, holds] at part
    rw [if_pos choice, if_neg (by omega), start, decodedField, if_pos decodable, part]
    exact load_inside (by omega)
  · have other : ¬(width = 64 ∨ width = 32 ∨ width = 16 ∨ width = 8) := by
      simp only [List.mem_cons, List.not_mem_nil, or_false] at decodable
      omega
    rw [if_neg other, decodedField, if_neg decodable]

theorem parseField_stacked {block : Bytes} {key words low top : Nat} {format : BKeyFormat}
    {field : Fin 6} {rest : List (Fin 6)} {stored : Fin 6 → Nat} (ret : BKeyLocal)
    (stacked : Stacked format.bitsPerField stored (block.number words key) low top (field :: rest))
    (aligned : top % 8 = 0) (within : top ≤ words * 8) (inside : key + words ≤ block.size) :
    parseField block format field (((key + top / 8 : Nat) : Int), ret) =
      .ok (((key + top / 8 : Nat) : Int) - (format.bitsPerField field / 8 : Nat),
        if format.bitsPerField field = 0 then ret
        else ret.setField field (decodedField (format.bitsPerField field) (stored field))) := by
  obtain ⟨fits, holds, _⟩ := stacked
  unfold parseField
  dsimp only
  by_cases empty : format.bitsPerField field = 0
  · rw [if_pos empty, if_pos empty]
    simp [empty]
  · rw [if_neg empty, if_neg empty,
      benz_stacked empty fits aligned within inside holds, ok_bind]
    rfl

end BKeyLocal

section

variable {node value : Bytes} {key type : Nat} {format : BKeyFormat} {fields : Fin 6 → Nat}

theorem Stored.words_inside {keyFormat keyU64s : Nat}
    (stored : Stored node key keyFormat keyU64s type value) :
    key + keyU64s * u64sSize ≤ node.size :=
  Nat.le_trans (Nat.le_add_right _ _) stored.inside

theorem Stored.needsWhiteout {keyFormat keyU64s : Nat}
    (stored : Stored node key keyFormat keyU64s type value) :
    ∃ flag, BKey.needsWhiteout node key = .ok flag := by
  obtain ⟨byte, read, _⟩ := bind_eq_ok.mp stored.keyFormat
  exact ⟨_, by rw [BKey.needsWhiteout, read]; rfl⟩

theorem Packed.stored (packed : Packed format node key fields)
    (zero : format.fieldOffset = fun _ => 0) :
    Stacked format.bitsPerField fields (node.number (format.keyU64s * u64sSize) key) 24
      (format.keyU64s * 64) (List.finRange 6) := by
  have stacked := packed.stacked
  simpa only [zero, Nat.sub_zero] using stacked

def decodedInode (format : BKeyFormat) (fields : Fin 6 → Nat) : Nat :=
  if format.bitsPerField bkeyFieldInode ∈ decodableWidths then fields bkeyFieldInode
  else 2 ^ 64 - 1

theorem parseField_inode (packed : Packed format node key fields)
    (zero : format.fieldOffset = fun _ => 0)
    (inside : key + format.keyU64s * u64sSize ≤ node.size) (ret : BKeyLocal)
    (cleared : ret.inode = 0) :
    ∃ after, BKeyLocal.parseField node format bkeyFieldInode
        (((key + format.keyU64s * u64sSize : Nat) : Int), ret) =
          .ok (((key + format.keyU64s * u64sSize : Nat) : Int) -
            (format.bitsPerField bkeyFieldInode / 8 : Nat), after) ∧
      after.inode = decodedInode format fields := by
  have stacked := packed.stored zero
  rw [finRange_fields] at stacked
  have below := stacked.value_lt
  have top : format.keyU64s * u64sSize = format.keyU64s * 64 / 8 := by
    simp only [u64sSize]
    omega
  have parsed := BKeyLocal.parseField_stacked ret stacked (by omega)
    (by simp only [u64sSize]; omega) inside
  rw [top]
  refine ⟨_, parsed, ?_⟩
  by_cases empty : format.bitsPerField bkeyFieldInode = 0
  · have none : fields bkeyFieldInode = 0 := by simpa [empty] using below
    rw [if_pos empty, decodedInode, if_pos (by simp [empty]), none, cleared]
  · rw [if_neg empty]
    rfl

theorem parseBkey_general (stored : StoredLocal format node key type fields value)
    (zero : format.fieldOffset = fun _ => 0) (general : format ≠ bkeyFormatShort) :
    ∃ parsed, parseBkey node key format = .ok parsed ∧
      parsed.inode = decodedInode format fields := by
  obtain ⟨words, read, _⟩ := stored.stored.u64s
  obtain ⟨flag, flagged⟩ := stored.stored.needsWhiteout
  have inside := stored.stored.words_inside
  have stacked := stored.packed.stacked
  rw [finRange_fields] at stacked
  let ret : BKeyLocal :=
    { u64s := words, format := keyFormatLocalBtree, needsWhiteout := flag, type := type
      versionHi := 0, versionLo := 0, size := 0, snapshot := 0, offset := 0, inode := 0
      keyU64s := 0 }
  obtain ⟨middle, first, inode⟩ := parseField_inode stored.packed zero inside ret rfl
  have lower : (key : Int) * 8 + (format.keyU64s * 64 - format.bitsPerField bkeyFieldInode : Nat) ≤
      (((key + format.keyU64s * u64sSize : Nat) : Int) -
        (format.bitsPerField bkeyFieldInode / 8 : Nat)) * 8 := by
    have fits := stacked.1
    simp only [u64sSize]
    omega
  have upper : ((key + format.keyU64s * u64sSize : Nat) : Int) -
      (format.bitsPerField bkeyFieldInode / 8 : Nat) ≤ node.size := by omega
  obtain ⟨last, after, others, kept⟩ := BKeyLocal.parseFields_ok middle stacked.2.2 lower upper
  have absent : bkeyFieldInode ∉ laterFields := by decide
  refine ⟨{ after with keyU64s := format.keyU64s }, ?_, (kept absent).trans inode⟩
  have loop : (List.finRange 6).foldlM
      (fun state field => BKeyLocal.parseField node format field state)
      ((key : Int) + format.keyU64s * u64sSize, ret) = .ok (last, after) := by
    have stop : (key : Int) + format.keyU64s * u64sSize =
        ((key + format.keyU64s * u64sSize : Nat) : Int) := by push_cast; rfl
    rw [finRange_fields, List.foldlM_cons, stop, first, ok_bind]
    exact others
  simp only [parseBkey, read, stored.stored.keyFormat, flagged, stored.stored.type, ok_bind,
    general, and_false, if_false, zero, and_self, if_true]
  rw [loop]
  rfl

theorem parseBkey_short (stored : StoredLocal bkeyFormatShort node key type fields value) :
    ∃ parsed, parseBkey node key bkeyFormatShort = .ok parsed ∧
      parsed.inode = fields bkeyFieldInode := by
  obtain ⟨words, read, _⟩ := stored.stored.u64s
  obtain ⟨flag, flagged⟩ := stored.stored.needsWhiteout
  have inside : key + 24 ≤ node.size := stored.stored.words_inside
  have stacked := stored.packed.stored rfl
  have bytes : node.number 8 (key + 16) = fields bkeyFieldInode :=
    (@Bytes.number_part node 24 16 8 key (by decide)).symm.trans stacked.2.1
  have snapshot : load node 4 (key + 4) = .ok _ := load_inside (by omega)
  have offset : load node 8 (key + 8) = .ok _ := load_inside (by omega)
  have inode : load node 8 (key + 16) = .ok _ := load_inside (by omega)
  simp only [parseBkey, read, stored.stored.keyFormat, flagged, stored.stored.type, ok_bind,
    and_self, if_true, snapshot, offset, inode]
  exact ⟨_, rfl, bytes⟩

theorem parseBkey_offsets (stored : StoredLocal format node key type fields value)
    (offsets : format.fieldOffset ≠ fun _ => 0) :
    ∃ parsed, parseBkey node key format = .ok parsed ∧ parsed.inode = 0 := by
  obtain ⟨words, read, _⟩ := stored.stored.u64s
  obtain ⟨flag, flagged⟩ := stored.stored.needsWhiteout
  have other : format ≠ bkeyFormatShort := by
    rintro rfl
    exact offsets rfl
  have local_ : ¬keyFormatLocalBtree = keyFormatCurrent := by decide
  simp only [parseBkey, read, stored.stored.keyFormat, flagged, stored.stored.type, ok_bind,
    other, and_false, if_false, offsets, local_]
  exact ⟨_, rfl, rfl⟩

theorem parseBkey_current (stored : StoredCurrent format node key type fields value) :
    ∃ parsed, parseBkey node key format = .ok parsed ∧
      parsed.inode = fields bkeyFieldInode := by
  obtain ⟨words, read, _⟩ := stored.stored.u64s
  obtain ⟨flag, flagged⟩ := stored.stored.needsWhiteout
  have current : ¬keyFormatCurrent = keyFormatLocalBtree := by decide
  simp only [parseBkey, read, stored.stored.keyFormat, flagged, stored.stored.type, ok_bind,
    current, false_and, if_false, if_true, stored.versionHi, stored.versionLo, stored.size,
    stored.snapshot, stored.offset, stored.inode]
  exact ⟨_, rfl, rfl⟩

theorem parseBkey_local (stored : StoredLocal format node key type fields value) :
    ∃ parsed, parseBkey node key format = .ok parsed ∧
      parsed.inode = if format.fieldOffset = fun _ => 0 then decodedInode format fields else 0 := by
  by_cases zero : format.fieldOffset = fun _ => 0
  · rw [if_pos zero]
    by_cases short : format = bkeyFormatShort
    · subst short
      obtain ⟨parsed, returned, inode⟩ := parseBkey_short stored
      exact ⟨parsed, returned, inode⟩
    · exact parseBkey_general stored zero short
  · rw [if_neg zero]
    exact parseBkey_offsets stored zero

end

inductive StoredKey (format : BKeyFormat) (node : Bytes) (key type : Nat) (value : Bytes) : Prop
  | packed {fields} : StoredLocal format node key type fields value →
      StoredKey format node key type value
  | current {fields} : StoredCurrent format node key type fields value →
      StoredKey format node key type value

theorem StoredKey.read {node value : Bytes} {key type : Nat} {format : BKeyFormat}
    (stored : StoredKey format node key type value) :
    BTreeNode.loadFormat node = .ok format ∧
      (∃ parsed, parseBkey node key format = .ok parsed) ∧
      ∃ keyFormat keyU64s, Stored node key keyFormat keyU64s type value ∧
        getValue node node key = .ok (key + keyU64s * u64sSize) := by
  cases stored with
  | packed stored =>
      obtain ⟨parsed, returned, _⟩ := parseBkey_local stored
      exact ⟨stored.loaded, ⟨parsed, returned⟩, _, _, stored.stored, stored.getValue⟩
  | current stored =>
      obtain ⟨parsed, returned, _⟩ := parseBkey_current stored
      exact ⟨stored.loaded, ⟨parsed, returned⟩, _, _, stored.stored, stored.getValue⟩

end Bcachefs
