import Mathlib.Tactic.FinCases
import Bcachefs.ParseKey

/-! `parse_bkey` as the inverse of the packing rule, on the formats it supports. -/

namespace Bcachefs

open ByteString Iteration BitFields

namespace BKeyLocal

def fields (ret : BKeyLocal) : Fin 6 → Nat :=
  ![ret.inode, ret.offset, ret.snapshot, ret.size, ret.versionHi, ret.versionLo]

def memberBits : Fin 6 → Nat := ![64, 64, 32, 32, 32, 64]

theorem fields_setField {field : Fin 6} {value : Nat} (ret : BKeyLocal)
    (typed : value < 2 ^ memberBits field) :
    (ret.setField field value).fields = Function.update ret.fields field value := by
  have narrow : ∀ {bits}, value < 2 ^ bits → value % 2 ^ bits = value := Nat.mod_eq_of_lt
  funext other
  fin_cases field <;> fin_cases other <;>
    first
    | rfl
    | exact narrow typed

theorem parseFields_stacked {block : Bytes} {key words low top : Nat} {format : BKeyFormat}
    {listed : List (Fin 6)} {stored : Fin 6 → Nat}
    (supported : ∀ field, format.bitsPerField field ∈ decodableWidths)
    (typed : ∀ field, stored field < 2 ^ memberBits field) (ret : BKeyLocal)
    (stacked : Stacked format.bitsPerField stored (block.number words key) low top listed)
    (aligned : top % 8 = 0) (within : top ≤ words * 8) (inside : key + words ≤ block.size)
    (distinct : listed.Nodup) (cleared : ∀ field ∈ listed, ret.fields field = 0) :
    ∃ last after, listed.foldlM (fun state field => parseField block format field state)
        (((key + top / 8 : Nat) : Int), ret) = .ok (last, after) ∧
      ∀ field, after.fields field = if field ∈ listed then stored field else ret.fields field := by
  induction listed generalizing top ret with
  | nil => exact ⟨_, ret, rfl, fun _ => rfl⟩
  | cons field listed ih =>
      have parsed := parseField_stacked ret stacked aligned within inside
      have below := stacked.value_lt
      obtain ⟨fits, _, rest⟩ := stacked
      obtain ⟨absent, distinctRest⟩ := List.nodup_cons.mp distinct
      have width := supported field
      simp only [List.mem_cons, List.not_mem_nil, or_false] at width
      have cursor : ((key + top / 8 : Nat) : Int) - (format.bitsPerField field / 8 : Nat) =
          ((key + (top - format.bitsPerField field) / 8 : Nat) : Int) := by omega
      generalize entered : (if format.bitsPerField field = 0 then ret
        else ret.setField field (decodedField (format.bitsPerField field) (stored field))) = middle
        at parsed
      have stepped : middle.fields = Function.update ret.fields field (stored field) := by
        rw [← entered]
        split
        · rename_i empty
          have zero : stored field = 0 := by simpa [empty] using below
          rw [zero, ← cleared field List.mem_cons_self, Function.update_eq_self]
        · rw [decodedField, if_pos (supported field), fields_setField ret (typed field)]
      have clearedRest : ∀ later ∈ listed, middle.fields later = 0 := by
        intro later member
        have other : later ≠ field := fun same => absent (same ▸ member)
        rw [stepped, Function.update_of_ne other]
        exact cleared later (List.mem_cons_of_mem _ member)
      obtain ⟨last, after, folded, values⟩ :=
        ih middle rest (by omega) (by omega) distinctRest clearedRest
      refine ⟨last, after, ?_, fun other => ?_⟩
      · rw [List.foldlM_cons, parsed, ok_bind, cursor]
        exact folded
      · rw [values other, stepped]
        by_cases same : other = field
        · subst same
          rw [if_neg absent, if_pos List.mem_cons_self, Function.update_self]
        · simp [same]

end BKeyLocal

def bkeyHeader (block : Bytes) (key : Nat) : Result BKeyLocal := do
  let u64s ← BKey.u64s block key
  let keyFormat ← BKey.format block key
  let needsWhiteout ← BKey.needsWhiteout block key
  let type ← BKey.type block key
  return { u64s := u64s, format := keyFormat, needsWhiteout := needsWhiteout, type := type
           versionHi := 0, versionLo := 0, size := 0, snapshot := 0, offset := 0, inode := 0
           keyU64s := 0 }

def fieldLoop (block : Bytes) (key : Nat) (format : BKeyFormat) (ret : BKeyLocal) :
    Result BKeyLocal := do
  let stop : Int := key + format.keyU64s * u64sSize
  let (_, ret) ← (List.finRange 6).foldlM
    (fun state field => BKeyLocal.parseField block format field state) (stop, ret)
  return { ret with keyU64s := format.keyU64s }

structure PackedAt (format : BKeyFormat) (node : Bytes) (key : Nat) (fields : Fin 6 → Nat) :
    Prop where
  keyFormat : BKey.format node key = .ok keyFormatLocalBtree
  inside : key + format.keyU64s * u64sSize ≤ node.size
  packed : Packed format node key fields

structure CurrentAt (node : Bytes) (key : Nat) (fields : Fin 6 → Nat) : Prop where
  keyFormat : BKey.format node key = .ok keyFormatCurrent
  inode : BKey.inode node key = .ok (fields bkeyFieldInode)
  offset : BKey.offset node key = .ok (fields bkeyFieldOffset)
  snapshot : BKey.snapshot node key = .ok (fields bkeyFieldSnapshot)
  size : BKey.size node key = .ok (fields bkeyFieldSize)
  versionHi : BKey.versionHi node key = .ok (fields bkeyFieldVersionHi)
  versionLo : BKey.versionLo node key = .ok (fields bkeyFieldVersionLo)

section

variable {node other : Bytes} {key : Nat} {format : BKeyFormat} {fields : Fin 6 → Nat}

theorem bkeyHeader_ok {keyFormat : Nat} (typed : BKey.format node key = .ok keyFormat)
    (inside : key + 3 ≤ node.size) :
    ∃ ret, bkeyHeader node key = .ok ret ∧ ret.fields = fun _ => 0 := by
  obtain ⟨byte, read, _⟩ := bind_eq_ok.mp typed
  have u64s : BKey.u64s node key = .ok _ := load_inside (by omega)
  have type : BKey.type node key = .ok _ := load_inside (by omega)
  have whiteout : BKey.needsWhiteout node key = .ok (byte / 2 ^ 7) := by
    rw [BKey.needsWhiteout, read]
    rfl
  refine ⟨_, by rw [bkeyHeader, u64s, ok_bind, typed, ok_bind, whiteout, ok_bind, type]; rfl, ?_⟩
  funext field
  fin_cases field <;> rfl

theorem parseBkey_loop (typed : BKey.format node key = .ok keyFormatLocalBtree)
    (zero : format.fieldOffset = fun _ => 0) (general : format ≠ bkeyFormatShort) :
    parseBkey node key format = bkeyHeader node key >>= fieldLoop node key format := by
  simp only [parseBkey, bkeyHeader, fieldLoop, typed, ok_bind, general, and_false, if_false, zero,
    and_self, if_true, bind_assoc, pure_bind]

theorem parseField_load {block : Bytes} {cursor width : Nat} {field : Fin 6}
    (bits : format.bitsPerField field = width) (decodable : width ∈ [8, 16, 32, 64])
    (room : width / 8 ≤ cursor) (ret : BKeyLocal) :
    BKeyLocal.parseField block format field ((cursor : Int), ret) = (do
      let value ← load block (width / 8) (cursor - width / 8)
      return (((cursor - width / 8 : Nat) : Int), ret.setField field value)) := by
  simp only [List.mem_cons, List.not_mem_nil, or_false] at decodable
  have start : (cursor : Int) - (width / 8 : Nat) = ((cursor - width / 8 : Nat) : Int) := by omega
  unfold BKeyLocal.parseField benzUintXXAsUint64
  dsimp only
  rw [bits, if_neg (by omega), if_pos (by omega), start, if_neg (by omega), Int.toNat_natCast]

theorem fieldLoop_short (block : Bytes) (key : Nat) (ret : BKeyLocal) :
    fieldLoop block key bkeyFormatShort ret = (do
      let inode ← load block 8 (key + 16)
      let offset ← load block 8 (key + 8)
      let snapshot ← load block 4 (key + 4)
      return { ret with inode := inode, offset := offset, snapshot := wrap32 snapshot
                        keyU64s := 3 }) := by
  have stop : (key : Int) + bkeyFormatShort.keyU64s * u64sSize = ((key + 24 : Nat) : Int) := rfl
  have inode := fun ret => @parseField_load bkeyFormatShort block (key + 24) 64 bkeyFieldInode
    rfl (by decide) (by omega) ret
  have offset := fun ret => @parseField_load bkeyFormatShort block (key + 16) 64 bkeyFieldOffset
    rfl (by decide) (by omega) ret
  have snapshot := fun ret => @parseField_load bkeyFormatShort block (key + 8) 32
    bkeyFieldSnapshot rfl (by decide) (by omega) ret
  simp only [Nat.reduceDiv, Nat.reduceSubDiff] at inode offset snapshot
  rw [fieldLoop, stop, finRange_fields, List.foldlM_cons, inode]
  simp only [laterFields, List.foldlM_cons, offset, snapshot, bind_assoc, pure_bind]
  rfl

theorem load_outside {block : Bytes} {count index : Nat} (outside : block.size < index + count) :
    load block count index = .error .outOfBounds := by
  rw [load, if_neg (by omega)]

theorem parseBkey_shortcut (typed : BKey.format node key = .ok keyFormatLocalBtree) :
    parseBkey node key bkeyFormatShort =
      bkeyHeader node key >>= fieldLoop node key bkeyFormatShort := by
  simp only [parseBkey, bkeyHeader, fieldLoop_short, typed, ok_bind, and_self, if_true, bind_assoc,
    pure_bind]
  congr 1; funext u64s
  congr 1; funext flag
  congr 1; funext type
  by_cases inside : key + 24 ≤ node.size
  · have snapshot : load node 4 (key + 4) = .ok _ := load_inside (by omega)
    have offset : load node 8 (key + 8) = .ok _ := load_inside (by omega)
    have inode : load node 8 (key + 16) = .ok _ := load_inside (by omega)
    have narrow : wrap32 (node.number 4 (key + 4)) = node.number 4 (key + 4) :=
      Nat.mod_eq_of_lt (Bytes.number_lt node 4 (key + 4))
    simp only [snapshot, offset, inode, ok_bind, narrow]
    rfl
  · -- the reads come in another order, but every one outside the block fails alike
    have inode : load node 8 (key + 16) = .error .outOfBounds := load_outside (by omega)
    rw [inode, error_bind]
    by_cases second : key + 16 ≤ node.size
    · have snapshot : load node 4 (key + 4) = .ok _ := load_inside (by omega)
      have offset : load node 8 (key + 8) = .ok _ := load_inside (by omega)
      rw [snapshot, ok_bind, offset, ok_bind, error_bind]
    · have offset : load node 8 (key + 8) = .error .outOfBounds := load_outside (by omega)
      rw [offset]
      unfold load
      split <;> rfl

theorem PackedAt.words (packed : PackedAt format node key fields) : 24 ≤ format.keyU64s * 64 :=
  packed.packed.stacked.low_le

theorem PackedAt.branch (packed : PackedAt format node key fields)
    (zero : format.fieldOffset = fun _ => 0) :
    parseBkey node key format = bkeyHeader node key >>= fieldLoop node key format := by
  by_cases short : format = bkeyFormatShort
  · rw [short]
    exact parseBkey_shortcut packed.keyFormat
  · exact parseBkey_loop packed.keyFormat zero short

theorem PackedAt.parsed (packed : PackedAt format node key fields)
    (zero : format.fieldOffset = fun _ => 0)
    (supported : ∀ field, format.bitsPerField field ∈ decodableWidths)
    (typed : ∀ field, fields field < 2 ^ BKeyLocal.memberBits field) :
    ∃ parsed, parseBkey node key format = .ok parsed ∧ parsed.fields = fields ∧
      parsed.keyU64s = format.keyU64s := by
  have words := packed.words
  have inside := packed.inside
  simp only [u64sSize] at inside
  obtain ⟨ret, header, cleared⟩ := bkeyHeader_ok packed.keyFormat (by omega)
  have top : format.keyU64s * 64 / 8 = format.keyU64s * u64sSize := by
    simp only [u64sSize]
    omega
  rcases BKeyLocal.parseFields_stacked supported typed ret (packed.packed.stored zero) (by omega)
    (by simp only [u64sSize]; omega) packed.inside (List.nodup_finRange 6)
    (fun field _ => by rw [cleared]) with ⟨last, after, folded, values⟩
  rw [top] at folded
  refine ⟨{ after with keyU64s := format.keyU64s }, ?_, ?_, rfl⟩
  · have stop : (key : Int) + format.keyU64s * u64sSize =
        ((key + format.keyU64s * u64sSize : Nat) : Int) := by push_cast; rfl
    rw [packed.branch zero, header, ok_bind, fieldLoop, stop, folded]
    rfl
  · funext field
    exact (values field).trans (if_pos (List.mem_finRange field))

theorem CurrentAt.parsed (current : CurrentAt node key fields) (format : BKeyFormat) :
    ∃ parsed, parseBkey node key format = .ok parsed ∧ parsed.fields = fields ∧
      parsed.keyU64s = bkeyU64s := by
  have inside := (load_ok.mp current.inode).1
  have u64s : BKey.u64s node key = .ok _ := load_inside (by omega)
  have type : BKey.type node key = .ok _ := load_inside (by omega)
  obtain ⟨byte, read, _⟩ := bind_eq_ok.mp current.keyFormat
  have whiteout : BKey.needsWhiteout node key = .ok (byte / 2 ^ 7) := by
    rw [BKey.needsWhiteout, read]
    rfl
  have other : ¬keyFormatCurrent = keyFormatLocalBtree := by decide
  simp only [parseBkey, u64s, current.keyFormat, whiteout, type, ok_bind, other, false_and,
    if_false, if_true, current.versionHi, current.versionLo, current.size, current.snapshot,
    current.offset, current.inode]
  refine ⟨_, rfl, ?_, rfl⟩
  funext field
  fin_cases field <;> rfl

def SameBetween (left right : Bytes) (start stop : Nat) : Prop :=
  ∀ index, start ≤ index → index < stop → left.byte index = right.byte index

theorem PackedAt.of_same (packed : PackedAt format node key fields)
    (same : SameBetween node other (key + 3) (key + format.keyU64s * u64sSize))
    (inside : key + format.keyU64s * u64sSize ≤ other.size)
    (typed : BKey.format other key = .ok keyFormatLocalBtree) :
    PackedAt format other key fields := by
  have words := packed.words
  have split : format.keyU64s * u64sSize = 3 + (format.keyU64s * u64sSize - 3) := by
    simp only [u64sSize]
    omega
  have tail : node.number (format.keyU64s * u64sSize - 3) (key + 3) =
      other.number (format.keyU64s * u64sSize - 3) (key + 3) :=
    Bytes.number_congr fun index lower upper => same index lower (by omega)
  have high : ∀ block : Bytes, block.number (format.keyU64s * u64sSize) key / 2 ^ 24 =
      block.number (format.keyU64s * u64sSize - 3) (key + 3) := by
    intro block
    have low := block.number_lt 3 key
    rw [split, Bytes.number_add, Nat.add_sub_cancel_left]
    omega
  refine ⟨typed, inside, packed.packed.offsets, packed.packed.stacked.of_high ?_⟩
  rw [high, high, tail]

theorem PackedAt.value (packed : PackedAt format node key fields) {btree : Bytes}
    (loaded : BTreeNode.loadFormat btree = .ok format) :
    getValue btree node key = .ok (key + format.keyU64s * u64sSize) := by
  rw [getValue, loaded, ok_bind, packed.keyFormat]
  rfl

theorem CurrentAt.value (current : CurrentAt node key fields) {btree : Bytes}
    (loaded : BTreeNode.loadFormat btree = .ok format) :
    getValue btree node key = .ok (key + bkeyU64s * u64sSize) := by
  rw [getValue, loaded, ok_bind, current.keyFormat]
  rfl

/-- The result on a packed key: its fields, the same through every branch and from
every encoding, decided by the key's own bytes above the header, and the key's length. -/
structure Inverts (format : BKeyFormat) (node : Bytes) (key : Nat) (fields : Fin 6 → Nat)
    (parsed : BKeyLocal) : Prop where
  returned : parseBkey node key format = .ok parsed
  inverse : parsed.fields = fields
  loop : (bkeyHeader node key >>= fieldLoop node key format) = .ok parsed
  value : ∀ btree, BTreeNode.loadFormat btree = .ok format →
    getValue btree node key = .ok (key + parsed.keyU64s * u64sSize)
  current : ∀ other position currentFormat, CurrentAt other position fields →
    ∃ again, parseBkey other position currentFormat = .ok again ∧
      again.fields = parsed.fields ∧
      ∀ btree, BTreeNode.loadFormat btree = .ok currentFormat →
        getValue btree other position = .ok (position + again.keyU64s * u64sSize)
  confined : ∀ other, SameBetween node other (key + 3) (key + format.keyU64s * u64sSize) →
    key + format.keyU64s * u64sSize ≤ other.size →
    BKey.format other key = .ok keyFormatLocalBtree →
    ∃ again, parseBkey other key format = .ok again ∧ again.fields = parsed.fields

/-- On every supported format `parse_bkey` inverts the packing of every key. -/
theorem parseBkey_inverts (zero : format.fieldOffset = fun _ => 0)
    (supported : ∀ field, format.bitsPerField field ∈ decodableWidths)
    (typed : ∀ field, fields field < 2 ^ BKeyLocal.memberBits field)
    (packed : PackedAt format node key fields) :
    ∃ parsed, Inverts format node key fields parsed := by
  obtain ⟨parsed, returned, read, length⟩ := packed.parsed zero supported typed
  refine ⟨parsed, returned, read, ?_, ?_, ?_, ?_⟩
  · rw [← packed.branch zero]
    exact returned
  · intro btree loaded
    rw [length]
    exact packed.value loaded
  · intro other position currentFormat current
    obtain ⟨again, found, same, words⟩ := current.parsed currentFormat
    refine ⟨again, found, same.trans read.symm, fun btree loaded => ?_⟩
    rw [words]
    exact current.value loaded
  · intro other same inside kind
    obtain ⟨again, found, equal, _⟩ := (packed.of_same same inside kind).parsed zero supported typed
    exact ⟨again, found, equal.trans read.symm⟩

end

def packKey (format : BKeyFormat) (header : Nat) (fields : Fin 6 → Nat) : Bytes :=
  Bytes.ofNumber (format.keyU64s * u64sSize)
    (pack format.bitsPerField fields (format.keyU64s * 64) (List.finRange 6) + header)

theorem packKey_at {format : BKeyFormat} {header : Nat} {fields : Fin 6 → Nat}
    (zero : format.fieldOffset = fun _ => 0)
    (fits : ∀ field, fields field < 2 ^ format.bitsPerField field)
    (room : 24 + ((List.finRange 6).map format.bitsPerField).sum ≤ format.keyU64s * 64)
    (small : header < 2 ^ 24) (kind : header / 2 ^ 8 % 2 ^ 7 = keyFormatLocalBtree) :
    PackedAt format (packKey format header fields) 0 fields := by
  have whole : 256 ^ (format.keyU64s * u64sSize) = 2 ^ (format.keyU64s * 64) := by
    rw [show (256 : Nat) = 2 ^ 8 by rfl, ← pow_mul]
    congr 1
    simp only [u64sSize]
    omega
  have below := pack_le (fun field (_ : field ∈ List.finRange 6) => fits field) room
  obtain ⟨multiple, product⟩ := pack_dvd room
  have words := Nat.le_trans (Nat.le_add_right _ _) room
  refine ⟨?_, by rw [Nat.zero_add]; exact Nat.le_refl _, ?_, ?_⟩
  · have byte : (packKey format header fields).number 1 1 = header / 2 ^ 8 % 2 ^ 8 := by
      rw [packKey, Bytes.number_ofNumber (by simp only [u64sSize]; omega), product]
      omega
    have read : load (packKey format header fields) 1 (0 + 1) = .ok _ :=
      load_inside (by simp only [packKey, Bytes.ofNumber, Bytes.ofFn_size, u64sSize]; omega)
    rw [BKey.format, read, ok_bind, byte]
    change Except.ok _ = _
    congr 1
    omega
  · intro field
    rw [zero]
    exact Nat.zero_le _
  · have word : (packKey format header fields).number (format.keyU64s * u64sSize) 0 =
        0 * 2 ^ (format.keyU64s * 64) +
          pack format.bitsPerField fields (format.keyU64s * 64) (List.finRange 6) + header := by
      rw [packKey, Bytes.number_ofNumber (by omega), pow_zero, Nat.div_one, whole,
        Nat.mod_eq_of_lt (by omega), Nat.zero_mul, Nat.zero_add]
    simp only [zero, Nat.sub_zero]
    rw [word]
    exact stacked_pack 0 (fun field _ => fits field) room small

def narrowFormat : BKeyFormat where
  keyU64s := 3
  nrFields := 6
  bitsPerField := ![64, 32, 0, 16, 8, 0]
  fieldOffset := fun _ => 0

def narrowFields : Fin 6 → Nat := ![4096, 100, 0, 8, 1, 0]

theorem parseBkey_inverts_sample : ∃ parsed, Inverts narrowFormat
    (packKey narrowFormat 0x0a0003 narrowFields) 0 narrowFields parsed :=
  parseBkey_inverts rfl (by decide) (by decide)
    (packKey_at rfl (by decide) (by decide) (by decide) (by decide))

end Bcachefs
