import Bcachefs.ParseInverse
import Bcachefs.Support.Patches

/-! What a writer puts into a node: keys with their values, in either of the two key
formats. An item carries the bounds of the fields it is written to, so that every item
has bytes that stand for it. -/

namespace Bcachefs

open ByteString Iteration BitFields

/-- A node format whose packing `parse_bkey` undoes. -/
structure KeyFormat extends BKeyFormat where
  zero : fieldOffset = fun _ => 0
  decodable : ∀ field, bitsPerField field ∈ decodableWidths
  room : 24 + ((List.finRange 6).map bitsPerField).sum ≤ keyU64s * 64
  narrow : keyU64s < 256 ∧ nrFields < 256

inductive KeyEncoding
  | packed | current
  deriving DecidableEq

def KeyEncoding.format : KeyEncoding → Nat
  | packed => keyFormatLocalBtree
  | current => keyFormatCurrent

def KeyFormat.words (format : KeyFormat) : KeyEncoding → Nat
  | .packed => format.keyU64s
  | .current => bkeyU64s

structure Item (format : KeyFormat) where
  encoding : KeyEncoding
  type : Nat
  fields : Fin 6 → Nat
  value : Bytes
  typed : type < 256
  members : ∀ field, fields field < 2 ^ BKeyLocal.memberBits field
  fits : encoding = .packed → ∀ field, fields field < 2 ^ format.bitsPerField field
  whole : value.size % u64sSize = 0
  short : format.words encoding + value.size / u64sSize < 256

def structKey (header : Nat) (fields : Fin 6 → Nat) : Bytes :=
  (Bytes.zeros (bkeyU64s * u64sSize)).patched
    [.number 0 3 header, .number 4 4 (fields bkeyFieldVersionHi),
     .number 8 8 (fields bkeyFieldVersionLo), .number 16 4 (fields bkeyFieldSize),
     .number 20 4 (fields bkeyFieldSnapshot), .number 24 8 (fields bkeyFieldOffset),
     .number 32 8 (fields bkeyFieldInode)]

namespace Item

variable {format : KeyFormat}

def keyU64s (item : Item format) : Nat := format.words item.encoding

def u64s (item : Item format) : Nat := item.keyU64s + item.value.size / u64sSize

def header (item : Item format) : Nat :=
  item.u64s + 2 ^ 8 * (item.encoding.format + 2 ^ 8 * item.type)

def key (item : Item format) : Bytes :=
  match item.encoding with
  | .packed => packKey format.toBKeyFormat item.header item.fields
  | .current => structKey item.header item.fields

def bytes (item : Item format) : Bytes :=
  (Bytes.zeros (item.u64s * u64sSize)).patched
    [⟨0, item.key⟩, ⟨item.keyU64s * u64sSize, item.value⟩]

end Item

section

variable {format : KeyFormat} {item : Item format} {node : Bytes} {key : Nat}

theorem KeyFormat.words_positive (format : KeyFormat) (encoding : KeyEncoding) :
    1 ≤ format.words encoding := by
  cases encoding with
  | packed =>
      have room := format.room
      simp only [KeyFormat.words]
      omega
  | current => exact Nat.le_add_left 1 4

theorem Item.key_size (item : Item format) : item.key.size = item.keyU64s * u64sSize := by
  cases encoded : item.encoding <;> simp [Item.key, Item.keyU64s, KeyFormat.words, encoded,
    packKey, structKey]

theorem Item.size (item : Item format) :
    item.u64s * u64sSize = item.keyU64s * u64sSize + item.value.size := by
  have whole := item.whole
  simp only [Item.u64s, u64sSize] at whole ⊢
  omega

theorem Item.bytes_size (item : Item format) : item.bytes.size = item.u64s * u64sSize := by
  simp [Item.bytes]

theorem Item.u64s_bounds (item : Item format) : 1 ≤ item.u64s ∧ item.u64s < 256 := by
  have positive := format.words_positive item.encoding
  have short := item.short
  exact ⟨Nat.le_add_right_of_le positive, short⟩

theorem Item.holds (item : Item format) :
    item.bytes.Holds 0 item.key ∧ item.bytes.Holds (item.keyU64s * u64sSize) item.value := by
  have keySize := item.key_size
  have size := item.size
  have apart : [(⟨0, item.key⟩ : Patch), ⟨item.keyU64s * u64sSize, item.value⟩].Pairwise
      Patch.Apart := by
    have before : Patch.stop ⟨0, item.key⟩ ≤ item.keyU64s * u64sSize := by
      simp only [Patch.stop]
      omega
    simp [Patch.Apart, before]
  have held : ∀ patch ∈ [(⟨0, item.key⟩ : Patch), ⟨item.keyU64s * u64sSize, item.value⟩],
      item.bytes.Holds patch.start patch.bytes := by
    intro patch member
    apply Bytes.patched_holds apart member
    rcases List.mem_pair.mp member with same | same
    · rw [same]
      simp only [Patch.stop, Bytes.zeros_size]
      omega
    · rw [same]
      simp only [Patch.stop, Bytes.zeros_size]
      omega
  exact ⟨held ⟨0, item.key⟩ (by simp), held ⟨item.keyU64s * u64sSize, item.value⟩ (by simp)⟩

theorem Item.header_lt (item : Item format) : item.header < 2 ^ 24 := by
  have short := item.u64s_bounds.2
  have typed := item.typed
  have small : item.encoding.format < 2 := by cases item.encoding <;> decide
  simp only [Item.header]
  omega

theorem structKey_number {header start count value : Nat} {fields : Fin 6 → Nat}
    (member : Patch.number start count value ∈
      [.number 0 3 header, .number 4 4 (fields bkeyFieldVersionHi),
       .number 8 8 (fields bkeyFieldVersionLo), .number 16 4 (fields bkeyFieldSize),
       .number 20 4 (fields bkeyFieldSnapshot), .number 24 8 (fields bkeyFieldOffset),
       .number 32 8 (fields bkeyFieldInode)])
    (inside : start + count ≤ 40) (fits : value < 256 ^ count) :
    (structKey header fields).number count start = value := by
  apply Bytes.patched_number _ member inside fits
  simp [Patch.Apart]

theorem packKey_header {stored : BKeyFormat} {header : Nat} {fields : Fin 6 → Nat}
    (room : 24 + ((List.finRange 6).map stored.bitsPerField).sum ≤ stored.keyU64s * 64)
    (small : header < 2 ^ 24) : (packKey stored header fields).number 3 0 = header := by
  obtain ⟨multiple, product⟩ : 2 ^ 24 ∣ _ := @pack_dvd _ _ fields _ _ _ room
  have words := Nat.le_trans (Nat.le_add_right _ _) room
  rw [packKey, Bytes.number_ofNumber (by simp only [u64sSize]; omega), product]
  omega

theorem Item.key_header (item : Item format) : item.key.number 3 0 = item.header := by
  have small := item.header_lt
  cases encoded : item.encoding with
  | packed =>
      simp only [Item.key, encoded]
      exact packKey_header format.room small
  | current =>
      simp only [Item.key, encoded]
      exact structKey_number (by simp) (by decide) (by omega)

theorem Item.held_key (held : node.Holds key item.bytes) : node.Holds key item.key :=
  held.trans item.holds.1

theorem Item.held_value (held : node.Holds key item.bytes) :
    node.Holds (key + item.keyU64s * u64sSize) item.value :=
  held.trans item.holds.2

theorem Item.held_header (held : node.Holds key item.bytes) :
    node.number 1 key = item.u64s ∧ node.number 1 (key + 1) = item.encoding.format ∧
      node.number 1 (key + 2) = item.type := by
  have whole : node.number 3 key = item.header := by
    rw [← item.key_header]
    apply (Item.held_key held).number 0 3
    have size := item.key_size
    have positive := format.words_positive item.encoding
    simp only [Item.keyU64s, u64sSize] at size
    omega
  have short := item.u64s_bounds.2
  have typed := item.typed
  have small : item.encoding.format < 2 := by cases item.encoding <;> decide
  have byte : ∀ low, low < 3 → node.number 1 (key + low) = item.header / 256 ^ low % 256 ^ 1 := by
    intro low bound
    have part : node.number 3 key / 256 ^ low % 256 ^ 1 = node.number 1 (key + low) :=
      Bytes.number_part (by omega)
    rw [← part, whole]
  have first := byte 0 (by decide)
  have second := byte 1 (by decide)
  have third := byte 2 (by decide)
  simp only [Item.header, Nat.add_zero] at first second third
  refine ⟨?_, ?_, ?_⟩ <;> omega

theorem Item.inside (held : node.Holds key item.bytes) :
    key + item.keyU64s * u64sSize + item.value.size ≤ node.size := by
  have inside := held.inside
  rw [item.bytes_size, item.size] at inside
  omega

theorem Item.stored (held : node.Holds key item.bytes) :
    Stored node key item.encoding.format item.keyU64s item.type item.value := by
  obtain ⟨u64s, keyFormat, type⟩ := Item.held_header held
  have inside := Item.inside held
  have positive : 1 ≤ item.keyU64s := format.words_positive item.encoding
  have header : key + 3 ≤ node.size := by
    simp only [u64sSize] at inside
    omega
  have read : load node 1 (key + 1) = .ok _ := load_inside (by omega)
  have narrow : item.encoding.format % 2 ^ 7 = item.encoding.format := by
    cases item.encoding <;> rfl
  exact {
    header := positive
    inside := inside
    u64s := by
      refine ⟨item.u64s, ?_, item.size⟩
      rw [← u64s]
      exact load_inside (by omega)
    keyFormat := by
      rw [BKey.format, read, ok_bind, keyFormat]
      exact congrArg Except.ok narrow
    type := by
      rw [← type]
      exact load_inside (by omega)
    value := (Item.held_value held).window }

theorem Item.packedAt (held : node.Holds key item.bytes) (encoded : item.encoding = .packed) :
    PackedAt format.toBKeyFormat node key item.fields := by
  have small := item.header_lt
  have words : item.keyU64s = format.keyU64s := by simp [Item.keyU64s, KeyFormat.words, encoded]
  have kind : item.header / 2 ^ 8 % 2 ^ 7 = keyFormatLocalBtree := by
    have short := item.u64s_bounds.2
    simp only [Item.header, encoded, KeyEncoding.format, keyFormatLocalBtree]
    omega
  have packed := packKey_at format.zero (item.fits encoded) format.room small kind
  have written : item.key = packKey format.toBKeyFormat item.header item.fields := by
    simp [Item.key, encoded]
  have word := (Item.held_key held).number 0 (format.keyU64s * u64sSize)
    (by rw [item.key_size, words]; omega)
  rw [written, Nat.add_zero] at word
  have stored := Item.stored held
  have inside := Item.inside held
  exact {
    keyFormat := by
      rw [stored.keyFormat, encoded]
      rfl
    inside := by
      rw [words] at inside
      omega
    packed := {
      offsets := packed.packed.offsets
      stacked := by
        rw [word]
        exact packed.packed.stacked } }

theorem Item.current_load (held : node.Holds key item.bytes) (encoded : item.encoding = .current)
    {start count value : Nat}
    (member : Patch.number start count value ∈
      [.number 0 3 item.header, .number 4 4 (item.fields bkeyFieldVersionHi),
       .number 8 8 (item.fields bkeyFieldVersionLo), .number 16 4 (item.fields bkeyFieldSize),
       .number 20 4 (item.fields bkeyFieldSnapshot), .number 24 8 (item.fields bkeyFieldOffset),
       .number 32 8 (item.fields bkeyFieldInode)])
    (inside : start + count ≤ 40) (fits : value < 256 ^ count) :
    load node count (key + start) = .ok value := by
  have written : item.key = structKey item.header item.fields := by simp [Item.key, encoded]
  have words : item.keyU64s = bkeyU64s := by simp [Item.keyU64s, KeyFormat.words, encoded]
  have size := item.key_size
  have room := Item.inside held
  simp only [words, bkeyU64s, u64sSize] at size room
  have read := (Item.held_key held).number start count (by omega)
  rw [written, structKey_number member inside fits] at read
  exact load_ok.mpr ⟨by omega, read⟩

theorem Item.currentAt (held : node.Holds key item.bytes) (encoded : item.encoding = .current) :
    CurrentAt node key item.fields := by
  have stored := Item.stored held
  rw [encoded] at stored
  have members := item.members
  exact {
    keyFormat := stored.keyFormat
    inode := Item.current_load held encoded (by simp) (by decide) (members bkeyFieldInode)
    offset := Item.current_load held encoded (by simp) (by decide) (members bkeyFieldOffset)
    snapshot := Item.current_load held encoded (by simp) (by decide) (members bkeyFieldSnapshot)
    size := Item.current_load held encoded (by simp) (by decide) (members bkeyFieldSize)
    versionHi := Item.current_load held encoded (by simp) (by decide) (members bkeyFieldVersionHi)
    versionLo := Item.current_load held encoded (by simp) (by decide) (members bkeyFieldVersionLo) }

theorem Item.parsed (held : node.Holds key item.bytes) :
    ∃ parsed, parseBkey node key format.toBKeyFormat = .ok parsed ∧
      parsed.fields = item.fields ∧ parsed.keyU64s = item.keyU64s := by
  cases encoded : item.encoding with
  | packed =>
      have words : item.keyU64s = format.keyU64s := by
        simp [Item.keyU64s, KeyFormat.words, encoded]
      rw [words]
      exact (Item.packedAt held encoded).parsed format.zero format.decodable item.members
  | current =>
      have words : item.keyU64s = bkeyU64s := by simp [Item.keyU64s, KeyFormat.words, encoded]
      rw [words]
      exact (Item.currentAt held encoded).parsed format.toBKeyFormat

theorem Item.located {btree : Bytes} (held : node.Holds key item.bytes)
    (loaded : BTreeNode.loadFormat btree = .ok format.toBKeyFormat) :
    getValue btree node key = .ok (key + item.keyU64s * u64sSize) := by
  cases encoded : item.encoding with
  | packed =>
      have words : item.keyU64s = format.keyU64s := by
        simp [Item.keyU64s, KeyFormat.words, encoded]
      rw [words]
      exact (Item.packedAt held encoded).value loaded
  | current =>
      have words : item.keyU64s = bkeyU64s := by simp [Item.keyU64s, KeyFormat.words, encoded]
      rw [words]
      exact (Item.currentAt held encoded).value loaded

structure ReadsBack (node : Bytes) (key : Nat) (item : Item format) : Prop where
  held : node.Holds key item.bytes
  u64s : BKey.u64s node key = .ok item.u64s
  type : BKey.type node key = .ok item.type
  parsed : ∃ parsed, parseBkey node key format.toBKeyFormat = .ok parsed ∧
    parsed.fields = item.fields
  value : ∃ place, getValue node node key = .ok place ∧ node.Holds place item.value

theorem Item.readsBack (held : node.Holds key item.bytes)
    (loaded : BTreeNode.loadFormat node = .ok format.toBKeyFormat) : ReadsBack node key item where
  held := held
  u64s := by
    have inside := held.inside
    have positive := item.u64s_bounds.1
    rw [item.bytes_size] at inside
    simp only [u64sSize] at inside
    rw [← (Item.held_header held).1]
    exact load_inside (by omega)
  type := (Item.stored held).type
  parsed := by
    rcases Item.parsed held with ⟨parsed, returned, fields, _⟩
    exact ⟨parsed, returned, fields⟩
  value := ⟨_, Item.located held loaded, Item.held_value held⟩

end

end Bcachefs
