import Bcachefs.DecodeCore
import Bcachefs.Support.BitFields

/-! How a key is written into a node: as a `struct bkey`, or packed by the node's
format. This is the writer's side, against which the decoding functions are stated. -/

namespace Bcachefs

open ByteString Iteration BitFields

/-! `enum bch_bkey_fields` -/

abbrev bkeyFieldInode : Fin 6 := 0
abbrev bkeyFieldOffset : Fin 6 := 1
abbrev bkeyFieldSnapshot : Fin 6 := 2
abbrev bkeyFieldSize : Fin 6 := 3
abbrev bkeyFieldVersionHi : Fin 6 := 4
abbrev bkeyFieldVersionLo : Fin 6 := 5

def laterFields : List (Fin 6) :=
  [bkeyFieldOffset, bkeyFieldSnapshot, bkeyFieldSize, bkeyFieldVersionHi, bkeyFieldVersionLo]

theorem finRange_fields : List.finRange 6 = bkeyFieldInode :: laterFields := rfl

structure Stored (node : Bytes) (key keyFormat keyU64s type : Nat) (value : Bytes) : Prop where
  header : 1 ≤ keyU64s
  inside : key + keyU64s * u64sSize + value.size ≤ node.size
  u64s : ∃ words, BKey.u64s node key = .ok words ∧
    words * u64sSize = keyU64s * u64sSize + value.size
  keyFormat : BKey.format node key = .ok keyFormat
  type : BKey.type node key = .ok type
  value : node.window (key + keyU64s * u64sSize) value.size = value

/-- The packing rule: each field less its `field_offset`, from the top of the key's
words downwards and above the three header bytes. -/
structure Packed (format : BKeyFormat) (node : Bytes) (key : Nat) (fields : Fin 6 → Nat) :
    Prop where
  offsets : ∀ field, format.fieldOffset field ≤ fields field
  stacked : Stacked format.bitsPerField (fun field => fields field - format.fieldOffset field)
    (node.number (format.keyU64s * u64sSize) key) 24 (format.keyU64s * 64) (List.finRange 6)

structure StoredLocal (format : BKeyFormat) (node : Bytes) (key type : Nat) (fields : Fin 6 → Nat)
    (value : Bytes) : Prop where
  loaded : BTreeNode.loadFormat node = .ok format
  stored : Stored node key keyFormatLocalBtree format.keyU64s type value
  packed : Packed format node key fields

structure StoredCurrent (format : BKeyFormat) (node : Bytes) (key type : Nat)
    (fields : Fin 6 → Nat) (value : Bytes) : Prop where
  loaded : BTreeNode.loadFormat node = .ok format
  stored : Stored node key keyFormatCurrent bkeyU64s type value
  inode : BKey.inode node key = .ok (fields bkeyFieldInode)
  offset : BKey.offset node key = .ok (fields bkeyFieldOffset)
  snapshot : BKey.snapshot node key = .ok (fields bkeyFieldSnapshot)
  size : BKey.size node key = .ok (fields bkeyFieldSize)
  versionHi : BKey.versionHi node key = .ok (fields bkeyFieldVersionHi)
  versionLo : BKey.versionLo node key = .ok (fields bkeyFieldVersionLo)

theorem BTreeNode.loadFormat_ok {node : Bytes} {stored : BKeyFormat} (inside : 136 ≤ node.size)
    (keyU64s : node.number 1 80 = stored.keyU64s) (nrFields : node.number 1 81 = stored.nrFields)
    (bits : ∀ field : Fin 6, node.number 1 (82 + field.val) = stored.bitsPerField field)
    (offsets : ∀ field : Fin 6, node.number 8 (88 + 8 * field.val) = stored.fieldOffset field) :
    loadFormat node = .ok stored := by
  rw [loadFormat, if_pos (by simpa only [format] using inside)]
  cases stored
  simp only at *
  simp only [formatOf, format, keyU64s, nrFields, bits, offsets]

section

variable {node value : Bytes} {key type : Nat} {format : BKeyFormat} {fields : Fin 6 → Nat}

theorem Stored.load_value {keyFormat keyU64s count index : Nat}
    (stored : Stored node key keyFormat keyU64s type value) (bound : index + count ≤ value.size) :
    load node count (key + keyU64s * u64sSize + index) = .ok (value.number count index) := by
  have inside := stored.inside
  refine load_ok.mpr ⟨by omega, ?_⟩
  rw [← Bytes.number_window bound, stored.value]

def rawFields (node : Bytes) (key : Nat) : Fin 6 → Nat :=
  ![node.number 8 (key + 32), node.number 8 (key + 24), node.number 4 (key + 20),
    node.number 4 (key + 16), node.number 4 (key + 4), node.number 8 (key + 8)]

theorem Stored.current (stored : Stored node key keyFormatCurrent bkeyU64s type value)
    (loaded : BTreeNode.loadFormat node = .ok format) :
    StoredCurrent format node key type (rawFields node key) value := by
  have inside := Nat.le_trans (Nat.le_add_right _ _) stored.inside
  simp only [bkeyU64s, u64sSize] at inside
  exact {
    loaded := loaded
    stored := stored
    inode := load_inside (by omega)
    offset := load_inside (by omega)
    snapshot := load_inside (by omega)
    size := load_inside (by omega)
    versionHi := load_inside (by omega)
    versionLo := load_inside (by omega) }

theorem StoredLocal.getValue (stored : StoredLocal format node key type fields value) :
    getValue node node key = .ok (key + format.keyU64s * u64sSize) := by
  simp only [Bcachefs.getValue, stored.loaded, stored.stored.keyFormat, ok_bind, if_true]
  rfl

theorem StoredCurrent.getValue (stored : StoredCurrent format node key type fields value) :
    getValue node node key = .ok (key + bkeyU64s * u64sSize) := by
  have other : ¬keyFormatCurrent = keyFormatLocalBtree := by decide
  simp only [Bcachefs.getValue, stored.loaded, stored.stored.keyFormat, ok_bind, other, if_false]
  rfl

end

structure BPos where
  inode : Nat
  offset : Nat
  snapshot : Nat
  deriving DecidableEq

def keyPosition (node : Bytes) (key : Nat) : BPos :=
  if node.number 1 (key + 1) % 2 ^ 7 = keyFormatLocalBtree then
    let format := BTreeNode.formatOf node
    let word := node.number (format.keyU64s * u64sSize) key
    let inodeEnd := format.keyU64s * 64 - format.bitsPerField bkeyFieldInode
    let offsetEnd := inodeEnd - format.bitsPerField bkeyFieldOffset
    let snapshotEnd := offsetEnd - format.bitsPerField bkeyFieldSnapshot
    { inode := word / 2 ^ inodeEnd % 2 ^ format.bitsPerField bkeyFieldInode +
        format.fieldOffset bkeyFieldInode
      offset := word / 2 ^ offsetEnd % 2 ^ format.bitsPerField bkeyFieldOffset +
        format.fieldOffset bkeyFieldOffset
      snapshot := word / 2 ^ snapshotEnd % 2 ^ format.bitsPerField bkeyFieldSnapshot +
        format.fieldOffset bkeyFieldSnapshot }
  else
    { inode := node.number 8 (key + 32)
      offset := node.number 8 (key + 24)
      snapshot := node.number 4 (key + 20) }

section

variable {node value : Bytes} {key type : Nat} {format : BKeyFormat} {fields : Fin 6 → Nat}

theorem BTreeNode.formatOf_eq {stored : BKeyFormat} (loaded : loadFormat node = .ok stored) :
    formatOf node = stored := by
  unfold loadFormat at loaded
  split at loaded
  · cases loaded
    rfl
  · cases loaded

theorem Stored.format_number {keyFormat keyU64s : Nat}
    (stored : Stored node key keyFormat keyU64s type value) :
    node.number 1 (key + 1) % 2 ^ 7 = keyFormat := by
  obtain ⟨byte, read, same⟩ := bind_eq_ok.mp stored.keyFormat
  rw [(load_ok.mp read).2]
  cases same
  rfl

theorem StoredLocal.position (stored : StoredLocal format node key type fields value) :
    keyPosition node key = { inode := fields bkeyFieldInode, offset := fields bkeyFieldOffset
                             snapshot := fields bkeyFieldSnapshot } := by
  have offsets := stored.packed.offsets
  have stacked := stored.packed.stacked
  rw [finRange_fields] at stacked
  obtain ⟨_, inode, _, offset, _, snapshot, _⟩ := stacked
  rw [keyPosition, if_pos stored.stored.format_number, BTreeNode.formatOf_eq stored.loaded]
  dsimp only
  rw [inode, offset, snapshot, Nat.sub_add_cancel (offsets _), Nat.sub_add_cancel (offsets _),
    Nat.sub_add_cancel (offsets _)]

theorem StoredCurrent.position (stored : StoredCurrent format node key type fields value) :
    keyPosition node key = { inode := fields bkeyFieldInode, offset := fields bkeyFieldOffset
                             snapshot := fields bkeyFieldSnapshot } := by
  have current : ¬keyFormatCurrent = keyFormatLocalBtree := by decide
  rw [keyPosition, stored.stored.format_number, if_neg current, ← (load_ok.mp stored.inode).2,
    ← (load_ok.mp stored.offset).2, ← (load_ok.mp stored.snapshot).2]

end

end Bcachefs
