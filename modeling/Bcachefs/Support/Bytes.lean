import Mathlib.Tactic.Ring

/-! Finite byte strings and the little-endian numbers stored in them. Bytes
outside a string are zero, so equal strings are equal values. -/

namespace ByteString

structure Bytes where
  size : Nat
  byte : Nat → UInt8
  outside : ∀ index, size ≤ index → byte index = 0

namespace Bytes

theorem ext_inside {left right : Bytes} (size : left.size = right.size)
    (same : ∀ index, index < left.size → left.byte index = right.byte index) : left = right := by
  have bytes : left.byte = right.byte := by
    funext index
    by_cases inside : index < left.size
    · exact same index inside
    · rw [left.outside index (by omega), right.outside index (by omega)]
  cases left
  cases right
  simp_all

instance : DecidableEq Bytes := fun left right =>
  decidable_of_iff
    (left.size = right.size ∧ ∀ index, index < left.size → left.byte index = right.byte index)
    ⟨fun same => ext_inside same.1 same.2, fun same => same ▸ ⟨rfl, fun _ _ => rfl⟩⟩

def ofFn (size : Nat) (byte : Nat → UInt8) : Bytes where
  size := size
  byte index := if index < size then byte index else 0
  outside index bound := by simp [Nat.not_lt.mpr bound]

def ofCells (size : Nat) (cells : List (Nat × UInt8)) : Bytes :=
  ofFn size fun index => (cells.lookup index).getD 0

def window (source : Bytes) (start size : Nat) : Bytes :=
  ofFn size fun index => source.byte (start + index)

@[simp] theorem ofFn_size (size : Nat) (byte : Nat → UInt8) : (ofFn size byte).size = size := rfl

@[simp] theorem window_size (source : Bytes) (start size : Nat) :
    (source.window start size).size = size := rfl

theorem ofFn_byte {size index : Nat} (byte : Nat → UInt8) (bound : index < size) :
    (ofFn size byte).byte index = byte index := by
  simp [ofFn, bound]

theorem ofCells_zero {size bound index : Nat} {cells : List (Nat × UInt8)}
    (below : ∀ cell ∈ cells, cell.1 < bound) (above : bound ≤ index) :
    (ofCells size cells).byte index = 0 := by
  have missing : cells.lookup index = none := by
    apply List.lookup_eq_none_iff.mpr
    intro cell member
    have smaller := below cell member
    simp only [bne_iff_ne]
    omega
  by_cases inside : index < size
  · rw [ofCells, ofFn_byte _ inside, missing]
    rfl
  · exact (ofCells size cells).outside index (Nat.not_lt.mp inside)

def number (source : Bytes) : Nat → Nat → Nat
  | 0, _ => 0
  | count + 1, index => (source.byte index).toNat + 256 * number source count (index + 1)

theorem number_lt (source : Bytes) (count index : Nat) :
    source.number count index < 256 ^ count := by
  induction count generalizing index with
  | zero => simp [number]
  | succ count ih =>
      have head : (source.byte index).toNat < 256 := (source.byte index).toNat_lt
      have tail := ih (index + 1)
      rw [number, Nat.pow_succ]
      omega

theorem number_add (source : Bytes) (low high index : Nat) :
    source.number (low + high) index =
      source.number low index + 256 ^ low * source.number high (index + low) := by
  induction low generalizing index with
  | zero => simp [number]
  | succ low ih =>
      have shift : index + (low + 1) = index + 1 + low := by omega
      rw [Nat.succ_add_eq_add_succ, Nat.add_succ, number, number, ih, shift, pow_succ]
      ring

theorem number_field (source : Bytes) (low width high index : Nat) :
    source.number (low + width + high) index / 256 ^ low % 256 ^ width =
      source.number width (index + low) := by
  have lowBound := source.number_lt low index
  have widthBound := source.number_lt width (index + low)
  rw [Nat.add_assoc, number_add, number_add,
    Nat.add_mul_div_left _ _ (Nat.pow_pos (by decide)), Nat.div_eq_of_lt lowBound, Nat.zero_add,
    Nat.add_mul_mod_self_left, Nat.mod_eq_of_lt widthBound]

theorem number_part {source : Bytes} {total low width index : Nat} (fits : low + width ≤ total) :
    source.number total index / 256 ^ low % 256 ^ width = source.number width (index + low) := by
  have split : total = low + width + (total - (low + width)) := by omega
  rw [split, number_field]

def ofNumber (size value : Nat) : Bytes :=
  ofFn size fun index => UInt8.ofNat (value / 256 ^ index % 256)

theorem number_ofNumber {size value count index : Nat} (inside : index + count ≤ size) :
    (ofNumber size value).number count index = value / 256 ^ index % 256 ^ count := by
  induction count generalizing index with
  | zero => simp [number, Nat.mod_one]
  | succ count ih =>
      have byte : ((ofNumber size value).byte index).toNat = value / 256 ^ index % 256 := by
        rw [ofNumber, ofFn_byte _ (by omega), UInt8.toNat_ofNat']
        omega
      rw [number, ih (by omega), byte, Nat.pow_succ 256 index, ← Nat.div_div_eq_div_mul,
        Nat.pow_succ', Nat.mod_mul]

theorem number_congr {left right : Bytes} {count index : Nat}
    (same : ∀ position, index ≤ position → position < index + count →
      left.byte position = right.byte position) :
    left.number count index = right.number count index := by
  induction count generalizing index with
  | zero => rfl
  | succ count ih =>
      have rest := @ih (index + 1) fun position lower upper => same position (by omega) (by omega)
      rw [number, number, same index (by omega) (by omega), rest]

theorem number_window {source : Bytes} {start size count index : Nat}
    (bound : index + count ≤ size) :
    (source.window start size).number count index = source.number count (start + index) := by
  induction count generalizing index with
  | zero => rfl
  | succ count ih =>
      have inside : index < size := by omega
      rw [number, number, ih (by omega), window, ofFn_byte _ inside, ← Nat.add_assoc]

theorem window_window {source : Bytes} {start size index count : Nat}
    (inside : index + count ≤ size) :
    (source.window start size).window index count = source.window (start + index) count := by
  refine ext_inside rfl fun position below => ?_
  rw [window_size] at below
  rw [window, ofFn_byte _ below, window, ofFn_byte _ (by omega), window, ofFn_byte _ below,
    Nat.add_assoc]

end Bytes

end ByteString
