import Bcachefs.Support.Bytes

/-! Strings that end with their first zero byte. A reader that is given only their start
reads on to that byte, wherever it lies. -/

namespace ByteString

def upToNul (text : List UInt8) : List UInt8 := text.takeWhile (· != 0)

namespace Bytes

def slice (source : Bytes) : Nat → Nat → List UInt8
  | _, 0 => []
  | index, count + 1 => source.byte index :: slice source (index + 1) count

inductive StringAt (source : Bytes) : Nat → List UInt8 → Prop
  | nul {index} : index < source.size → source.byte index = 0 → StringAt source index []
  | char {index text} : index < source.size → source.byte index ≠ 0 →
      StringAt source (index + 1) text → StringAt source index (source.byte index :: text)

variable {source : Bytes} {index : Nat}

theorem slice_window {start size count : Nat} (inside : index + count ≤ size) :
    (source.window start size).slice index count = source.slice (start + index) count := by
  induction count generalizing index with
  | zero => rfl
  | succ count ih =>
      rw [slice, slice, ih (by omega), window, ofFn_byte _ (by omega), Nat.add_assoc]

theorem StringAt.unique {left right : List UInt8} (first : StringAt source index left)
    (second : StringAt source index right) : left = right := by
  induction first generalizing right with
  | nul _ zero =>
      cases second with
      | nul _ _ => rfl
      | char _ nonzero _ => exact absurd zero nonzero
  | char _ nonzero _ ih =>
      cases second with
      | nul _ zero => exact absurd zero nonzero
      | char _ _ rest => rw [ih rest]

/-- What a string is cut to that should end within `count` bytes is what stands there
iff one of these bytes, or the one behind them, is zero. -/
theorem StringAt.upToNul_iff {count : Nat} (inside : index + count ≤ source.size) :
    StringAt source index (upToNul (source.slice index count)) ↔
      0 ∈ source.slice index count ∨
        index + count < source.size ∧ source.byte (index + count) = 0 := by
  induction count generalizing index with
  | zero =>
      simp only [slice, upToNul, List.takeWhile_nil, List.not_mem_nil, false_or, Nat.add_zero]
      constructor
      · intro read
        cases read with
        | nul below zero => exact ⟨below, zero⟩
      · rintro ⟨below, zero⟩
        exact StringAt.nul below zero
  | succ count ih =>
      have below : index < source.size := by omega
      have shift : index + 1 + count = index + (count + 1) := by omega
      rw [slice]
      by_cases zero : source.byte index = 0
      · refine iff_of_true ?_ (Or.inl (by simp [zero]))
        simpa [upToNul, zero] using StringAt.nul below zero
      · have cut : upToNul (source.byte index :: source.slice (index + 1) count) =
            source.byte index :: upToNul (source.slice (index + 1) count) := by
          simp [upToNul, zero]
        rw [cut, List.mem_cons, or_iff_right (Ne.symm zero), ← shift, ← ih (by omega)]
        constructor
        · intro read
          cases read with
          | char _ _ rest => exact rest
        · exact StringAt.char below zero

end Bytes

end ByteString
