import Mathlib.Algebra.Group.Nat.Defs
import Mathlib.Data.List.Basic
import Mathlib.Tactic.Ring

/-! Numbers that hold bit fields one below the other, from the most significant
end downwards. -/

namespace BitFields

variable {ι : Type} {width value : ι → Nat} {word low top : Nat}

/-- Each field takes the bits right below the one before it; the first starts at
bit `top`, and bits below `low` belong to no field. -/
def Stacked (width value : ι → Nat) (word low : Nat) : Nat → List ι → Prop
  | top, [] => low ≤ top
  | top, field :: fields => width field ≤ top ∧
      word / 2 ^ (top - width field) % 2 ^ width field = value field ∧
      Stacked width value word low (top - width field) fields

instance Stacked.decidable (width value : ι → Nat) (word low : Nat) : ∀ top fields,
    Decidable (Stacked width value word low top fields)
  | top, [] => inferInstanceAs (Decidable (low ≤ top))
  | top, field :: fields =>
      have := Stacked.decidable width value word low (top - width field) fields
      inferInstanceAs (Decidable (width field ≤ top ∧
        word / 2 ^ (top - width field) % 2 ^ width field = value field ∧
        Stacked width value word low (top - width field) fields))

theorem Stacked.low_le {fields : List ι} (stacked : Stacked width value word low top fields) :
    low ≤ top := by
  induction fields generalizing top with
  | nil => exact stacked
  | cons field fields ih =>
      have rest := ih stacked.2.2
      omega

theorem Stacked.value_lt {field : ι} {fields : List ι}
    (stacked : Stacked width value word low top (field :: fields)) :
    value field < 2 ^ width field := by
  rw [← stacked.2.1]
  exact Nat.mod_lt _ (Nat.two_pow_pos _)

theorem Stacked.of_high {other : Nat} {fields : List ι} (same : word / 2 ^ low = other / 2 ^ low)
    (stacked : Stacked width value word low top fields) :
    Stacked width value other low top fields := by
  induction fields generalizing top with
  | nil => exact stacked
  | cons field fields ih =>
      obtain ⟨fits, holds, rest⟩ := stacked
      refine ⟨fits, ?_, ih rest⟩
      have above := rest.low_le
      have split := pow_mul_pow_sub 2 above
      rw [← holds, ← split, ← Nat.div_div_eq_div_mul, ← Nat.div_div_eq_div_mul, same]

def pack (width value : ι → Nat) : Nat → List ι → Nat
  | _, [] => 0
  | top, field :: fields =>
      value field * 2 ^ (top - width field) + pack width value (top - width field) fields

theorem pack_le {fields : List ι} (fits : ∀ field ∈ fields, value field < 2 ^ width field)
    (room : low + (fields.map width).sum ≤ top) : pack width value top fields + 2 ^ low ≤ 2 ^ top := by
  induction fields generalizing top with
  | nil =>
      rw [pack, Nat.zero_add]
      exact Nat.pow_le_pow_right (by decide) (by simpa using room)
  | cons field fields ih =>
      rw [List.map_cons, List.sum_cons] at room
      have rest := @ih (top - width field)
        (fun later member => fits later (List.mem_cons_of_mem _ member)) (by omega)
      have first : (value field + 1) * 2 ^ (top - width field) ≤
          2 ^ width field * 2 ^ (top - width field) :=
        Nat.mul_le_mul_right _ (fits field List.mem_cons_self)
      have whole : 2 ^ width field * 2 ^ (top - width field) = 2 ^ top :=
        pow_mul_pow_sub 2 (by omega)
      rw [whole, Nat.succ_mul] at first
      rw [pack]
      omega

theorem pack_dvd {fields : List ι} (room : low + (fields.map width).sum ≤ top) :
    2 ^ low ∣ pack width value top fields := by
  induction fields generalizing top with
  | nil => exact Nat.dvd_zero _
  | cons field fields ih =>
      rw [List.map_cons, List.sum_cons] at room
      have place : 2 ^ low ∣ 2 ^ (top - width field) := Nat.pow_dvd_pow _ (by omega)
      exact Nat.dvd_add (Nat.dvd_mul_left_of_dvd place _) (ih (by omega))

theorem stacked_pack {header : Nat} {fields : List ι} (high : Nat)
    (fits : ∀ field ∈ fields, value field < 2 ^ width field)
    (room : low + (fields.map width).sum ≤ top) (small : header < 2 ^ low) :
    Stacked width value (high * 2 ^ top + pack width value top fields + header) low top fields := by
  induction fields generalizing top high with
  | nil => exact Nat.le_trans (Nat.le_add_right _ _) room
  | cons field fields ih =>
      rw [List.map_cons, List.sum_cons] at room
      have later : ∀ other ∈ fields, value other < 2 ^ width other :=
        fun other member => fits other (List.mem_cons_of_mem _ member)
      have below := @pack_le ι width value low (top - width field) fields later (by omega)
      have whole : 2 ^ top = 2 ^ width field * 2 ^ (top - width field) :=
        (pow_mul_pow_sub 2 (by omega)).symm
      -- what lies above the rest of the fields is the high part followed by this field
      have word : high * 2 ^ top + pack width value top (field :: fields) + header =
          (high * 2 ^ width field + value field) * 2 ^ (top - width field) +
            pack width value (top - width field) fields + header := by
        rw [pack, whole]
        ring
      rw [word]
      refine ⟨by omega, ?_, ih _ later (by omega)⟩
      rw [Nat.add_assoc, Nat.mul_comm, Nat.mul_add_div (Nat.two_pow_pos _),
        Nat.div_eq_of_lt (by omega), Nat.add_zero, Nat.mul_comm high, Nat.mul_add_mod,
        Nat.mod_eq_of_lt (fits field List.mem_cons_self)]

/-! Fields of a struct lie from the low end upwards. -/

def field (word low width : Nat) : Nat := word / 2 ^ low % 2 ^ width

theorem field_upper (word low skip width : Nat) :
    field word low (skip + width) / 2 ^ skip = field word (low + skip) width := by
  rw [field, field, pow_add, Nat.mod_mul_right_div_self, Nat.div_div_eq_div_mul, ← pow_add]

theorem field_lower (word low width rest : Nat) :
    field word low (width + rest) % 2 ^ width = field word low width :=
  Nat.mod_mod_of_dvd _ (Nat.pow_dvd_pow _ (Nat.le_add_right _ _))

theorem field_append (word low width next : Nat) :
    field word low (width + next) =
      field word low width + 2 ^ width * field word (low + width) next := by
  rw [field, field, field, pow_add, Nat.mod_mul, Nat.div_div_eq_div_mul, ← pow_add]

def joined : List (Nat × Nat) → Nat
  | [] => 0
  | (width, value) :: fields => value + 2 ^ width * joined fields

def Adjacent (word : Nat) : Nat → List (Nat × Nat) → Prop
  | _, [] => True
  | low, (width, value) :: fields =>
      value = field word low width ∧ Adjacent word (low + width) fields

theorem Adjacent.joined {low : Nat} {fields : List (Nat × Nat)}
    (adjacent : Adjacent word low fields) :
    joined fields = field word low (fields.map Prod.fst).sum := by
  induction fields generalizing low with
  | nil => simp [BitFields.joined, field, Nat.mod_one]
  | cons first fields ih =>
      obtain ⟨width, value⟩ := first
      obtain ⟨rfl, rest⟩ := adjacent
      rw [BitFields.joined, ih rest, List.map_cons, List.sum_cons, field_append]

end BitFields
