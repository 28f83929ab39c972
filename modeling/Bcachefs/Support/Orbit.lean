import Mathlib.Data.List.Basic

/-! The positions that a cursor visits as long as it is below a bound. -/

namespace Orbit

inductive Visits (next : Nat → Nat) (bound : Nat) : Nat → List Nat → Nat → Prop
  | start (position) : Visits next bound position [] position
  | step {position later last} : position < bound → Visits next bound (next position) later last →
      Visits next bound position (position :: later) last

namespace Visits

variable {next : Nat → Nat} {bound first middle last : Nat} {visited later : List Nat}

theorem append (visits : Visits next bound first visited middle)
    (rest : Visits next bound middle later last) :
    Visits next bound first (visited ++ later) last := by
  induction visits with
  | start _ => exact rest
  | step below _ ih => exact Visits.step below (ih rest)

theorem head (visits : Visits next bound first visited last) :
    ∀ position, visited.head? = some position → position = first := by
  intro position found
  cases visits with
  | start _ => cases found
  | step _ _ =>
      cases found
      rfl

theorem inside (visits : Visits next bound first visited last) :
    ∀ position ∈ visited, position < bound := by
  induction visits with
  | start _ => exact fun position member => absurd member List.not_mem_nil
  | step below _ ih =>
      intro position member
      rcases List.mem_cons.mp member with rfl | inside
      · exact below
      · exact ih position inside

theorem keeps {invariant : Nat → Prop}
    (kept : ∀ position, position < bound → invariant position → invariant (next position))
    (visits : Visits next bound first visited last) (begun : invariant first) :
    (∀ position ∈ visited, invariant position) ∧ invariant last := by
  induction visits with
  | start _ => exact ⟨fun position member => absurd member List.not_mem_nil, begun⟩
  | step below _ ih =>
      obtain ⟨each, final⟩ := ih (kept _ below begun)
      refine ⟨fun position member => ?_, final⟩
      rcases List.mem_cons.mp member with rfl | inside
      · exact begun
      · exact each position inside

theorem tail (visits : Visits next bound first visited last) :
    ∀ position ∈ visited.tail, ∃ before, before < bound ∧ position = next before := by
  have reached : ∀ {first visited last}, Visits next bound first visited last →
      (∃ before, before < bound ∧ first = next before) →
      ∀ position ∈ visited, ∃ before, before < bound ∧ position = next before := by
    intro first visited last visits begun
    induction visits with
    | start _ => exact fun position member => absurd member List.not_mem_nil
    | step below _ ih =>
        intro position member
        rcases List.mem_cons.mp member with rfl | inside
        · exact begun
        · exact ih ⟨_, below, rfl⟩ position inside
  cases visits with
  | start _ => exact fun position member => absurd member List.not_mem_nil
  | step below rest => exact reached rest ⟨_, below, rfl⟩

theorem increasing (forward : ∀ position, position < bound → position < next position)
    (visits : Visits next bound first visited last) :
    visited.Pairwise (· < ·) ∧ ∀ position ∈ visited, first ≤ position := by
  induction visits with
  | start _ => exact ⟨List.Pairwise.nil, fun position member => absurd member List.not_mem_nil⟩
  | @step position _ _ below _ ih =>
      have moved := forward position below
      refine ⟨List.pairwise_cons.mpr ⟨fun other member => ?_, ih.1⟩, fun other member => ?_⟩
      · have later := ih.2 other member
        omega
      · rcases List.mem_cons.mp member with rfl | inside
        · exact Nat.le_refl _
        · have later := ih.2 other inside
          omega

/-- Where every step raises the rank, there are no more positions than ranks left. -/
theorem length_le (rank : Nat → Nat) {limit : Nat}
    (rises : ∀ position, position < bound → rank position < rank (next position))
    (bounded : ∀ position, position < bound → rank position < limit)
    (visits : Visits next bound first visited last) : visited.length ≤ limit - rank first := by
  induction visits with
  | start _ => exact Nat.zero_le _
  | @step position _ _ below _ ih =>
      have higher := rises position below
      have within := bounded position below
      rw [List.length_cons]
      omega

end Visits

end Orbit
