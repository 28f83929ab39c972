import Mathlib.Data.List.Basic
import Mathlib.Data.List.Forall2
import Mathlib.Data.Option.Basic

/-! Logs in which a later entry replaces the earlier ones of its kind. -/

namespace Log

variable {α : Type}

def last (holds : α → Bool) (log : List α) : Option α := (log.filter holds).getLast?

theorem last_nil (holds : α → Bool) : last holds [] = none := rfl

theorem last_cons_of_not {holds : α → Bool} {entry : α} (log : List α) (other : holds entry = false) :
    last holds (entry :: log) = last holds log := by
  simp [last, other]

theorem last_cons_of_holds {holds : α → Bool} {entry : α} (log : List α)
    (same : holds entry = true) : last holds (entry :: log) = (last holds log).or (some entry) := by
  rw [last, List.filter_cons_of_pos same, List.getLast?_cons]
  cases found : (log.filter holds).getLast? with
  | none => simp [last, found]
  | some later => simp [last, found]

theorem last_eq_none_iff {holds : α → Bool} {log : List α} :
    last holds log = none ↔ ∀ entry ∈ log, holds entry = false := by
  simp [last]

theorem last_of_pairwise {β : Type} [DecidableEq β] {key : α → β} {log : List α}
    (distinct : log.Pairwise fun left right => key left ≠ key right) {entry : α}
    (member : entry ∈ log) : last (fun other => key other == key entry) log = some entry := by
  induction log with
  | nil => exact absurd member List.not_mem_nil
  | cons first log ih =>
      obtain ⟨apart, rest⟩ := List.pairwise_cons.mp distinct
      rcases List.mem_cons.mp member with rfl | later
      · have none : last (fun other => key other == key entry) log = none := by
          apply last_eq_none_iff.mpr
          intro other inside
          exact beq_eq_false_iff_ne.mpr (apart other inside).symm
        rw [last_cons_of_holds log (beq_self_eq_true (key entry)), none]
        rfl
      · have other : (key first == key entry) = false := beq_eq_false_iff_ne.mpr (apart entry later)
        rw [last_cons_of_not log other, ih rest later]

theorem last_related {β : Type} {related : α → β → Prop} {holds : α → Bool} {keeps : β → Bool}
    {log : List α} {other : List β}
    (same : ∀ entry partner, related entry partner → holds entry = keeps partner)
    (matched : List.Forall₂ related log other) :
    Option.Rel related (last holds log) (last keeps other) := by
  induction matched with
  | nil => exact Option.Rel.none
  | @cons entry partner log other here _ ih =>
      have alike := same entry partner here
      cases kept : keeps partner with
      | false => rwa [last_cons_of_not log (alike.trans kept), last_cons_of_not other kept]
      | true =>
          rw [last_cons_of_holds log (alike.trans kept), last_cons_of_holds other kept]
          generalize last holds log = found at ih ⊢
          generalize last keeps other = wanted at ih ⊢
          cases ih with
          | some later => exact Option.Rel.some later
          | none => exact Option.Rel.some here

theorem last_filter {holds keeps : α → Bool} {log : List α}
    (contained : ∀ entry, holds entry = true → keeps entry = true) :
    last holds (log.filter keeps) = last holds log := by
  rw [last, last, List.filter_filter]
  congr 2
  funext entry
  by_cases held : holds entry = true
  · simp [held, contained entry held]
  · simp [held]

end Log
