import Mathlib.Data.Fintype.Card
import Mathlib.Data.Set.Finite.Basic
import Mathlib.Data.Set.Finite.Lemmas
import Mathlib.Logic.Relation
import Mathlib.Order.Interval.Finset.Nat

/-! A graph on bounded numbers has no endless path where it has no cycle. -/

namespace Acyclic

open Relation

variable {edge : Nat → Nat → Prop} {bound root : Nat}

theorem acc_of_acyclic (bounded : ∀ node next, edge node next → next < bound)
    (acyclic : ∀ node, ReflTransGen edge root node → ¬TransGen edge node node) :
    Acc (fun next node => edge node next) root := by
  let Inside := { node : Nat // node < bound ∧ ReflTransGen edge root node }
  let below : Inside → Inside → Prop := fun next node => TransGen edge node.val next.val
  have finite : Finite Inside :=
    Set.Finite.to_subtype ((Set.finite_lt_nat bound).subset fun _ member => member.1)
  have transitive : IsTrans Inside below := ⟨fun _ _ _ first second => second.trans first⟩
  have irreflexive : Std.Irrefl below := ⟨fun node => acyclic node.val node.property.2⟩
  have grounded : WellFounded below := Finite.wellFounded_of_trans_of_irrefl below
  have inside (node : Inside) : Acc (fun next node => edge node next) node.val := by
    induction node using grounded.induction with
    | _ node ih =>
        refine Acc.intro _ fun next linked => ?_
        exact ih ⟨next, bounded _ _ linked, node.property.2.tail linked⟩ (TransGen.single linked)
  exact Acc.intro _ fun next linked =>
    inside ⟨next, bounded _ _ linked, ReflTransGen.single linked⟩

end Acyclic
