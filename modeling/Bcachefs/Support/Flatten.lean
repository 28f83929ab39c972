import Mathlib.Data.List.Basic
import Mathlib.Data.List.Forall2
import Mathlib.Order.Basic

/-! Depth-first flattening of a sequence whose elements may stand for further
sequences. The derivation is finite, so a flattened sequence is a finite tree. -/

namespace Flattening

variable {κ : Type}

/-- `expand key none` says that `key` is kept, `expand key (some keys)` that it
stands for `keys`. -/
inductive Flat (expand : κ → Option (List κ) → Prop) : List κ → List κ → Prop
  | done : Flat expand [] []
  | keep {key keys flat} : expand key none → Flat expand keys flat →
      Flat expand (key :: keys) (key :: flat)
  | enter {key inner keys innerFlat flat} : expand key (some inner) →
      Flat expand inner innerFlat → Flat expand keys flat →
      Flat expand (key :: keys) (innerFlat ++ flat)

theorem Flat.keeps {expand : κ → Option (List κ) → Prop} {keep : κ → Prop} {keys flat : List κ}
    (expanded : Flat expand keys flat)
    (enters : ∀ key inner, expand key (some inner) → keep key → ∀ other ∈ inner, keep other)
    (initial : ∀ key ∈ keys, keep key) : ∀ key ∈ flat, keep key ∧ expand key none := by
  induction expanded with
  | done => exact fun key member => absurd member List.not_mem_nil
  | keep kept _ ih =>
      intro key member
      rcases List.mem_cons.mp member with rfl | later
      · exact ⟨initial _ List.mem_cons_self, kept⟩
      · exact ih (fun other inside => initial other (List.mem_cons_of_mem _ inside)) key later
  | enter entered _ _ ihInner ihLater =>
      intro key member
      rcases List.mem_append.mp member with inner | later
      · exact ihInner (enters _ _ entered (initial _ List.mem_cons_self)) key inner
      · exact ihLater (fun other inside => initial other (List.mem_cons_of_mem _ inside)) key later

theorem Flat.plain {expand : κ → Option (List κ) → Prop} {keys flat : List κ}
    (expanded : Flat expand keys flat) {key : κ} (member : key ∈ flat) : expand key none := by
  have kept : ∀ key ∈ flat, True ∧ expand key none :=
    expanded.keeps (fun _ _ _ _ _ _ => trivial) fun _ _ => trivial
  exact (kept key member).2

theorem Flat.unchanged {expand : κ → Option (List κ) → Prop} {keys : List κ}
    (plain : ∀ key ∈ keys, expand key none) : Flat expand keys keys := by
  induction keys with
  | nil => exact Flat.done
  | cons key keys ih =>
      apply Flat.keep (plain key List.mem_cons_self)
      exact ih fun other member => plain other (List.mem_cons_of_mem _ member)

theorem Flat.unique {expand : κ → Option (List κ) → Prop} {keys left right : List κ}
    (determined : ∀ key first second, expand key first → expand key second → first = second)
    (first : Flat expand keys left) (second : Flat expand keys right) : left = right := by
  induction first generalizing right with
  | done =>
      cases second
      rfl
  | keep kept _ ih =>
      cases second with
      | keep _ rest => rw [ih rest]
      | enter entered _ _ => cases determined _ _ _ kept entered
  | enter entered _ _ ihInner ihLater =>
      cases second with
      | keep kept _ => cases determined _ _ _ entered kept
      | enter again inner rest =>
          cases determined _ _ _ entered again
          rw [ihInner inner, ihLater rest]

theorem Flat.related {μ : Type} {expand : κ → Option (List κ) → Prop}
    {model : μ → Option (List μ) → Prop} {related : κ → μ → Prop} {keys : List κ}
    {partners flat : List μ}
    (keeps : ∀ key partner, related key partner → model partner none → expand key none)
    (enters : ∀ key partner inner, related key partner → model partner (some inner) →
      ∃ found, expand key (some found) ∧ List.Forall₂ related found inner)
    (expanded : Flat model partners flat) (start : List.Forall₂ related keys partners) :
    ∃ found, Flat expand keys found ∧ List.Forall₂ related found flat := by
  induction expanded generalizing keys with
  | done =>
      cases start
      exact ⟨[], Flat.done, List.Forall₂.nil⟩
  | keep plain _ ih =>
      cases start with
      | cons same rest =>
          rcases ih rest with ⟨found, kept, matched⟩
          exact ⟨_ :: found, Flat.keep (keeps _ _ same plain) kept, List.Forall₂.cons same matched⟩
  | enter stands _ _ ihInner ih =>
      cases start with
      | cons same rest =>
          rcases enters _ _ _ same stands with ⟨inner, entered, below⟩
          rcases ihInner below with ⟨innerFound, innerFlat, innerMatched⟩
          rcases ih rest with ⟨found, flat, matched⟩
          exact ⟨innerFound ++ found, Flat.enter entered innerFlat flat,
            List.rel_append innerMatched matched⟩

inductive Entered (expand : κ → Option (List κ) → Prop) : List κ → List κ → Prop
  | done : Entered expand [] []
  | keep {key keys entered} : expand key none → Entered expand keys entered →
      Entered expand (key :: keys) entered
  | enter {key inner keys innerEntered entered} : expand key (some inner) →
      Entered expand inner innerEntered → Entered expand keys entered →
      Entered expand (key :: keys) (key :: (innerEntered ++ entered))

theorem Flat.entered {expand : κ → Option (List κ) → Prop} {keys flat : List κ}
    (expanded : Flat expand keys flat) : ∃ entered, Entered expand keys entered := by
  induction expanded with
  | done => exact ⟨[], Entered.done⟩
  | keep kept _ ih =>
      rcases ih with ⟨entered, rest⟩
      exact ⟨entered, Entered.keep kept rest⟩
  | enter expands _ _ ihInner ihLater =>
      rcases ihInner with ⟨innerEntered, inner⟩
      rcases ihLater with ⟨entered, rest⟩
      exact ⟨_, Entered.enter expands inner rest⟩

inductive Below (expand : κ → Option (List κ) → Prop) (keys : List κ) : κ → Prop
  | here {key} : key ∈ keys → Below expand keys key
  | inside {key inner other} : Below expand keys key → expand key (some inner) → other ∈ inner →
      Below expand keys other

theorem Below.mono {expand : κ → Option (List κ) → Prop} {keys larger : List κ} {key : κ}
    (below : Below expand keys key) (contained : ∀ other ∈ keys, Below expand larger other) :
    Below expand larger key := by
  induction below with
  | here member => exact contained _ member
  | inside _ expanded member ih => exact Below.inside ih expanded member

theorem Below.closed {expand : κ → Option (List κ) → Prop} {keys : List κ} {among : κ → Prop}
    (initial : ∀ key ∈ keys, among key)
    (enters : ∀ key inner, among key → expand key (some inner) → ∀ other ∈ inner, among other)
    {key : κ} (below : Below expand keys key) : among key := by
  induction below with
  | here member => exact initial _ member
  | inside _ expanded member ih => exact enters _ _ ih expanded _ member

section

variable {π : Type} [Preorder π] {lower upper : κ → π} {expand : κ → Option (List κ) → Prop}
  {keys flat : List κ}

structure Ordered (lower upper : κ → π) (keys : List κ) : Prop where
  spans : ∀ key ∈ keys, lower key ≤ upper key
  apart : keys.Pairwise fun left right => upper left < lower right

structure OrderedInside (lower upper : κ → π) (key : κ) (inner : List κ) : Prop
    extends Ordered lower upper inner where
  within : ∀ other ∈ inner, lower key ≤ lower other ∧ upper other ≤ upper key

theorem Ordered.tail {key : κ} (ordered : Ordered lower upper (key :: keys)) :
    Ordered lower upper keys where
  spans other member := ordered.spans other (List.mem_cons_of_mem _ member)
  apart := (List.pairwise_cons.mp ordered.apart).2

theorem Flat.within (expanded : Flat expand keys flat)
    (inside : ∀ key inner, Below expand keys key → expand key (some inner) →
      OrderedInside lower upper key inner) :
    ∀ other ∈ flat, ∃ key ∈ keys, lower key ≤ lower other ∧ upper other ≤ upper key := by
  induction expanded with
  | done =>
      intro other member
      cases member
  | @keep key keys flat _ _ ih =>
      intro other member
      rcases List.mem_cons.mp member with rfl | later
      · exact ⟨other, List.mem_cons_self, le_refl _, le_refl _⟩
      · have rest := ih fun key inner below => inside key inner
          (below.mono fun _ listed => Below.here (List.mem_cons_of_mem _ listed))
        rcases rest other later with ⟨key, listed, within⟩
        exact ⟨key, List.mem_cons_of_mem _ listed, within⟩
  | @enter key inner keys innerFlat flat entered _ _ ihInner ihLater =>
      intro other member
      have first : Below expand (key :: keys) key := Below.here List.mem_cons_self
      rcases List.mem_append.mp member with deeper | later
      · have nested := ihInner fun key inner below => inside key inner
          (below.mono fun _ listed => Below.inside first entered listed)
        rcases nested other deeper with ⟨between, listed, low, high⟩
        have within := (inside key inner first entered).within between listed
        exact ⟨key, List.mem_cons_self, le_trans within.1 low, le_trans high within.2⟩
      · have rest := ihLater fun key inner below => inside key inner
          (below.mono fun _ listed => Below.here (List.mem_cons_of_mem _ listed))
        rcases rest other later with ⟨key, listed, within⟩
        exact ⟨key, List.mem_cons_of_mem _ listed, within⟩

/-- Where every sequence is in order inside its element, so is the flattening. -/
theorem Flat.ordered (expanded : Flat expand keys flat) (initial : Ordered lower upper keys)
    (inside : ∀ key inner, Below expand keys key → expand key (some inner) →
      OrderedInside lower upper key inner) :
    Ordered lower upper flat := by
  induction expanded with
  | done => exact initial
  | @keep key keys flat _ expanded ih =>
      have deeper : ∀ key inner, Below expand keys key → expand key (some inner) →
          OrderedInside lower upper key inner := fun key inner below => inside key inner
        (below.mono fun _ listed => Below.here (List.mem_cons_of_mem _ listed))
      have rest := ih initial.tail deeper
      constructor
      · intro other member
        rcases List.mem_cons.mp member with rfl | later
        · exact initial.spans other List.mem_cons_self
        · exact rest.spans other later
      · apply List.Pairwise.cons _ rest.apart
        intro other member
        rcases expanded.within deeper other member with ⟨between, listed, low, _⟩
        exact lt_of_lt_of_le ((List.pairwise_cons.mp initial.apart).1 between listed) low
  | @enter key inner keys innerFlat flat entered below expanded ihInner ihLater =>
      have first : Below expand (key :: keys) key := Below.here List.mem_cons_self
      have nested : ∀ key inner', Below expand inner key → expand key (some inner') →
          OrderedInside lower upper key inner' := fun key inner' listed => inside key inner'
        (listed.mono fun _ member => Below.inside first entered member)
      have deeper : ∀ key inner, Below expand keys key → expand key (some inner) →
          OrderedInside lower upper key inner := fun key inner below => inside key inner
        (below.mono fun _ listed => Below.here (List.mem_cons_of_mem _ listed))
      have own := inside key inner first entered
      have left := ihInner own.toOrdered nested
      have right := ihLater initial.tail deeper
      constructor
      · intro other member
        rcases List.mem_append.mp member with deep | later
        · exact left.spans other deep
        · exact right.spans other later
      · refine List.pairwise_append.mpr ⟨left.apart, right.apart, ?_⟩
        intro low lowMember high highMember
        rcases below.within nested low lowMember with ⟨between, listed, _, top⟩
        rcases expanded.within deeper high highMember with ⟨behind, listedBehind, bottom, _⟩
        calc upper low ≤ upper between := top
          _ ≤ upper key := (own.within between listed).2
          _ < lower behind := (List.pairwise_cons.mp initial.apart).1 behind listedBehind
          _ ≤ lower high := bottom

end

end Flattening
