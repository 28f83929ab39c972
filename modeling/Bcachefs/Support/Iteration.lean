import Mathlib.Data.List.Basic

/-! Iterators with a `next` that returns an element or nothing. A call may be a
relation, so that a call that never returns is a state without a step. -/

namespace Iteration

section Fallible

variable {ε α β : Type}

@[simp] theorem ok_bind (value : α) (next : α → Except ε β) :
    (Except.ok value >>= next) = next value := rfl

@[simp] theorem error_bind (fault : ε) (next : α → Except ε β) :
    ((Except.error fault : Except ε α) >>= next) = Except.error fault := rfl

theorem bind_eq_ok {action : Except ε α} {next : α → Except ε β} {result : β} :
    (action >>= next) = .ok result ↔ ∃ value, action = .ok value ∧ next value = .ok result := by
  cases action with
  | error fault => simp
  | ok value => simp

theorem bind_congr_ok {action : Except ε α} {left right : α → Except ε β}
    (same : ∀ value, action = .ok value → left value = right value) :
    (action >>= left) = (action >>= right) := by
  cases action with
  | error fault => rfl
  | ok value => exact same value rfl

end Fallible

variable {σ α ε : Type}

inductive Calls (step : σ → Option α → σ → Prop) : σ → List (Option α) → σ → Prop
  | start (state) : Calls step state [] state
  | call {state middle final result results} : step state result middle →
      Calls step middle results final → Calls step state (result :: results) final

theorem Calls.keeps {step : σ → Option α → σ → Prop} {keep : σ → Prop} {first last : σ}
    {results : List (Option α)} (calls : Calls step first results last)
    (keeps : ∀ {state result next}, step state result next → keep state → keep next)
    (initial : keep first) : keep last := by
  induction calls with
  | start _ => exact initial
  | call taken _ ih => exact ih (keeps taken initial)

inductive Ends (step : σ → Option α → σ → Prop) : σ → Prop
  | last {state final} : step state none final → Ends step state
  | more {state middle element} : step state (some element) middle → Ends step middle →
      Ends step state

theorem Ends.of_same_steps {step : σ → Option α → σ → Prop} {left right : σ}
    (same : ∀ result next, step left result next → step right result next)
    (ends : Ends step left) : Ends step right := by
  cases ends with
  | last step => exact Ends.last (same _ _ step)
  | more step rest => exact Ends.more (same _ _ step) rest

theorem Ends.calls_step {step : σ → Option α → σ → Prop}
    (unique : ∀ {state leftResult rightResult left right}, step state leftResult left →
      step state rightResult right → leftResult = rightResult ∧ left = right)
    (stays : ∀ {state final}, step state none final → step final none final)
    {first last : σ} {results : List (Option α)} (ends : Ends step first)
    (calls : Calls step first results last) : ∃ result next, step last result next := by
  induction calls with
  | start state =>
      cases ends with
      | last taken => exact ⟨_, _, taken⟩
      | more taken _ => exact ⟨_, _, taken⟩
  | call taken _ ih =>
      apply ih
      cases ends with
      | last other =>
          obtain ⟨_, rfl⟩ := unique other taken
          exact Ends.last (stays other)
      | more other rest =>
          obtain ⟨_, rfl⟩ := unique other taken
          exact rest

def Nth (step : σ → Option α → σ → Prop) (first : σ) (count : Nat) (element : α) (after : σ) : Prop :=
  ∃ results before, results.length = count ∧ Calls step first results before ∧
    step before (some element) after

/-- `left state elements`: from this state on the calls return these elements, and
then nothing any more. -/
structure Lists (step : σ → Option α → σ → Prop) (left : σ → List α → Prop) : Prop where
  returns : ∀ {state elements}, left state elements → ∃ result next, step state result next
  first : ∀ {state elements result next}, left state elements → step state result next →
    result = elements.head? ∧ left next elements.tail

namespace Lists

variable {step : σ → Option α → σ → Prop} {left : σ → List α → Prop}

theorem calls (lists : Lists step left) {first last : σ} {results : List (Option α)}
    {elements : List α} (start : left first elements) (calls : Calls step first results last) :
    left last (elements.drop results.length) := by
  induction calls generalizing elements with
  | start _ => exact start
  | call taken _ ih =>
      have rest := ih (lists.first start taken).2
      simpa [List.drop_drop, ← List.drop_one, Nat.add_comm] using rest

theorem nth (lists : Lists step left) {first after : σ} {count : Nat} {element : α}
    {elements : List α} (start : left first elements) (found : Nth step first count element after) :
    elements[count]? = some element ∧ left after (elements.drop (count + 1)) := by
  obtain ⟨results, before, rfl, calls, taken⟩ := found
  obtain ⟨same, rest⟩ := lists.first (lists.calls start calls) taken
  refine ⟨by simpa [List.head?_drop] using same.symm, ?_⟩
  simpa [List.drop_drop] using rest

theorem calls_exist (lists : Lists step left) {first : σ} {elements : List α}
    (start : left first elements) (count : Nat) :
    ∃ results last, results.length = count ∧ Calls step first results last := by
  induction count generalizing first elements with
  | zero => exact ⟨[], first, rfl, Calls.start first⟩
  | succ count ih =>
      obtain ⟨result, next, taken⟩ := lists.returns start
      obtain ⟨results, last, length, calls⟩ := ih (lists.first start taken).2
      exact ⟨result :: results, last, by simp [length], Calls.call taken calls⟩

theorem nth_exists (lists : Lists step left) {first : σ} {count : Nat} {element : α}
    {elements : List α} (start : left first elements) (position : elements[count]? = some element) :
    ∃ after, Nth step first count element after := by
  obtain ⟨results, before, length, calls⟩ := lists.calls_exist start count
  have rest := lists.calls start calls
  obtain ⟨result, after, taken⟩ := lists.returns rest
  have same := (lists.first rest taken).1
  rw [List.head?_drop, length, position] at same
  subst same
  exact ⟨after, results, before, length, calls, taken⟩

end Lists

theorem pairwise_iff_positions {relation : α → α → Prop} {elements : List α} :
    elements.Pairwise relation ↔ ∀ (i j : Nat) left right, i < j → elements[i]? = some left →
      elements[j]? = some right → relation left right := by
  rw [List.pairwise_iff_getElem]
  constructor
  · intro related i j left right earlier leftListed rightListed
    obtain ⟨leftInside, rfl⟩ := List.getElem?_eq_some_iff.mp leftListed
    obtain ⟨rightInside, rfl⟩ := List.getElem?_eq_some_iff.mp rightListed
    exact related i j leftInside rightInside earlier
  · intro related i j leftInside rightInside earlier
    exact related i j _ _ earlier (List.getElem?_eq_getElem leftInside)
      (List.getElem?_eq_getElem rightInside)

def drain (next : σ → Except ε (Option α × σ)) (exhausted : ε) : Nat → σ → Except ε (List α)
  | 0, _ => .error exhausted
  | fuel + 1, state => do
      match ← next state with
      | (none, _) => return []
      | (some element, state) =>
          let rest ← drain next exhausted fuel state
          return element :: rest

inductive Produces (next : σ → Except ε (Option α × σ)) : σ → List α → Prop
  | done {state after} : next state = .ok (none, after) → Produces next state []
  | more {state after element elements} : next state = .ok (some element, after) →
      Produces next after elements → Produces next state (element :: elements)

theorem Produces.of_same_next {next : σ → Except ε (Option α × σ)} {left right : σ}
    {elements : List α} (same : next left = next right) (produces : Produces next right elements) :
    Produces next left elements := by
  cases produces with
  | done returned => exact Produces.done (same.trans returned)
  | more returned rest => exact Produces.more (same.trans returned) rest

theorem Produces.same_next_iff {next : σ → Except ε (Option α × σ)} {left right : σ}
    {elements : List α} (same : next left = next right) :
    Produces next left elements ↔ Produces next right elements :=
  ⟨Produces.of_same_next same.symm, Produces.of_same_next same⟩

theorem Produces.cons_iff {next : σ → Except ε (Option α × σ)} {state after : σ} {element : α}
    {elements : List α} (returned : next state = .ok (some element, after)) :
    Produces next state (element :: elements) ↔ Produces next after elements := by
  constructor
  · intro produces
    cases produces with
    | more again rest =>
        cases returned.symm.trans again
        exact rest
  · exact Produces.more returned

def Yields (next : σ → Except ε (Option α × σ)) (before : σ) (result : Option α) (after : σ) : Prop :=
  next before = .ok (result, after)

theorem Produces.append_iff {next : σ → Except ε (Option α × σ)} {state after : σ}
    {elements later : List α} (calls : Calls (Yields next) state (elements.map some) after) :
    Produces next state (elements ++ later) ↔ Produces next after later := by
  induction elements generalizing state with
  | nil =>
      cases calls
      rfl
  | cons element elements ih =>
      cases calls with
      | call returned rest =>
          rw [List.cons_append, Produces.cons_iff returned]
          exact ih rest

theorem drain_of_produces {next : σ → Except ε (Option α × σ)} {exhausted : ε} {fuel : Nat}
    {state : σ} {elements : List α} (produces : Produces next state elements)
    (ended : drain next exhausted fuel state ≠ .error exhausted) :
    drain next exhausted fuel state = .ok elements := by
  induction produces generalizing fuel with
  | done returned =>
      rcases fuel with _ | fuel
      · exact absurd rfl ended
      · rw [drain, returned]
        rfl
  | @more state after element elements returned _ ih =>
      rcases fuel with _ | fuel
      · exact absurd rfl ended
      · rw [drain, returned, ok_bind] at ended ⊢
        dsimp only at ended ⊢
        have rest : drain next exhausted fuel after = .ok elements := by
          apply ih
          intro failed
          rw [failed] at ended
          exact ended rfl
        rw [rest]
        rfl

theorem drain_ne_exhausted {next : σ → Except ε (Option α × σ)} {exhausted : ε}
    (measure : σ → Nat) (sound : ∀ state, next state ≠ .error exhausted)
    (decreases : ∀ state element after, next state = .ok (some element, after) →
      measure after < measure state) {fuel : Nat} {state : σ} (enough : measure state < fuel) :
    drain next exhausted fuel state ≠ .error exhausted := by
  induction fuel generalizing state with
  | zero => omega
  | succ fuel ih =>
      rw [drain]
      cases returned : next state with
      | error fault =>
          intro failed
          rw [error_bind] at failed
          cases failed
          exact sound state returned
      | ok outcome =>
          obtain ⟨result, after⟩ := outcome
          cases result with
          | none => simp [pure, Except.pure]
          | some element =>
              have smaller := decreases state element after returned
              have rest := @ih after (by omega)
              intro failed
              cases tail : drain next exhausted fuel after with
              | error fault =>
                  rw [tail] at rest
                  simp only [ok_bind, tail, error_bind] at failed
                  exact rest failed
              | ok elements => simp [tail, pure, Except.pure] at failed

end Iteration
