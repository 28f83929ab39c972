import Mathlib.Data.List.Basic

/-! Iterators over one shared store. Where growth of the store keeps what every
iterator has left, no schedule changes what an iterator returns. -/

namespace Interleaving

variable {ω ι ρ ν τ : Type}

structure Machine (ω ι ρ τ : Type) where
  create : τ → ω → ι → ω → Prop
  call : ι → ω → ρ → ι → ω → Prop

structure Slot (ι ν τ : Type) where
  source : τ
  iterator : ι
  log : List (Option ν)

structure System (ω ι ν τ : Type) where
  store : ω
  slots : List (Slot ι ν τ)

inductive Op (τ : Type)
  | create (source : τ)
  | call (index : Nat)
  | copy (index : Nat)

def Op.Valid (values : τ → List ν → Prop) (slots : Nat) : Op τ → Prop
  | create source => ∃ all, values source all
  | call index => index < slots
  | copy index => index < slots

inductive Step (machine : Machine ω ι ρ τ) (view : ω → ρ → Option ν) :
    System ω ι ν τ → Op τ → System ω ι ν τ → Prop
  | create {store slots source iterator after} : machine.create source store iterator after →
      Step machine view { store := store, slots := slots } (.create source)
        { store := after
          slots := slots ++ [{ source := source, iterator := iterator, log := [] }] }
  | call {store slots index slot result iterator after} : slots[index]? = some slot →
      machine.call slot.iterator store result iterator after →
      Step machine view { store := store, slots := slots } (.call index)
        { store := after
          slots := slots.set index
            { slot with iterator := iterator, log := slot.log ++ [view after result] } }
  | copy {store slots index slot} : slots[index]? = some slot →
      Step machine view { store := store, slots := slots } (.copy index)
        { store := store, slots := slots ++ [slot] }

def Op.slots (before : Nat) : Op τ → Nat
  | create _ => before + 1
  | call _ => before
  | copy _ => before + 1

def Schedulable (values : τ → List ν → Prop) : Nat → List (Op τ) → Prop
  | _, [] => True
  | slots, op :: ops => op.Valid values slots ∧ Schedulable values (op.slots slots) ops

theorem Schedulable.known {values : τ → List ν → Prop} {slots : Nat} {ops : List (Op τ)}
    (schedulable : Schedulable values slots ops) :
    ∀ source, .create source ∈ ops → ∃ all, values source all := by
  induction ops generalizing slots with
  | nil => exact fun source member => absurd member List.not_mem_nil
  | cons op ops ih =>
      intro source member
      rcases List.mem_cons.mp member with rfl | later
      · exact schedulable.1
      · exact ih schedulable.2 source later

theorem Step.slots {machine : Machine ω ι ρ τ} {view : ω → ρ → Option ν}
    {before after : System ω ι ν τ} {op : Op τ} (step : Step machine view before op after) :
    after.slots.length = op.slots before.slots.length := by
  cases step with
  | create _ => simp [Op.slots]
  | call _ _ => simp [Op.slots]
  | copy _ => simp [Op.slots]

inductive Run (machine : Machine ω ι ρ τ) (view : ω → ρ → Option ν) :
    System ω ι ν τ → List (Op τ) → System ω ι ν τ → Prop
  | start (system) : Run machine view system [] system
  | step {first middle last op ops} : Step machine view first op middle →
      Run machine view middle ops last → Run machine view first (op :: ops) last

inductive Alone (machine : Machine ω ι ρ τ) (view : ω → ρ → Option ν) (first : ι × ω) :
    List (Option ν) → ι × ω → Prop
  | start : Alone machine view first [] first
  | call {log iterator store result next after} : Alone machine view first log (iterator, store) →
      machine.call iterator store result next after →
      Alone machine view first (log ++ [view after result]) (next, after)

/-- `left store iterator values`: the iterator still returns these values. Every call
returns the first of them, and what other iterators do to the store keeps the rest. -/
structure Independent (machine : Machine ω ι ρ τ) (view : ω → ρ → Option ν) (ready : ω → Prop)
    (grows : ω → ω → Prop) (values : τ → List ν → Prop) (left : ω → ι → List ν → Prop) :
    Prop where
  stays : ∀ {store after}, ready store → grows store after → ready after
  stable : ∀ {store after iterator rest}, left store iterator rest → grows store after →
    left after iterator rest
  creates : ∀ {store source rest}, ready store → values source rest →
    ∃ iterator after, machine.create source store iterator after
  created : ∀ {store source rest iterator after}, ready store → values source rest →
    machine.create source store iterator after → grows store after ∧ left after iterator rest
  calls : ∀ {store iterator rest}, ready store → left store iterator rest →
    ∃ result next after, machine.call iterator store result next after
  called : ∀ {store iterator rest result next after}, ready store → left store iterator rest →
    machine.call iterator store result next after →
    grows store after ∧ view after result = rest.head? ∧ left after next rest.tail

def prefixOf (values : List ν) (count : Nat) : List (Option ν) :=
  (List.range count).map fun index => values[index]?

theorem prefixOf_succ (values : List ν) (count : Nat) :
    prefixOf values (count + 1) = prefixOf values count ++ [values[count]?] := by
  simp [prefixOf, List.range_succ]

namespace Independent

variable {machine : Machine ω ι ρ τ} {view : ω → ρ → Option ν} {ready : ω → Prop}
  {grows : ω → ω → Prop} {values : τ → List ν → Prop} {left : ω → ι → List ν → Prop}

theorem called_drop (independent : Independent machine view ready grows values left)
    {store after : ω} {iterator next : ι} {result : ρ} {all : List ν} {count : Nat}
    (here : ready store) (rest : left store iterator (all.drop count))
    (called : machine.call iterator store result next after) :
    grows store after ∧ view after result = all[count]? ∧
      left after next (all.drop (count + 1)) := by
  obtain ⟨grown, same, later⟩ := independent.called here rest called
  exact ⟨grown, by simpa using same, by simpa using later⟩

theorem alone_log (independent : Independent machine view ready grows values left)
    {first last : ι × ω} {all : List ν} {log : List (Option ν)} (here : ready first.2)
    (start : left first.2 first.1 all) (alone : Alone machine view first log last) :
    ready last.2 ∧ left last.2 last.1 (all.drop log.length) ∧ log = prefixOf all log.length := by
  induction alone with
  | start => exact ⟨here, start, rfl⟩
  | call _ called ih =>
      obtain ⟨ready, rest, same⟩ := ih
      obtain ⟨grown, shown, later⟩ := independent.called_drop ready rest called
      refine ⟨independent.stays ready grown, ?_, ?_⟩
      · simpa using later
      · rw [List.length_append, List.length_singleton, prefixOf_succ, ← same, shown]

theorem alone_exists (independent : Independent machine view ready grows values left)
    {first : ι × ω} {all : List ν} (here : ready first.2) (start : left first.2 first.1 all)
    (count : Nat) : ∃ last, Alone machine view first (prefixOf all count) last := by
  induction count with
  | zero => exact ⟨first, Alone.start⟩
  | succ count ih =>
      obtain ⟨last, alone⟩ := ih
      obtain ⟨ready, rest, _⟩ := independent.alone_log here start alone
      have length : (prefixOf all count).length = count := by simp [prefixOf]
      rw [length] at rest
      obtain ⟨result, next, after, called⟩ := independent.calls ready rest
      have shown := (independent.called_drop ready rest called).2.1
      refine ⟨(next, after), ?_⟩
      rw [prefixOf_succ, ← shown]
      exact Alone.call alone called

def Placed (values : τ → List ν → Prop) (left : ω → ι → List ν → Prop) (store : ω)
    (slot : Slot ι ν τ) : Prop :=
  ∃ all, values slot.source all ∧ left store slot.iterator (all.drop slot.log.length) ∧
    slot.log = prefixOf all slot.log.length

structure Consistent (ready : ω → Prop) (values : τ → List ν → Prop)
    (left : ω → ι → List ν → Prop) (system : System ω ι ν τ) : Prop where
  ready : ready system.store
  placed : ∀ slot ∈ system.slots, Placed values left system.store slot

theorem Placed.stable (independent : Independent machine view ready grows values left)
    {store after : ω} {slot : Slot ι ν τ} (placed : Placed values left store slot)
    (grown : grows store after) : Placed values left after slot := by
  obtain ⟨all, source, rest, same⟩ := placed
  exact ⟨all, source, independent.stable rest grown, same⟩

theorem step_consistent (independent : Independent machine view ready grows values left)
    {before after : System ω ι ν τ} {op : Op τ}
    (known : ∀ source, op = .create source → ∃ all, values source all)
    (consistent : Consistent ready values left before) (step : Step machine view before op after) :
    Consistent ready values left after := by
  cases step with
  | @create store slots source iterator after created =>
      obtain ⟨all, sourced⟩ := known source rfl
      obtain ⟨grown, fresh⟩ := independent.created consistent.ready sourced created
      refine ⟨independent.stays consistent.ready grown, fun slot member => ?_⟩
      rcases List.mem_append.mp member with old | new
      · exact (consistent.placed slot old).stable independent grown
      · cases List.mem_singleton.mp new
        exact ⟨all, sourced, fresh, rfl⟩
  | @call store slots index slot result iterator after found called =>
      obtain ⟨all, sourced, rest, same⟩ := consistent.placed slot (List.mem_of_getElem? found)
      obtain ⟨grown, shown, later⟩ := independent.called_drop consistent.ready rest called
      refine ⟨independent.stays consistent.ready grown, fun other member => ?_⟩
      rcases List.mem_or_eq_of_mem_set member with old | rfl
      · exact (consistent.placed other old).stable independent grown
      · refine ⟨all, sourced, ?_, ?_⟩
        · simpa using later
        · rw [List.length_append, List.length_singleton, prefixOf_succ, ← same, shown]
  | @copy store slots index slot found =>
      refine ⟨consistent.ready, fun other member => ?_⟩
      rcases List.mem_append.mp member with old | new
      · exact consistent.placed other old
      · cases List.mem_singleton.mp new
        exact consistent.placed slot (List.mem_of_getElem? found)

theorem run_consistent (independent : Independent machine view ready grows values left)
    {first last : System ω ι ν τ} {ops : List (Op τ)}
    (known : ∀ source, .create source ∈ ops → ∃ all, values source all)
    (consistent : Consistent ready values left first) (run : Run machine view first ops last) :
    Consistent ready values left last := by
  induction run with
  | start _ => exact consistent
  | step taken _ ih =>
      apply ih
      · exact fun source member => known source (List.mem_cons_of_mem _ member)
      · apply independent.step_consistent ?_ consistent taken
        rintro source rfl
        exact known source List.mem_cons_self

theorem step_exists (independent : Independent machine view ready grows values left)
    {system : System ω ι ν τ} (consistent : Consistent ready values left system) (op : Op τ)
    (valid : op.Valid values system.slots.length) :
    ∃ after, Step machine view system op after := by
  obtain ⟨store, slots⟩ := system
  cases op with
  | create source =>
      obtain ⟨all, sourced⟩ := valid
      obtain ⟨iterator, after, created⟩ := independent.creates consistent.ready sourced
      exact ⟨_, Step.create created⟩
  | call index =>
      have found := List.getElem?_eq_getElem valid
      obtain ⟨all, _, rest, _⟩ := consistent.placed _ (List.mem_of_getElem? found)
      obtain ⟨result, next, after, called⟩ := independent.calls consistent.ready rest
      exact ⟨_, Step.call found called⟩
  | copy index => exact ⟨_, Step.copy (List.getElem?_eq_getElem valid)⟩

theorem run_exists (independent : Independent machine view ready grows values left)
    {system : System ω ι ν τ} {ops : List (Op τ)}
    (consistent : Consistent ready values left system)
    (schedulable : Schedulable values system.slots.length ops) :
    ∃ last, Run machine view system ops last := by
  induction ops generalizing system with
  | nil => exact ⟨system, Run.start system⟩
  | cons op ops ih =>
      obtain ⟨valid, later⟩ := schedulable
      obtain ⟨middle, step⟩ := independent.step_exists consistent op valid
      rw [← step.slots] at later
      have known : ∀ source, op = .create source → ∃ all, values source all := by
        rintro source rfl
        exact valid
      obtain ⟨last, run⟩ := ih (independent.step_consistent known consistent step) later
      exact ⟨last, Run.step step run⟩

theorem alone_of_placed (independent : Independent machine view ready grows values left)
    {initial store : ω} {slot : Slot ι ν τ} (here : ready initial)
    (placed : Placed values left store slot) :
    ∃ iterator start, machine.create slot.source initial iterator start ∧
      (∃ last, Alone machine view (iterator, start) slot.log last) ∧
      ∀ log last, Alone machine view (iterator, start) log last →
        log.length = slot.log.length → log = slot.log := by
  obtain ⟨all, sourced, _, same⟩ := placed
  obtain ⟨iterator, start, created⟩ := independent.creates here sourced
  obtain ⟨grown, fresh⟩ := independent.created here sourced created
  have begun := independent.stays here grown
  refine ⟨iterator, start, created, ?_, ?_⟩
  · rw [same]
    exact independent.alone_exists begun fresh slot.log.length
  · intro log last alone length
    rw [(independent.alone_log begun fresh alone).2.2, length, ← same]

end Independent

end Interleaving
