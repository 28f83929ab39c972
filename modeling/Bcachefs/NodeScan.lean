import Bcachefs.NodeCore

/-! What one call of the node's iterators can do, and the keys that are left in a
node whose two iterators are suspended in the middle of it. -/

namespace Bcachefs

open ByteString Iteration

namespace BKeyIterator

theorem next_none {node : Bytes} {it after : BKeyIterator}
    (returned : it.next node = .ok (none, after)) : after = it := by
  unfold next at returned
  cases position : it.iter with
  | none => simp_all
  | some val =>
      simp only [position] at returned
      split at returned
      · simp_all
      · obtain ⟨u64s, _, rest⟩ := bind_eq_ok.mp returned
        split at rest
        · rename_i zero
          cases rest
          subst zero
          cases it
          simp_all
        · cases rest

theorem next_some {node : Bytes} {it after : BKeyIterator} {key : Nat}
    (returned : it.next node = .ok (some key, after)) :
    it.iter = some key ∧ key < node.size ∧
      ∃ u64s, BKey.u64s node key = .ok u64s ∧ 0 < u64s ∧
        after = { it with iter := some (key + u64s * u64sSize) } := by
  unfold next at returned
  cases position : it.iter with
  | none => simp [position] at returned
  | some val =>
      simp only [position] at returned
      split at returned
      · cases returned
      · obtain ⟨u64s, read, rest⟩ := bind_eq_ok.mp returned
        have inside := (load_ok.mp read).1
        split at rest
        · cases rest
        · rename_i nonzero
          cases rest
          exact ⟨rfl, by omega, u64s, read, by omega, rfl⟩

end BKeyIterator

namespace BSetIterator

theorem offset_ok {node : Bytes} {blockSize iter after : Nat}
    (returned : offset node blockSize iter = .ok after) :
    iter < after ∧ iter + sizeofBSet ≤ node.size := by
  obtain ⟨u64s, read, rest⟩ := bind_eq_ok.mp returned
  have inside := (load_ok.mp read).1
  split at rest
  · cases rest
  · cases rest
    simp only [sizeofBSet]
    omega

theorem nextWithin_none {node : Bytes} {blockSize fuel : Nat} {it after : BSetIterator}
    (returned : nextWithin node blockSize fuel it = .ok (none, after)) :
    after.stop = it.stop ∧ it.stop ≤ after.iter := by
  induction fuel generalizing it with
  | zero => cases returned
  | succ fuel ih =>
      unfold nextWithin at returned
      split at returned
      · cases returned
        exact ⟨rfl, by assumption⟩
      · obtain ⟨iter, _, rest⟩ := bind_eq_ok.mp returned
        obtain ⟨u64s, _, rest⟩ := bind_eq_ok.mp rest
        split at rest
        · have tail := ih rest
          exact tail
        · cases rest

theorem next_none {node : Bytes} {blockSize : Nat} {it after : BSetIterator}
    (returned : it.next node blockSize = .ok (none, after)) :
    after.next node blockSize = .ok (none, after) := by
  obtain ⟨stop, reached⟩ := nextWithin_none returned
  unfold next nextWithin
  rw [if_pos (by omega)]

theorem nextWithin_some {node : Bytes} {blockSize fuel bset : Nat} {it after : BSetIterator}
    (returned : nextWithin node blockSize fuel it = .ok (some bset, after)) :
    it.iter ≤ bset ∧ bset < after.iter ∧ bset < it.stop ∧ after.stop = it.stop ∧
      bset + sizeofBSet ≤ node.size := by
  induction fuel generalizing it with
  | zero => cases returned
  | succ fuel ih =>
      unfold nextWithin at returned
      split at returned
      · cases returned
      · rename_i unfinished
        obtain ⟨iter, moved, rest⟩ := bind_eq_ok.mp returned
        obtain ⟨u64s, _, rest⟩ := bind_eq_ok.mp rest
        have forward := offset_ok moved
        split at rest
        · obtain ⟨lower, upper, inside, stop, header⟩ := ih rest
          dsimp only at lower inside stop
          exact ⟨by omega, upper, inside, stop, header⟩
        · cases rest
          exact ⟨Nat.le_refl _, forward.1, by omega, rfl, forward.2⟩

end BSetIterator

inductive Rest (node : Bytes) (blockSize : Nat) :
    BKeyIterator → BSetIterator → List Nat → Prop
  | done {keyIterator keyAfter bsetIterator bsetAfter} :
      keyIterator.next node = .ok (none, keyAfter) →
      bsetIterator.next node blockSize = .ok (none, bsetAfter) →
      Rest node blockSize keyIterator bsetIterator []
  | bset {keyIterator keyAfter bsetIterator bsetAfter bset entered keys} :
      keyIterator.next node = .ok (none, keyAfter) →
      bsetIterator.next node blockSize = .ok (some bset, bsetAfter) →
      BKeyIterator.new node bset = .ok entered →
      Rest node blockSize entered bsetAfter keys →
      Rest node blockSize keyIterator bsetIterator keys
  | key {keyIterator keyAfter bsetIterator key keys} :
      keyIterator.next node = .ok (some key, keyAfter) →
      Rest node blockSize keyAfter bsetIterator keys →
      Rest node blockSize keyIterator bsetIterator (key :: keys)

theorem drain_rest {node : Bytes} {blockSize fuel : Nat} {keyIterator : BKeyIterator}
    {bsetIterator : BSetIterator} {keys later : List Nat}
    (drained : drain (BKeyIterator.next node) .fuel fuel keyIterator = .ok keys)
    (continued : ∀ last after, last.next node = .ok (none, after) →
      Rest node blockSize last bsetIterator later) :
    Rest node blockSize keyIterator bsetIterator (keys ++ later) := by
  induction fuel generalizing keyIterator keys with
  | zero => cases drained
  | succ fuel ih =>
      obtain ⟨⟨result, after⟩, returned, rest⟩ := bind_eq_ok.mp drained
      cases result with
      | none =>
          cases rest
          exact continued _ _ returned
      | some key =>
          obtain ⟨tail, tailDrained, equal⟩ := bind_eq_ok.mp rest
          cases equal
          exact Rest.key returned (ih tailDrained)

theorem drain_bsets_rest {node : Bytes} {blockSize fuel : Nat} {keyIterator after : BKeyIterator}
    {bsetIterator : BSetIterator} {bsets : List Nat} {keys : List (List Nat)}
    (drained : drain (BSetIterator.next node blockSize) .fuel fuel bsetIterator = .ok bsets)
    (scanned : bsets.mapM (bsetKeys node) = .ok keys)
    (finished : keyIterator.next node = .ok (none, after)) :
    Rest node blockSize keyIterator bsetIterator keys.flatten := by
  induction fuel generalizing keyIterator after bsetIterator bsets keys with
  | zero => cases drained
  | succ fuel ih =>
      obtain ⟨⟨result, bsetAfter⟩, returned, rest⟩ := bind_eq_ok.mp drained
      cases result with
      | none =>
          cases rest
          simp only [List.mapM_nil, pure, Except.pure, Except.ok.injEq] at scanned
          subst keys
          exact Rest.done finished returned
      | some bset =>
          obtain ⟨tail, tailDrained, equal⟩ := bind_eq_ok.mp rest
          cases equal
          rw [List.mapM_cons] at scanned
          obtain ⟨first, firstScan, scanned⟩ := bind_eq_ok.mp scanned
          obtain ⟨others, tailScan, equal⟩ := bind_eq_ok.mp scanned
          cases equal
          obtain ⟨entered, created, keysDrained⟩ := bind_eq_ok.mp firstScan
          rw [List.flatten_cons]
          exact Rest.bset finished returned created
            (drain_rest keysDrained fun _ _ finished => ih tailDrained tailScan finished)

theorem BKeyIterator.empty_next (node : Bytes) : empty.next node = .ok (none, empty) := rfl

theorem nodeKeys_rest {node : Bytes} {blockSize : Nat} {keys : List Nat}
    (scanned : nodeKeys node blockSize = .ok keys) :
    ∃ bsetIterator, BSetIterator.new node.size = .ok bsetIterator ∧
      Rest node blockSize BKeyIterator.empty bsetIterator keys := by
  obtain ⟨bsetIterator, created, rest⟩ := bind_eq_ok.mp scanned
  obtain ⟨bsets, drained, rest⟩ := bind_eq_ok.mp rest
  obtain ⟨lists, scannedKeys, equal⟩ := bind_eq_ok.mp rest
  cases equal
  exact ⟨bsetIterator, created,
    drain_bsets_rest drained scannedKeys (BKeyIterator.empty_next node)⟩

/-! The scan of a node ends: the fuel of `nodeKeys` is never what stops it. -/

theorem load_ne_fuel (source : Bytes) (count index : Nat) :
    load source count index ≠ .error .fuel := by
  unfold load
  split <;> simp

theorem bind_ne_fuel {α β : Type} {action : Result α} {next : α → Result β}
    (first : action ≠ .error .fuel) (second : ∀ value, next value ≠ .error .fuel) :
    (action >>= next) ≠ .error .fuel := by
  cases action with
  | error fault => simpa using first
  | ok value => exact second value

theorem BKeyIterator.next_ne_fuel (node : Bytes) (it : BKeyIterator) :
    it.next node ≠ .error .fuel := by
  unfold next
  split
  · simp
  · split
    · simp
    · refine bind_ne_fuel (load_ne_fuel _ _ _) fun u64s => ?_
      split <;> simp [pure, Except.pure]

theorem BSetIterator.nextWithin_ne_fuel {node : Bytes} {blockSize fuel : Nat} {it : BSetIterator}
    (enough : it.stop - it.iter < fuel) : nextWithin node blockSize fuel it ≠ .error .fuel := by
  induction fuel generalizing it with
  | zero => omega
  | succ fuel ih =>
      unfold nextWithin
      split
      · simp
      · rename_i unfinished
        cases moved : offset node blockSize it.iter with
        | error fault =>
            rw [error_bind]
            intro failed
            cases failed
            unfold offset at moved
            refine bind_ne_fuel (load_ne_fuel node 2 (it.iter + 22)) (fun u64s => ?_) moved
            split <;> simp [pure, Except.pure]
        | ok iter =>
            have forward := (offset_ok moved).1
            rw [ok_bind]
            refine bind_ne_fuel (load_ne_fuel _ _ _) fun u64s => ?_
            split
            · apply ih
              dsimp only
              omega
            · simp [pure, Except.pure]

theorem bsetKeys_ne_fuel (node : Bytes) (bset : Nat) : bsetKeys node bset ≠ .error .fuel := by
  refine bind_ne_fuel (bind_ne_fuel (load_ne_fuel _ _ _) (by simp [pure, Except.pure])) ?_
  intro it
  refine drain_ne_exhausted (fun it => node.size - it.iter.getD 0)
    (BKeyIterator.next_ne_fuel node) ?_ (by omega)
  intro state key after returned
  obtain ⟨position, inside, u64s, _, positive, rfl⟩ := BKeyIterator.next_some returned
  simp only [position, Option.getD_some, u64sSize]
  omega

theorem nodeKeys_ne_fuel (node : Bytes) (blockSize : Nat) :
    nodeKeys node blockSize ≠ .error .fuel := by
  refine bind_ne_fuel (by unfold BSetIterator.new; split <;> simp) fun it => ?_
  refine bind_ne_fuel ?_ fun bsets => bind_ne_fuel ?_ (by simp [pure, Except.pure])
  · refine drain_ne_exhausted (fun it => node.size - it.iter)
      (fun state => BSetIterator.nextWithin_ne_fuel (by omega)) ?_ (by omega)
    intro state bset after returned
    have moved := BSetIterator.nextWithin_some returned
    simp only [sizeofBSet] at moved
    omega
  · induction bsets with
    | nil => simp [pure, Except.pure]
    | cons bset bsets ih =>
        rw [List.mapM_cons]
        exact bind_ne_fuel (bsetKeys_ne_fuel node bset) fun keys =>
          bind_ne_fuel ih (by simp [pure, Except.pure])

end Bcachefs
