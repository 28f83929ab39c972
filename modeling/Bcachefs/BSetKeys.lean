import Bcachefs.NodeLog

/-! Where the scan of one bset ends. The iterator's own end lies behind the bset, so
the bytes that follow decide. -/

namespace Bcachefs

open ByteString Iteration

namespace BKeyIterator

def inspected (it : BKeyIterator) : Option Nat := if it.iter = it.stop then none else it.iter

theorem next_congr {left right : Bytes} {it : BKeyIterator}
    (same : ∀ key, it.inspected = some key → BKey.u64s left key = BKey.u64s right key) :
    it.next left = it.next right := by
  unfold next
  cases position : it.iter with
  | none => rfl
  | some key =>
      dsimp only
      split
      · rfl
      · rename_i unfinished
        have seen : it.inspected = some key := by
          rw [inspected, position, if_neg unfinished]
        rw [same key seen]

theorem next_outside {node : Bytes} {it : BKeyIterator} {key : Nat}
    (seen : it.inspected = some key) (outside : node.size ≤ key) :
    it.next node = .error .outOfBounds := by
  unfold inspected at seen
  split at seen
  · cases seen
  · rename_i unfinished
    have failed : BKey.u64s node key = .error .outOfBounds := by
      rw [BKey.u64s, load, if_neg (by omega)]
    unfold next
    rw [seen] at unfinished ⊢
    dsimp only
    rw [if_neg unfinished, failed, error_bind]

end BKeyIterator

def InsideBSet (node : Bytes) (bset : BSetEntry) (it : BKeyIterator) : Prop :=
  ∀ results after key, Calls (Yields (BKeyIterator.next node)) it results after →
    after.inspected = some key → bset.start + sizeofBSet ≤ key ∧ key < bset.stop node

def SameBelow (left right : Bytes) (stop : Nat) : Prop :=
  stop ≤ right.size ∧ ∀ index, index < stop → left.byte index = right.byte index

def AloneDecides (node : Bytes) (bset : BSetEntry) (it : BKeyIterator) : Prop :=
  ∀ other, SameBelow node other (bset.stop node) →
    Produces (BKeyIterator.next other) it bset.keys

section

variable {node other : Bytes} {start stop bound : Nat} {keys : List Nat}

theorem SameBelow.number (same : SameBelow node other stop) {count index : Nat}
    (inside : index + count ≤ stop) : node.number count index = other.number count index :=
  Bytes.number_congr fun position _ upper => same.2 position (by omega)

theorem KeyWords.of_same (words : KeyWords node stop start keys)
    (same : SameBelow node other stop) : KeyWords other stop start keys := by
  induction words with
  | done => exact KeyWords.done
  | @key start keys positive before _ ih =>
      have length : node.number 1 start = other.number 1 start := same.number (by omega)
      rw [length] at positive ih
      exact KeyWords.key positive before ih

/-- For every bset with keys and everything that may follow it: the results are right
exactly when a zero byte of the node follows, the header behind the bset is inspected
in any case, and other bytes there change the results. -/
theorem bsetKeys_overrun {bset : BSetEntry} (wellFormed : bset.WellFormed node)
    (filled : 1 ≤ bset.u64s node) :
    ∃ it, BKeyIterator.new node bset.start = .ok it ∧
      (Produces (BKeyIterator.next node) it bset.keys ↔
        bset.stop node < node.size ∧ node.byte (bset.stop node) = 0) ∧
      ¬InsideBSet node bset it ∧ ¬AloneDecides node bset it := by
  have inside := wellFormed.inside
  have further := BSetEntry.stop_further (Nat.ne_of_gt filled)
  refine ⟨_, wellFormed.entered, wellFormed.keys.produces_iff inside further, ?_, ?_⟩
  · intro confined
    have calls := wellFormed.keys.calls inside fun _ => Nat.le_of_lt further
    have outside := confined _ _ (bset.stop node) calls (if_neg fun same =>
      absurd (Option.some.inj same) (by omega))
    omega
  · intro decides
    let other := Bytes.ofFn (bset.stop node + 1) fun index =>
      if index < bset.stop node then node.byte index else 1
    have same : SameBelow node other (bset.stop node) := by
      refine ⟨by simp [other], fun index below => ?_⟩
      rw [Bytes.ofFn_byte _ (by omega), if_pos below]
    have one : other.byte (bset.stop node) = 1 := by
      rw [Bytes.ofFn_byte _ (by omega), if_neg (by omega)]
    have zero := ((wellFormed.keys.of_same same).produces_iff same.1 further).mp
      (decides other same)
    exact absurd (one.symm.trans zero.2) (by decide)

end

def overrunNode : Bytes := Bytes.ofCells 512 [(158, 1), (160, 1), (168, 1)]

def overrunBSet : BSetEntry := { start := 136, keys := [160] }

theorem overrunWellFormed : overrunBSet.WellFormed overrunNode := by
  refine ⟨by decide, KeyWords.key (by decide) (by decide) ?_⟩
  exact KeyWords.done

theorem bsetKeys_overrun_found : overrunBSet.WellFormed overrunNode ∧
    overrunBSet.u64s overrunNode = 1 ∧
    ∃ it, BKeyIterator.new overrunNode overrunBSet.start = .ok it ∧
      Produces (BKeyIterator.next overrunNode) it [160, 168] ∧
      ¬Produces (BKeyIterator.next overrunNode) it overrunBSet.keys := by
  refine ⟨overrunWellFormed, rfl, _, rfl, Produces.more rfl (Produces.more rfl (Produces.done rfl)),
    ?_⟩
  intro produces
  cases produces with
  | more returned rest =>
      cases returned
      cases rest with
      | done returned => cases returned

theorem bsetKeys_overrun_sample : ∃ it, BKeyIterator.new overrunNode overrunBSet.start = .ok it ∧
    (Produces (BKeyIterator.next overrunNode) it overrunBSet.keys ↔
      overrunBSet.stop overrunNode < overrunNode.size ∧
        overrunNode.byte (overrunBSet.stop overrunNode) = 0) ∧
    ¬InsideBSet overrunNode overrunBSet it ∧ ¬AloneDecides overrunNode overrunBSet it :=
  bsetKeys_overrun overrunWellFormed (by decide)

end Bcachefs
