import Bcachefs.NodeLog
import Bcachefs.SingleNode

/-! The calls up to a place in a node, whatever the scan makes of the bytes behind it. -/

namespace Bcachefs

open ByteString Iteration

inductive ReadsTo (node : Bytes) (blockSize : Nat) (lastKey : BKeyIterator)
    (lastBSet : BSetIterator) : BKeyIterator → BSetIterator → List Nat → Prop
  | here : ReadsTo node blockSize lastKey lastBSet lastKey lastBSet []
  | bset {keyIterator keyAfter bsetIterator bsetAfter bset entered keys} :
      keyIterator.next node = .ok (none, keyAfter) →
      bsetIterator.next node blockSize = .ok (some bset, bsetAfter) →
      BKeyIterator.new node bset = .ok entered →
      ReadsTo node blockSize lastKey lastBSet entered bsetAfter keys →
      ReadsTo node blockSize lastKey lastBSet keyIterator bsetIterator keys
  | key {keyIterator keyAfter bsetIterator key keys} :
      keyIterator.next node = .ok (some key, keyAfter) →
      ReadsTo node blockSize lastKey lastBSet keyAfter bsetIterator keys →
      ReadsTo node blockSize lastKey lastBSet keyIterator bsetIterator (key :: keys)

section

variable {node : Bytes} {blockSize : Nat} {lastKey : BKeyIterator} {lastBSet : BSetIterator}

theorem ReadsTo.through {first middle : BKeyIterator} {bsetIterator : BSetIterator}
    {keys later : List Nat}
    (calls : Calls (Yields (BKeyIterator.next node)) first (keys.map some) middle)
    (rest : ReadsTo node blockSize lastKey lastBSet middle bsetIterator later) :
    ReadsTo node blockSize lastKey lastBSet first bsetIterator (keys ++ later) := by
  induction keys generalizing first with
  | nil =>
      cases calls
      exact rest
  | cons key keys ih =>
      cases calls with
      | call returned calls => exact ReadsTo.key returned (ih calls)

/-- Up to the end of a bset in front of which the log is padded, the keys are those of the log. -/
theorem filled_readsTo {earlier later : List BSetEntry} {bset : BSetEntry}
    {keyIterator keyAfter : BKeyIterator} {bsetIterator : BSetIterator}
    (produces : Produces (BSetIterator.next node blockSize) bsetIterator
      ((earlier ++ bset :: later).map BSetEntry.start))
    (wellFormed : ∀ entry ∈ earlier ++ bset :: later, entry.WellFormed node)
    (filled : ∀ entry ∈ earlier ++ bset :: later, entry.u64s node ≠ 0)
    (zero : ∀ entry ∈ earlier, ZeroBehind node entry)
    (finished : keyIterator.next node = .ok (none, keyAfter)) :
    ∃ bound bsetAfter, bset.stop node < bound ∧
      ReadsTo node blockSize { iter := some (bset.stop node), stop := some bound } bsetAfter
        keyIterator bsetIterator (logKeys earlier ++ bset.keys) := by
  induction earlier generalizing keyIterator keyAfter bsetIterator with
  | nil =>
      have here := wellFormed bset List.mem_cons_self
      have further := BSetEntry.stop_further (filled bset List.mem_cons_self)
      have calls := here.keys.calls here.inside fun _ => Nat.le_of_lt further
      cases produces with
      | @more _ bsetAfter _ _ returned _ =>
          refine ⟨_, bsetAfter, further, ReadsTo.bset finished returned here.entered ?_⟩
          rw [logKeys, List.map_nil, List.flatten_nil, List.nil_append, ← List.append_nil bset.keys]
          exact ReadsTo.through calls ReadsTo.here
  | cons first earlier ih =>
      have here := wellFormed first List.mem_cons_self
      have further := BSetEntry.stop_further (filled first List.mem_cons_self)
      have calls := here.keys.calls here.inside fun _ => Nat.le_of_lt further
      have ended := (BKeyIterator.next_zero_iff (Nat.ne_of_lt further)).mpr
        (zero first List.mem_cons_self)
      obtain ⟨after, ended⟩ := ended
      cases produces with
      | more returned rest =>
          obtain ⟨bound, bsetAfter, past, reads⟩ := ih rest
            (fun entry member => wellFormed entry (List.mem_cons_of_mem _ member))
            (fun entry member => filled entry (List.mem_cons_of_mem _ member))
            (fun entry member => zero entry (List.mem_cons_of_mem _ member)) ended
          refine ⟨bound, bsetAfter, past, ReadsTo.bset finished returned here.entered ?_⟩
          have reads := ReadsTo.through calls reads
          rwa [← List.append_assoc] at reads

variable {env : Env} {reader : BCacheFSReader} {size : Nat} {world : World}

theorem ReadsTo.calls {it : BTreeIterator} {keys : List Nat}
    (reads : ReadsTo node blockSize lastKey lastBSet it.keyIterator it.bsetIterator keys)
    (mounted : Mounted reader size blockSize world) (childless : it.children = [])
    (held : world.heap[it.iter]? = some node)
    (plain : ∀ key ∈ keys, ∃ type, BKey.type node key = .ok type ∧ type ≠ keyTypeBtreePtrV2) :
    ∃ before, Calls (Returns env reader) (it, world) (keys.map fun key => some ⟨it.iter, key⟩)
        (before, world) ∧ before.children = [] ∧ before.iter = it.iter ∧
      ReadsTo node blockSize lastKey lastBSet before.keyIterator before.bsetIterator [] := by
  generalize keyEq : it.keyIterator = keyIterator at reads
  generalize bsetEq : it.bsetIterator = bsetIterator at reads
  induction reads generalizing it with
  | here =>
      refine ⟨it, Calls.start _, childless, rfl, ?_⟩
      rw [keyEq, bsetEq]
      exact ReadsTo.here
  | @bset _ _ _ bsetAfter bset entered keys finished stepped created _ ih =>
      subst keyEq bsetEq
      obtain ⟨sb, superblock, _, sized⟩ := mounted.superblock
      obtain ⟨before, calls, done, same, reads⟩ :=
        @ih { it with keyIterator := entered, bsetIterator := bsetAfter } childless held plain rfl rfl
      -- without a key to return, the step to the next bset belongs to the call that follows
      cases keys with
      | nil =>
          cases calls
          exact ⟨it, Calls.start _, childless, rfl, ReadsTo.bset finished stepped created reads⟩
      | cons key keys =>
          cases calls with
          | call taken calls =>
              have returned := Returned.advanced childless held finished superblock sized stepped
                created taken.returned
              exact ⟨before, Calls.call returned.returns calls, done, same, reads⟩
  | @key _ keyAfter _ key keys returned _ ih =>
      subst keyEq bsetEq
      obtain ⟨type, typed, other⟩ := plain key List.mem_cons_self
      obtain ⟨before, calls, done, same, reads⟩ :=
        @ih { it with keyIterator := keyAfter } childless held
          (fun later member => plain later (List.mem_cons_of_mem _ member)) rfl rfl
      have taken : Returned env reader it world (some ⟨it.iter, key⟩) _ world :=
        Returned.key childless held returned typed other
      exact ⟨before, Calls.call taken.returns calls, done, same, reads⟩

theorem ReadsTo.last {it after : BTreeIterator} {next : World} {result : Option Ptr}
    (reads : ReadsTo node blockSize lastKey lastBSet it.keyIterator it.bsetIterator [])
    (mounted : Mounted reader size blockSize world) (childless : it.children = [])
    (held : world.heap[it.iter]? = some node)
    (returned : Returned env reader it world result after next) :
    Returned env reader { it with keyIterator := lastKey, bsetIterator := lastBSet } world result
      after next := by
  generalize keyEq : it.keyIterator = keyIterator at reads
  generalize bsetEq : it.bsetIterator = bsetIterator at reads
  generalize keysEq : ([] : List Nat) = keys at reads
  induction reads generalizing it with
  | here =>
      cases it
      cases keyEq
      cases bsetEq
      exact returned
  | key _ _ _ => cases keysEq
  | @bset _ _ _ bsetAfter bset entered keys finished stepped created _ ih =>
      subst keyEq bsetEq
      cases returned with
      | passed last _ => simp [childless] at last
      | popped last _ _ => simp [childless] at last
      | key _ again scanned _ _ =>
          cases held.symm.trans again
          cases finished.symm.trans scanned
      | entered _ again scanned _ _ _ _ =>
          cases held.symm.trans again
          cases finished.symm.trans scanned
      | finished _ again _ superblock sized other =>
          cases held.symm.trans again
          obtain ⟨sb, found, _, same⟩ := mounted.superblock
          cases superblock.symm.trans found
          cases sized.symm.trans same
          cases stepped.symm.trans other
      | advanced _ again _ superblock sized other made rest =>
          cases held.symm.trans again
          obtain ⟨sb, found, _, same⟩ := mounted.superblock
          cases superblock.symm.trans found
          cases sized.symm.trans same
          cases stepped.symm.trans other
          cases created.symm.trans made
          exact @ih { it with keyIterator := entered, bsetIterator := bsetAfter } childless held rest
            rfl rfl keysEq

/-- A call that starts behind the keys of a bset reads on there: it finds a zero byte, or
it returns the place as a key. -/
theorem Returned.behind {it after : BTreeIterator} {next : World} {result : Option Ptr}
    {stop bound : Nat} (returned : Returned env reader it world result after next)
    (childless : it.children = []) (held : world.heap[it.iter]? = some node)
    (position : it.keyIterator = { iter := some stop, stop := some bound }) (further : stop < bound)
    (plain : node.byte stop ≠ 0 → BKey.type node stop ≠ .ok keyTypeBtreePtrV2) :
    stop < node.size ∧ node.byte stop = 0 ∨ result = some ⟨it.iter, stop⟩ := by
  have zero := @BKeyIterator.next_zero_iff node stop bound (Nat.ne_of_lt further)
  cases returned with
  | passed last _ => simp [childless] at last
  | popped last _ _ => simp [childless] at last
  | key _ again scanned _ _ =>
      cases held.symm.trans again
      rw [position] at scanned
      cases (BKeyIterator.next_some scanned).1
      exact Or.inr rfl
  | entered _ again scanned typed _ _ _ =>
      cases held.symm.trans again
      rw [position] at scanned
      obtain ⟨same, inside, u64s, read, positive, _⟩ := BKeyIterator.next_some scanned
      cases same
      refine absurd typed (plain fun nul => ?_)
      obtain ⟨_, returned⟩ := zero.mpr ⟨inside, nul⟩
      cases scanned.symm.trans returned
  | advanced _ again scanned _ _ _ _ _ =>
      cases held.symm.trans again
      rw [position] at scanned
      exact Or.inl (zero.mp ⟨_, scanned⟩)
  | finished _ again scanned _ _ _ =>
      cases held.symm.trans again
      rw [position] at scanned
      exact Or.inl (zero.mp ⟨_, scanned⟩)

end

end Bcachefs
