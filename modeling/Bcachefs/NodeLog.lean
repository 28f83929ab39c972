import Bcachefs.BSetChain

/-! A node as the log of bsets that its writer appends, and what the iterators of the
reader make of it. -/

namespace Bcachefs

open ByteString Iteration

inductive KeyWords (node : Bytes) (stop : Nat) : Nat → List Nat → Prop
  | done : KeyWords node stop stop []
  | key {start keys} : 0 < node.number 1 start → start < stop →
      KeyWords node stop (start + node.number 1 start * u64sSize) keys →
      KeyWords node stop start (start :: keys)

structure BSetEntry where
  start : Nat
  keys : List Nat

namespace BSetEntry

def u64s (node : Bytes) (bset : BSetEntry) : Nat := node.number 2 (bset.start + 22)

def stop (node : Bytes) (bset : BSetEntry) : Nat :=
  bset.start + sizeofBSet + bset.u64s node * u64sSize

structure WellFormed (node : Bytes) (bset : BSetEntry) : Prop where
  inside : bset.stop node ≤ node.size
  keys : KeyWords node (bset.stop node) (bset.start + sizeofBSet) bset.keys

end BSetEntry

inductive BSetLog (node : Bytes) (blockSize : Nat) : Nat → List BSetEntry → Prop
  | last {bset : BSetEntry} : bset.WellFormed node →
      (∀ index, bset.stop node ≤ index → node.byte index = 0) →
      BSetLog node blockSize bset.start [bset]
  | more {bset : BSetEntry} {bsets : List BSetEntry} : bset.WellFormed node →
      BSetLog node blockSize (roundup (bset.stop node) blockSize + sizeofCsum) bsets →
      BSetLog node blockSize bset.start (bset :: bsets)

def ZeroBehind (node : Bytes) (bset : BSetEntry) : Prop :=
  bset.stop node < node.size ∧ node.byte (bset.stop node) = 0

/-- The reader's iterators stay within the log: a zero byte of the node follows each bset
with keys, and none of them is skipped. -/
structure Padded (node : Bytes) (blockSize : Nat) (bsets : List BSetEntry) : Prop where
  zero : ∀ bset ∈ bsets, bset.u64s node ≠ 0 → ZeroBehind node bset
  reached : (bsets.map BSetEntry.start).IsChain (Reached node blockSize)

section

variable {node : Bytes} {blockSize : Nat}

theorem BKeyIterator.next_key {start bound : Nat} (inside : start < node.size)
    (unfinished : start ≠ bound) (positive : 0 < node.number 1 start) :
    next node { iter := some start, stop := some bound } =
      .ok (some start, { iter := some (start + node.number 1 start * u64sSize)
                         stop := some bound }) := by
  have header : BKey.u64s node start = .ok (node.number 1 start) := load_inside (by omega)
  unfold next
  dsimp only
  rw [if_neg (fun same => unfinished (Option.some.inj same)), header, ok_bind, if_neg (by omega)]
  rfl

theorem KeyWords.calls {start stop bound : Nat} {keys : List Nat}
    (words : KeyWords node stop start keys) (inside : stop ≤ node.size)
    (further : keys ≠ [] → stop ≤ bound) :
    Calls (Yields (BKeyIterator.next node)) { iter := some start, stop := some bound }
      (keys.map some) { iter := some stop, stop := some bound } := by
  induction words with
  | done => exact Calls.start _
  | key positive before later ih =>
      have bounded := further (by simp)
      exact Calls.call (BKeyIterator.next_key (by omega) (by omega) positive)
        (ih fun _ => bounded)

theorem BKeyIterator.next_zero_iff {stop bound : Nat} (unfinished : stop ≠ bound) :
    (∃ after, next node { iter := some stop, stop := some bound } = .ok (none, after)) ↔
      stop < node.size ∧ node.byte stop = 0 := by
  have further : some stop ≠ some bound := fun same => unfinished (Option.some.inj same)
  unfold next
  dsimp only
  rw [if_neg further]
  constructor
  · rintro ⟨after, returned⟩
    obtain ⟨u64s, read, rest⟩ := bind_eq_ok.mp returned
    obtain ⟨bounded, value⟩ := load_ok.mp read
    split at rest
    · rename_i zero
      rw [zero, Bytes.number, Bytes.number] at value
      exact ⟨by omega, UInt8.toNat_inj.mp (by simpa using value)⟩
    · cases rest
  · rintro ⟨inside, zero⟩
    have header : BKey.u64s node stop = .ok 0 := by
      refine load_ok.mpr ⟨by omega, ?_⟩
      simp [Bytes.number, zero]
    rw [header, ok_bind]
    exact ⟨_, rfl⟩

theorem KeyWords.produces_iff {start stop bound : Nat} {keys : List Nat}
    (words : KeyWords node stop start keys) (inside : stop ≤ node.size) (further : stop < bound) :
    Produces (BKeyIterator.next node) { iter := some start, stop := some bound } keys ↔
      stop < node.size ∧ node.byte stop = 0 := by
  have calls := words.calls inside fun _ => Nat.le_of_lt further
  have ended := @BKeyIterator.next_zero_iff node stop bound (by omega)
  constructor
  · intro produces
    have last := (@Produces.append_iff _ _ _ _ _ _ keys [] calls).mp (by rwa [List.append_nil])
    cases last with
    | done returned => exact ended.mp ⟨_, returned⟩
  · intro zero
    obtain ⟨after, returned⟩ := ended.mpr zero
    have produces := (Produces.append_iff calls).mpr (Produces.done returned)
    rwa [List.append_nil] at produces

theorem BSetEntry.WellFormed.entered {bset : BSetEntry} (wellFormed : bset.WellFormed node) :
    BKeyIterator.new node bset.start = .ok
      { iter := some (bset.start + sizeofBSet)
        stop := some (bset.start + sizeofBSet * (bset.u64s node * u64sSize)) } := by
  have inside := wellFormed.inside
  have header : BSet.u64s node bset.start = .ok (bset.u64s node) := by
    apply BSet.u64s_ok
    simp only [BSetEntry.stop] at inside
    omega
  rw [BKeyIterator.new, header]
  rfl

theorem BSetEntry.stop_further {bset : BSetEntry} (filled : bset.u64s node ≠ 0) :
    bset.stop node < bset.start + sizeofBSet * (bset.u64s node * u64sSize) := by
  simp only [BSetEntry.stop, sizeofBSet, u64sSize]
  omega

theorem bsetKeys_eq {bset : BSetEntry} (wellFormed : bset.WellFormed node)
    (zero : ZeroBehind node bset) (filled : bset.u64s node ≠ 0) :
    bsetKeys node bset.start = .ok bset.keys := by
  have further := BSetEntry.stop_further filled
  have produces := (wellFormed.keys.produces_iff wellFormed.inside further).mpr zero
  have ended := bsetKeys_ne_fuel node bset.start
  rw [bsetKeys, wellFormed.entered, ok_bind] at ended ⊢
  exact drain_of_produces produces ended

def logKeys (bsets : List BSetEntry) : List Nat := (bsets.map BSetEntry.keys).flatten

theorem logKeys_cons (bset : BSetEntry) (bsets : List BSetEntry) :
    logKeys (bset :: bsets) = bset.keys ++ logKeys bsets := rfl

theorem mem_logKeys {bsets : List BSetEntry} {key : Nat} :
    key ∈ logKeys bsets ↔ ∃ bset ∈ bsets, key ∈ bset.keys := by
  simp [logKeys]

def filledBSets (node : Bytes) (bsets : List BSetEntry) : List BSetEntry :=
  bsets.filter fun bset => bset.u64s node != 0

theorem mem_filledBSets {bsets : List BSetEntry} {bset : BSetEntry} :
    bset ∈ filledBSets node bsets ↔ bset ∈ bsets ∧ bset.u64s node ≠ 0 := by
  simp [filledBSets]

theorem BSetLog.start_mem {start : Nat} {bsets : List BSetEntry}
    (log : BSetLog node blockSize start bsets) :
    ∃ bset ∈ bsets, bset.start = start ∧ bset.WellFormed node := by
  cases log with
  | last wellFormed _ => exact ⟨_, List.mem_cons_self, rfl, wellFormed⟩
  | more wellFormed _ => exact ⟨_, List.mem_cons_self, rfl, wellFormed⟩

theorem BSetLog.created {bsets : List BSetEntry}
    (log : BSetLog node blockSize BTreeNode.keys bsets) :
    BSetIterator.new node.size = .ok { iter := BTreeNode.keys, stop := node.size } := by
  obtain ⟨first, _, start, wellFormed⟩ := log.start_mem
  have inside := wellFormed.inside
  rw [BSetIterator.new, if_pos]
  simp only [BSetEntry.stop, sizeofBSet] at inside
  omega

theorem BSetLog.chain {start : Nat} {bsets : List BSetEntry}
    (log : BSetLog node blockSize start bsets) :
    BSetChain node blockSize start (bsets.map BSetEntry.start) := by
  induction log with
  | last wellFormed zero => exact BSetChain.last wellFormed.inside zero
  | more wellFormed _ ih => exact BSetChain.more wellFormed.inside ih

theorem filledBSets_starts (node : Bytes) (bsets : List BSetEntry) :
    (filledBSets node bsets).map BSetEntry.start =
      (bsets.map BSetEntry.start).filter (holdsKeys node) := by
  rw [List.filter_map]
  rfl

theorem BSetLog.produces {start : Nat} {bsets : List BSetEntry}
    (log : BSetLog node blockSize start bsets)
    (reached : (bsets.map BSetEntry.start).IsChain (Reached node blockSize))
    (positive : 0 < blockSize) (sectors : 512 ∣ blockSize) (nodeSectors : 512 ∣ node.size) :
    Produces (BSetIterator.next node blockSize) { iter := start, stop := node.size }
      ((filledBSets node bsets).map BSetEntry.start) := by
  rw [filledBSets_starts]
  exact (log.chain.produces_iff positive sectors nodeSectors).mpr reached

theorem BSetLog.wellFormed {start : Nat} {bsets : List BSetEntry}
    (log : BSetLog node blockSize start bsets) : ∀ bset ∈ bsets, bset.WellFormed node := by
  induction log with
  | last wellFormed _ =>
      intro bset member
      cases List.mem_singleton.mp member
      exact wellFormed
  | more wellFormed _ ih =>
      intro bset member
      rcases List.mem_cons.mp member with rfl | later
      · exact wellFormed
      · exact ih bset later

theorem KeyWords.bounds {start stop : Nat} {keys : List Nat}
    (words : KeyWords node stop start keys) : ∀ key ∈ keys, start ≤ key ∧ key < stop := by
  induction words with
  | done => simp
  | key _ before _ ih =>
      intro key member
      rcases List.mem_cons.mp member with rfl | later
      · exact ⟨Nat.le_refl _, before⟩
      · have further := ih key later
        exact ⟨by omega, further.2⟩

theorem BSetLog.above {start : Nat} {bsets : List BSetEntry} (positive : 0 < blockSize)
    (log : BSetLog node blockSize start bsets) :
    (∀ bset ∈ bsets, start < bset.stop node) ∧ ∀ key ∈ logKeys bsets, start < key := by
  induction log with
  | @last bset wellFormed _ =>
      constructor
      · intro other member
        cases List.mem_singleton.mp member
        simp only [BSetEntry.stop, sizeofBSet]
        omega
      · intro key member
        rw [logKeys_cons, logKeys, List.map_nil, List.flatten_nil, List.append_nil] at member
        have bounds := wellFormed.keys.bounds key member
        simp only [sizeofBSet] at bounds
        omega
  | @more bset bsets wellFormed _ ih =>
      have before := le_roundup positive (bset.stop node)
      have here : bset.start < bset.stop node := by
        simp only [BSetEntry.stop, sizeofBSet]
        omega
      constructor
      · intro other member
        rcases List.mem_cons.mp member with rfl | later
        · exact here
        · have further := ih.1 other later
          omega
      · intro key member
        rcases List.mem_append.mp (logKeys_cons bset bsets ▸ member) with own | later
        · have bounds := wellFormed.keys.bounds key own
          simp only [sizeofBSet] at bounds
          omega
        · have further := ih.2 key later
          omega

theorem BSetLog.stop_no_key {start : Nat} {bsets : List BSetEntry} (positive : 0 < blockSize)
    (log : BSetLog node blockSize start bsets) :
    ∀ bset ∈ bsets, bset.stop node ∉ logKeys bsets := by
  induction log with
  | @last bset wellFormed _ =>
      intro other member key
      cases List.mem_singleton.mp member
      rw [logKeys_cons, logKeys, List.map_nil, List.flatten_nil, List.append_nil] at key
      exact Nat.lt_irrefl _ (wellFormed.keys.bounds _ key).2
  | @more bset bsets wellFormed rest ih =>
      have before := le_roundup positive (bset.stop node)
      intro other member key
      rcases List.mem_cons.mp member with rfl | later
      · rcases List.mem_append.mp (logKeys_cons other bsets ▸ key) with own | further
        · exact Nat.lt_irrefl _ (wellFormed.keys.bounds _ own).2
        · have above := (rest.above positive).2 _ further
          omega
      · rcases List.mem_append.mp (logKeys_cons bset bsets ▸ key) with own | further
        · have bounds := (wellFormed.keys.bounds _ own).2
          have above := (rest.above positive).1 other later
          omega
        · exact ih other later further

theorem BSetEntry.WellFormed.keys_empty {bset : BSetEntry} (wellFormed : bset.WellFormed node)
    (empty : bset.u64s node = 0) : bset.keys = [] := by
  have words := wellFormed.keys
  have stop : bset.stop node = bset.start + sizeofBSet := by simp [BSetEntry.stop, empty]
  rw [stop] at words
  generalize bset.keys = keys at words
  cases words with
  | done => rfl
  | key _ before _ => omega

theorem filled_keys {bsets : List BSetEntry} (wellFormed : ∀ bset ∈ bsets, bset.WellFormed node) :
    logKeys (filledBSets node bsets) = logKeys bsets := by
  induction bsets with
  | nil => rfl
  | cons bset bsets ih =>
      have rest := ih fun later member => wellFormed later (List.mem_cons_of_mem _ member)
      by_cases empty : bset.u64s node = 0
      · have none := (wellFormed bset List.mem_cons_self).keys_empty empty
        have passed : filledBSets node (bset :: bsets) = filledBSets node bsets := by
          simp [filledBSets, empty]
        rw [passed, rest, logKeys_cons, none, List.nil_append]
      · have kept : filledBSets node (bset :: bsets) = bset :: filledBSets node bsets := by
          simp [filledBSets, empty]
        rw [kept, logKeys_cons, logKeys_cons, rest]

theorem filled_scan {bsets : List BSetEntry} (wellFormed : ∀ bset ∈ bsets, bset.WellFormed node)
    (padded : Padded node blockSize bsets) :
    ((filledBSets node bsets).map BSetEntry.start).mapM (bsetKeys node) =
      .ok ((filledBSets node bsets).map BSetEntry.keys) := by
  have scans : ∀ bset ∈ filledBSets node bsets, bsetKeys node bset.start = .ok bset.keys := by
    intro bset member
    obtain ⟨inside, filled⟩ := mem_filledBSets.mp member
    exact bsetKeys_eq (wellFormed bset inside) (padded.zero bset inside filled) filled
  generalize filledBSets node bsets = filled at scans
  induction filled with
  | nil => rfl
  | cons bset filled ih =>
      have rest := ih fun later member => scans later (List.mem_cons_of_mem _ member)
      rw [List.map_cons, List.mapM_cons, scans bset List.mem_cons_self, ok_bind, rest]
      rfl

theorem BSetLog.nodeKeys {bsets : List BSetEntry}
    (log : BSetLog node blockSize BTreeNode.keys bsets) (padded : Padded node blockSize bsets)
    (positive : 0 < blockSize) (sectors : 512 ∣ blockSize) (nodeSectors : 512 ∣ node.size) :
    nodeKeys node blockSize = .ok (logKeys bsets) := by
  have created := log.created
  have produces := log.produces padded.reached positive sectors nodeSectors
  have ended := nodeKeys_ne_fuel node blockSize
  rw [Bcachefs.nodeKeys, created, ok_bind] at ended ⊢
  have running : drain (BSetIterator.next node blockSize) .fuel (node.size + 1)
      { iter := BTreeNode.keys, stop := node.size } ≠ .error .fuel := by
    intro failed
    rw [failed] at ended
    exact ended rfl
  rw [drain_of_produces produces running, ok_bind, filled_scan log.wellFormed padded, ok_bind,
    ← filled_keys log.wellFormed]
  rfl

end

end Bcachefs
