import Bcachefs.NodeScan

/-! The chain of bsets in a node: where the reader takes the next header to be, and
when it meets the headers that the writer put down. -/

namespace Bcachefs

open ByteString Iteration

def roundup (value unit : Nat) : Nat := (value + unit - 1) / unit * unit

section

variable {node : Bytes} {blockSize : Nat}

theorem BSetIterator.nextWithin_fuel {fuel more : Nat} {it : BSetIterator}
    (enough : it.stop - it.iter < fuel) (enoughMore : it.stop - it.iter < more) :
    nextWithin node blockSize fuel it = nextWithin node blockSize more it := by
  induction fuel generalizing more it with
  | zero => omega
  | succ fuel ih =>
      rcases more with _ | more
      · omega
      · unfold nextWithin
        split
        · rfl
        · cases moved : offset node blockSize it.iter with
          | error fault => rfl
          | ok iter =>
              have forward := (offset_ok moved).1
              rw [ok_bind, ok_bind]
              dsimp only
              cases BSet.u64s node it.iter with
              | error fault => rfl
              | ok u64s =>
                  rw [ok_bind, ok_bind]
                  split
                  · apply ih
                    · dsimp only
                      omega
                    · dsimp only
                      omega
                  · rfl

theorem BSet.u64s_ok {bset : Nat} (inside : bset + sizeofBSet ≤ node.size) :
    BSet.u64s node bset = .ok (node.number 2 (bset + 22)) := by
  apply load_inside
  simp only [sizeofBSet] at inside
  omega

def nextHeader (node : Bytes) (blockSize iter : Nat) : Nat :=
  let stop := iter + (sizeofBSet + node.number 2 (iter + 22) * u64sSize)
  stop + (blockSize - stop % blockSize + sizeofCsum)

theorem BSetIterator.offset_eq {iter : Nat} (positive : 0 < blockSize)
    (inside : iter + sizeofBSet ≤ node.size) :
    offset node blockSize iter = .ok (nextHeader node blockSize iter) := by
  rw [offset, BSet.u64s_ok inside, ok_bind, if_neg (by omega)]
  rfl

theorem BSetIterator.next_filled {iter stop : Nat} (positive : 0 < blockSize) (before : iter < stop)
    (inside : iter + sizeofBSet ≤ node.size) (filled : node.number 2 (iter + 22) ≠ 0) :
    next node blockSize { iter := iter, stop := stop } =
      .ok (some iter, { iter := nextHeader node blockSize iter, stop := stop }) := by
  rw [next, nextWithin, if_neg (by dsimp only; omega)]
  dsimp only
  rw [offset_eq positive inside, ok_bind, BSet.u64s_ok inside, ok_bind, if_neg filled]
  rfl

theorem BSetIterator.next_empty {iter stop : Nat} (positive : 0 < blockSize) (before : iter < stop)
    (inside : iter + sizeofBSet ≤ node.size) (empty : node.number 2 (iter + 22) = 0) :
    next node blockSize { iter := iter, stop := stop } =
      next node blockSize { iter := nextHeader node blockSize iter, stop := stop } := by
  rw [next, nextWithin, if_neg (by dsimp only; omega)]
  dsimp only
  rw [offset_eq positive inside, ok_bind, BSet.u64s_ok inside, ok_bind, if_pos empty]
  apply nextWithin_fuel
  · dsimp only [nextHeader, sizeofBSet]
    omega
  · dsimp only
    omega

theorem block_start (blockSize position : Nat) :
    position + (blockSize - position % blockSize) = blockSize * (position / blockSize + 1) ∨
      blockSize = 0 := by
  rcases Nat.eq_zero_or_pos blockSize with zero | positive
  · exact Or.inr zero
  · have parts := Nat.div_add_mod position blockSize
    have below := Nat.mod_lt position positive
    rw [Nat.mul_add]
    omega

theorem nextHeader_sector {iter : Nat} (positive : 0 < blockSize) (sectors : 512 ∣ blockSize) :
    nextHeader node blockSize iter % 512 = 16 := by
  rcases block_start blockSize (iter + (sizeofBSet + node.number 2 (iter + 22) * u64sSize)) with
    start | zero
  · have aligned : 512 ∣ blockSize *
        ((iter + (sizeofBSet + node.number 2 (iter + 22) * u64sSize)) / blockSize + 1) :=
      Dvd.dvd.mul_right sectors _
    rw [← start] at aligned
    simp only [nextHeader, sizeofCsum] at aligned ⊢
    omega
  · omega

theorem roundup_eq {position : Nat} (positive : 0 < blockSize) (inside : position % blockSize ≠ 0) :
    roundup position blockSize = position + (blockSize - position % blockSize) := by
  have parts := Nat.div_add_mod position blockSize
  have below := Nat.mod_lt position positive
  have split : position + blockSize - 1 =
      position % blockSize - 1 + blockSize * (position / blockSize + 1) := by
    rw [Nat.mul_add]
    omega
  have small : (position % blockSize - 1) / blockSize = 0 := Nat.div_eq_of_lt (by omega)
  rw [roundup, split, Nat.add_mul_div_left _ _ positive, small, Nat.zero_add, Nat.mul_comm]
  rw [Nat.mul_add]
  omega

theorem BSetIterator.next_zero {iter : Nat} (positive : 0 < blockSize) (sectors : 512 ∣ blockSize)
    (nodeSectors : 512 ∣ node.size) (header : iter % 512 = 16)
    (zero : ∀ index, iter ≤ index → node.byte index = 0) :
    ∃ after, next node blockSize { iter := iter, stop := node.size } = .ok (none, after) := by
  induction left : node.size - iter using Nat.strong_induction_on generalizing iter with
  | _ left ih =>
      by_cases before : iter < node.size
      · have inside : iter + sizeofBSet ≤ node.size := by
          simp only [sizeofBSet]
          omega
        have empty : node.number 2 (iter + 22) = 0 := by
          simp [Bytes.number, zero (iter + 22) (by omega), zero (iter + 22 + 1) (by omega)]
        have forward : iter < nextHeader node blockSize iter := by
          simp only [nextHeader, sizeofBSet]
          omega
        rw [next_empty positive before inside empty]
        exact ih _ (by omega) (nextHeader_sector positive sectors)
          (fun index bound => zero index (by omega)) rfl
      · refine ⟨{ iter := iter, stop := node.size }, ?_⟩
        rw [next, nextWithin, if_pos (by dsimp only; omega)]

theorem roundup_multiple {position : Nat} (positive : 0 < blockSize)
    (multiple : position % blockSize = 0) : roundup position blockSize = position := by
  have parts := Nat.div_add_mod position blockSize
  have split : position + blockSize - 1 = blockSize - 1 + blockSize * (position / blockSize) := by
    omega
  have small : (blockSize - 1) / blockSize = 0 := Nat.div_eq_of_lt (by omega)
  rw [roundup, split, Nat.add_mul_div_left _ _ positive, small, Nat.zero_add, Nat.mul_comm]
  omega

theorem le_roundup (positive : 0 < blockSize) (position : Nat) :
    position ≤ roundup position blockSize := by
  by_cases multiple : position % blockSize = 0
  · rw [roundup_multiple positive multiple]
  · rw [roundup_eq positive multiple]
    exact Nat.le_add_right _ _

def bsetStop (node : Bytes) (bset : Nat) : Nat :=
  bset + sizeofBSet + node.number 2 (bset + 22) * u64sSize

def holdsKeys (node : Bytes) (bset : Nat) : Bool := node.number 2 (bset + 22) != 0

theorem nextHeader_eq (node : Bytes) (blockSize bset : Nat) :
    nextHeader node blockSize bset =
      bsetStop node bset + (blockSize - bsetStop node bset % blockSize) + sizeofCsum := by
  simp only [nextHeader, bsetStop, Nat.add_assoc]

theorem nextHeader_inBlock {bset : Nat} (positive : 0 < blockSize)
    (inBlock : bsetStop node bset % blockSize ≠ 0) :
    nextHeader node blockSize bset = roundup (bsetStop node bset) blockSize + sizeofCsum := by
  rw [nextHeader_eq, roundup_eq positive inBlock]

theorem nextHeader_boundary {bset : Nat} (positive : 0 < blockSize)
    (boundary : bsetStop node bset % blockSize = 0) :
    nextHeader node blockSize bset =
      roundup (bsetStop node bset) blockSize + sizeofCsum + blockSize := by
  rw [nextHeader_eq, roundup_multiple positive boundary, boundary]
  omega

theorem nextHeader_empty {start : Nat} (large : sizeofCsum + sizeofBSet < blockSize)
    (aligned : start % blockSize = 0) (empty : holdsKeys node (start + sizeofCsum) = false) :
    nextHeader node blockSize (start + sizeofCsum) = start + sizeofCsum + blockSize := by
  have zero : node.number 2 (start + sizeofCsum + 22) = 0 := by simpa [holdsKeys] using empty
  have stop : bsetStop node (start + sizeofCsum) = start + (sizeofCsum + sizeofBSet) := by
    rw [bsetStop, zero]
    omega
  have rest : (start + (sizeofCsum + sizeofBSet)) % blockSize = sizeofCsum + sizeofBSet := by
    rw [Nat.add_mod, aligned, Nat.zero_add, Nat.mod_mod, Nat.mod_eq_of_lt large]
  rw [nextHeader_eq, stop, rest]
  omega

/-- The headers of a node's bsets in log order: the next one behind its checksum at
the start of the next block, and the space behind the last bset is zero. -/
inductive BSetChain (node : Bytes) (blockSize : Nat) : Nat → List Nat → Prop
  | last {bset} : bsetStop node bset ≤ node.size →
      (∀ index, bsetStop node bset ≤ index → node.byte index = 0) →
      BSetChain node blockSize bset [bset]
  | more {bset bsets} : bsetStop node bset ≤ node.size →
      BSetChain node blockSize (roundup (bsetStop node bset) blockSize + sizeofCsum) bsets →
      BSetChain node blockSize bset (bset :: bsets)

theorem BSetChain.head {start : Nat} {bsets : List Nat}
    (chain : BSetChain node blockSize start bsets) :
    ∃ rest, bsets = start :: rest ∧ start + sizeofBSet ≤ node.size := by
  cases chain with
  | last inside _ => exact ⟨[], rfl, by simp only [bsetStop] at inside; omega⟩
  | more inside _ => exact ⟨_, rfl, by simp only [bsetStop] at inside; omega⟩

theorem BSetIterator.passed_iff {bset : Nat} (positive : 0 < blockSize)
    (inside : bset + sizeofBSet ≤ node.size) (bsets : List Nat) :
    Produces (next node blockSize) { iter := bset, stop := node.size }
        ((bset :: bsets).filter (holdsKeys node)) ↔
      Produces (next node blockSize)
        { iter := nextHeader node blockSize bset, stop := node.size }
        (bsets.filter (holdsKeys node)) := by
  have before : bset < node.size := by
    simp only [sizeofBSet] at inside
    omega
  by_cases empty : node.number 2 (bset + 22) = 0
  · rw [List.filter_cons_of_neg (by simp [holdsKeys, empty])]
    exact Produces.same_next_iff (next_empty positive before inside empty)
  · rw [List.filter_cons_of_pos (by simp [holdsKeys, empty])]
    exact Produces.cons_iff (next_filled positive before inside empty)

theorem BSetIterator.produces_later {start bset : Nat} {bsets : List Nat}
    (produces : Produces (next node blockSize) { iter := start, stop := node.size }
      (bset :: bsets)) : start ≤ bset := by
  cases produces with
  | more returned _ => exact (nextWithin_some returned).1

/-- The reader meets the second of two bsets, or does not miss its keys. -/
def Reached (node : Bytes) (blockSize bset next : Nat) : Prop :=
  bsetStop node bset % blockSize = 0 → holdsKeys node next = false

theorem BSetChain.produces_iff {start : Nat} {bsets : List Nat} (positive : 0 < blockSize)
    (sectors : 512 ∣ blockSize) (nodeSectors : 512 ∣ node.size)
    (chain : BSetChain node blockSize start bsets) :
    Produces (BSetIterator.next node blockSize) { iter := start, stop := node.size }
        (bsets.filter (holdsKeys node)) ↔
      bsets.IsChain (Reached node blockSize) := by
  induction chain with
  | @last bset inside zero =>
      have header : bset + sizeofBSet ≤ node.size := by
        simp only [bsetStop] at inside
        omega
      have behind := nextHeader_eq node blockSize bset
      have zeroBehind : ∀ index, nextHeader node blockSize bset ≤ index → node.byte index = 0 :=
        fun index bound => zero index (by omega)
      rcases BSetIterator.next_zero positive sectors nodeSectors
        (nextHeader_sector positive sectors) zeroBehind with ⟨after, finished⟩
      rw [BSetIterator.passed_iff positive header]
      exact iff_of_true (Produces.done finished) (List.IsChain.singleton bset)
  | @more bset bsets inside chain ih =>
      have header : bset + sizeofBSet ≤ node.size := by
        simp only [bsetStop] at inside
        omega
      have large : sizeofCsum + sizeofBSet < blockSize := by
        have sector := Nat.le_of_dvd positive sectors
        simp only [sizeofCsum, sizeofBSet]
        omega
      obtain ⟨rest, rfl, nextInside⟩ := chain.head
      rw [BSetIterator.passed_iff positive header, List.isChain_cons_cons, ← ih]
      by_cases boundary : bsetStop node bset % blockSize = 0
      · rw [nextHeader_boundary positive boundary]
        cases filled : holdsKeys node (roundup (bsetStop node bset) blockSize + sizeofCsum) with
        | false =>
            have aligned : roundup (bsetStop node bset) blockSize % blockSize = 0 := by
              rw [roundup_multiple positive boundary, boundary]
            have reached : Reached node blockSize bset
                (roundup (bsetStop node bset) blockSize + sizeofCsum) := fun _ => filled
            rw [BSetIterator.passed_iff positive nextInside,
              List.filter_cons_of_neg (by simp [filled]), nextHeader_empty large aligned filled]
            exact (and_iff_right reached).symm
        | true =>
            -- the skipped bset lies in front of everything that is still returned
            constructor
            · intro produces
              rw [List.filter_cons_of_pos filled] at produces
              have later := BSetIterator.produces_later produces
              omega
            · intro outcome
              have missed := outcome.1 boundary
              rw [filled] at missed
              cases missed
      · have reached : Reached node blockSize bset
            (roundup (bsetStop node bset) blockSize + sizeofCsum) :=
          fun multiple => absurd multiple boundary
        rw [nextHeader_inBlock positive boundary]
        exact (and_iff_right reached).symm

/-- From construction on the calls return exactly the bsets with keys, and then
nothing, exactly when none of these follows a bset that ends on a block boundary. -/
theorem bsets_visited_iff {bsets : List Nat} (positive : 0 < blockSize)
    (sectors : 512 ∣ blockSize) (nodeSectors : 512 ∣ node.size)
    (chain : BSetChain node blockSize BTreeNode.keys bsets) :
    ∃ it, BSetIterator.new node.size = .ok it ∧
      (Produces (BSetIterator.next node blockSize) it (bsets.filter (holdsKeys node)) ↔
        bsets.IsChain (Reached node blockSize)) := by
  obtain ⟨_, _, inside⟩ := chain.head
  refine ⟨{ iter := BTreeNode.keys, stop := node.size }, ?_,
    chain.produces_iff positive sectors nodeSectors⟩
  rw [BSetIterator.new, if_pos (by simp only [sizeofBSet] at inside; omega)]

end

def boundaryNode : Bytes := Bytes.ofCells 1024 [(158, 44), (550, 1), (552, 1)]

theorem boundaryChain : BSetChain boundaryNode 512 BTreeNode.keys [136, 528] := by
  have next : roundup (bsetStop boundaryNode 136) 512 + sizeofCsum = 528 := by decide
  have last : BSetChain boundaryNode 512 528 [528] := by
    refine BSetChain.last (by decide) fun index behind => ?_
    refine @Bytes.ofCells_zero 1024 560 index _ (by decide) ?_
    have stop : bsetStop boundaryNode 528 = 560 := by decide
    omega
  exact BSetChain.more (by decide) (next ▸ last)

theorem bsets_boundary_sample : BSetChain boundaryNode 512 BTreeNode.keys [136, 528] ∧
    [136, 528].filter (holdsKeys boundaryNode) = [136, 528] ∧
    ∃ it, BSetIterator.new 1024 = .ok it ∧
      Produces (BSetIterator.next boundaryNode 512) it [136] ∧
      ¬Produces (BSetIterator.next boundaryNode 512) it [136, 528] := by
  refine ⟨boundaryChain, by decide, _, rfl, Produces.more rfl (Produces.done rfl), ?_⟩
  intro produces
  cases produces with
  | more returned rest =>
      cases returned
      cases rest with
      | more returned _ => cases returned

theorem bsets_visited_iff_sample : ∃ it, BSetIterator.new 1024 = .ok it ∧
    (Produces (BSetIterator.next boundaryNode 512) it
        ([136, 528].filter (holdsKeys boundaryNode)) ↔
      [136, 528].IsChain (Reached boundaryNode 512)) :=
  @bsets_visited_iff boundaryNode 512 [136, 528] (by decide) (by decide) (by decide) boundaryChain

end Bcachefs
