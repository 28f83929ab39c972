import Bcachefs.BSetChain
import Bcachefs.ReaderCore
import Bcachefs.Support.Orbit

/-! Which bset headers the scan of a node inspects, whatever the node contains. -/

namespace Bcachefs

open ByteString Iteration Orbit

/-- One call of `next`: the headers it inspects and what it returns. -/
inductive Inspects (node : Bytes) (blockSize : Nat) :
    BSetIterator → List Nat → Option Nat → BSetIterator → Prop
  | stopped {it} : it.stop ≤ it.iter → Inspects node blockSize it [] none it
  | empty {it iter headers result after} : it.iter < it.stop →
      BSetIterator.offset node blockSize it.iter = .ok iter →
      BSet.u64s node it.iter = .ok 0 →
      Inspects node blockSize { it with iter := iter } headers result after →
      Inspects node blockSize it (it.iter :: headers) result after
  | filled {it iter u64s} : it.iter < it.stop →
      BSetIterator.offset node blockSize it.iter = .ok iter →
      BSet.u64s node it.iter = .ok u64s → u64s ≠ 0 →
      Inspects node blockSize it [it.iter] (some it.iter) { it with iter := iter }

inductive BSetScan (node : Bytes) (blockSize : Nat) :
    BSetIterator → List Nat → List (Option Nat) → BSetIterator → Prop
  | start (it) : BSetScan node blockSize it [] [] it
  | call {it middle last headers later result results} :
      Inspects node blockSize it headers result middle →
      BSetScan node blockSize middle later results last →
      BSetScan node blockSize it (headers ++ later) (result :: results) last

section

variable {node : Bytes} {blockSize : Nat} {it middle after last : BSetIterator}
  {headers : List Nat} {result : Option Nat} {results : List (Option Nat)}

theorem BSetIterator.nextWithin_inspects {fuel : Nat}
    (returned : nextWithin node blockSize fuel it = .ok (result, after)) :
    ∃ headers, Inspects node blockSize it headers result after := by
  induction fuel generalizing it with
  | zero => cases returned
  | succ fuel ih =>
      unfold nextWithin at returned
      split at returned
      · rename_i reached
        cases returned
        exact ⟨[], Inspects.stopped reached⟩
      · rename_i unfinished
        obtain ⟨iter, moved, rest⟩ := bind_eq_ok.mp returned
        obtain ⟨u64s, read, rest⟩ := bind_eq_ok.mp rest
        split at rest
        · rename_i zero
          subst zero
          obtain ⟨headers, inspects⟩ := ih rest
          exact ⟨_, Inspects.empty (by omega) moved read inspects⟩
        · rename_i nonzero
          cases rest
          exact ⟨_, Inspects.filled (by omega) moved read nonzero⟩

theorem Inspects.nextWithin (inspects : Inspects node blockSize it headers result after) :
    ∀ fuel, it.stop - it.iter < fuel →
      BSetIterator.nextWithin node blockSize fuel it = .ok (result, after) := by
  induction inspects with
  | stopped reached =>
      intro fuel enough
      rcases fuel with _ | fuel
      · omega
      · rw [BSetIterator.nextWithin, if_pos reached]
  | @empty it iter _ _ _ before moved read _ ih =>
      intro fuel enough
      have forward := (BSetIterator.offset_ok moved).1
      rcases fuel with _ | fuel
      · omega
      · rw [BSetIterator.nextWithin, if_neg (by omega), moved, ok_bind, read, ok_bind, if_pos rfl]
        exact ih fuel (by dsimp only; omega)
  | filled before moved read nonzero =>
      intro fuel enough
      rcases fuel with _ | fuel
      · omega
      · rw [BSetIterator.nextWithin, if_neg (by omega), moved, ok_bind, read, ok_bind,
          if_neg nonzero]
        rfl

theorem inspects_iff : (∃ headers, Inspects node blockSize it headers result after) ↔
    it.next node blockSize = .ok (result, after) := by
  constructor
  · rintro ⟨headers, inspects⟩
    exact inspects.nextWithin _ (by omega)
  · exact BSetIterator.nextWithin_inspects

theorem bsetScan_iff : (∃ headers, BSetScan node blockSize it headers results last) ↔
    Calls (Yields (BSetIterator.next node blockSize)) it results last := by
  constructor
  · rintro ⟨headers, scan⟩
    induction scan with
    | start _ => exact Calls.start _
    | call inspects _ ih => exact Calls.call (inspects_iff.mp ⟨_, inspects⟩) ih
  · intro calls
    induction calls with
    | start state => exact ⟨[], BSetScan.start state⟩
    | call returned _ ih =>
        obtain ⟨headers, inspects⟩ := inspects_iff.mpr returned
        obtain ⟨later, scan⟩ := ih
        exact ⟨headers ++ later, BSetScan.call inspects scan⟩

theorem BSetIterator.offset_next {iter moved : Nat}
    (returned : offset node blockSize iter = .ok moved) :
    0 < blockSize ∧ moved = nextHeader node blockSize iter := by
  have header := (offset_ok returned).2
  rcases Nat.eq_zero_or_pos blockSize with zero | positive
  · obtain ⟨u64s, _, rest⟩ := bind_eq_ok.mp returned
    rw [if_pos zero] at rest
    cases rest
  · rw [offset_eq positive header] at returned
    cases returned
    exact ⟨positive, rfl⟩

theorem Inspects.visits (inspects : Inspects node blockSize it headers result after) :
    Visits (nextHeader node blockSize) it.stop it.iter headers after.iter ∧
      after.stop = it.stop := by
  induction inspects with
  | stopped _ => exact ⟨Visits.start _, rfl⟩
  | empty before moved _ _ ih =>
      obtain ⟨visits, stop⟩ := ih
      rw [(BSetIterator.offset_next moved).2] at visits
      exact ⟨Visits.step before visits, stop⟩
  | filled before moved _ _ =>
      rw [(BSetIterator.offset_next moved).2]
      exact ⟨Visits.step before (Visits.start _), rfl⟩

theorem Inspects.returned (inspects : Inspects node blockSize it headers result after) :
    headers.filter (holdsKeys node) = result.toList ∧
      (result = none → after.stop ≤ after.iter) := by
  induction inspects with
  | stopped reached => exact ⟨rfl, fun _ => reached⟩
  | empty _ _ read _ ih =>
      have zero := (load_ok.mp read).2
      rw [List.filter_cons_of_neg (by simp [holdsKeys, zero])]
      exact ih
  | filled _ _ read nonzero =>
      have filled := (load_ok.mp read).2
      refine ⟨List.filter_cons_of_pos ?_, fun missing => by cases missing⟩
      simpa [holdsKeys, filled] using nonzero

theorem BSetScan.visits (scan : BSetScan node blockSize it headers results last) :
    Visits (nextHeader node blockSize) it.stop it.iter headers last.iter ∧
      last.stop = it.stop := by
  induction scan with
  | start _ => exact ⟨Visits.start _, rfl⟩
  | call inspects _ ih =>
      obtain ⟨visits, stop⟩ := inspects.visits
      rw [stop] at ih
      exact ⟨visits.append ih.1, ih.2⟩

theorem BSetScan.finished (scan : BSetScan node blockSize it headers results last)
    (reached : it.stop ≤ it.iter) :
    headers = [] ∧ results = List.replicate results.length none := by
  induction scan with
  | start _ => exact ⟨rfl, rfl⟩
  | call inspects _ ih =>
      cases inspects with
      | stopped _ =>
          obtain ⟨rfl, none⟩ := ih reached
          refine ⟨rfl, ?_⟩
          rw [List.length_cons, List.replicate_succ, ← none]
      | empty before _ _ _ => omega
      | filled before _ _ _ => omega

theorem BSetScan.returned (scan : BSetScan node blockSize it headers results last) :
    ∃ nulls, results =
      (headers.filter (holdsKeys node)).map some ++ List.replicate nulls none := by
  induction scan with
  | start _ => exact ⟨0, rfl⟩
  | @call _ _ _ _ _ result results inspects rest ih =>
      obtain ⟨filled, stopped⟩ := inspects.returned
      cases result with
      | none =>
          obtain ⟨rfl, none⟩ := rest.finished (stopped rfl)
          refine ⟨results.length + 1, ?_⟩
          rw [List.append_nil, filled, none]
          simp [List.replicate_succ]
      | some bset =>
          obtain ⟨nulls, same⟩ := ih
          refine ⟨nulls, ?_⟩
          rw [List.filter_append, filled, same]
          rfl

end

structure BoundedHeaders (size blockSize : Nat) (headers : List Nat) : Prop where
  increasing : headers.Pairwise (· < ·)
  first : ∀ header, headers.head? = some header → header = BTreeNode.keys
  aligned : ∀ header ∈ headers.tail, header % blockSize = sizeofCsum % blockSize
  count : headers.length ≤ (size + blockSize - 1) / blockSize
  inside : ∀ header ∈ headers, header + sizeofBSet ≤ size

section

variable {node : Bytes} {blockSize iter : Nat}

theorem nextHeader_block (positive : 0 < blockSize) :
    ∃ block, iter / blockSize < block ∧
      nextHeader node blockSize iter = blockSize * block + sizeofCsum := by
  have stop : iter ≤ bsetStop node iter := by
    rw [bsetStop]
    omega
  refine ⟨bsetStop node iter / blockSize + 1,
    Nat.lt_succ_of_le (Nat.div_le_div_right stop), ?_⟩
  rcases block_start blockSize (bsetStop node iter) with start | zero
  · rw [nextHeader_eq, start]
  · omega

theorem nextHeader_aligned (positive : 0 < blockSize) :
    nextHeader node blockSize iter % blockSize = sizeofCsum % blockSize := by
  obtain ⟨block, _, same⟩ := nextHeader_block positive
  rw [same, Nat.mul_add_mod]

theorem nextHeader_rises (positive : 0 < blockSize) :
    iter / blockSize < nextHeader node blockSize iter / blockSize := by
  obtain ⟨block, later, same⟩ := nextHeader_block positive
  rw [same, Nat.mul_add_div positive]
  exact Nat.lt_of_lt_of_le later (Nat.le_add_right _ _)

theorem nextHeader_forward (node : Bytes) (blockSize iter : Nat) :
    iter < nextHeader node blockSize iter := by
  simp only [nextHeader, sizeofBSet]
  omega

theorem block_count {size position : Nat} (positive : 0 < blockSize) (inside : position < size) :
    position / blockSize < (size + blockSize - 1) / blockSize := by
  have bound : (position + blockSize) / blockSize ≤ (size + blockSize - 1) / blockSize :=
    Nat.div_le_div_right (by omega)
  rw [Nat.add_div_right _ positive] at bound
  omega

def Placed (iter : Nat) : Prop := iter = BTreeNode.keys ∨ iter % 512 = sizeofCsum

theorem Placed.inside {size : Nat} (placed : Placed iter) (sectors : 512 ∣ size)
    (before : iter < size) : iter + sizeofBSet ≤ size := by
  simp only [Placed, BTreeNode.keys, sizeofCsum] at placed
  simp only [sizeofBSet]
  omega

theorem nextHeader_placed (positive : 0 < blockSize) (sectors : 512 ∣ blockSize) :
    Placed (nextHeader node blockSize iter) :=
  Or.inr (nextHeader_sector positive sectors)

theorem boundedHeaders {headers : List Nat} {last : Nat} (positive : 0 < blockSize)
    (sectors : 512 ∣ blockSize) (nodeSectors : 512 ∣ node.size)
    (visits : Visits (nextHeader node blockSize) node.size BTreeNode.keys headers last) :
    BoundedHeaders node.size blockSize headers ∧ Placed last := by
  have placed := visits.keeps (fun _ _ _ => nextHeader_placed positive sectors) (Or.inl rfl)
  have short := visits.length_le (· / blockSize) (fun _ _ => nextHeader_rises positive)
    fun _ => block_count positive
  refine ⟨⟨(visits.increasing fun _ _ => nextHeader_forward _ _ _).1, visits.head, ?_, ?_, ?_⟩,
    placed.2⟩
  · intro header member
    obtain ⟨before, _, rfl⟩ := visits.tail header member
    exact nextHeader_aligned positive
  · exact Nat.le_trans short (Nat.sub_le _ _)
  · intro header member
    exact (placed.1 header member).inside nodeSectors (visits.inside header member)

theorem inspects_exists {it : BSetIterator} (positive : 0 < blockSize)
    (sectors : 512 ∣ blockSize) (nodeSectors : 512 ∣ node.size) (stop : it.stop = node.size)
    (placed : Placed it.iter) :
    ∃ headers result after, Inspects node blockSize it headers result after := by
  induction left : node.size - it.iter using Nat.strong_induction_on generalizing it with
  | _ left ih =>
      by_cases before : it.iter < it.stop
      · have header := placed.inside nodeSectors (stop ▸ before)
        have moved := BSetIterator.offset_eq positive header
        have read := BSet.u64s_ok header
        by_cases empty : node.number 2 (it.iter + 22) = 0
        · have forward := nextHeader_forward node blockSize it.iter
          rcases @ih (node.size - nextHeader node blockSize it.iter) (by omega)
            { it with iter := nextHeader node blockSize it.iter } stop
            (nextHeader_placed positive sectors) rfl with ⟨headers, result, after, inspects⟩
          exact ⟨_, _, _, Inspects.empty before moved (empty ▸ read) inspects⟩
        · exact ⟨_, _, _, Inspects.filled before moved read empty⟩
      · exact ⟨_, _, _, Inspects.stopped (Nat.not_lt.mp before)⟩

end

theorem extractBitflag_nodeSize (flags : Nat) :
    extractBitflag flags 12 28 = flags / 2 ^ 12 % 2 ^ 16 := by
  simp only [extractBitflag, wrap64]
  omega

/-- For every geometry that a superblock can state, and for every content of the node,
the calls of `next` stay inside the node and end. -/
theorem bsetScan_bounded {sb : Bytes} {blocks flags : Nat}
    (blockSize : Superblock.blockSize sb = .ok blocks) (positive : 1 ≤ blocks)
    (flags0 : Superblock.flags0 sb = .ok flags) (sized : flags / 2 ^ 12 % 2 ^ 16 ≠ 0) :
    ∃ size unit, btreeNodeSize sb = .ok size ∧ btreeBlockSize sb = .ok unit ∧
      ∀ node : Bytes, node.size = size →
        ∃ it, BSetIterator.new size = .ok it ∧
          (∀ results last, Calls (Yields (BSetIterator.next node unit)) it results last ↔
            ∃ headers, BSetScan node unit it headers results last) ∧
          ∀ headers results last, BSetScan node unit it headers results last →
            BoundedHeaders size unit headers ∧
            (∃ result after, last.next node unit = .ok (result, after)) ∧
            ∃ nulls, results =
              (headers.filter (holdsKeys node)).map some ++ List.replicate nulls none := by
  refine ⟨flags / 2 ^ 12 % 2 ^ 16 * sectorSize, blocks * sectorSize, ?_, ?_, ?_⟩
  · rw [btreeNodeSize, flags0, ok_bind, extractBitflag_nodeSize, Nat.mod_mod]
    rfl
  · rw [btreeBlockSize, blockSize]
    rfl
  · intro node size
    have unitPositive : 0 < blocks * sectorSize := by
      simp only [sectorSize]
      omega
    have sectors : 512 ∣ blocks * sectorSize := Nat.dvd_mul_left _ _
    have nodeSectors : 512 ∣ node.size := size ▸ Nat.dvd_mul_left _ _
    have large : BTreeNode.keys < flags / 2 ^ 12 % 2 ^ 16 * sectorSize := by
      simp only [BTreeNode.keys, sectorSize]
      omega
    refine ⟨{ iter := BTreeNode.keys, stop := node.size }, ?_,
      fun _ _ => bsetScan_iff.symm, ?_⟩
    · rw [BSetIterator.new, if_pos large, size]
    · intro headers results last scan
      obtain ⟨visits, stop⟩ := scan.visits
      obtain ⟨bounded, placed⟩ := boundedHeaders unitPositive sectors nodeSectors visits
      obtain ⟨seen, result, after, inspects⟩ :=
        inspects_exists unitPositive sectors nodeSectors stop placed
      rw [size] at bounded
      exact ⟨bounded, ⟨result, after, inspects_iff.mp ⟨seen, inspects⟩⟩, scan.returned⟩

def geometrySuperblock : Bytes := Bytes.ofCells 752 [(120, 2), (145, 48)]

theorem bsetScan_bounded_sample : ∃ size unit, btreeNodeSize geometrySuperblock = .ok size ∧
    btreeBlockSize geometrySuperblock = .ok unit ∧ ∀ node : Bytes, node.size = size →
      ∃ it, BSetIterator.new size = .ok it ∧
        (∀ results last, Calls (Yields (BSetIterator.next node unit)) it results last ↔
          ∃ headers, BSetScan node unit it headers results last) ∧
        ∀ headers results last, BSetScan node unit it headers results last →
          BoundedHeaders size unit headers ∧
          (∃ result after, last.next node unit = .ok (result, after)) ∧
          ∃ nulls, results =
            (headers.filter (holdsKeys node)).map some ++ List.replicate nulls none :=
  @bsetScan_bounded geometrySuperblock 2 12288 rfl (by decide) rfl (by decide)

end Bcachefs
