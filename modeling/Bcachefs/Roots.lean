import Bcachefs.SuperblockLoad
import Bcachefs.Support.Log
import Bcachefs.TreeCore

/-! The table of btree roots: what `find_journal_entries` stores in it and what
`iterator(type)` takes from it. -/

namespace Bcachefs

open ByteString Iteration

inductive Entries (sb : Bytes) (stop : Nat) : Nat → List Nat → Prop
  | finished {iter} : stop ≤ iter → Entries sb stop iter []
  | last {iter} : iter < stop → sb.number 2 iter = 0 → Entries sb stop iter [iter]
  | more {iter entries} : iter < stop → sb.number 2 iter ≠ 0 →
      Entries sb stop (iter + (sb.number 2 iter + 1) * u64sSize) entries →
      Entries sb stop iter (iter :: entries)

def isRoot (sb : Bytes) (entry : Nat) : Bool := sb.number 1 (entry + 4) == jsetEntryBtreeRoot

def isRootOf (sb : Bytes) (id entry : Nat) : Bool :=
  isRoot sb entry && sb.number 1 (entry + 2) == id

def recordedRoot (sb : Bytes) (entries : List Nat) (id : Nat) : Option Nat :=
  Log.last (isRootOf sb id) entries

def recordEntry (sb : Bytes) (table : List (Option Nat)) (entry : Nat) :
    Result (List (Option Nat)) :=
  if isRoot sb entry then
    if sb.number 1 (entry + 2) < table.length then
      .ok (table.set (sb.number 1 (entry + 2)) (some entry))
    else .error .badIndex
  else .ok table

section

variable {sb : Bytes} {stop iter : Nat}

theorem entries_exist (sb : Bytes) (stop iter : Nat) : ∃ entries, Entries sb stop iter entries := by
  induction left : stop - iter using Nat.strong_induction_on generalizing iter with
  | _ left ih =>
      by_cases finished : stop ≤ iter
      · exact ⟨[], Entries.finished finished⟩
      · by_cases empty : sb.number 2 iter = 0
        · exact ⟨[iter], Entries.last (by omega) empty⟩
        · have forward : iter < iter + (sb.number 2 iter + 1) * u64sSize := by
            simp only [u64sSize]
            omega
          obtain ⟨entries, rest⟩ :=
            ih (stop - (iter + (sb.number 2 iter + 1) * u64sSize)) (by omega) _ rfl
          exact ⟨iter :: entries, Entries.more (by omega) empty rest⟩

theorem findJournalEntriesFrom_succ {fuel : Nat} {out : List (Option Nat)} (before : iter < stop)
    (inside : iter + 8 ≤ sb.size) :
    findJournalEntriesFrom sb stop (fuel + 1) iter out = (do
      let out ← recordEntry sb out iter
      if sb.number 2 iter = 0 then return out
      else findJournalEntriesFrom sb stop fuel (iter + (sb.number 2 iter + 1) * u64sSize) out) := by
  have u64s : JsetEntry.u64s sb iter = .ok _ := load_inside (by omega)
  have type : JsetEntry.type sb iter = .ok _ := load_inside (by omega)
  have id : JsetEntry.btreeId sb iter = .ok _ := load_inside (by omega)
  rw [findJournalEntriesFrom, if_pos before, u64s, ok_bind, type, ok_bind]
  by_cases root : sb.number 1 (iter + 4) = jsetEntryBtreeRoot
  · have found : isRoot sb iter = true := beq_iff_eq.mpr root
    rw [if_pos root, storeRoot, id, ok_bind, recordEntry, if_pos found]
    rfl
  · have other : ¬isRoot sb iter = true := fun found => root (beq_iff_eq.mp found)
    rw [if_neg root, recordEntry, if_neg other]

theorem findJournalEntriesFrom_eq {entries : List Nat} (scanned : Entries sb stop iter entries)
    (inside : stop ≤ sb.size) (aligned : (stop - iter) % 8 = 0) {fuel : Nat}
    (out : List (Option Nat)) (enough : stop - iter < fuel) :
    findJournalEntriesFrom sb stop fuel iter out = entries.foldlM (recordEntry sb) out := by
  induction scanned generalizing fuel out with
  | @finished iter finished =>
      rcases fuel with _ | fuel
      · omega
      · rw [findJournalEntriesFrom, if_neg (by omega)]
        rfl
  | @last iter before empty =>
      rcases fuel with _ | fuel
      · omega
      · rw [findJournalEntriesFrom_succ before (by omega), List.foldlM_cons]
        simp only [empty, if_true]
        rfl
  | @more iter entries before filled _ ih =>
      rcases fuel with _ | fuel
      · omega
      · rw [findJournalEntriesFrom_succ before (by omega), List.foldlM_cons]
        simp only [filled, if_false]
        congr 1
        funext out
        apply ih
        · simp only [u64sSize]
          omega
        · simp only [u64sSize]
          omega

theorem findJournalEntries_eq {field u64s : Nat} {entries : List Nat}
    (scanned : Entries sb (field + wrap32 (u64s * u64sSize)) (field + sizeofFieldClean) entries)
    (length : SbField.u64s sb field = .ok u64s)
    (inside : field + wrap32 (u64s * u64sSize) ≤ sb.size) :
    findJournalEntries sb field =
      entries.foldlM (recordEntry sb) (List.replicate btreeIdNr none) := by
  have aligned : (field + wrap32 (u64s * u64sSize) - (field + sizeofFieldClean)) % 8 = 0 := by
    simp only [wrap32, u64sSize, sizeofFieldClean]
    omega
  rw [findJournalEntries, length, ok_bind]
  exact findJournalEntriesFrom_eq scanned inside aligned _ (by omega)

theorem recordEntries_ok {entries : List Nat} {out : List (Option Nat)}
    (known : ∀ entry ∈ entries, isRoot sb entry = true → sb.number 1 (entry + 2) < out.length) :
    ∃ table, entries.foldlM (recordEntry sb) out = .ok table ∧ table.length = out.length ∧
      ∀ id old, out[id]? = some old → table[id]? = some ((recordedRoot sb entries id).or old) := by
  induction entries generalizing out with
  | nil => exact ⟨out, rfl, rfl, fun id old found => by simpa [recordedRoot, Log.last_nil] using found⟩
  | cons entry entries ih =>
      by_cases root : isRoot sb entry = true
      · have inside := known entry List.mem_cons_self root
        have stored : recordEntry sb out entry =
            .ok (out.set (sb.number 1 (entry + 2)) (some entry)) := by
          rw [recordEntry, if_pos root, if_pos inside]
        rcases @ih (out.set (sb.number 1 (entry + 2)) (some entry)) (by
            intro later member found
            rw [List.length_set]
            exact known later (List.mem_cons_of_mem _ member) found) with
          ⟨table, folded, length, slots⟩
        refine ⟨table, ?_, by simpa using length, ?_⟩
        · rw [List.foldlM_cons, stored]
          exact folded
        · intro id old found
          by_cases same : sb.number 1 (entry + 2) = id
          · have holds : isRootOf sb id entry = true := by simp [isRootOf, root, same]
            have set : (out.set (sb.number 1 (entry + 2)) (some entry))[id]? = some (some entry) := by
              rw [← same, List.getElem?_set_self inside]
            rw [slots id _ set, recordedRoot, recordedRoot, Log.last_cons_of_holds _ holds]
            cases Log.last (isRootOf sb id) entries with
            | none => rfl
            | some later => rfl
          · have other : isRootOf sb id entry = false := by simp [isRootOf, same]
            have kept : (out.set (sb.number 1 (entry + 2)) (some entry))[id]? = some old := by
              rw [List.getElem?_set_ne same, found]
            rw [slots id _ kept, recordedRoot, recordedRoot, Log.last_cons_of_not _ other]
      · have skipped : recordEntry sb out entry = .ok out := by rw [recordEntry, if_neg root]
        obtain ⟨table, folded, length, slots⟩ :=
          ih (fun later member => known later (List.mem_cons_of_mem _ member))
        refine ⟨table, ?_, length, ?_⟩
        · rw [List.foldlM_cons, skipped]
          exact folded
        · intro id old found
          have other : isRootOf sb id entry = false := by simp [isRootOf, root]
          rw [slots id old found, recordedRoot, recordedRoot, Log.last_cons_of_not _ other]

theorem recordEntries_bad {entries : List Nat} {out table : List (Option Nat)}
    (folded : entries.foldlM (recordEntry sb) out = .ok table) :
    ∀ entry ∈ entries, isRoot sb entry = true → sb.number 1 (entry + 2) < out.length := by
  induction entries generalizing out with
  | nil => exact fun entry member => absurd member List.not_mem_nil
  | cons first entries ih =>
      rw [List.foldlM_cons] at folded
      obtain ⟨next, stored, rest⟩ := bind_eq_ok.mp folded
      have length : next.length = out.length := by
        unfold recordEntry at stored
        split at stored
        · split at stored
          · cases stored
            exact List.length_set
          · cases stored
        · cases stored
          rfl
      intro entry member root
      rcases List.mem_cons.mp member with rfl | later
      · by_contra outside
        rw [recordEntry, if_pos root, if_neg outside] at stored
        cases stored
      · rw [← length]
        exact ih rest entry later root

end

def BCacheFSReader.iteratorOn (env : Env) (reader : BCacheFSReader) (fuel entry : Nat)
    (type : BTreeType) (world : World) : Result (BTreeIterator × World) := do
  let sb ← world.deref reader.sblock
  let _ ← JsetEntry.btreeId sb entry
  let btreePtr ← findBtreeRoot sb entry fuel
  BTreeIterator.new env reader ⟨reader.sblock, btreePtr⟩ type world

theorem BCacheFSReader.iterator_root {env : Env} {reader : BCacheFSReader} {fuel entry : Nat}
    {type : BTreeType} {world : World} (slot : reader.btreeRoots[type.id]? = some (some entry)) :
    reader.iterator env fuel type world = reader.iteratorOn env fuel entry type world := by
  rw [iterator, slot]
  rfl

theorem BCacheFSReader.iterator_unset {env : Env} {reader : BCacheFSReader} {fuel : Nat}
    {type : BTreeType} {world : World} (slot : reader.btreeRoots[type.id]? = some none) :
    reader.iterator env fuel type world = .error .nullPointer := by
  rw [iterator, slot]

def RootTableSafe (env : Env) (sb : Bytes) (field : Nat) (entries : List Nat) (type : BTreeType)
    (sblock : Nat) (world : World) : Prop :=
  ∃ table, findJournalEntries sb field = .ok table ∧ ∀ fuel,
    BCacheFSReader.iterator env { sblock := sblock, btreeRoots := table } fuel type world =
      match recordedRoot sb entries type.id with
      | some entry => BCacheFSReader.iteratorOn env { sblock := sblock, btreeRoots := table } fuel
          entry type world
      | none => .error .assertion

def KnownRoots (sb : Bytes) (entries : List Nat) (type : BTreeType) : Prop :=
  (∀ entry ∈ entries, isRoot sb entry = true → sb.number 1 (entry + 2) < btreeIdNr) ∧
    ∃ entry ∈ entries, isRootOf sb type.id entry = true

/-- For every content of the clean field the table is used safely for a type exactly
when the scan meets roots of known btrees only and one of the type among them. -/
theorem rootTable_safe_iff (env : Env) {sb : Bytes} {field u64s : Nat} (type : BTreeType)
    (sblock : Nat) (world : World) (length : SbField.u64s sb field = .ok u64s)
    (inside : field + wrap32 (u64s * u64sSize) ≤ sb.size) :
    ∃ entries, Entries sb (field + wrap32 (u64s * u64sSize)) (field + sizeofFieldClean) entries ∧
      (RootTableSafe env sb field entries type sblock world ↔ KnownRoots sb entries type) := by
  obtain ⟨entries, scanned⟩ :=
    entries_exist sb (field + wrap32 (u64s * u64sSize)) (field + sizeofFieldClean)
  refine ⟨entries, scanned, ?_⟩
  have folded := findJournalEntries_eq scanned length inside
  have cleared : (List.replicate btreeIdNr (none : Option Nat))[type.id]? = some none := by
    rw [List.getElem?_replicate, if_pos type.id_lt]
  constructor
  · rintro ⟨table, filled, works⟩
    rw [folded] at filled
    have known := recordEntries_bad filled
    rw [List.length_replicate] at known
    refine ⟨known, ?_⟩
    by_contra missing
    have absent : recordedRoot sb entries type.id = none := by
      apply Log.last_eq_none_iff.mpr
      intro entry member
      by_contra holds
      exact missing ⟨entry, member, by simpa using holds⟩
    rcases @recordEntries_ok sb entries (List.replicate btreeIdNr none)
      (by rwa [List.length_replicate]) with ⟨_, again, _, slots⟩
    cases again.symm.trans filled
    have slot : table[type.id]? = some none := by simpa [absent] using slots type.id none cleared
    have outcome := works 0
    rw [BCacheFSReader.iterator_unset slot, absent] at outcome
    cases outcome
  · rintro ⟨known, entry, member, holds⟩
    rcases @recordEntries_ok sb entries (List.replicate btreeIdNr none)
      (by rwa [List.length_replicate]) with ⟨table, filled, _, slots⟩
    refine ⟨table, folded.trans filled, fun fuel => ?_⟩
    cases found : recordedRoot sb entries type.id with
    | none =>
        have other := Log.last_eq_none_iff.mp found entry member
        rw [holds] at other
        cases other
    | some root =>
        have slot : table[type.id]? = some (some root) := by
          simpa [found] using slots type.id none cleared
        exact BCacheFSReader.iterator_root slot

def unknownRootEnv : Env where
  image := Bytes.ofCells 4888 (magicCells ++
    [(4220, 5), (4848, 5), (4852, 6), (4872, 1), (4874, 9), (4876, 1)])
  junk _ _ := 0

def unknownRootSb : Bytes := unknownRootEnv.image.window 4096 792

def rootlessEnv : Env where
  image := Bytes.ofCells 4872 (magicCells ++ [(4220, 3), (4848, 3), (4852, 6)])
  junk _ _ := 0

theorem rootTable_unsafe_sample :
    BCacheFSReader.new unknownRootEnv 2 World.start = .error .badIndex ∧
    Entries unknownRootSb 792 776 [776] ∧
    (∀ type sblock world,
      ¬RootTableSafe unknownRootEnv unknownRootSb 752 [776] type sblock world) ∧
    ∃ reader world, BCacheFSReader.new rootlessEnv 2 World.start = .ok (reader, world) ∧
      reader.iterator rootlessEnv 1 .dirents world = .error .nullPointer := by
  refine ⟨rfl, ?_, ?_, _, _, rfl, rfl⟩
  · have filled : unknownRootSb.number 2 776 ≠ 0 := by decide
    refine Entries.more (by decide) filled (Entries.finished ?_)
    decide
  · rintro type sblock world ⟨table, filled, _⟩
    have failed : findJournalEntries unknownRootSb 752 = .error .badIndex := rfl
    cases failed.symm.trans filled

theorem rootTable_safe_iff_sample : ∃ entries, Entries unknownRootSb 792 776 entries ∧
    (RootTableSafe unknownRootEnv unknownRootSb 752 entries .dirents 1 World.start ↔
      KnownRoots unknownRootSb entries .dirents) :=
  @rootTable_safe_iff unknownRootEnv unknownRootSb 752 5 .dirents 1 World.start
    rfl (by decide)

end Bcachefs
