import Bcachefs.SuperblockFields
import Bcachefs.ImageOnly

/-! Which images the constructor opens: it has to find the magic, the clean field and
only roots of known btrees, all without a read outside the superblock. -/

namespace Bcachefs

open ByteString Iteration

/-- The fields in front of the one that the search returns have a word or more and are
of other types, and none of them starts where the search gives up. -/
structure LeadsTo (sb : Bytes) (type stop start field : Nat) (passed : List Nat) : Prop where
  area : FieldArea sb field start passed
  others : ∀ front ∈ passed, front ≠ stop ∧ front + 8 ≤ sb.size ∧ isOfType sb type front = false
  further : field ≠ stop
  inside : field + 8 ≤ sb.size
  typed : isOfType sb type field = true

section

variable {sb : Bytes} {type stop start field : Nat}

theorem Finds.leads {result : Option Nat} (finds : Finds sb type stop start result)
    (found : result = some field) : ∃ passed, LeadsTo sb type stop start field passed := by
  induction finds with
  | stopped => cases found
  | @found iter u64s further length typed =>
      cases found
      have read := load_ok.mp typed
      refine ⟨[], FieldArea.done, by simp, further, by omega, ?_⟩
      exact beq_iff_eq.mpr read.2
  | @passed iter u64s fieldType result further length typed other rest ih =>
      rcases ih found with ⟨passed, leads⟩
      have read := load_ok.mp typed
      have words := (load_ok.mp length).2
      have differs : isOfType sb type iter = false := by
        apply beq_eq_false_iff_ne.mpr
        rw [read.2]
        exact other
      have whole : Finds sb type stop iter result := Finds.passed further length typed other rest
      refine ⟨iter :: passed, ?_, ?_, leads.further, leads.inside, leads.typed⟩
      · apply FieldArea.field (whole.positive further differs)
        rw [words]
        exact leads.area
      · intro front member
        rcases List.mem_cons.mp member with same | member
        · rw [same]
          exact ⟨further, by omega, differs⟩
        · exact leads.others front member

theorem LeadsTo.finds {passed : List Nat} (leads : LeadsTo sb type stop start field passed) :
    Finds sb type stop start (some field) := by
  rcases leads with ⟨area, others, further, inside, typed⟩
  induction area with
  | done => exact (Finds.match_iff further inside typed).mpr rfl
  | @field start fields positive _ ih =>
      rcases others start List.mem_cons_self with ⟨early, header, differs⟩
      apply (Finds.other_iff early header differs).mpr
      exact ih fun front member => others front (List.mem_cons_of_mem _ member)

end

section

variable {sb : Bytes} {stop iter : Nat} {entries : List Nat}

theorem findJournalEntriesFrom_step {fuel : Nat} {out : List (Option Nat)} (before : iter < stop)
    (inside : iter + 5 ≤ sb.size) :
    findJournalEntriesFrom sb stop (fuel + 1) iter out = (do
      let out ← recordEntry sb out iter
      if sb.number 2 iter = 0 then return out
      else findJournalEntriesFrom sb stop fuel (iter + (sb.number 2 iter + 1) * u64sSize) out) := by
  have u64s : JsetEntry.u64s sb iter = .ok _ := load_inside (by omega)
  have type : JsetEntry.type sb iter = .ok _ := load_inside (by omega)
  have id : JsetEntry.btreeId sb iter = .ok _ := load_inside (by omega)
  rw [findJournalEntriesFrom, if_pos before, u64s, ok_bind, type, ok_bind]
  by_cases root : sb.number 1 (iter + 4) = jsetEntryBtreeRoot
  · have found : isRoot sb iter = true := beq_iff_eq.mpr root
    rw [if_pos root, storeRoot, id, ok_bind, recordEntry, if_pos found]
    rfl
  · have other : ¬isRoot sb iter = true := fun found => root (beq_iff_eq.mp found)
    rw [if_neg root, recordEntry, if_neg other]

theorem findJournalEntriesFrom_inside {fuel : Nat} {out table : List (Option Nat)}
    (before : iter < stop)
    (returned : findJournalEntriesFrom sb stop fuel iter out = .ok table) : iter + 5 ≤ sb.size := by
  cases fuel with
  | zero => cases returned
  | succ fuel =>
      rw [findJournalEntriesFrom, if_pos before] at returned
      rcases bind_eq_ok.mp returned with ⟨_, _, rest⟩
      rcases bind_eq_ok.mp rest with ⟨_, type, _⟩
      exact (load_ok.mp type).1

theorem findJournalEntriesFrom_iff (scanned : Entries sb stop iter entries) {fuel : Nat}
    {out table : List (Option Nat)} (enough : sb.size - iter < fuel) :
    findJournalEntriesFrom sb stop fuel iter out = .ok table ↔
      (∀ entry ∈ entries, entry + 5 ≤ sb.size) ∧
        entries.foldlM (recordEntry sb) out = .ok table := by
  induction scanned generalizing fuel out with
  | @finished iter finished =>
      cases fuel with
      | zero => omega
      | succ fuel =>
          rw [findJournalEntriesFrom, if_neg (by omega)]
          simp [pure, Except.pure]
  | @last iter before empty =>
      cases fuel with
      | zero => omega
      | succ fuel =>
          by_cases inside : iter + 5 ≤ sb.size
          · rw [findJournalEntriesFrom_step before inside]
            simp [empty, inside]
          · constructor
            · intro returned
              exact absurd (findJournalEntriesFrom_inside before returned) inside
            · intro holds
              exact absurd (holds.1 iter (by simp)) inside
  | @more iter entries before filled _ ih =>
      cases fuel with
      | zero => omega
      | succ fuel =>
          by_cases inside : iter + 5 ≤ sb.size
          · have shorter : sb.size - (iter + (sb.number 2 iter + 1) * u64sSize) < fuel := by
              simp only [u64sSize]
              omega
            rw [findJournalEntriesFrom_step before inside]
            simp only [filled, if_false, bind_eq_ok, List.foldlM_cons, List.forall_mem_cons, inside,
              true_and]
            constructor
            · rintro ⟨next, recorded, rest⟩
              rcases (ih shorter).mp rest with ⟨bounds, folded⟩
              exact ⟨bounds, next, recorded, folded⟩
            · rintro ⟨bounds, next, recorded, folded⟩
              exact ⟨next, recorded, (ih shorter).mpr ⟨bounds, folded⟩⟩
          · constructor
            · intro returned
              exact absurd (findJournalEntriesFrom_inside before returned) inside
            · intro holds
              exact absurd (holds.1 iter (by simp)) inside

end

structure OpensAt (sb : Bytes) (passed : List Nat) (field : Nat) (entries : List Nat) : Prop where
  found : LeadsTo sb sbFieldClean (wrap32 (sb.number 4 124 * u64sSize)) sizeofSuperblock field passed
  scanned : Entries sb (field + wrap32 (sb.number 4 field * u64sSize)) (field + sizeofFieldClean)
    entries
  inside : ∀ entry ∈ entries, entry + 5 ≤ sb.size
  known : ∀ entry ∈ entries, isRoot sb entry = true → sb.number 1 (entry + 2) < btreeIdNr

section

variable {env : Env} {sb : Bytes} {passed entries : List Nat} {field : Nat}

theorem findSuperblockField_iff {type : Nat} {result : Option Nat} (inside : 128 ≤ sb.size) :
    (∃ fuel, findSuperblockField sb type fuel = .ok result) ↔
      Finds sb type (wrap32 (sb.number 4 124 * u64sSize)) sizeofSuperblock result := by
  have length : Superblock.u64s sb = .ok (sb.number 4 124) := load_inside (by omega)
  simp only [findSuperblockField, length, ok_bind]
  exact findSuperblockFieldFrom_iff

theorem findJournalEntries_iff {table : List (Option Nat)} (header : field + 4 ≤ sb.size)
    (scanned : Entries sb (field + wrap32 (sb.number 4 field * u64sSize)) (field + sizeofFieldClean)
      entries) :
    findJournalEntries sb field = .ok table ↔ (∀ entry ∈ entries, entry + 5 ≤ sb.size) ∧
      entries.foldlM (recordEntry sb) (List.replicate btreeIdNr none) = .ok table := by
  have length : SbField.u64s sb field = .ok (sb.number 4 field) := load_inside header
  rw [findJournalEntries, length, ok_bind]
  exact findJournalEntriesFrom_iff scanned (by omega)

theorem superblockOf_size (image : Bytes) : sizeofSuperblock ≤ (superblockOf image).size :=
  Nat.le_add_right _ _

theorem OpensAt.table (opens : OpensAt sb passed field entries) (size : 128 ≤ sb.size) :
    ∃ fuel table, findSuperblockField sb sbFieldClean fuel = .ok (some field) ∧
      findJournalEntries sb field = .ok table ∧
      ∀ id, id < btreeIdNr → table[id]? = some (recordedRoot sb entries id) := by
  have header := opens.found.inside
  rcases (findSuperblockField_iff size).mpr opens.found.finds with ⟨fuel, search⟩
  rcases @recordEntries_ok _ entries (List.replicate btreeIdNr none) (by simpa using opens.known)
    with ⟨table, folded, _, slots⟩
  have filled := (findJournalEntries_iff (by omega) opens.scanned).mpr ⟨opens.inside, folded⟩
  refine ⟨fuel, table, search, filled, ?_⟩
  intro id bound
  have empty : (List.replicate btreeIdNr (none : Option Nat))[id]? = some none := by
    simp [bound]
  simpa using slots id none empty

theorem BCacheFSReader.new_ok (complete : SuperblockComplete env.image) (marked : HasMagic env.image)
    {fuel : Nat} {table : List (Option Nat)}
    (search : findSuperblockField (superblockOf env.image) sbFieldClean fuel = .ok (some field))
    (filled : findJournalEntries (superblockOf env.image) field = .ok table) :
    ∃ reader world, BCacheFSReader.new env fuel World.start = .ok (reader, world) ∧
      world.heap[reader.sblock]? = some (superblockOf env.image) ∧ reader.btreeRoots = table := by
  rw [BCacheFSReader.new, (readSuperblock_full complete).2 marked, ok_bind]
  simp only [World.deref, List.getElem?_cons_succ, List.getElem?_cons_zero, ok_bind, search, filled]
  exact ⟨_, _, rfl, rfl, rfl⟩

theorem OpensAt.opened (opens : OpensAt (superblockOf env.image) passed field entries)
    (complete : SuperblockComplete env.image) (marked : HasMagic env.image) :
    ∃ fuel reader world, BCacheFSReader.new env fuel World.start = .ok (reader, world) ∧
      world.heap[reader.sblock]? = some (superblockOf env.image) ∧
      ∀ id, id < btreeIdNr →
        reader.btreeRoots[id]? = some (recordedRoot (superblockOf env.image) entries id) := by
  have size := superblockOf_size env.image
  simp only [sizeofSuperblock] at size
  rcases opens.table (by omega) with ⟨fuel, table, search, filled, slots⟩
  rcases BCacheFSReader.new_ok complete marked search filled with ⟨reader, world, opened, held, same⟩
  rw [← same] at slots
  exact ⟨fuel, reader, world, opened, held, slots⟩

/-- Where nothing of the superblock is cut off, the constructor returns exactly for the
images with the magic whose fields lead to a clean field and whose journal entries lie
in the superblock and hold roots of known btrees only. -/
theorem opens_iff (complete : SuperblockComplete env.image) :
    (∃ fuel reader world, BCacheFSReader.new env fuel World.start = .ok (reader, world)) ↔
      HasMagic env.image ∧
        ∃ passed field entries, OpensAt (superblockOf env.image) passed field entries := by
  have size := superblockOf_size env.image
  simp only [sizeofSuperblock] at size
  constructor
  · rintro ⟨fuel, reader, world, opened⟩
    rcases reader_opened complete opened with ⟨marked, _, field, search, filled⟩
    have finds := (findSuperblockField_iff (by omega)).mp ⟨fuel, search⟩
    rcases finds.leads rfl with ⟨passed, leads⟩
    rcases entries_exist (superblockOf env.image)
      (field + wrap32 ((superblockOf env.image).number 4 field * u64sSize))
      (field + sizeofFieldClean) with ⟨entries, scanned⟩
    have header := leads.inside
    rcases (findJournalEntries_iff (by omega) scanned).mp filled with ⟨inside, folded⟩
    refine ⟨marked, passed, field, entries, leads, scanned, inside, ?_⟩
    simpa using recordEntries_bad folded
  · rintro ⟨marked, passed, field, entries, opens⟩
    rcases opens.opened complete marked with ⟨fuel, reader, world, opened, _⟩
    exact ⟨fuel, reader, world, opened⟩

theorem opens_iff_sample :
    (∃ fuel reader world, BCacheFSReader.new (cleanEnv 6144) fuel World.start = .ok (reader, world)) ↔
      HasMagic (sectorImage 6144) ∧
        ∃ passed field entries, OpensAt (superblockOf (sectorImage 6144)) passed field entries :=
  @opens_iff (cleanEnv 6144) sectorComplete.superblock

end

end Bcachefs
