import Bcachefs.Roots

/-! The scan of the journal entries in a clean field, for every content of the field. -/

namespace Bcachefs

open ByteString Iteration

def SameHeaders (left right : Bytes) (entries : List Nat) : Prop :=
  ∀ entry ∈ entries, ∀ index, entry ≤ index → index < entry + 8 →
    left.byte index = right.byte index

section

variable {sb other : Bytes} {stop iter : Nat} {entries : List Nat}

theorem Entries.bounds (scanned : Entries sb stop iter entries) (aligned : (stop - iter) % 8 = 0) :
    ∀ entry ∈ entries, iter ≤ entry ∧ entry + 8 ≤ stop := by
  induction scanned with
  | finished _ => exact fun entry member => absurd member List.not_mem_nil
  | last before _ =>
      intro entry member
      cases List.mem_singleton.mp member
      omega
  | more before _ _ ih =>
      intro entry member
      rcases List.mem_cons.mp member with rfl | later
      · omega
      · have bounds := ih (by simp only [u64sSize]; omega) entry later
        omega

theorem SameHeaders.number {entry count offset : Nat} (same : SameHeaders sb other entries)
    (member : entry ∈ entries) (inside : offset + count ≤ 8) :
    sb.number count (entry + offset) = other.number count (entry + offset) :=
  Bytes.number_congr fun position lower upper =>
    same entry member position (by omega) (by omega)

theorem SameHeaders.tail {entry : Nat} (same : SameHeaders sb other (entry :: entries)) :
    SameHeaders sb other entries :=
  fun later member => same later (List.mem_cons_of_mem _ member)

theorem Entries.of_same (scanned : Entries sb stop iter entries)
    (same : SameHeaders sb other entries) : Entries other stop iter entries := by
  induction scanned with
  | finished reached => exact Entries.finished reached
  | @last iter before empty =>
      have length := @SameHeaders.number _ _ _ iter 2 0 same List.mem_cons_self (by decide)
      exact Entries.last before (length.symm.trans empty)
  | @more iter entries before filled _ ih =>
      have length : sb.number 2 iter = other.number 2 iter :=
        @SameHeaders.number _ _ _ iter 2 0 same List.mem_cons_self (by decide)
      have rest := ih same.tail
      rw [length] at filled rest
      exact Entries.more before filled rest

theorem recordEntry_same {entry : Nat} (same : SameHeaders sb other entries)
    (member : entry ∈ entries) (table : List (Option Nat)) :
    recordEntry sb table entry = recordEntry other table entry := by
  have type := @SameHeaders.number _ _ _ entry 1 4 same member (by decide)
  have id := @SameHeaders.number _ _ _ entry 1 2 same member (by decide)
  rw [recordEntry, recordEntry, isRoot, isRoot, type, id]

theorem recordEntries_same (same : SameHeaders sb other entries) (table : List (Option Nat)) :
    entries.foldlM (recordEntry sb) table = entries.foldlM (recordEntry other) table := by
  induction entries generalizing table with
  | nil => rfl
  | cons entry entries ih =>
      rw [List.foldlM_cons, List.foldlM_cons, recordEntry_same same List.mem_cons_self]
      exact bind_congr_ok fun next _ => ih same.tail next

end

/-- For every content of a clean field whose roots are of known btrees, the scan ends
inside the field and keeps the last root of each btree; only the headers it meets
count. -/
theorem journalEntries_scanned {sb : Bytes} {field u64s : Nat}
    (length : SbField.u64s sb field = .ok u64s) (narrow : u64s < 2 ^ 29)
    (inside : field + u64s * u64sSize ≤ sb.size) :
    ∃ entries, Entries sb (field + u64s * u64sSize) (field + sizeofFieldClean) entries ∧
      (∀ entry ∈ entries, field + sizeofFieldClean ≤ entry ∧
        entry + 8 ≤ field + u64s * u64sSize) ∧
      ((∀ entry ∈ entries, isRoot sb entry = true → sb.number 1 (entry + 2) < btreeIdNr) →
        ∃ table, findJournalEntries sb field = .ok table ∧ table.length = btreeIdNr ∧
          (∀ id, id < btreeIdNr → table[id]? = some (recordedRoot sb entries id)) ∧
          ∀ other, SbField.u64s other field = .ok u64s → SameHeaders sb other entries →
            field + u64s * u64sSize ≤ other.size →
            findJournalEntries other field = .ok table) := by
  have whole : wrap32 (u64s * u64sSize) = u64s * u64sSize := by
    simp only [wrap32, u64sSize]
    omega
  obtain ⟨entries, scanned⟩ := entries_exist sb (field + u64s * u64sSize) (field + sizeofFieldClean)
  have aligned : (field + u64s * u64sSize - (field + sizeofFieldClean)) % 8 = 0 := by
    simp only [u64sSize, sizeofFieldClean]
    omega
  refine ⟨entries, scanned, scanned.bounds aligned, fun known => ?_⟩
  rcases @recordEntries_ok sb entries (List.replicate btreeIdNr none)
    (by rwa [List.length_replicate]) with ⟨table, filled, size, slots⟩
  refine ⟨table, ?_, by rw [size, List.length_replicate], ?_, ?_⟩
  · rw [findJournalEntries_eq (whole.symm ▸ scanned) length (whole.symm ▸ inside)]
    exact filled
  · intro id bound
    have cleared : (List.replicate btreeIdNr (none : Option Nat))[id]? = some none := by
      rw [List.getElem?_replicate, if_pos bound]
    simpa using slots id none cleared
  · intro other again same room
    have rescanned := scanned.of_same same
    rw [findJournalEntries_eq (whole.symm ▸ rescanned) again (whole.symm ▸ room),
      ← recordEntries_same same]
    exact filled

def payloadSb : Bytes := Bytes.ofCells 816
  [(752, 8), (756, 6), (776, 2), (778, 2), (780, 1), (784, 1), (786, 3), (788, 1),
   (800, 9), (802, 2), (804, 1)]

theorem journalEntries_scanned_sample :
    ∃ entries table, Entries payloadSb 816 776 entries ∧
      (∀ entry ∈ entries, 776 ≤ entry ∧ entry + 8 ≤ 816) ∧
      findJournalEntries payloadSb 752 = .ok table ∧ table.length = btreeIdNr ∧
      (∀ id, id < btreeIdNr → table[id]? = some (recordedRoot payloadSb entries id)) ∧
      ∀ other, SbField.u64s other 752 = .ok 8 → SameHeaders payloadSb other entries →
        816 ≤ other.size → findJournalEntries other 752 = .ok table := by
  obtain ⟨entries, scanned, bounds, filled⟩ :=
    @journalEntries_scanned payloadSb 752 8 rfl (by decide) (by decide)
  have small : ∀ offset < 33, isRoot payloadSb (776 + offset) = true →
      payloadSb.number 1 (776 + offset + 2) < btreeIdNr := by decide
  have known : ∀ entry ∈ entries, isRoot payloadSb entry = true →
      payloadSb.number 1 (entry + 2) < btreeIdNr := by
    intro entry member
    have bound := bounds entry member
    simp only [sizeofFieldClean, u64sSize] at bound
    have place : entry = 776 + (entry - 776) := by omega
    rw [place]
    exact small (entry - 776) (by omega)
  obtain ⟨table, returned, size, slots, alone⟩ := filled known
  exact ⟨entries, table, scanned, bounds, returned, size, slots, alone⟩

example : findJournalEntries payloadSb 752 =
    .ok [none, none, some 800, none, none, none, none, none] := by decide

end Bcachefs
