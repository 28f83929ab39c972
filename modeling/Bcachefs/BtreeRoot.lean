import Bcachefs.ReaderCore

/-! The search for a btree root in the value of a journal entry. Its cursor moves by
eight times the size of a pointer, and it ends by equality with the end of the value. -/

namespace Bcachefs

open ByteString Iteration

def rootKey (entry : Nat) : Nat := JsetEntry.start entry

def rootValue (entry : Nat) : Nat := rootKey entry + bkeyU64s * u64sSize

abbrev rootStride := sizeofBTreePtr * u64sSize

def UsedPointer (sb : Bytes) (value stop root : Nat) : Prop :=
  value ≤ root ∧ BTreePtr.start root + 8 ≤ stop ∧
    sb.number 8 (BTreePtr.start root) / 2 ^ 2 % 2 = 0

def SameValue (left right : Bytes) (value stop : Nat) : Prop :=
  ∀ index, value ≤ index → index < stop → left.byte index = right.byte index

/-- The search returns a pointer in use inside the value, and only the key's length and
the bytes of the value decide. It cannot report that there is none. -/
def SearchInside (sb : Bytes) (entry u64s : Nat) : Prop :=
  ∃ root, UsedPointer sb (rootValue entry) (rootKey entry + u64s * u64sSize) root ∧
    ∀ other, BKey.u64s other (rootKey entry) = .ok u64s →
      SameValue sb other (rootValue entry) (rootKey entry + u64s * u64sSize) →
      rootKey entry + u64s * u64sSize ≤ other.size →
      ∃ fuel, findBtreeRoot other entry fuel = .ok root

section

variable {sb : Bytes} {value stop cursor root : Nat}

theorem SameValue.number {other : Bytes} (same : SameValue sb other value stop) {count index : Nat}
    (lower : value ≤ index) (upper : index + count ≤ stop) :
    sb.number count index = other.number count index :=
  Bytes.number_congr fun position above below => same position (by omega) (by omega)

theorem SameValue.unused {other : Bytes} (same : SameValue sb other value stop)
    (room : stop ≤ other.size) (lower : value ≤ cursor) (upper : BTreePtr.start cursor + 8 ≤ stop) :
    ExtentPtr.unused other (BTreePtr.start cursor) =
      .ok (sb.number 8 (BTreePtr.start cursor) / 2 ^ 2 % 2) := by
  have after : cursor ≤ BTreePtr.start cursor := Nat.le_add_right _ _
  have word : load other 8 (BTreePtr.start cursor) = .ok _ := load_inside (by omega)
  rw [ExtentPtr.unused, word, ok_bind, ← same.number (by omega) upper]
  rfl

theorem findBtreeRootFrom_stride {fuel : Nat}
    (found : findBtreeRootFrom sb stop fuel cursor = .ok root) :
    ∃ count, root = cursor + count * rootStride := by
  induction fuel generalizing cursor with
  | zero => cases found
  | succ fuel ih =>
      rw [findBtreeRootFrom] at found
      split at found
      · cases found
        exact ⟨0, by omega⟩
      · obtain ⟨unused, _, rest⟩ := bind_eq_ok.mp found
        split at rest
        · cases rest
          exact ⟨0, by omega⟩
        · obtain ⟨count, rfl⟩ := ih rest
          refine ⟨count + 1, ?_⟩
          simp only [rootStride, sizeofBTreePtr, u64sSize]
          omega

theorem findBtreeRootFrom_used (used : UsedPointer sb value stop cursor) {other : Bytes}
    (same : SameValue sb other value stop) (room : stop ≤ other.size) :
    findBtreeRootFrom other stop 1 cursor = .ok cursor := by
  obtain ⟨lower, inside, first⟩ := used
  have further : cursor ≠ stop := by
    simp only [BTreePtr.start] at inside
    omega
  rw [findBtreeRootFrom, if_neg further, same.unused room lower inside, ok_bind, first, if_pos rfl]
  rfl

theorem findBtreeRootFrom_inside {count : Nat} (lower : value ≤ cursor)
    (used : UsedPointer sb value stop (cursor + count * rootStride)) :
    ∃ root fuel, UsedPointer sb value stop root ∧
      ∀ other, SameValue sb other value stop → stop ≤ other.size →
        findBtreeRootFrom other stop fuel cursor = .ok root := by
  induction count generalizing cursor with
  | zero =>
      rw [Nat.zero_mul, Nat.add_zero] at used
      exact ⟨cursor, 1, used, fun _ => findBtreeRootFrom_used used⟩
  | succ count ih =>
      have inside : BTreePtr.start cursor + 8 ≤ stop := by
        have last := used.2.1
        simp only [BTreePtr.start] at last ⊢
        omega
      by_cases first : sb.number 8 (BTreePtr.start cursor) / 2 ^ 2 % 2 = 0
      · have here : UsedPointer sb value stop cursor := ⟨lower, inside, first⟩
        exact ⟨cursor, 1, here, fun _ => findBtreeRootFrom_used here⟩
      · have shift : cursor + (count + 1) * rootStride =
            cursor + rootStride + count * rootStride := by
          rw [Nat.succ_mul, Nat.add_comm (count * rootStride), ← Nat.add_assoc]
        have further : cursor ≠ stop := by
          simp only [BTreePtr.start] at inside
          omega
        rw [shift] at used
        obtain ⟨root, fuel, found, returned⟩ := ih (Nat.le_trans lower (Nat.le_add_right _ _)) used
        refine ⟨root, fuel + 1, found, fun other same room => ?_⟩
        rw [findBtreeRootFrom, if_neg further, same.unused room lower inside, ok_bind,
          if_neg first]
        exact returned other same room

end

/-- The search stays inside its entry exactly when one of the pointers that it inspects,
those at multiples of its stride, is in use and lies wholly in the value. -/
theorem btreeRoot_inside_iff {sb : Bytes} {entry u64s : Nat}
    (length : BKey.u64s sb (rootKey entry) = .ok u64s)
    (inside : rootKey entry + u64s * u64sSize ≤ sb.size) :
    SearchInside sb entry u64s ↔ ∃ count,
      UsedPointer sb (rootValue entry) (rootKey entry + u64s * u64sSize)
        (rootValue entry + count * rootStride) := by
  constructor
  · rintro ⟨root, used, decided⟩
    obtain ⟨fuel, returned⟩ := decided sb length (fun _ _ _ => rfl) inside
    obtain ⟨words, again, rest⟩ := bind_eq_ok.mp returned
    obtain ⟨cursor, found, rest⟩ := bind_eq_ok.mp rest
    obtain ⟨_, _, same⟩ := bind_eq_ok.mp rest
    cases same
    obtain ⟨count, same⟩ := findBtreeRootFrom_stride found
    exact ⟨count, same ▸ used⟩
  · rintro ⟨count, used⟩
    obtain ⟨root, fuel, found, returned⟩ := findBtreeRootFrom_inside (Nat.le_refl _) used
    refine ⟨root, found, fun other again same room => ⟨fuel, ?_⟩⟩
    have within := found.2.1
    have word : load other 8 (BTreePtr.start root) = .ok _ := load_inside (by omega)
    have search := returned other same room
    rw [rootValue] at search
    rw [rootKey] at again
    rw [findBtreeRoot, again, ok_bind]
    refine bind_eq_ok.mpr ⟨root, search, ?_⟩
    rw [ExtentPtr.offset, word]
    rfl

def skippedSb : Bytes := Bytes.ofCells 512
  [(0, 45), (4, 1), (8, 45), (9, 1), (10, 18), (88, 4)]

theorem btreeRoot_end : BKey.u64s skippedSb (rootKey 0) = .ok 45 ∧
    BKey.format skippedSb (rootKey 0) = .ok keyFormatCurrent ∧
    UsedPointer skippedSb (rootValue 0) (rootKey 0 + 45 * u64sSize) 96 ∧
    findBtreeRoot skippedSb 0 2 = .ok (rootKey 0 + 45 * u64sSize) ∧
    ¬SearchInside skippedSb 0 45 := by
  refine ⟨rfl, rfl, by unfold UsedPointer; decide, rfl, ?_⟩
  rintro ⟨root, used, decided⟩
  obtain ⟨fuel, returned⟩ := decided skippedSb rfl (fun _ _ _ => rfl) (by decide)
  rcases fuel with _ | _ | fuel
  · cases returned
  · cases returned
  · have ended : findBtreeRoot skippedSb 0 (fuel + 2) = .ok 368 := rfl
    cases returned.symm.trans ended
    exact absurd used.2.1 (by decide)

theorem btreeRoot_inside_iff_sample : SearchInside skippedSb 0 45 ↔ ∃ count,
    UsedPointer skippedSb (rootValue 0) (rootKey 0 + 45 * u64sSize)
      (rootValue 0 + count * rootStride) :=
  btreeRoot_inside_iff rfl (by decide)

end Bcachefs
