import Bcachefs.SuperblockLoad

/-! The search for a superblock field: a walk along lengths that ends by equality with
an offset which is not the end of the fields. -/

namespace Bcachefs

open ByteString Iteration

inductive Finds (sb : Bytes) (type stop : Nat) : Nat → Option Nat → Prop
  | stopped : Finds sb type stop stop none
  | found {iter u64s} : iter ≠ stop → SbField.u64s sb iter = .ok u64s →
      SbField.type sb iter = .ok type → Finds sb type stop iter (some iter)
  | passed {iter u64s fieldType result} : iter ≠ stop → SbField.u64s sb iter = .ok u64s →
      SbField.type sb iter = .ok fieldType → fieldType ≠ type →
      Finds sb type stop (iter + u64s * u64sSize) result → Finds sb type stop iter result

inductive FieldArea (sb : Bytes) (stop : Nat) : Nat → List Nat → Prop
  | done : FieldArea sb stop stop []
  | field {start fields} : 0 < sb.number 4 start →
      FieldArea sb stop (start + sb.number 4 start * u64sSize) fields →
      FieldArea sb stop start (start :: fields)

def isOfType (sb : Bytes) (type field : Nat) : Bool := sb.number 4 (field + 4) == type

section

variable {sb : Bytes} {type stop iter start : Nat} {result : Option Nat} {fields : List Nat}

theorem findSuperblockFieldFrom_iff :
    (∃ fuel, findSuperblockFieldFrom sb type stop fuel iter = .ok result) ↔
      Finds sb type stop iter result := by
  constructor
  · rintro ⟨fuel, returned⟩
    induction fuel generalizing iter with
    | zero => cases returned
    | succ fuel ih =>
        rw [findSuperblockFieldFrom] at returned
        split at returned
        · rename_i reached
          cases returned
          exact reached ▸ Finds.stopped
        · rename_i further
          obtain ⟨u64s, length, rest⟩ := bind_eq_ok.mp returned
          obtain ⟨fieldType, typed, rest⟩ := bind_eq_ok.mp rest
          split at rest
          · rename_i same
            cases rest
            exact Finds.found further length (same ▸ typed)
          · rename_i other
            exact Finds.passed further length typed other (ih rest)
  · intro finds
    induction finds with
    | stopped => exact ⟨1, by rw [findSuperblockFieldFrom, if_pos rfl]⟩
    | found further length typed =>
        refine ⟨1, ?_⟩
        rw [findSuperblockFieldFrom, if_neg further, length, ok_bind, typed, ok_bind, if_pos rfl]
        rfl
    | passed further length typed other _ ih =>
        obtain ⟨fuel, returned⟩ := ih
        refine ⟨fuel + 1, ?_⟩
        rw [findSuperblockFieldFrom, if_neg further, length, ok_bind, typed, ok_bind,
          if_neg other]
        exact returned

theorem Finds.stop_iff : Finds sb type stop stop result ↔ result = none := by
  constructor
  · intro finds
    cases finds with
    | stopped => rfl
    | found further _ _ => exact absurd rfl further
    | passed further _ _ _ _ => exact absurd rfl further
  · rintro rfl
    exact Finds.stopped

theorem Finds.header (finds : Finds sb type stop iter result) (further : iter ≠ stop) :
    iter + 8 ≤ sb.size := by
  cases finds with
  | stopped => exact absurd rfl further
  | found _ _ typed => exact (load_ok.mp typed).1
  | passed _ _ typed _ _ => exact (load_ok.mp typed).1

theorem Finds.match_iff (further : iter ≠ stop) (inside : iter + 8 ≤ sb.size)
    (same : isOfType sb type iter = true) :
    Finds sb type stop iter result ↔ result = some iter := by
  have typed := beq_iff_eq.mp same
  constructor
  · intro finds
    cases finds with
    | stopped => exact absurd rfl further
    | found _ _ _ => rfl
    | passed _ _ read other _ => exact absurd ((load_ok.mp read).2.symm.trans typed) other
  · rintro rfl
    exact Finds.found further (load_inside (by omega)) (load_ok.mpr ⟨by omega, typed⟩)

theorem Finds.other_iff (further : iter ≠ stop) (inside : iter + 8 ≤ sb.size)
    (other : isOfType sb type iter = false) :
    Finds sb type stop iter result ↔
      Finds sb type stop (iter + sb.number 4 iter * u64sSize) result := by
  have untyped := beq_eq_false_iff_ne.mp other
  constructor
  · intro finds
    cases finds with
    | stopped => exact absurd rfl further
    | found _ _ read => exact absurd (load_ok.mp read).2 untyped
    | passed _ length _ _ rest =>
        rw [(load_ok.mp length).2]
        exact rest
  · exact Finds.passed further (load_inside (by omega)) (load_inside (by omega)) untyped

theorem Finds.positive (finds : Finds sb type stop iter result) (further : iter ≠ stop)
    (other : isOfType sb type iter = false) : 0 < sb.number 4 iter := by
  have untyped := beq_eq_false_iff_ne.mp other
  induction finds with
  | stopped => exact absurd rfl further
  | found _ _ read => exact absurd (load_ok.mp read).2 untyped
  | passed _ length _ _ _ ih =>
      have words := (load_ok.mp length).2
      by_contra zero
      have same := ih
      simp only [← words, Nat.eq_zero_of_not_pos zero, Nat.zero_mul, Nat.add_zero] at same
      exact absurd (same further other untyped) (Nat.lt_irrefl 0)

theorem FieldArea.le (area : FieldArea sb stop start fields) : start ≤ stop := by
  induction area with
  | done => exact Nat.le_refl _
  | field _ _ ih => omega

theorem FieldArea.first_le (area : FieldArea sb stop start fields) :
    ∀ field ∈ fields, start ≤ field := by
  induction area with
  | done => exact fun field member => absurd member List.not_mem_nil
  | field _ _ ih =>
      intro field member
      rcases List.mem_cons.mp member with rfl | later
      · exact Nat.le_refl _
      · have below := ih field later
        omega

end

def firstField (sb : Bytes) (type : Nat) (fields : List Nat) : Option Nat :=
  fields.find? (isOfType sb type)

/-- No field up to the one looked for starts at the offset where the search gives up;
without such a field some field starts there. -/
def GivesUpLate (sb : Bytes) (type stop : Nat) (fields : List Nat) : Prop :=
  match firstField sb type fields with
  | some first => ∀ field ∈ fields, field ≤ first → field ≠ stop
  | none => stop ∈ fields

section

variable {sb : Bytes} {type stop start u64s : Nat} {result : Option Nat} {fields : List Nat}

theorem FieldArea.finds_iff (area : FieldArea sb sb.size start fields) (early : stop ≠ sb.size) :
    Finds sb type stop start (firstField sb type fields) ↔ GivesUpLate sb type stop fields := by
  induction area with
  | done =>
      refine iff_of_false (fun finds => ?_) List.not_mem_nil
      have inside := finds.header (Ne.symm early)
      omega
  | @field start fields positive rest ih =>
      have behind := rest.le
      have header : start + 8 ≤ sb.size := by
        simp only [u64sSize] at behind
        omega
      have later : ∀ field ∈ fields, start < field := by
        intro field member
        have bound := rest.first_le field member
        simp only [u64sSize] at bound
        omega
      by_cases reached : start = stop
      · subst reached
        rw [Finds.stop_iff, GivesUpLate]
        cases found : firstField sb type (start :: fields) with
        | none => exact iff_of_true rfl List.mem_cons_self
        | some first =>
            refine iff_of_false (fun same => by cases same) fun late => ?_
            have member : first ∈ start :: fields := List.mem_of_find?_eq_some found
            have before : start ≤ first := by
              rcases List.mem_cons.mp member with rfl | inside
              · exact Nat.le_refl _
              · exact Nat.le_of_lt (later first inside)
            exact late start List.mem_cons_self before rfl
      · cases typed : isOfType sb type start with
        | true =>
            have found : firstField sb type (start :: fields) = some start :=
              List.find?_cons_of_pos typed
            rw [GivesUpLate, found, Finds.match_iff reached header typed]
            refine iff_of_true rfl fun field member bound => ?_
            rcases List.mem_cons.mp member with rfl | inside
            · exact reached
            · have above := later field inside
              omega
        | false =>
            have skipped : firstField sb type (start :: fields) = firstField sb type fields :=
              List.find?_cons_of_neg (by simp [typed])
            rw [Finds.other_iff reached header typed, GivesUpLate, skipped, ih, GivesUpLate]
            cases firstField sb type fields with
            | none => simp [Ne.symm reached]
            | some first => simp [reached]

/-- In a superblock filled with fields the first field of a type is found, and its
absence reported, exactly when the search gives up late enough. -/
theorem superblockField_iff (type : Nat) (loaded : LoadedSuperblock sb u64s)
    (narrow : u64s < 2 ^ 29) (area : FieldArea sb sb.size sizeofSuperblock fields) :
    (∃ fuel, findSuperblockField sb type fuel = .ok (firstField sb type fields)) ↔
      GivesUpLate sb type (u64s * u64sSize) fields := by
  have exact_ : wrap32 (u64s * u64sSize) = u64s * u64sSize := by
    simp only [wrap32, u64sSize]
    omega
  have early : u64s * u64sSize ≠ sb.size := by
    have size := loaded.size
    simp only [sizeofSuperblock] at size
    omega
  simp only [findSuperblockField, loaded.length, ok_bind, exact_]
  rw [findSuperblockFieldFrom_iff]
  exact area.finds_iff early

theorem Finds.area (finds : Finds sb type stop start result) :
    ∃ last fields, FieldArea sb last start fields ∧
      (last = stop ∨ last + 8 ≤ sb.size ∧ isOfType sb type last = true) := by
  induction finds with
  | stopped => exact ⟨_, [], FieldArea.done, Or.inl rfl⟩
  | found _ _ typed =>
      obtain ⟨inside, same⟩ := load_ok.mp typed
      exact ⟨_, [], FieldArea.done, Or.inr ⟨inside, beq_iff_eq.mpr same⟩⟩
  | @passed iter _ _ _ further length typed other rest ih =>
      have skipped : isOfType sb type iter = false :=
        beq_eq_false_iff_ne.mpr ((load_ok.mp typed).2 ▸ other)
      have positive := (Finds.passed further length typed other rest).positive further skipped
      obtain ⟨last, fields, area, reached⟩ := ih
      rw [← (load_ok.mp length).2] at area
      exact ⟨last, iter :: fields, FieldArea.field positive area, reached⟩

theorem FieldArea.finds_some {last : Nat} (area : FieldArea sb last start fields)
    (bounded : stop ≤ sb.size)
    (reached : last = stop ∨ last + 8 ≤ sb.size ∧ isOfType sb type last = true) :
    ∃ result, Finds sb type stop start result := by
  induction area with
  | done =>
      rcases reached with rfl | ⟨inside, same⟩
      · exact ⟨none, Finds.stopped⟩
      · by_cases early : last = stop
        · exact ⟨none, early ▸ Finds.stopped⟩
        · exact ⟨some last, (Finds.match_iff early inside same).mpr rfl⟩
  | @field start fields positive rest ih =>
      have behind := rest.le
      have header : start + 8 ≤ sb.size := by
        simp only [u64sSize] at behind
        omega
      by_cases early : start = stop
      · exact ⟨none, early ▸ Finds.stopped⟩
      · cases typed : isOfType sb type start with
        | true => exact ⟨some start, (Finds.match_iff early header typed).mpr rfl⟩
        | false =>
            obtain ⟨result, finds⟩ := ih
            exact ⟨result, (Finds.other_iff early header typed).mpr finds⟩

/-- On arbitrary bytes the search returns without a read outside the superblock exactly
when fields of a word or more lead to its end offset or to a header of the type. -/
theorem fieldSearch_safe_iff (type : Nat) (loaded : LoadedSuperblock sb u64s) :
    (∃ fuel result, findSuperblockField sb type fuel = .ok result) ↔
      ∃ last fields, FieldArea sb last sizeofSuperblock fields ∧
        (last = wrap32 (u64s * u64sSize) ∨
          last + 8 ≤ sb.size ∧ isOfType sb type last = true) := by
  have size := loaded.size
  simp only [findSuperblockField, loaded.length, ok_bind]
  constructor
  · rintro ⟨fuel, result, returned⟩
    exact (findSuperblockFieldFrom_iff.mp ⟨fuel, returned⟩).area
  · rintro ⟨last, fields, area, reached⟩
    obtain ⟨result, finds⟩ := area.finds_some (by omega) reached
    obtain ⟨fuel, returned⟩ := findSuperblockFieldFrom_iff.mpr finds
    exact ⟨fuel, result, returned⟩

end

def hiddenFieldImage : Bytes := Bytes.ofCells 5648 (magicCells ++
  [(4220, 100), (4848, 6), (4852, 5), (4896, 94), (4900, 6)])

theorem hiddenFieldArea : FieldArea (superblockOf hiddenFieldImage) 1552 752 [752, 800] :=
  FieldArea.field (by decide) (FieldArea.field (by decide) FieldArea.done)

theorem hiddenFieldLoaded : LoadedSuperblock (superblockOf hiddenFieldImage) 100 :=
  superblockOf_loaded (by unfold HasMagic; decide)

theorem superblockField_hidden : LoadedSuperblock (superblockOf hiddenFieldImage) 100 ∧
    FieldArea (superblockOf hiddenFieldImage) (sizeofSuperblock + 100 * u64sSize)
      sizeofSuperblock [752, 800] ∧
    firstField (superblockOf hiddenFieldImage) sbFieldClean [752, 800] = some 800 ∧
    ∀ fuel, findSuperblockField (superblockOf hiddenFieldImage) sbFieldClean fuel ≠
      .ok (some 800) := by
  refine ⟨hiddenFieldLoaded, hiddenFieldArea, by decide, fun fuel returned => ?_⟩
  rcases fuel with _ | _ | fuel
  · cases returned
  · cases returned
  · have missed : findSuperblockField (superblockOf hiddenFieldImage) sbFieldClean (fuel + 2) =
        .ok none := rfl
    cases missed.symm.trans returned

theorem superblockField_iff_sample :
    (∃ fuel, findSuperblockField (superblockOf hiddenFieldImage) 5 fuel =
        .ok (firstField (superblockOf hiddenFieldImage) 5 [752, 800])) ↔
      GivesUpLate (superblockOf hiddenFieldImage) 5 800 [752, 800] :=
  superblockField_iff 5 hiddenFieldLoaded (by decide) hiddenFieldArea

def emptyFieldImage : Bytes := Bytes.ofCells 4856 (magicCells ++ [(4220, 1), (4852, 5)])

theorem emptyField_from (fuel : Nat) :
    findSuperblockFieldFrom (superblockOf emptyFieldImage) sbFieldClean 8 fuel 752 =
      .error .fuel := by
  induction fuel with
  | zero => rfl
  | succ fuel ih =>
      have length : SbField.u64s (superblockOf emptyFieldImage) 752 = .ok 0 := rfl
      have typed : SbField.type (superblockOf emptyFieldImage) 752 = .ok 5 := rfl
      rw [findSuperblockFieldFrom, if_neg (by decide), length, ok_bind, typed, ok_bind,
        if_neg (by decide)]
      exact ih

theorem emptyFieldLoaded : LoadedSuperblock (superblockOf emptyFieldImage) 1 :=
  superblockOf_loaded (by unfold HasMagic; decide)

theorem fieldSearch_endless : LoadedSuperblock (superblockOf emptyFieldImage) 1 ∧
    ∀ fuel, findSuperblockField (superblockOf emptyFieldImage) sbFieldClean fuel =
      .error .fuel :=
  ⟨emptyFieldLoaded, emptyField_from⟩

theorem fieldSearch_safe_iff_sample :
    (∃ fuel result, findSuperblockField (superblockOf emptyFieldImage) 5 fuel = .ok result) ↔
      ∃ last fields, FieldArea (superblockOf emptyFieldImage) last sizeofSuperblock fields ∧
        (last = wrap32 (1 * u64sSize) ∨ last + 8 ≤ (superblockOf emptyFieldImage).size ∧
          isOfType (superblockOf emptyFieldImage) 5 last = true) :=
  fieldSearch_safe_iff 5 emptyFieldLoaded

end Bcachefs
