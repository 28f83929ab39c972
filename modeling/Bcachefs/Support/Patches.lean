import Bcachefs.Support.Bytes

/-! Byte strings written piece by piece, each piece at a place of its own. -/

namespace ByteString

namespace Bytes

def zeros (size : Nat) : Bytes := ofFn size fun _ => 0

@[simp] theorem zeros_size (size : Nat) : (zeros size).size = size := rfl

theorem zeros_byte (size index : Nat) : (zeros size).byte index = 0 := by
  simp [zeros, ofFn]

@[simp] theorem ofNumber_size (size value : Nat) : (ofNumber size value).size = size := rfl

theorem number_zero {source : Bytes} {count index : Nat}
    (zero : ∀ position, index ≤ position → position < index + count → source.byte position = 0) :
    source.number count index = 0 := by
  induction count generalizing index with
  | zero => rfl
  | succ count ih =>
      rw [number, zero index (Nat.le_refl _) (by omega)]
      rw [ih fun position lower upper => zero position (by omega) (by omega)]
      rfl

structure Holds (source : Bytes) (start : Nat) (piece : Bytes) : Prop where
  inside : start + piece.size ≤ source.size
  same : ∀ index, index < piece.size → source.byte (start + index) = piece.byte index

section

variable {source piece inner : Bytes} {start place count index : Nat}

theorem Holds.window (holds : source.Holds start piece) :
    source.window start piece.size = piece := by
  refine ext_inside (by simp [Bytes.window]) ?_
  intro index bound
  simp only [Bytes.window, ofFn_size] at bound
  simp [Bytes.window, ofFn, bound, holds.same index bound]

theorem Holds.number (holds : source.Holds start piece) (index count : Nat)
    (bound : index + count ≤ piece.size) :
    source.number count (start + index) = piece.number count index := by
  have inside : (source.window start piece.size).number count index =
      source.number count (start + index) := number_window bound
  rw [← inside, holds.window]

theorem Holds.trans (outer : source.Holds start piece) (holds : piece.Holds place inner) :
    source.Holds (start + place) inner where
  inside := by
    have first := outer.inside
    have second := holds.inside
    omega
  same index bound := by
    have inside := holds.inside
    rw [Nat.add_assoc, outer.same (place + index) (by omega)]
    exact holds.same index bound

def store (source : Bytes) (start : Nat) (piece : Bytes) : Bytes :=
  ofFn source.size fun index =>
    if start ≤ index ∧ index < start + piece.size then piece.byte (index - start)
    else source.byte index

@[simp] theorem store_size : (source.store start piece).size = source.size := rfl

theorem store_holds (inside : start + piece.size ≤ source.size) :
    (source.store start piece).Holds start piece where
  inside := inside
  same index bound := by
    have within : start + index < source.size := by omega
    simp [store, ofFn, within, bound]

theorem store_outside (outside : index < start ∨ start + piece.size ≤ index) :
    (source.store start piece).byte index = source.byte index := by
  have apart : ¬(start ≤ index ∧ index < start + piece.size) := by omega
  by_cases within : index < source.size
  · simp [store, ofFn, within, apart]
  · simp [store, ofFn, within, source.outside index (Nat.le_of_not_lt within)]

theorem Holds.store (holds : source.Holds place inner)
    (apart : start + piece.size ≤ place ∨ place + inner.size ≤ start) :
    (source.store start piece).Holds place inner where
  inside := holds.inside
  same index bound := by
    rw [store_outside (by omega)]
    exact holds.same index bound

end

end Bytes

structure Patch where
  start : Nat
  bytes : Bytes

namespace Patch

def stop (patch : Patch) : Nat := patch.start + patch.bytes.size

def number (start count value : Nat) : Patch := { start := start, bytes := Bytes.ofNumber count value }

@[simp] theorem number_start (start count value : Nat) : (number start count value).start = start := rfl

@[simp] theorem number_stop (start count value : Nat) :
    (number start count value).stop = start + count := rfl

def Apart (left right : Patch) : Prop := left.stop ≤ right.start ∨ right.stop ≤ left.start

instance (left right : Patch) : Decidable (Apart left right) :=
  inferInstanceAs (Decidable (_ ∨ _))

def Row (stop : Nat) : Nat → List Patch → Prop
  | start, [] => start ≤ stop
  | start, patch :: patches => start ≤ patch.start ∧ Row stop patch.stop patches

section

variable {start middle stop : Nat} {patches more : List Patch}

theorem Row.le (row : Row stop start patches) : start ≤ stop := by
  induction patches generalizing start with
  | nil => exact row
  | cons patch patches ih => exact (row.1.trans (Nat.le_add_right _ _)).trans (ih row.2)

theorem Row.bounds (row : Row stop start patches) :
    ∀ patch ∈ patches, start ≤ patch.start ∧ patch.stop ≤ stop := by
  induction patches generalizing start with
  | nil => simp
  | cons patch patches ih =>
      intro other member
      have before : start ≤ patch.stop := row.1.trans (Nat.le_add_right _ _)
      rcases List.mem_cons.mp member with same | member
      · exact ⟨same ▸ row.1, same ▸ row.2.le⟩
      · have bounds := ih row.2 other member
        exact ⟨before.trans bounds.1, bounds.2⟩

theorem Row.apart (row : Row stop start patches) : patches.Pairwise Apart := by
  induction patches generalizing start with
  | nil => exact List.Pairwise.nil
  | cons patch patches ih =>
      apply List.Pairwise.cons
      · intro other member
        exact Or.inl (row.2.bounds other member).1
      · exact ih row.2

theorem Row.append (row : Row middle start patches) (next : Row stop middle more) :
    Row stop start (patches ++ more) := by
  induction patches generalizing start with
  | nil =>
      cases more with
      | nil => exact Nat.le_trans row next
      | cons patch more => exact ⟨Nat.le_trans row next.1, next.2⟩
  | cons patch patches ih => exact ⟨row.1, ih row.2⟩

theorem Row.from_le (row : Row stop middle patches) (earlier : start ≤ middle) :
    Row stop start patches := by
  cases patches with
  | nil => exact Nat.le_trans earlier row
  | cons patch patches => exact ⟨Nat.le_trans earlier row.1, row.2⟩

end

end Patch

namespace Bytes

def patched (source : Bytes) : List Patch → Bytes
  | [] => source
  | patch :: patches => (patched source patches).store patch.start patch.bytes

section

variable {source : Bytes} {patches : List Patch} {patch : Patch} {index : Nat}

@[simp] theorem patched_size : (source.patched patches).size = source.size := by
  induction patches with
  | nil => rfl
  | cons patch patches ih => exact ih

theorem patched_outside
    (outside : ∀ patch ∈ patches, index < patch.start ∨ patch.stop ≤ index) :
    (source.patched patches).byte index = source.byte index := by
  induction patches with
  | nil => rfl
  | cons patch patches ih =>
      rw [patched, store_outside (outside patch (by simp))]
      exact ih fun other member => outside other (by simp [member])

theorem patched_holds (apart : patches.Pairwise Patch.Apart) (member : patch ∈ patches)
    (inside : patch.stop ≤ source.size) :
    (source.patched patches).Holds patch.start patch.bytes := by
  induction patches with
  | nil => simp at member
  | cons first patches ih =>
      rcases List.mem_cons.mp member with same | member
      · rw [← same]
        exact store_holds (by rw [patched_size]; exact inside)
      · have disjoint := List.rel_of_pairwise_cons apart member
        exact (ih (List.Pairwise.of_cons apart) member).store disjoint

theorem patched_number {start count value : Nat} (apart : patches.Pairwise Patch.Apart)
    (member : Patch.number start count value ∈ patches) (inside : start + count ≤ source.size)
    (fits : value < 256 ^ count) : (source.patched patches).number count start = value := by
  have holds := patched_holds apart member inside
  have read := holds.number 0 count (by simp [Patch.number])
  rw [Patch.number_start, Nat.add_zero] at read
  rw [read]
  simp only [Patch.number]
  rw [number_ofNumber (by omega), Nat.pow_zero, Nat.div_one, Nat.mod_eq_of_lt fits]

end

end Bytes

end ByteString
