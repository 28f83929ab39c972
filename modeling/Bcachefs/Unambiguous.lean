import Bcachefs.Recovery

/-! The reader tells stored file systems apart: what its functions say of the returned keys
determines the items of a btree, their formats and their order. -/

namespace Bcachefs

open ByteString Iteration Flattening

structure Observed where
  format : BKeyFormat
  u64s : Nat
  keyFormat : Nat
  type : Nat
  fields : Fin 6 → Nat
  value : Bytes

def Decoded.observe (decoded : Decoded) : Result Observed := do
  let key := decoded.key.offset
  let format ← BTreeNode.loadFormat decoded.buffer
  let u64s ← BKey.u64s decoded.buffer key
  let keyFormat ← BKey.format decoded.buffer key
  let type ← BKey.type decoded.buffer key
  let parsed ← parseBkey decoded.buffer key format
  let value ← getValue decoded.buffer decoded.buffer key
  return { format := format, u64s := u64s, keyFormat := keyFormat, type := type
           fields := parsed.fields
           value := decoded.buffer.window value (key + u64s * u64sSize - value) }

structure Content where
  format : KeyFormat
  item : Item format

def Content.observed (content : Content) : Observed where
  format := content.format.toBKeyFormat
  u64s := content.item.u64s
  keyFormat := content.item.encoding.format
  type := content.item.type
  fields := content.item.fields
  value := content.item.value

def Entry.content (entry : Entry) : Content := ⟨entry.format, entry.item⟩

theorem KeyFormat.unique {left right : KeyFormat}
    (same : left.toBKeyFormat = right.toBKeyFormat) : left = right := by
  cases left
  cases right
  cases same
  rfl

theorem KeyEncoding.format_injective {left right : KeyEncoding}
    (same : left.format = right.format) : left = right := by
  cases left <;> cases right <;> first | rfl | cases same

theorem Item.unique {format : KeyFormat} {left right : Item format}
    (encoding : left.encoding = right.encoding) (type : left.type = right.type)
    (fields : left.fields = right.fields) (value : left.value = right.value) : left = right := by
  cases left
  cases right
  cases encoding
  cases type
  cases fields
  cases value
  rfl

theorem Content.observed_injective : Function.Injective Content.observed := by
  rintro ⟨leftFormat, left⟩ ⟨rightFormat, right⟩ same
  have formats : leftFormat = rightFormat := KeyFormat.unique (congrArg Observed.format same)
  cases formats
  have encoding := KeyEncoding.format_injective (congrArg Observed.keyFormat same)
  have items : left = right := Item.unique encoding (congrArg Observed.type same)
    (congrArg Observed.fields same) (congrArg Observed.value same)
  rw [items]

theorem Recovers.observe {decoded : Decoded} {entry : Entry} (recovers : Recovers decoded entry) :
    decoded.observe = .ok entry.content.observed := by
  have readsBack := recovers.readsBack
  have stored := Item.stored readsBack.held
  have held := Item.held_value readsBack.held
  have located := Item.located readsBack.held recovers.format
  have size := entry.item.size
  rcases readsBack.parsed with ⟨parsed, returned, fields⟩
  have length : decoded.key.offset + entry.item.u64s * u64sSize -
      (decoded.key.offset + entry.item.keyU64s * u64sSize) = entry.item.value.size := by omega
  have keyFormat : entry.item.encoding.format = entry.content.item.encoding.format := rfl
  rw [Decoded.observe, recovers.format, ok_bind, readsBack.u64s, ok_bind, stored.keyFormat, ok_bind,
    readsBack.type, ok_bind, returned, ok_bind, located, ok_bind, length, held.window, fields]
  rfl

theorem observed_all {keys : List Decoded} {flat : List Entry}
    (recovered : List.Forall₂ Recovers keys flat) :
    keys.map Decoded.observe =
      (flat.map Entry.content).map fun content => Except.ok content.observed := by
  induction recovered with
  | nil => rfl
  | cons recovers _ ih => rw [List.map_cons, recovers.observe, ih]; rfl

/-- The runs over two btrees, of stored file systems on one image or on two, tell the same of
their keys exactly when the btrees have the same items in the same order. -/
theorem walk_distinguishes {leftEnv rightEnv : Env} {left right : FileSystem}
    {leftType rightType : BTreeType} {leftSector rightSector : Nat} {leftFlat rightFlat : List Entry}
    (leftStored : left.StoredOn leftEnv.image) (rightStored : right.StoredOn rightEnv.image)
    (leftRoot : left.root leftType = some leftSector)
    (rightRoot : right.root rightType = some rightSector)
    (leftLists : left.Lists leftSector leftFlat) (rightLists : right.Lists rightSector rightFlat) :
    ∃ enough leftPtr leftKeys rightPtr rightKeys,
      (∀ fuel, enough ≤ fuel → walk leftEnv fuel leftType = .ok (leftPtr, leftKeys) ∧
        walk rightEnv fuel rightType = .ok (rightPtr, rightKeys)) ∧
      (leftKeys.map Decoded.observe = rightKeys.map Decoded.observe ↔
        leftFlat.map Entry.content = rightFlat.map Entry.content) := by
  rcases leftStored.walked leftRoot leftLists with
    ⟨leftFuel, leftPtr, leftKeys, leftWalked, leftRecovered⟩
  rcases rightStored.walked rightRoot rightLists with
    ⟨rightFuel, rightPtr, rightKeys, rightWalked, rightRecovered⟩
  refine ⟨max leftFuel rightFuel, leftPtr, leftKeys, rightPtr, rightKeys, ?_, ?_⟩
  · intro fuel enough
    exact ⟨walk_mono (by omega) leftWalked, walk_mono (by omega) rightWalked⟩
  · have told : Function.Injective fun content : Content =>
        (Except.ok content.observed : Result Observed) :=
      fun _ _ same => Content.observed_injective (Except.ok.inj same)
    rw [observed_all leftRecovered, observed_all rightRecovered]
    exact (List.map_injective_iff.mpr told).eq_iff

/-! The inodes of the sample in larger blocks and nodes, at other sectors. -/

def movedPointer : Item sampleFormat :=
  { samplePointer with
    value := Bytes.ofCells 48 [(40, 128), (41, 1)]
    whole := by decide
    short := by decide }

def movedSecond : Item sampleFormat :=
  { sampleSecond with
    value := Bytes.ofCells 48 [(40, 192), (41, 1)]
    whole := by decide
    short := by decide }

def movedSystem : FileSystem where
  blockSectors := 2
  nodeSectors := 4
  nodes := [(20, ⟨sampleFormat, [[movedPointer, movedSecond], [sampleDirent]]⟩),
    (24, sampleContents), (28, ⟨sampleFormat, [[sampleDirent]]⟩)]
  roots := [(.inodes, 20)]
  block := by decide

def movedEnv : Env := { image := movedSystem.write 16384, junk := fun _ _ => 255 }

theorem movedSystem_fits : movedSystem.Fits 16384 where
  blockSectors := by decide
  nodeSectors := by decide
  roots := by decide
  sectors := by decide
  nodes := by
    simp only [movedSystem, List.forall_mem_cons]
    refine ⟨⟨by simp, by decide, by decide, fun _ => by decide, by decide, by decide, ?_, trivial⟩,
      ⟨by simp [sampleContents], by decide, by decide, fun _ => by decide, by decide, by decide, ?_,
        trivial⟩, ⟨by simp, by decide, by decide, fun more => absurd rfl more, trivial⟩, by simp⟩
    · exact fun more => absurd rfl more
    · exact fun more => absurd rfl more
  apart := by decide
  inside := by decide

theorem movedSystem_inodes : movedSystem.Lists 20 sampleInodes := by
  have first : movedSystem.Expands ⟨0, _, movedPointer⟩ (some (sampleContents.entries 1)) :=
    FileSystem.Expands.pointer rfl (by decide) rfl
  have second : movedSystem.Expands ⟨0, _, movedSecond⟩
      (some (NodeContents.entries ⟨sampleFormat, [[sampleDirent]]⟩ 1)) :=
    FileSystem.Expands.pointer rfl (by decide) rfl
  have leaf : ∀ item ∈ [samplePacked, sampleDirent, sampleExtent],
      item.type ≠ keyTypeBtreePtrV2 := by decide
  refine ⟨_, rfl, ?_⟩
  exact Flat.enter first (FileSystem.flat_plain leaf)
    (Flat.enter second (FileSystem.flat_plain (by decide)) (FileSystem.flat_plain (by decide)))

theorem walk_distinguishes_sample : ∃ enough leftPtr leftKeys rightPtr rightKeys,
    (∀ fuel, enough ≤ fuel → walk systemEnv fuel .inodes = .ok (leftPtr, leftKeys) ∧
      walk movedEnv fuel .inodes = .ok (rightPtr, rightKeys)) ∧
    leftKeys.map Decoded.observe = rightKeys.map Decoded.observe := by
  have root : sampleSystem.root .inodes = some 15 := rfl
  have movedRoot : movedSystem.root .inodes = some 20 := rfl
  rcases @walk_distinguishes systemEnv movedEnv _ _ _ _ _ _ _ _ sampleSystem_fits.stored
    movedSystem_fits.stored root movedRoot sampleSystem_inodes movedSystem_inodes with
    ⟨enough, _, _, _, _, walked, told⟩
  exact ⟨enough, _, _, _, _, walked, told.mpr rfl⟩

end Bcachefs
