import Mathlib.Order.CompletePartialOrder
import Mathlib.Order.Interval.Set.Disjoint
import Mathlib.Data.Set.Prod
import Bcachefs.Extend

/-! Whether the records of different extents stay apart. `extend` never sets the
inode of a record, so all records are ranges of one file. -/

namespace Bcachefs

open ByteString Iteration

def filePoints (inode start length : Nat) : Set (Nat × Nat) :=
  {inode} ×ˢ Set.Ico start (start + length)

def Extend.points (record : Extend) : Set (Nat × Nat) :=
  filePoints record.inode record.fileOffset record.size

/-! The range of a `struct bkey`: the sectors before `p.offset`, or for inline data
as many bytes as the value has; other keys stand for no part of a file. -/

def keyInode (node : Bytes) (key : Nat) : Nat := node.number 8 (key + 32)

def keyStart (node : Bytes) (key : Nat) : Nat :=
  sectorSize * (node.number 8 (key + 24) - node.number 4 (key + 16))

def keyLength (node : Bytes) (key : Nat) : Nat :=
  if node.number 1 (key + 2) = keyTypeExtent then sectorSize * node.number 4 (key + 16)
  else if node.number 1 (key + 2) = keyTypeInlineData then
    (node.number 1 key - bkeyU64s) * u64sSize
  else 0

structure ExtentKey (node : Bytes) (key type : Nat) : Prop where
  stored : ∃ format fields value, StoredCurrent format node key type fields value ∧
    (type = keyTypeExtent → 8 ≤ value.size)
  ordered : node.number 4 (key + 16) ≤ node.number 8 (key + 24)
  bounded : sectorSize * node.number 8 (key + 24) < 2 ^ 64
  narrow : node.number 4 (key + 16) < 2 ^ 23

theorem filePoints_empty (inode start : Nat) : filePoints inode start 0 = ∅ := by
  simp [filePoints]

theorem filePoints_disjoint {inode left leftLength right rightLength : Nat} :
    Disjoint (filePoints inode left leftLength) (filePoints inode right rightLength) ↔
      Disjoint (Set.Ico left (left + leftLength)) (Set.Ico right (right + rightLength)) := by
  rw [filePoints, filePoints, Set.disjoint_prod]
  simp

section

variable {node : Bytes} {key type : Nat}

theorem AtNode.extend_points {world : World} {it : BTreeIterator} (atNode : AtNode world it node)
    (typed : BKey.type node key = .ok type)
    (extent : type = keyTypeExtent ∨ type = keyTypeInlineData → ExtentKey node key type) :
    ∃ record, it.extend world (some ⟨it.iter, key⟩) = .ok record ∧
      record.points = filePoints 0 (keyStart node key) (keyLength node key) := by
  have kind := (load_ok.mp typed).2
  by_cases located : type = keyTypeExtent ∨ type = keyTypeInlineData
  · obtain ⟨format, fields, value, stored, pointer⟩ := (extent located).stored
    have ordered := (extent located).ordered
    have bounded := (extent located).bounded
    have narrow := (extent located).narrow
    obtain ⟨decoded, parsed, _⟩ := parseBkey_current stored
    have offset := stored.offset
    have size := stored.size
    rw [← (load_ok.mp offset).2] at offset
    rw [← (load_ok.mp size).2] at size
    have shape : type = keyTypeExtent ∧ 8 ≤ value.size ∨ type = keyTypeInlineData :=
      located.imp_left fun same => ⟨same, pointer same⟩
    rcases atNode.extend_record stored.stored stored.loaded stored.getValue ⟨_, parsed⟩ offset size
      shape with ⟨record, returned, start, inode, extentSize, inlineSize⟩
    have exactStart : record.fileOffset = keyStart node key := by
      rw [start, keyStart]
      apply fileOffsetOf_exact ordered
      simp only [sectorSize] at bounded ⊢
      omega
    have length : record.size = keyLength node key := by
      rcases located with rfl | rfl
      · rw [(extentSize rfl).1, keyLength, if_pos kind]
        simp only [wrap32, sectorSize]
        omega
      · obtain ⟨words, read, total⟩ := stored.stored.u64s
        have header := (load_ok.mp read).2
        rw [inlineSize rfl, keyLength, if_neg (by rw [kind]; decide), if_pos kind, header]
        simp only [u64sSize, bkeyU64s] at total ⊢
        omega
    refine ⟨record, returned, ?_⟩
    rw [Extend.points, inode, exactStart, length]
  · have none : keyLength node key = 0 := by
      rw [keyLength, kind, if_neg (fun same => located (Or.inl same)),
        if_neg (fun same => located (Or.inr same))]
    refine ⟨Extend.empty, ?_, ?_⟩
    · simp only [BTreeIterator.extend, World.deref_ok.mpr atNode.held, typed, ok_bind, located,
        if_false]
      rfl
    · rw [none, filePoints_empty]
      exact filePoints_empty 0 0

end

def RecordsDistinct (env : Env) (reader : BCacheFSReader) (first : BTreeIterator × World) : Prop :=
  ∀ i j left right leftAfter rightAfter, i < j →
    Nth (Returns env reader) first i left leftAfter →
    Nth (Returns env reader) first j right rightAfter →
    ∃ leftRecord rightRecord, leftAfter.1.extend leftAfter.2 (some left) = .ok leftRecord ∧
      rightAfter.1.extend rightAfter.2 (some right) = .ok rightRecord ∧
      Disjoint leftRecord.points rightRecord.points

def RangesDistinct (node : Bytes) (keys : List Nat) : Prop :=
  keys.Pairwise fun left right =>
    Disjoint (Set.Ico (keyStart node left) (keyStart node left + keyLength node left))
      (Set.Ico (keyStart node right) (keyStart node right + keyLength node right))

/-- Over a single node of extents the records stay apart exactly when the ranges of
the keys do so in one common file. -/
theorem extend_ranges_iff {env : Env} {reader : BCacheFSReader} {size blockSize address : Nat}
    {world : World} {source : Bytes} {ptr : Ptr} {keys : List Nat} (type : BTreeType)
    (mounted : Mounted reader size blockSize world)
    (pointed : world.heap[ptr.block]? = some source)
    (target : btreePtrAddress source ptr.offset = .ok address)
    (single : SingleNode env.image size blockSize address keys)
    (extents : ∀ key ∈ keys, ∀ kind,
      BKey.type (env.image.window address size) key = .ok kind →
      kind = keyTypeExtent ∨ kind = keyTypeInlineData →
      ExtentKey (env.image.window address size) key kind) :
    ∃ it start, BTreeIterator.new env reader ptr type world = .ok (it, start) ∧
      (RecordsDistinct env reader (it, start) ↔
        RangesDistinct (env.image.window address size) keys) := by
  obtain ⟨it, start, created, sound, complete⟩ := single_run type mounted pointed target single
  refine ⟨it, start, created, ?_⟩
  have points : ∀ position key after, Nth (Returns env reader) (it, start) position key after →
      ∃ offset record, keys[position]? = some offset ∧
        after.1.extend after.2 (some key) = .ok record ∧
        record.points = filePoints 0 (keyStart (env.image.window address size) offset)
          (keyLength (env.image.window address size) offset) := by
    intro position key after returned
    obtain ⟨offset, listed, rfl, atNode⟩ := sound position key after returned
    have member := List.mem_of_getElem? listed
    obtain ⟨kind, typed, _⟩ := single.plain offset member
    obtain ⟨record, outcome, covered⟩ :=
      atNode.extend_points typed (extents offset member kind typed)
    exact ⟨offset, record, listed, outcome, covered⟩
  rw [RangesDistinct, pairwise_iff_positions]
  constructor
  · intro distinct i j leftKey rightKey earlier leftListed rightListed
    obtain ⟨leftAfter, leftReturned⟩ := complete i leftKey leftListed
    obtain ⟨rightAfter, rightReturned⟩ := complete j rightKey rightListed
    obtain ⟨left, right, leftOk, rightOk, apart⟩ :=
      distinct i j _ _ _ _ earlier leftReturned rightReturned
    obtain ⟨_, _, leftSame, leftOutcome, leftPoints⟩ := points i _ _ leftReturned
    obtain ⟨_, _, rightSame, rightOutcome, rightPoints⟩ := points j _ _ rightReturned
    cases leftOk.symm.trans leftOutcome
    cases rightOk.symm.trans rightOutcome
    cases leftListed.symm.trans leftSame
    cases rightListed.symm.trans rightSame
    rwa [leftPoints, rightPoints, filePoints_disjoint] at apart
  · intro distinct i j left right leftAfter rightAfter earlier leftReturned rightReturned
    obtain ⟨leftKey, leftRecord, leftListed, leftOutcome, leftPoints⟩ := points i _ _ leftReturned
    obtain ⟨rightKey, rightRecord, rightListed, rightOutcome, rightPoints⟩ :=
      points j _ _ rightReturned
    refine ⟨leftRecord, rightRecord, leftOutcome, rightOutcome, ?_⟩
    rw [leftPoints, rightPoints, filePoints_disjoint]
    exact distinct i j leftKey rightKey earlier leftListed rightListed

def twoFilesImage : Bytes := Bytes.ofCells 1024
  [(670, 12), (672, 6), (673, 1), (674, 6), (688, 8), (696, 8), (704, 10), (712, 64), (713, 6),
   (720, 6), (721, 1), (722, 6), (736, 8), (744, 8), (752, 11), (760, 192), (761, 6)]

def twoFilesEnv : Env := { image := twoFilesImage, junk := fun _ _ => 0 }

def twoFilesNode : Bytes := twoFilesImage.window 512 512

theorem twoFilesSingle : SingleNode twoFilesEnv.image 512 512 512 [160, 208] := by
  refine ⟨by decide, by decide, fun key member => ?_⟩
  rcases List.mem_pair.mp member with rfl | rfl
  · exact ⟨keyTypeExtent, rfl, by decide⟩
  · exact ⟨keyTypeExtent, rfl, by decide⟩

theorem twoFilesStored : ∀ key ∈ [160, 208], StoredCurrent zeroFormat twoFilesNode key keyTypeExtent
    ![keyInode twoFilesNode key, 8, 0, 8, 0, 0] (twoFilesNode.window (key + 40) 8) := by
  intro key member
  have loaded : BTreeNode.loadFormat twoFilesNode = .ok zeroFormat :=
    BTreeNode.loadFormat_ok (by decide) rfl rfl
      (by decide) (by decide)
  have stored : Stored twoFilesNode key keyFormatCurrent bkeyU64s keyTypeExtent
      (twoFilesNode.window (key + 40) 8) := by
    rcases List.mem_pair.mp member with rfl | rfl
    all_goals exact ⟨by decide, by decide, ⟨6, rfl, by decide⟩, rfl, rfl, rfl⟩
  have fields : rawFields twoFilesNode key = ![keyInode twoFilesNode key, 8, 0, 8, 0, 0] := by
    rcases List.mem_pair.mp member with rfl | rfl
    all_goals decide
  exact fields ▸ stored.current loaded

theorem twoFilesTyped : ∀ key ∈ [160, 208], BKey.type twoFilesNode key = .ok keyTypeExtent :=
  fun key member => (twoFilesStored key member).stored.type

theorem twoFilesExtents : ∀ key ∈ [160, 208], ∀ kind, BKey.type twoFilesNode key = .ok kind →
    kind = keyTypeExtent ∨ kind = keyTypeInlineData → ExtentKey twoFilesNode key kind := by
  intro key member kind typed _
  cases (twoFilesTyped key member).symm.trans typed
  refine ⟨⟨_, _, _, twoFilesStored key member, fun _ => Nat.le_refl 8⟩, ?_, ?_, ?_⟩
  all_goals
    rcases List.mem_pair.mp member with rfl | rfl
    all_goals decide

theorem extend_ranges_sample :
    Disjoint (filePoints (keyInode twoFilesNode 160) (keyStart twoFilesNode 160)
        (keyLength twoFilesNode 160))
      (filePoints (keyInode twoFilesNode 208) (keyStart twoFilesNode 208)
        (keyLength twoFilesNode 208)) ∧
    ∃ it start, BTreeIterator.new twoFilesEnv sampleReader sampleRoot .extents sampleWorld =
      .ok (it, start) ∧ ¬RecordsDistinct twoFilesEnv sampleReader (it, start) := by
  refine ⟨Set.disjoint_prod.mpr (Or.inl ?_), ?_⟩
  · rw [Set.disjoint_singleton]
    decide
  · obtain ⟨it, start, created, sound, complete⟩ :=
      single_run .extents sampleMounted samplePointed sampleTarget twoFilesSingle
    refine ⟨it, start, created, fun distinct => ?_⟩
    obtain ⟨firstAfter, first⟩ := complete 0 160 rfl
    obtain ⟨secondAfter, second⟩ := complete 1 208 rfl
    obtain ⟨left, right, leftOk, rightOk, apart⟩ := distinct 0 1 _ _ _ _ (by decide) first second
    obtain ⟨_, _, _, firstAt⟩ := sound _ _ _ first
    obtain ⟨_, _, _, secondAt⟩ := sound _ _ _ second
    have firstTyped := twoFilesTyped 160 (by decide)
    have secondTyped := twoFilesTyped 208 (by decide)
    obtain ⟨_, leftOutcome, leftPoints⟩ :=
      firstAt.extend_points firstTyped (twoFilesExtents 160 (by decide) _ firstTyped)
    obtain ⟨_, rightOutcome, rightPoints⟩ :=
      secondAt.extend_points secondTyped (twoFilesExtents 208 (by decide) _ secondTyped)
    cases leftOk.symm.trans leftOutcome
    cases rightOk.symm.trans rightOutcome
    rw [leftPoints, rightPoints, filePoints_disjoint, Set.Ico_disjoint_Ico] at apart
    exact absurd apart (by decide)

theorem extend_ranges_iff_sample : ∃ it start,
    BTreeIterator.new twoFilesEnv sampleReader sampleRoot .extents sampleWorld =
      .ok (it, start) ∧
    (RecordsDistinct twoFilesEnv sampleReader (it, start) ↔
      RangesDistinct twoFilesNode [160, 208]) :=
  extend_ranges_iff .extents sampleMounted samplePointed sampleTarget twoFilesSingle
    twoFilesExtents

end Bcachefs
