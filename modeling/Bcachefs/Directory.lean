import Bcachefs.ParseKey
import Bcachefs.SingleNode

/-! Which parent inode `directory` reports. -/

namespace Bcachefs

open ByteString Iteration

def ParentFaithful (outcome : Result DirectoryEntry) (inode : Nat) : Prop :=
  ∃ entry, outcome = .ok entry ∧ (entry.parentInode = inode ∨ entry = DirectoryEntry.empty)

def ParentDecodable (format : BKeyFormat) (keyFormat inode : Nat) : Prop :=
  keyFormat = keyFormatCurrent ∨
    if format.fieldOffset = fun _ => 0 then
      format.bitsPerField bkeyFieldInode ∈ decodableWidths
    else inode = 0

section

variable {node value : Bytes} {key keyFormat keyU64s : Nat} {format : BKeyFormat}
  {fields : Fin 6 → Nat}

theorem directoryIn_ok {block : Nat} {parsed : BKeyLocal}
    (stored : Stored node key keyFormat keyU64s keyTypeDirent value)
    (loaded : BTreeNode.loadFormat node = .ok format)
    (located : getValue node node key = .ok (key + keyU64s * u64sSize))
    (returned : parseBkey node key format = .ok parsed) (dirent : 9 ≤ value.size) :
    ∃ entry, directoryIn node node ⟨block, key⟩ = .ok entry ∧
      entry.parentInode = parsed.inode ∧ entry ≠ DirectoryEntry.empty := by
  have inum := @Stored.load_value _ _ _ _ _ _ 8 0 stored (by omega)
  have kind := @Stored.load_value _ _ _ _ _ _ 1 8 stored (by omega)
  simp only [directoryIn, located, loaded, returned, ok_bind, BDirEnt.inum, BDirEnt.type]
  rw [Nat.add_zero] at inum
  rw [inum, kind]
  refine ⟨_, rfl, rfl, ?_⟩
  intro empty
  cases congrArg DirectoryEntry.name empty

end

theorem AtNode.directory_local {world : World} {it : BTreeIterator} {node value : Bytes}
    {key : Nat} {format : BKeyFormat} {fields : Fin 6 → Nat} (atNode : AtNode world it node)
    (stored : StoredLocal format node key keyTypeDirent fields value) (dirent : 9 ≤ value.size) :
    ∃ entry, it.directory world (some ⟨it.iter, key⟩) = .ok entry ∧
      entry ≠ DirectoryEntry.empty ∧ entry.parentInode =
        if format.fieldOffset = fun _ => 0 then decodedInode format fields else 0 := by
  rw [atNode.directory stored.stored.type]
  obtain ⟨parsed, returned, inode⟩ := parseBkey_local stored
  rcases @directoryIn_ok _ _ _ _ _ _ it.iter _ stored.stored stored.loaded stored.getValue
    returned dirent with ⟨entry, outcome, parent, populated⟩
  exact ⟨entry, outcome, populated, parent.trans inode⟩

theorem AtNode.directory_current {world : World} {it : BTreeIterator} {node value : Bytes}
    {key : Nat} {format : BKeyFormat} {fields : Fin 6 → Nat} (atNode : AtNode world it node)
    (stored : StoredCurrent format node key keyTypeDirent fields value) (dirent : 9 ≤ value.size) :
    ∃ entry, it.directory world (some ⟨it.iter, key⟩) = .ok entry ∧
      entry.parentInode = fields bkeyFieldInode := by
  rw [atNode.directory stored.stored.type]
  obtain ⟨parsed, returned, inode⟩ := parseBkey_current stored
  rcases @directoryIn_ok _ _ _ _ _ _ it.iter _ stored.stored stored.loaded stored.getValue
    returned dirent with ⟨entry, outcome, parent, _⟩
  exact ⟨entry, outcome, parent.trans inode⟩

theorem decodedInode_iff {node : Bytes} {key : Nat} {format : BKeyFormat} {fields : Fin 6 → Nat}
    (packed : Packed format node key fields) (zero : format.fieldOffset = fun _ => 0)
    (narrow : ∀ field, format.bitsPerField field ≤ 64) :
    decodedInode format fields = fields bkeyFieldInode ↔
      format.bitsPerField bkeyFieldInode ∈ decodableWidths := by
  have stacked := packed.stacked
  rw [finRange_fields] at stacked
  have below := stacked.value_lt
  have width := narrow bkeyFieldInode
  unfold decodedInode
  constructor
  · intro sentinel
    by_contra other
    rw [if_neg other] at sentinel
    have widest : format.bitsPerField bkeyFieldInode ≤ 63 := by
      simp only [List.mem_cons, List.not_mem_nil, or_false] at other
      omega
    have bound : 2 ^ format.bitsPerField bkeyFieldInode ≤ 2 ^ 63 :=
      Nat.pow_le_pow_right (by decide) widest
    simp only [zero, Nat.sub_zero] at below
    omega
  · intro decodable
    rw [if_pos decodable]

/-- In a tree of one node `directory` reports the parent inode of a dirent, packed by
the node's format or not, exactly when the key is a `struct bkey`, or the format has
no field offsets and a width that is decoded for the inode, or the inode is zero. -/
theorem directory_parent_iff {world : World} {it : BTreeIterator} {node value : Bytes}
    {key keyFormat : Nat} {format : BKeyFormat} {fields : Fin 6 → Nat}
    (atNode : AtNode world it node) (narrow : ∀ field, format.bitsPerField field ≤ 64)
    (stored : keyFormat = keyFormatLocalBtree ∧
        StoredLocal format node key keyTypeDirent fields value ∨
      keyFormat = keyFormatCurrent ∧ StoredCurrent format node key keyTypeDirent fields value)
    (dirent : 9 ≤ value.size) :
    ParentFaithful (it.directory world (some ⟨it.iter, key⟩)) (fields bkeyFieldInode) ↔
      ParentDecodable format keyFormat (fields bkeyFieldInode) := by
  rcases stored with ⟨rfl, stored⟩ | ⟨rfl, stored⟩
  · obtain ⟨entry, outcome, populated, parent⟩ := atNode.directory_local stored dirent
    have packed : ¬keyFormatLocalBtree = keyFormatCurrent := by decide
    have same : ParentFaithful (it.directory world (some ⟨it.iter, key⟩)) (fields bkeyFieldInode) ↔
        entry.parentInode = fields bkeyFieldInode := by
      simp [ParentFaithful, outcome, populated]
    rw [same, parent, ParentDecodable, or_iff_right packed]
    by_cases zero : format.fieldOffset = fun _ => 0
    · rw [if_pos zero, if_pos zero]
      exact decodedInode_iff stored.packed zero narrow
    · rw [if_neg zero, if_neg zero]
      exact eq_comm
  · obtain ⟨entry, outcome, parent⟩ := atNode.directory_current stored dirent
    exact iff_of_true ⟨entry, outcome, Or.inl parent⟩ (Or.inl rfl)

def packedImage : Bytes := Bytes.ofCells 1024
  [(592, 3), (593, 6), (594, 24), (595, 64), (596, 32), (670, 5), (672, 5), (674, 10), (693, 5)]

def packedEnv : Env := { image := packedImage, junk := fun _ _ => 0 }

def packedNode : Bytes := packedImage.window 512 512

def packedFormat : BKeyFormat where
  keyU64s := 3
  nrFields := 6
  bitsPerField := ![24, 64, 32, 0, 0, 0]
  fieldOffset := fun _ => 0

def packedFields : Fin 6 → Nat := ![5, 0, 0, 0, 0, 0]

theorem packedSingle : SingleNode packedEnv.image 512 512 512 [160] :=
  @OneKey.singleNode packedImage 512 512 512 160 keyTypeDirent ⟨by decide, rfl⟩ (by decide)
    (by decide)

theorem packedStored : StoredLocal packedFormat packedNode 160 keyTypeDirent packedFields
    (packedNode.window 184 16) where
  loaded := BTreeNode.loadFormat_ok (by decide) rfl rfl
    (by decide) (by decide)
  stored := {
    header := by decide
    inside := by decide
    u64s := ⟨5, rfl, by decide⟩
    keyFormat := rfl
    type := rfl
    value := rfl }
  packed := {
    offsets := fun _ => Nat.zero_le _
    stacked := by decide }

theorem directory_sentinel_sample : ∃ it start after entry,
    BTreeIterator.new packedEnv sampleReader sampleRoot .dirents sampleWorld = .ok (it, start) ∧
    Nth (Returns packedEnv sampleReader) (it, start) 0 ⟨after.1.iter, 160⟩ after ∧
    StoredLocal packedFormat packedNode 160 keyTypeDirent packedFields
      (packedNode.window 184 16) ∧ packedFields bkeyFieldInode = 5 ∧
    after.1.directory after.2 (some ⟨after.1.iter, 160⟩) = .ok entry ∧
    entry.parentInode = 2 ^ 64 - 1 ∧
    ¬ParentFaithful (.ok entry) (packedFields bkeyFieldInode) := by
  rcases single_nth .dirents sampleMounted samplePointed sampleTarget packedSingle
    (rfl : [160][0]? = some 160) with ⟨it, start, after, created, found, atNode⟩
  obtain ⟨entry, outcome, populated, parent⟩ := atNode.directory_local packedStored (by decide)
  have sentinel : entry.parentInode = 2 ^ 64 - 1 := parent.trans (by decide)
  refine ⟨it, start, after, entry, created, found, packedStored, rfl, outcome, sentinel, ?_⟩
  rintro ⟨_, returned, faithful⟩
  cases returned
  rcases faithful with same | empty
  · rw [sentinel] at same
    exact absurd same (by decide)
  · exact populated empty

theorem directory_parent_iff_sample : ∃ it world,
    AtNode world it packedNode ∧
    (ParentFaithful (it.directory world (some ⟨it.iter, 160⟩)) 5 ↔
      ParentDecodable packedFormat keyFormatLocalBtree 5) := by
  rcases single_nth .dirents sampleMounted samplePointed sampleTarget packedSingle
    (rfl : [160][0]? = some 160) with ⟨_, _, after, _, _, atNode⟩
  refine ⟨after.1, after.2, atNode, ?_⟩
  exact directory_parent_iff atNode (by decide) (Or.inl ⟨rfl, packedStored⟩) (by decide)

end Bcachefs
