import Bcachefs.ExtendSectors
import Bcachefs.ImageWriter
import Bcachefs.Listing

/-! What the reader recovers of a file system that an image stores: every item, in order,
and for the items of a root node what `directory` and `extend` are to report. -/

namespace Bcachefs

open ByteString Iteration Flattening

namespace Item

variable {format : KeyFormat}

def dirent (item : Item format) (name : Ptr) : DirectoryEntry where
  parentInode := item.fields bkeyFieldInode
  inode := item.value.number 8 0
  type := item.value.number 1 8
  name := some name

/-- The extent that an item stands for, with its data where the pointer at `place` says. -/
def extent (item : Item format) (place : Nat) : Extend where
  inode := item.fields bkeyFieldInode
  fileOffset := sectorSize * (item.fields bkeyFieldOffset - item.fields bkeyFieldSize)
  offset := sectorSize * ptrOffset item.value place
  size := sectorSize * item.fields bkeyFieldSize

structure Locates (item : Item format) (entries : List (EntryKind × Nat)) (place : Nat) : Prop where
  type : item.type = keyTypeExtent
  listed : ExtentEntries item.value 0 entries
  first : firstPtr entries = some place
  ordered : item.fields bkeyFieldSize ≤ item.fields bkeyFieldOffset
  bounded : sectorSize * item.fields bkeyFieldOffset < 2 ^ 64

def reported (item : Item format) : Extend where
  inode := 0
  fileOffset := fileOffsetOf (item.fields bkeyFieldOffset) (item.fields bkeyFieldSize)
  offset := wrap64 (ptrOffset item.value 0 * sectorSize)
  size := wrap32 (item.fields bkeyFieldSize * sectorSize)

theorem reported_iff {item : Item format} {entries : List (EntryKind × Nat)} {place : Nat}
    (locates : item.Locates entries place) : item.reported = item.extent place ↔
      item.fields bkeyFieldInode = 0 ∧ item.fields bkeyFieldSize < 2 ^ 23 ∧
        LeadsToPtr item.value entries place := by
  have bounded := locates.bounded
  have start : fileOffsetOf (item.fields bkeyFieldOffset) (item.fields bkeyFieldSize) =
      sectorSize * (item.fields bkeyFieldOffset - item.fields bkeyFieldSize) := by
    apply fileOffsetOf_exact locates.ordered
    simp only [sectorSize] at bounded ⊢
    omega
  rw [locates.listed.leads_iff locates.first, ← wrap32_sectors_iff, Extend.ext_iff]
  simp only [reported, extent, start, extentOffset_exact, true_and]
  constructor
  · rintro ⟨inode, pointer, size⟩
    exact ⟨inode.symm, size, Nat.eq_of_mul_eq_mul_left (by decide) pointer⟩
  · rintro ⟨inode, size, pointer⟩
    exact ⟨inode.symm, congrArg (sectorSize * ·) pointer, size⟩

end Item

namespace Entry

def directory (entry : Entry) (name : Ptr) : Result DirectoryEntry :=
  if entry.item.type = keyTypeDirent then
    if entry.depth = 0 then .ok (entry.item.dirent name) else .error .outOfBounds
  else .ok DirectoryEntry.empty

def extend (entry : Entry) : Result Extend :=
  if entry.item.type = keyTypeExtent then
    if entry.depth = 0 then .ok entry.item.reported else .error .outOfBounds
  else .ok Extend.empty

end Entry

section

variable {key : TreeKey} {entry : Entry}

theorem Means.held (means : Means key entry) : key.node.Holds key.key entry.item.bytes :=
  means.readsBack.held

theorem Means.directory (means : Means key entry)
    (dirent : entry.item.type = keyTypeDirent → 9 ≤ entry.item.value.size) (block : Nat) :
    ∃ place, key.node.Holds place entry.item.value ∧
      key.directory block = entry.directory ⟨block, BDirEnt.name place⟩ := by
  refine ⟨_, Item.held_value means.held, ?_⟩
  rw [TreeKey.directory, means.readsBack.type, ok_bind, Entry.directory, means.depth]
  by_cases typed : entry.item.type = keyTypeDirent
  · rw [if_pos typed, if_pos typed]
    by_cases root : entry.depth = 0
    · rw [if_pos root, if_pos root]
      have value := Item.held_value means.held
      have room := value.inside
      have long := dirent typed
      have inum := value.number 0 8 (by omega)
      have kind := value.number 8 1 (by omega)
      rw [Nat.add_zero] at inum
      rcases means.readsBack.parsed with ⟨parsed, returned, fields⟩
      have inode : parsed.inode = entry.item.fields bkeyFieldInode := by
        rw [← fields]
        rfl
      rw [directoryIn, Item.located means.held means.format, ok_bind, means.format, ok_bind, returned,
        ok_bind, BDirEnt.inum, load_inside (by omega), ok_bind, BDirEnt.type, load_inside (by omega),
        ok_bind, inode, inum, kind]
      rfl
    · rw [if_neg root, if_neg root]
  · rw [if_neg typed, if_neg typed]
    rfl

theorem Means.extend (means : Means key entry) (current : entry.item.encoding = .current)
    (extent : entry.item.type = keyTypeExtent → 8 ≤ entry.item.value.size)
    (inline : entry.item.type ≠ keyTypeInlineData) (address : Nat) :
    key.extend address = entry.extend := by
  rw [TreeKey.extend, means.readsBack.type, ok_bind, Entry.extend, means.depth]
  by_cases typed : entry.item.type = keyTypeExtent
  · rw [if_pos (Or.inl typed), if_pos typed]
    by_cases root : entry.depth = 0
    · rw [if_pos root, if_pos root]
      have value := Item.held_value means.held
      have room := value.inside
      have long := extent typed
      have word := value.number 0 8 (by omega)
      rw [Nat.add_zero] at word
      rcases means.readsBack.parsed with ⟨parsed, returned, _⟩
      have raw := Item.currentAt means.held current
      rw [extendAt, means.format, ok_bind, returned, ok_bind, Item.located means.held means.format,
        ok_bind, raw.offset, ok_bind, raw.size, ok_bind, if_pos typed, ExtentPtr.offset,
        load_inside (by omega), ok_bind, word]
      rfl
    · rw [if_neg root, if_neg root]
  · rw [if_neg (not_or.mpr ⟨typed, inline⟩), if_neg typed]
    rfl

end

theorem FileSystem.StoredOn.listed {fs : FileSystem} {image : Bytes} {type : BTreeType}
    {sector : Nat} {flat : List Entry} (stored : fs.StoredOn image)
    (root : fs.root type = some sector) (lists : fs.Lists sector flat) :
    ∃ keys, Listed image type fs.nodeSize fs.blockSize (sector * sectorSize) keys ∧
      List.Forall₂ Means keys flat := by
  rcases stored.tree lists with ⟨keys, tree, matched⟩
  exact ⟨keys, ⟨stored.complete, stored.magic, stored.nodeSize, stored.blockSize,
    stored.rootAddress root, tree⟩, matched⟩

/-- The output for a key is the item it was written for: its fields and its value are read
back in the buffer, and so are the records where the reader decodes them in place. -/
structure Recovers (decoded : Decoded) (entry : Entry) : Prop where
  format : BTreeNode.loadFormat decoded.buffer = .ok entry.format.toBKeyFormat
  readsBack : ReadsBack decoded.buffer decoded.key.offset entry.item
  directory : (entry.item.type = keyTypeDirent → 9 ≤ entry.item.value.size) →
    ∃ place, decoded.buffer.Holds place entry.item.value ∧
      decoded.entry = entry.directory ⟨decoded.key.block, BDirEnt.name place⟩
  extend : entry.item.encoding = .current →
    (entry.item.type = keyTypeExtent → 8 ≤ entry.item.value.size) →
    entry.item.type ≠ keyTypeInlineData → decoded.ext = entry.extend
  extent : ∀ entries place, entry.item.encoding = .current → entry.depth = 0 →
    entry.item.Locates entries place →
    (decoded.ext = .ok (entry.item.extent place) ↔ entry.item.fields bkeyFieldInode = 0 ∧
      entry.item.fields bkeyFieldSize < 2 ^ 23 ∧ LeadsToPtr entry.item.value entries place)

theorem Means.reports {key : TreeKey} {entry : Entry} (means : Means key entry)
    (current : entry.item.encoding = .current) (root : entry.depth = 0)
    {entries : List (EntryKind × Nat)} {place : Nat}
    (locates : entry.item.Locates entries place) (address : Nat) :
    key.extend address = .ok entry.item.reported := by
  have other : entry.item.type ≠ keyTypeInlineData := by
    rw [locates.type]
    decide
  rw [means.extend current (fun _ => locates.listed.room locates.first) other, Entry.extend,
    if_pos locates.type, if_pos root]

theorem Decodes.recovers {address : Nat} {decoded : Decoded} {key : TreeKey} {entry : Entry}
    (decodes : Decodes address decoded key) (means : Means key entry) : Recovers decoded entry where
  format := by
    rw [decodes.buffer]
    exact means.format
  readsBack := by
    rw [decodes.buffer, decodes.offset]
    exact means.readsBack
  directory dirent := by
    rw [decodes.buffer, decodes.entry]
    exact means.directory dirent decoded.key.block
  extend current extent inline := by
    rw [decodes.ext]
    exact means.extend current extent inline address
  extent entries place current root locates := by
    rw [decodes.ext, means.reports current root locates, Except.ok.injEq]
    exact Item.reported_iff locates

theorem FileSystem.StoredOn.walked {env : Env} {fs : FileSystem} {type : BTreeType} {sector : Nat}
    {flat : List Entry} (stored : fs.StoredOn env.image) (root : fs.root type = some sector)
    (lists : fs.Lists sector flat) :
    ∃ fuel ptr keys, walk env fuel type = .ok (ptr, keys) ∧ List.Forall₂ Recovers keys flat := by
  rcases stored.listed root lists with ⟨treeKeys, listed, meant⟩
  rcases listed.walk with ⟨fuel, ptr, keys, walked, decoded⟩
  refine ⟨fuel, ptr, keys, walked, ?_⟩
  clear walked lists listed
  induction decoded generalizing flat with
  | nil =>
      cases meant
      exact List.Forall₂.nil
  | cons decodes _ ih =>
      cases meant with
      | cons means rest => exact List.Forall₂.cons (decodes.recovers means) (ih rest)

/-- From every image that stores a file system, and whatever else it holds, every run over
one of its finite btrees that goes on long enough gets back the items, all of them and in
order. -/
theorem walk_stored {env : Env} {fs : FileSystem} {type : BTreeType} {sector : Nat}
    {flat : List Entry} (stored : fs.StoredOn env.image) (root : fs.root type = some sector)
    (lists : fs.Lists sector flat) :
    ∃ enough ptr keys, (∀ fuel, enough ≤ fuel → walk env fuel type = .ok (ptr, keys)) ∧
      List.Forall₂ Recovers keys flat := by
  rcases stored.walked root lists with ⟨enough, ptr, keys, walked, recovered⟩
  exact ⟨enough, ptr, keys, fun fuel more => walk_mono more walked, recovered⟩

theorem walk_stored_sample : ∃ enough ptr keys,
    (∀ fuel, enough ≤ fuel → walk systemEnv fuel .inodes = .ok (ptr, keys)) ∧
      List.Forall₂ Recovers keys sampleInodes :=
  walk_stored sampleSystem_fits.stored rfl sampleSystem_inodes

/-- A file system that is written to an image comes back from it: a run over any of its
btrees returns the items of that btree, depth first, and nothing else. -/
theorem walk_written {env : Env} {fs : FileSystem} {size sector : Nat} {type : BTreeType}
    {flat : List Entry} (fits : fs.Fits size) (written : env.image = fs.write size)
    (root : fs.root type = some sector) (lists : fs.Lists sector flat) :
    ∃ enough ptr keys, (∀ fuel, enough ≤ fuel → walk env fuel type = .ok (ptr, keys)) ∧
      List.Forall₂ Recovers keys flat := by
  have stored := fits.stored
  rw [← written] at stored
  rcases stored.walked root lists with ⟨enough, ptr, keys, walked, recovered⟩
  exact ⟨enough, ptr, keys, fun fuel more => walk_mono more walked, recovered⟩

theorem walk_written_sample : ∃ enough ptr keys,
    (∀ fuel, enough ≤ fuel → walk systemEnv fuel .inodes = .ok (ptr, keys)) ∧
      List.Forall₂ Recovers keys sampleInodes :=
  walk_written sampleSystem_fits rfl rfl sampleSystem_inodes

end Bcachefs
