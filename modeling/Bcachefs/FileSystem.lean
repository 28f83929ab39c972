import Bcachefs.NodeContents
import Bcachefs.Opening
import Bcachefs.BtreeRoot
import Bcachefs.Locality

/-! A file system as its writer means it: nodes with contents at their sectors, and the
roots of the btrees. An image stores it when the superblock and the nodes are there; the
reader then has exactly the trees of the file system in front of it. -/

namespace Bcachefs

open ByteString Iteration Flattening

structure FileSystem where
  blockSectors : Nat
  nodeSectors : Nat
  nodes : List (Nat × NodeContents)
  roots : List (BTreeType × Nat)
  block : 0 < blockSectors

structure Entry where
  depth : Nat
  format : KeyFormat
  item : Item format

def pointedSector (value : Bytes) : Nat := value.number 8 sizeofBTreePtr / 2 ^ 4 % 2 ^ 44

def NodeContents.entries (contents : NodeContents) (depth : Nat) : List Entry :=
  contents.items.map (Entry.mk depth contents.format)

namespace FileSystem

def blockSize (fs : FileSystem) : Nat := fs.blockSectors * sectorSize

def nodeSize (fs : FileSystem) : Nat := fs.nodeSectors * sectorSize

def contents (fs : FileSystem) (sector : Nat) : Option NodeContents := fs.nodes.lookup sector

def root (fs : FileSystem) (type : BTreeType) : Option Nat :=
  (Log.last (fun root => root.1 == type) fs.roots).map Prod.snd

inductive Expands (fs : FileSystem) : Entry → Option (List Entry) → Prop
  | plain {entry} : entry.item.type ≠ keyTypeBtreePtrV2 → Expands fs entry none
  | pointer {entry contents} : entry.item.type = keyTypeBtreePtrV2 →
      sizeofBTreePtr + 8 ≤ entry.item.value.size →
      fs.contents (pointedSector entry.item.value) = some contents →
      Expands fs entry (some (contents.entries (entry.depth + 1)))

def Lists (fs : FileSystem) (sector : Nat) (flat : List Entry) : Prop :=
  ∃ contents, fs.contents sector = some contents ∧ Flat fs.Expands (contents.entries 0) flat

end FileSystem

structure RootAt (sb : Bytes) (entry : Nat) (root : BTreeType × Nat) : Prop where
  inside : BTreePtr.start (rootValue entry) + 8 ≤ sb.size
  kind : isRoot sb entry = true
  type : sb.number 1 (entry + 2) = root.1.id
  used : sb.number 8 (BTreePtr.start (rootValue entry)) / 2 ^ 2 % 2 = 0
  sector : sb.number 8 (BTreePtr.start (rootValue entry)) / 2 ^ 4 % 2 ^ 44 = root.2

/-- The image holds the file system; the rest of it may be anything. -/
structure FileSystem.StoredOn (fs : FileSystem) (image : Bytes) : Prop where
  complete : SuperblockComplete image
  magic : HasMagic image
  blockSize : btreeBlockSize (superblockOf image) = .ok fs.blockSize
  nodeSize : btreeNodeSize (superblockOf image) = .ok fs.nodeSize
  roots : ∃ passed field entries, OpensAt (superblockOf image) passed field entries ∧
    List.Forall₂ (RootAt (superblockOf image))
      (entries.filter (isRoot (superblockOf image))) fs.roots
  nodes : ∀ node ∈ fs.nodes, node.1 * sectorSize + fs.nodeSize ≤ image.size ∧
    node.2.HeldIn (image.window (node.1 * sectorSize) fs.nodeSize) fs.blockSize

structure Means (key : TreeKey) (entry : Entry) : Prop where
  depth : key.depth = entry.depth
  format : BTreeNode.loadFormat key.node = .ok entry.format.toBKeyFormat
  readsBack : ReadsBack key.node key.key entry.item

theorem BTreeType.id_injective {left right : BTreeType} (same : left.id = right.id) :
    left = right := by
  cases left <;> cases right <;> first | rfl | cases same

section

variable {sb : Bytes} {entry : Nat} {root : BTreeType × Nat}

theorem RootAt.found (rooted : RootAt sb entry root) (fuel : Nat) :
    findBtreeRoot sb entry (fuel + 1) = .ok (rootValue entry) := by
  have inside := rooted.inside
  simp only [BTreePtr.start, rootValue, rootKey, JsetEntry.start, bkeyU64s, u64sSize,
    sizeofBTreePtr] at inside
  have length : BKey.u64s sb (JsetEntry.start entry) = .ok _ :=
    load_inside (by simp only [JsetEntry.start]; omega)
  have word : load sb 8 (BTreePtr.start (rootValue entry)) = .ok _ := load_inside rooted.inside
  have unused : ExtentPtr.unused sb (BTreePtr.start (rootValue entry)) = .ok 0 := by
    rw [ExtentPtr.unused, word, ok_bind, rooted.used]
    rfl
  have cursor : ∀ stop, findBtreeRootFrom sb stop (fuel + 1) (rootValue entry) =
      .ok (rootValue entry) := by
    intro stop
    rw [findBtreeRootFrom]
    split
    · rfl
    · rw [unused]
      rfl
  have read : ∃ offset, ExtentPtr.offset sb (BTreePtr.start (rootValue entry)) = .ok offset := by
    rw [ExtentPtr.offset, word, ok_bind]
    exact ⟨_, rfl⟩
  rcases read with ⟨offset, read⟩
  rw [findBtreeRoot, length, ok_bind]
  change (findBtreeRootFrom sb _ (fuel + 1) (rootValue entry) >>= _) = _
  rw [cursor, ok_bind, read]
  rfl

theorem RootAt.address (rooted : RootAt sb entry root) :
    btreePtrAddress sb (rootValue entry) = .ok (root.2 * sectorSize) := by
  have word : load sb 8 (BTreePtr.start (rootValue entry)) = .ok _ := load_inside rooted.inside
  rw [btreePtrAddress, ExtentPtr.offset, word, ok_bind, rooted.sector]
  rfl

theorem RootAt.isRootOf (rooted : RootAt sb entry root) (type : BTreeType) :
    Bcachefs.isRootOf sb type.id entry = (root.1 == type) := by
  rw [Bcachefs.isRootOf, rooted.kind, rooted.type, Bool.true_and]
  by_cases same : root.1 = type
  · simp [same]
  · have apart : root.1.id ≠ type.id := fun equal => same (BTreeType.id_injective equal)
    simp [same, apart]

theorem recordedRoot_related {entries : List Nat} {roots : List (BTreeType × Nat)}
    {type : BTreeType} {sector : Nat}
    (matched : List.Forall₂ (RootAt sb) (entries.filter (isRoot sb)) roots)
    (found : (Log.last (fun root => root.1 == type) roots).map Prod.snd = some sector) :
    ∃ entry, recordedRoot sb entries type.id = some entry ∧ RootAt sb entry (type, sector) := by
  rcases Option.map_eq_some_iff.mp found with ⟨⟨stored, address⟩, last, same⟩
  have chosen := (List.mem_filter.mp (List.mem_of_getLast? last)).2
  cases beq_iff_eq.mp chosen
  cases same
  have contained : ∀ entry, isRootOf sb stored.id entry = true → isRoot sb entry = true := by
    intro entry holds
    exact (Bool.and_eq_true_iff.mp holds).1
  have alike := Log.last_related (fun _ _ rooted => rooted.isRootOf stored) matched
  rw [Log.last_filter contained, last] at alike
  cases recorded : Log.last (isRootOf sb stored.id) entries with
  | none =>
      rw [recorded] at alike
      cases alike
  | some entry =>
      rw [recorded] at alike
      cases alike with
      | some rooted => exact ⟨entry, recorded, rooted⟩

end

section

variable {fs : FileSystem} {image : Bytes} {sector : Nat} {contents : NodeContents}

theorem NodeContents.entries_related {node : Bytes} {keys : List Nat} {items : List (Item contents.format)}
    (loaded : BTreeNode.loadFormat node = .ok contents.format.toBKeyFormat) (depth : Nat)
    (read : List.Forall₂ (ReadsBack node) keys items) :
    List.Forall₂ Means (keys.map (TreeKey.mk depth node))
      (items.map (Entry.mk depth contents.format)) := by
  rw [List.forall₂_map_left_iff, List.forall₂_map_right_iff]
  exact read.imp fun _ _ here => ⟨rfl, loaded, here⟩

theorem FileSystem.StoredOn.node (stored : fs.StoredOn image)
    (found : fs.contents sector = some contents) (depth : Nat) :
    sector * sectorSize + fs.nodeSize ≤ image.size ∧
    ∃ keys, nodeKeys (image.window (sector * sectorSize) fs.nodeSize) fs.blockSize = .ok keys ∧
      List.Forall₂ Means
        (keys.map (TreeKey.mk depth (image.window (sector * sectorSize) fs.nodeSize)))
        (contents.entries depth) := by
  have member : (sector, contents) ∈ fs.nodes := by
    rcases List.lookup_eq_some_iff.mp found with ⟨before, after, split, _⟩
    simp [split]
  rcases stored.nodes _ member with ⟨inside, held⟩
  have positive : 0 < fs.blockSize := Nat.mul_pos fs.block (by decide)
  rcases held.nodeKeys positive (Dvd.intro_left _ rfl) (Dvd.intro_left _ rfl) with
    ⟨keys, scanned, read⟩
  exact ⟨inside, keys, scanned, NodeContents.entries_related held.format depth read⟩

theorem Means.plain {key : TreeKey} {entry : Entry} {size blockSize : Nat} (means : Means key entry)
    (plain : entry.item.type ≠ keyTypeBtreePtrV2) : Bcachefs.Expands image size blockSize key none :=
  Expands.plain means.readsBack.type plain

theorem Means.pointer {key : TreeKey} {entry : Entry} (means : Means key entry)
    (stored : fs.StoredOn image) (typed : entry.item.type = keyTypeBtreePtrV2)
    (pointer : sizeofBTreePtr + 8 ≤ entry.item.value.size)
    (found : fs.contents (pointedSector entry.item.value) = some contents) :
    ∃ inner, Bcachefs.Expands image fs.nodeSize fs.blockSize key (some inner) ∧
      List.Forall₂ Means inner (contents.entries (entry.depth + 1)) := by
  rcases means.readsBack.value with ⟨place, valued, held⟩
  rcases stored.node found (entry.depth + 1) with ⟨inside, keys, scanned, related⟩
  have word := held.number sizeofBTreePtr 8 pointer
  have address : btreePtrAddress key.node place =
      .ok (pointedSector entry.item.value * sectorSize) := by
    have room := held.inside
    have read : load key.node 8 (BTreePtr.start place) = .ok _ :=
      load_inside (by simp only [BTreePtr.start, sizeofBTreePtr] at pointer ⊢; omega)
    rw [btreePtrAddress, ExtentPtr.offset, read, ok_bind, BTreePtr.start, word]
    rfl
  refine ⟨_, Expands.pointer (means.readsBack.type.trans (congrArg Except.ok typed)) valued address
    inside scanned, ?_⟩
  rw [means.depth]
  exact related

theorem FileSystem.StoredOn.rootAddress (stored : fs.StoredOn image) {type : BTreeType}
    (root : fs.root type = some sector) :
    RootAddress (superblockOf image) type (sector * sectorSize) := by
  rcases stored.roots with ⟨passed, field, entries, opens, matched⟩
  have size := superblockOf_size image
  simp only [sizeofSuperblock] at size
  rcases opens.table (by omega) with ⟨fuel, table, search, filled, slots⟩
  rcases recordedRoot_related matched root with ⟨entry, recorded, rooted⟩
  have slot := slots type.id type.id_lt
  rw [recorded] at slot
  exact ⟨fuel + 1, field, table, entry, rootValue entry,
    findSuperblockField_mono (Nat.le_succ fuel) search, filled, slot, rooted.found fuel,
    rooted.address⟩

/-- The tree in front of the reader is the tree of the file system. -/
theorem FileSystem.StoredOn.tree (stored : fs.StoredOn image) {flat : List Entry}
    (listed : fs.Lists sector flat) :
    ∃ keys, Tree image fs.nodeSize fs.blockSize (sector * sectorSize) keys ∧
      List.Forall₂ Means keys flat := by
  rcases listed with ⟨contents, found, expanded⟩
  rcases stored.node found 0 with ⟨inside, keys, scanned, related⟩
  have plain : ∀ key entry, Means key entry → fs.Expands entry none →
      Bcachefs.Expands image fs.nodeSize fs.blockSize key none := by
    intro key entry means expands
    cases expands with
    | plain plain => exact means.plain plain
  have pointer : ∀ key entry inner, Means key entry → fs.Expands entry (some inner) →
      ∃ found, Bcachefs.Expands image fs.nodeSize fs.blockSize key (some found) ∧
        List.Forall₂ Means found inner := by
    intro key entry inner means expands
    cases expands with
    | pointer typed pointer found => exact means.pointer stored typed pointer found
  rcases expanded.related plain pointer related with ⟨treeKeys, flattened, matched⟩
  exact ⟨treeKeys, ⟨inside, keys, scanned, flattened⟩, matched⟩

end

end Bcachefs
