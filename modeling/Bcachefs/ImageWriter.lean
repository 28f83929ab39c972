import Bcachefs.FileSystem

/-! The image of a file system: its superblock with one clean field, and its nodes. -/

namespace Bcachefs

open ByteString Iteration Flattening

def rootPatches : Nat → List (BTreeType × Nat) → List Patch
  | _, [] => []
  | start, root :: roots =>
      .number start 2 11 :: .number (start + 2) 1 root.1.id ::
        .number (start + 4) 1 jsetEntryBtreeRoot ::
        .number (start + 8) 3 (11 + 2 ^ 8 * (keyFormatCurrent + 2 ^ 8 * keyTypeBtreePtrV2)) ::
        .number (start + 88) 8 (root.2 * 2 ^ 4) :: rootPatches (start + 96) roots

def rootStarts : Nat → List (BTreeType × Nat) → List Nat
  | _, [] => []
  | start, _ :: roots => start :: rootStarts (start + 96) roots

namespace FileSystem

def fieldWords (fs : FileSystem) : Nat := 3 + 12 * fs.roots.length

def headerPatches (fs : FileSystem) : List Patch :=
  [.number 24 16 bcacheMagic, .number 120 2 fs.blockSectors, .number 124 4 fs.fieldWords,
   .number 144 8 (fs.nodeSectors * 2 ^ 12), .number 752 4 fs.fieldWords,
   .number 756 4 sbFieldClean]

def superblock (fs : FileSystem) : Bytes :=
  (Bytes.zeros (sizeofSuperblock + fs.fieldWords * u64sSize)).patched
    (fs.headerPatches ++ rootPatches 776 fs.roots)

def nodePatches (fs : FileSystem) : List Patch :=
  fs.nodes.map fun node => ⟨node.1 * sectorSize, node.2.write fs.nodeSize fs.blockSize⟩

def patches (fs : FileSystem) : List Patch :=
  ⟨sbSector * sectorSize, fs.superblock⟩ :: fs.nodePatches

def write (fs : FileSystem) (size : Nat) : Bytes := (Bytes.zeros size).patched fs.patches

structure Fits (fs : FileSystem) (size : Nat) : Prop where
  blockSectors : fs.blockSectors < 2 ^ 16
  nodeSectors : fs.nodeSectors < 2 ^ 16
  roots : fs.fieldWords < 2 ^ 29
  sectors : ∀ root ∈ fs.roots, root.2 < 2 ^ 44
  nodes : ∀ node ∈ fs.nodes, node.2.Fits fs.nodeSize fs.blockSize
  apart : fs.patches.Pairwise Patch.Apart
  inside : ∀ patch ∈ fs.patches, patch.stop ≤ size

end FileSystem

section

variable {sb : Bytes} {start stop : Nat} {roots : List (BTreeType × Nat)} {fs : FileSystem}

theorem rootPatches_row (start : Nat) (roots : List (BTreeType × Nat)) :
    Patch.Row (start + 96 * roots.length) start (rootPatches start roots) := by
  induction roots generalizing start with
  | nil => exact Nat.le_refl _
  | cons root roots ih =>
      have rest : start + 96 * (root :: roots).length = start + 96 + 96 * roots.length := by
        simp only [List.length_cons]
        omega
      have later := (ih (start + 96)).from_le (Nat.le_refl _)
      rw [rest]
      refine ⟨Nat.le_refl _, Nat.le_refl _, ?_, ?_, ?_, later⟩
      · simp
      · simp
      · simp

theorem headerPatches_row (fs : FileSystem) : Patch.Row 760 24 fs.headerPatches := by
  simp [FileSystem.headerPatches, Patch.Row]

theorem superblock_row (fs : FileSystem) :
    Patch.Row fs.superblock.size 24 (fs.headerPatches ++ rootPatches 776 fs.roots) := by
  apply (headerPatches_row fs).append
  have row : Patch.Row (776 + 96 * fs.roots.length) 760 (rootPatches 776 fs.roots) :=
    (rootPatches_row 776 fs.roots).from_le (by decide)
  have size : fs.superblock.size = 776 + 96 * fs.roots.length := by
    simp only [FileSystem.superblock, Bytes.patched_size, Bytes.zeros_size, FileSystem.fieldWords,
      sizeofSuperblock, u64sSize]
    omega
  rw [size]
  exact row

theorem superblock_number {start count value : Nat} (fits : value < 256 ^ count)
    (member : Patch.number start count value ∈ fs.headerPatches ++ rootPatches 776 fs.roots) :
    fs.superblock.number count start = value := by
  have row := superblock_row fs
  apply Bytes.patched_number row.apart member _ fits
  have bounds := (row.bounds _ member).2
  simpa [FileSystem.superblock] using bounds

def RootsWritten (sb : Bytes) (patches : List Patch) : Prop :=
  ∀ start count value, Patch.number start count value ∈ patches → value < 256 ^ count →
    sb.number count start = value ∧ start + count ≤ sb.size

theorem RootsWritten.entries (written : RootsWritten sb (rootPatches start roots)) :
    Entries sb (start + 96 * roots.length) start (rootStarts start roots) := by
  induction roots generalizing start with
  | nil => exact Entries.finished (Nat.le_refl _)
  | cons root roots ih =>
      have length := (written start 2 11 (by simp [rootPatches]) (by decide)).1
      have rest : start + 96 * (root :: roots).length = start + 96 + 96 * roots.length := by
        simp only [List.length_cons]
        omega
      rw [rest]
      apply Entries.more
      · omega
      · omega
      · rw [length]
        apply ih
        intro place count value member
        exact written place count value (by simp [rootPatches, member])

theorem RootsWritten.matched (written : RootsWritten sb (rootPatches start roots))
    (sectors : ∀ root ∈ roots, root.2 < 2 ^ 44) :
    List.Forall₂ (RootAt sb) (rootStarts start roots) roots := by
  induction roots generalizing start with
  | nil => exact List.Forall₂.nil
  | cons root roots ih =>
      have small := sectors root List.mem_cons_self
      have id := written (start + 2) 1 root.1.id (by simp [rootPatches])
        (Nat.lt_of_lt_of_le root.1.id_lt (by decide))
      have kind := written (start + 4) 1 jsetEntryBtreeRoot (by simp [rootPatches]) (by decide)
      have pointer := written (start + 88) 8 (root.2 * 2 ^ 4) (by simp [rootPatches]) (by omega)
      have place : BTreePtr.start (rootValue start) = start + 88 := by
        simp only [BTreePtr.start, rootValue, rootKey, JsetEntry.start, bkeyU64s, u64sSize,
          sizeofBTreePtr]
      apply List.Forall₂.cons
      · exact {
          inside := by
            rw [place]
            exact pointer.2
          kind := beq_iff_eq.mpr kind.1
          type := id.1
          used := by
            rw [place, pointer.1]
            omega
          sector := by
            rw [place, pointer.1]
            omega }
      · apply ih
        · intro place count value member
          exact written place count value (by simp [rootPatches, member])
        · intro other member
          exact sectors other (List.mem_cons_of_mem _ member)

theorem rooted_entries {entries : List Nat} (matched : List.Forall₂ (RootAt sb) entries roots) :
    ∀ entry ∈ entries, ∃ root, RootAt sb entry root := by
  induction matched with
  | nil => simp
  | cons rooted _ ih =>
      intro entry member
      rcases List.mem_cons.mp member with same | member
      · exact ⟨_, same ▸ rooted⟩
      · exact ih entry member

theorem superblock_written (fs : FileSystem) : RootsWritten fs.superblock (rootPatches 776 fs.roots) := by
  intro place count value member fits
  have inside : Patch.number place count value ∈ fs.headerPatches ++ rootPatches 776 fs.roots :=
    List.mem_append.mpr (Or.inr member)
  exact ⟨superblock_number fits inside, ((superblock_row fs).bounds _ inside).2⟩

theorem superblock_size (fs : FileSystem) :
    fs.superblock.size = sizeofSuperblock + fs.fieldWords * u64sSize := by
  simp [FileSystem.superblock]

namespace FileSystem.Fits

variable {size : Nat}

theorem words (fits : fs.Fits size) : fs.superblock.number 4 124 = fs.fieldWords ∧
    fs.superblock.number 4 752 = fs.fieldWords ∧
    wrap32 (fs.fieldWords * u64sSize) = fs.fieldWords * u64sSize := by
  have narrow := fits.roots
  refine ⟨?_, ?_, ?_⟩
  · exact superblock_number (by omega) (by simp [FileSystem.headerPatches])
  · exact superblock_number (by omega) (by simp [FileSystem.headerPatches])
  · simp only [wrap32, u64sSize]
    omega

theorem opensAt (fits : fs.Fits size) :
    OpensAt fs.superblock [] 752 (rootStarts 776 fs.roots) := by
  rcases fits.words with ⟨words, again, whole⟩
  have length := superblock_size fs
  have kind : fs.superblock.number 4 756 = sbFieldClean :=
    superblock_number (by decide) (by simp [FileSystem.headerPatches])
  have scanned := (superblock_written fs).entries
  have known := rooted_entries ((superblock_written fs).matched fits.sectors)
  simp only [sizeofSuperblock, u64sSize, FileSystem.fieldWords] at length
  constructor
  · refine ⟨FieldArea.done, by simp, ?_, ?_, ?_⟩
    · rw [words, whole]
      simp only [FileSystem.fieldWords, u64sSize]
      omega
    · omega
    · exact beq_iff_eq.mpr kind
  · have stop : 752 + fs.fieldWords * u64sSize = 776 + 96 * fs.roots.length := by
      simp only [FileSystem.fieldWords, u64sSize]
      omega
    rw [again, whole, stop]
    exact scanned
  · intro entry member
    rcases known entry member with ⟨root, rooted⟩
    have inside := rooted.inside
    simp only [BTreePtr.start, rootValue, rootKey, JsetEntry.start] at inside
    omega
  · intro entry member _
    rcases known entry member with ⟨root, rooted⟩
    rw [rooted.type]
    exact root.1.id_lt

theorem holds (fits : fs.Fits size) (patch : Patch) (member : patch ∈ fs.patches) :
    (fs.write size).Holds patch.start patch.bytes := by
  apply Bytes.patched_holds fits.apart member
  simpa using fits.inside patch member

theorem superblock_held (fits : fs.Fits size) :
    (fs.write size).Holds (sbSector * sectorSize) fs.superblock :=
  fits.holds ⟨sbSector * sectorSize, fs.superblock⟩ (by simp [FileSystem.patches])

theorem superblockOf (fits : fs.Fits size) :
    Bcachefs.superblockOf (fs.write size) = fs.superblock := by
  have held := fits.superblock_held
  have length := superblock_size fs
  rcases fits.words with ⟨words, _, whole⟩
  have number := held.number 124 4
    (by simp only [sizeofSuperblock] at length; omega)
  rw [words] at number
  rw [Bcachefs.superblockOf, number, whole, ← length]
  exact held.window

theorem sizes (fits : fs.Fits size) : btreeBlockSize fs.superblock = .ok fs.blockSize ∧
    btreeNodeSize fs.superblock = .ok fs.nodeSize := by
  have blocks := fits.blockSectors
  have nodes := fits.nodeSectors
  have length := superblock_size fs
  simp only [sizeofSuperblock] at length
  have block : fs.superblock.number 2 120 = fs.blockSectors :=
    superblock_number (by omega) (by simp [FileSystem.headerPatches])
  have flags : fs.superblock.number 8 144 = fs.nodeSectors * 2 ^ 12 :=
    superblock_number (by omega) (by simp [FileSystem.headerPatches])
  have readBlock : Superblock.blockSize fs.superblock = .ok _ := load_inside (by omega)
  have readFlags : Superblock.flags0 fs.superblock = .ok _ := load_inside (by omega)
  have extracted : extractBitflag (fs.nodeSectors * 2 ^ 12) 12 28 % 2 ^ 16 = fs.nodeSectors := by
    simp only [extractBitflag, wrap64]
    omega
  constructor
  · rw [btreeBlockSize, readBlock, ok_bind, block]
    rfl
  · rw [btreeNodeSize, readFlags, ok_bind, flags, extracted]
    rfl

theorem complete (fits : fs.Fits size) : SuperblockComplete (fs.write size) := by
  have room := fits.superblock_held.inside
  have length := superblock_size fs
  simp only [sizeofSuperblock] at length
  constructor
  · simp only [ReadsFull, sizeofSuperblock]
    omega
  · intro _
    rw [fits.superblockOf]
    simp only [ReadsFull]
    omega

theorem magic (fits : fs.Fits size) : HasMagic (fs.write size) := by
  have length := superblock_size fs
  simp only [sizeofSuperblock] at length
  have number := fits.superblock_held.number 24 16 (by omega)
  have written : fs.superblock.number 16 24 = bcacheMagic :=
    superblock_number (by decide) (by simp [FileSystem.headerPatches])
  rw [written] at number
  exact number

/-- The written image stores the file system. -/
theorem stored (fits : fs.Fits size) : fs.StoredOn (fs.write size) := by
  have sb := fits.superblockOf
  have matched := (superblock_written fs).matched fits.sectors
  have known := rooted_entries matched
  constructor
  · exact fits.complete
  · exact fits.magic
  · rw [sb]
    exact fits.sizes.1
  · rw [sb]
    exact fits.sizes.2
  · refine ⟨[], 752, rootStarts 776 fs.roots, ?_, ?_⟩
    · rw [sb]
      exact fits.opensAt
    · have all : ∀ entry ∈ rootStarts 776 fs.roots, isRoot fs.superblock entry = true := by
        intro entry member
        rcases known entry member with ⟨root, rooted⟩
        exact rooted.kind
      rw [sb, List.filter_eq_self.mpr all]
      exact matched
  · intro node member
    have held := fits.holds ⟨node.1 * sectorSize, node.2.write fs.nodeSize fs.blockSize⟩
      (by simp only [FileSystem.patches, FileSystem.nodePatches]
          exact List.mem_cons_of_mem _ (List.mem_map_of_mem member))
    have length : (node.2.write fs.nodeSize fs.blockSize).size = fs.nodeSize := by
      simp [NodeContents.write]
    have window := held.window
    have inside := held.inside
    dsimp only at window inside
    rw [length] at window inside
    refine ⟨inside, ?_⟩
    rw [window]
    exact NodeContents.written (fits.nodes node member) (Nat.mul_pos fs.block (by decide))

end FileSystem.Fits

end

def samplePointer : Item sampleFormat where
  encoding := .current
  type := keyTypeBtreePtrV2
  fields := ![9, 9, 0, 0, 0, 0]
  value := Bytes.ofCells 48 [(40, 16), (41, 1)]
  typed := by decide
  members := by decide
  fits := by decide
  whole := by decide
  short := by decide

def sampleSecond : Item sampleFormat where
  encoding := .current
  type := keyTypeBtreePtrV2
  fields := ![9, 12, 0, 0, 0, 0]
  value := Bytes.ofCells 48 [(40, 208)]
  typed := by decide
  members := by decide
  fits := by decide
  whole := by decide
  short := by decide

def sampleSystem : FileSystem where
  blockSectors := 1
  nodeSectors := 2
  nodes := [(11, ⟨sampleFormat, [[sampleExtent]]⟩), (13, ⟨sampleFormat, [[sampleDirent]]⟩),
    (15, ⟨sampleFormat, [[samplePointer, sampleSecond, sampleDirent]]⟩), (17, sampleContents)]
  roots := [(.extents, 11), (.dirents, 13), (.inodes, 15)]
  block := by decide

def systemEnv : Env := { image := sampleSystem.write 9728, junk := fun _ _ => 0 }

theorem sampleSystem_fits : sampleSystem.Fits 9728 where
  blockSectors := by decide
  nodeSectors := by decide
  roots := by decide
  sectors := by decide
  nodes := by
    have single : ∀ item : Item sampleFormat, wordsOf [item] < 2 ^ 16 →
        bsetEnd BTreeNode.keys [item] < 1024 → NodeContents.Fits ⟨sampleFormat, [[item]]⟩ 1024 512 :=
      fun item words inside => ⟨by simp, words, inside, fun more => absurd rfl more, trivial⟩
    simp only [sampleSystem, List.forall_mem_cons]
    refine ⟨single _ (by decide) (by decide), single _ (by decide) (by decide), ⟨by simp, ?_⟩,
      sampleContents_fits, by simp⟩
    exact ⟨by decide, by decide, fun more => absurd rfl more, trivial⟩
  apart := by decide
  inside := by decide

theorem FileSystem.flat_plain {fs : FileSystem} {format : KeyFormat} {depth : Nat}
    {items : List (Item format)} (plain : ∀ item ∈ items, item.type ≠ keyTypeBtreePtrV2) :
    Flat fs.Expands (items.map (Entry.mk depth format)) (items.map (Entry.mk depth format)) := by
  apply Flat.unchanged
  intro entry member
  rcases List.mem_map.mp member with ⟨item, listed, same⟩
  rw [← same]
  exact FileSystem.Expands.plain (plain item listed)

def sampleInodes : List Entry :=
  [⟨1, _, samplePacked⟩, ⟨1, _, sampleDirent⟩, ⟨1, _, sampleExtent⟩, ⟨1, _, sampleDirent⟩,
   ⟨0, _, sampleDirent⟩]

theorem sampleSystem_inodes : sampleSystem.Lists 15 sampleInodes := by
  have first : sampleSystem.Expands ⟨0, _, samplePointer⟩ (some (sampleContents.entries 1)) :=
    FileSystem.Expands.pointer rfl (by decide) rfl
  have second : sampleSystem.Expands ⟨0, _, sampleSecond⟩
      (some (NodeContents.entries ⟨sampleFormat, [[sampleDirent]]⟩ 1)) :=
    FileSystem.Expands.pointer rfl (by decide) rfl
  have leaf : ∀ item ∈ [samplePacked, sampleDirent, sampleExtent],
      item.type ≠ keyTypeBtreePtrV2 := by decide
  refine ⟨_, rfl, ?_⟩
  exact Flat.enter first (FileSystem.flat_plain leaf)
    (Flat.enter second (FileSystem.flat_plain (by decide)) (FileSystem.flat_plain (by decide)))

theorem sampleSystem_extents : sampleSystem.Lists 11 [⟨0, _, sampleExtent⟩] :=
  ⟨_, rfl, FileSystem.flat_plain (by decide)⟩

theorem sampleSystem_dirents : sampleSystem.Lists 13 [⟨0, _, sampleDirent⟩] :=
  ⟨_, rfl, FileSystem.flat_plain (by decide)⟩

end Bcachefs
