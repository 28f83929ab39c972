import Bcachefs.ReaderCore

/-! What `read_superblock` hands to the reader. -/

namespace Bcachefs

open ByteString Iteration

def ReadsFull (image : Bytes) (position size : Nat) : Prop := size ≤ image.size - position

def superblockOf (image : Bytes) : Bytes :=
  image.window (sbSector * sectorSize)
    (sizeofSuperblock + wrap32 (image.number 4 (sbSector * sectorSize + 124) * u64sSize))

def HasMagic (image : Bytes) : Prop := image.number 16 (sbSector * sectorSize + 24) = bcacheMagic

/-- Neither read of the superblock is cut short; without the magic there is only one. -/
structure SuperblockComplete (image : Bytes) : Prop where
  header : ReadsFull image (sbSector * sectorSize) sizeofSuperblock
  fields : HasMagic image → ReadsFull image (sbSector * sectorSize) (superblockOf image).size

def Env.filled (env : Env) (position size : Nat) (old : Bytes) : Bytes :=
  Bytes.ofFn old.size fun index =>
    if index < min size (env.image.size - position) then env.image.byte (position + index)
    else old.byte index

theorem Env.filled_full {env : Env} {position size : Nat} {old : Bytes} (fits : old.size = size)
    (readable : ReadsFull env.image position size) :
    env.filled position size old = env.image.window position size := by
  have delivered : min size (env.image.size - position) = size := Nat.min_eq_left readable
  refine Bytes.ext_inside fits fun index bound => ?_
  have inside : index < old.size := bound
  rw [filled, Bytes.ofFn_byte _ inside, if_pos (by omega), Bytes.window,
    Bytes.ofFn_byte _ (by omega)]

theorem World.fread_eq {env : Env} {world : World} {block size : Nat} {old : Bytes}
    (held : world.heap[block]? = some old) (fits : old.size = size) :
    world.fread env block size = .ok {
      heap := world.heap.set block (env.filled world.position size old)
      position := world.position + min size (env.image.size - world.position) } := by
  rw [fread, deref_ok.mpr held, ok_bind, if_neg (by omega)]
  rfl

theorem World.fread_full {env : Env} {world : World} {block size : Nat} {old : Bytes}
    (held : world.heap[block]? = some old) (fits : old.size = size)
    (readable : ReadsFull env.image world.position size) :
    world.fread env block size = .ok {
      heap := world.heap.set block (env.image.window world.position size)
      position := world.position + size } := by
  have delivered : min size (env.image.size - world.position) = size := Nat.min_eq_left readable
  rw [fread_eq held fits, Env.filled_full fits readable, delivered]

theorem World.fread_last {env : Env} {heap : List Bytes} {position size : Nat} {old : Bytes}
    (fits : old.size = size) :
    World.fread env heap.length size { heap := heap ++ [old], position := position } =
      .ok { heap := heap ++ [env.filled position size old]
            position := position + min size (env.image.size - position) } := by
  have held : (heap ++ [old])[heap.length]? = some old := List.getElem?_concat_length
  rw [World.fread_eq held fits, List.set_append_right _ _ (Nat.le_refl _), Nat.sub_self,
    List.set_cons_zero]

theorem readSuperblock_full {env : Env} (complete : SuperblockComplete env.image) :
    (¬HasMagic env.image → readSuperblock env World.start = .error .assertion) ∧
    (HasMagic env.image → readSuperblock env World.start = .ok (1, {
      heap := [env.image.window (sbSector * sectorSize) sizeofSuperblock, superblockOf env.image]
      position := sbSector * sectorSize + (superblockOf env.image).size })) := by
  have first := @World.fread_full env
    { heap := [Bytes.ofFn sizeofSuperblock (env.junk 0)], position := sbSector * sectorSize } 0
    sizeofSuperblock _ rfl rfl complete.header
  have magic : Superblock.magic (env.image.window (sbSector * sectorSize) sizeofSuperblock) =
      .ok (env.image.number 16 (sbSector * sectorSize + 24)) :=
    load_ok.mpr ⟨by rw [Bytes.window_size]; decide, Bytes.number_window (by decide)⟩
  have words : Superblock.u64s (env.image.window (sbSector * sectorSize) sizeofSuperblock) =
      .ok (env.image.number 4 (sbSector * sectorSize + 124)) :=
    load_ok.mpr ⟨by rw [Bytes.window_size]; decide, Bytes.number_window (by decide)⟩
  simp only [readSuperblock, World.malloc, World.start, World.fseek, List.length_nil,
    List.nil_append]
  rw [first, ok_bind]
  simp only [List.set_cons_zero, World.deref, List.getElem?_cons_zero, ok_bind, magic]
  constructor
  · intro foreign
    exact if_pos foreign
  · intro marked
    refine (if_neg (not_not_intro marked)).trans ?_
    rw [words, ok_bind]
    simp only [World.realloc, World.deref, List.getElem?_cons_zero, ok_bind, pure_bind]
    rw [World.fread_full]
    · rfl
    · rfl
    · rfl
    · exact complete.fields marked

theorem Env.filled_again {env : Env} {position size more index : Nat} {old : Bytes}
    (fits : old.size = size) (further : size ≤ more) (grown : Nat → UInt8) (inside : index < size) :
    (env.filled position more (Bytes.ofFn more fun index =>
      if index < (env.filled position size old).size then (env.filled position size old).byte index
      else grown index)).byte index = (env.filled position size old).byte index := by
  have width : (env.filled position size old).size = size := fits
  generalize filled : env.filled position size old = header at width ⊢
  rw [Env.filled, Bytes.ofFn_byte _ (by rw [Bytes.ofFn_size]; omega), Bytes.ofFn_byte _ (by omega)]
  rw [if_pos (by omega : index < header.size)]
  by_cases delivered : index < min more (env.image.size - position)
  · rw [if_pos delivered, ← filled, Env.filled, Bytes.ofFn_byte _ (by omega), if_pos (by omega)]
  · rw [if_neg delivered]

structure LoadedSuperblock (sb : Bytes) (u64s : Nat) : Prop where
  magic : Superblock.magic sb = .ok bcacheMagic
  length : Superblock.u64s sb = .ok u64s
  size : sb.size = sizeofSuperblock + wrap32 (u64s * u64sSize)

/-- The second read leaves the header as the first one did, whatever the file holds. -/
theorem readSuperblock_loaded {env : Env} {world after : World} {block : Nat}
    (returned : readSuperblock env world = .ok (block, after)) :
    ∃ sb u64s, after.heap[block]? = some sb ∧ LoadedSuperblock sb u64s := by
  simp only [readSuperblock, World.malloc, World.fseek] at returned
  rw [World.fread_last (Bytes.ofFn_size _ _), ok_bind] at returned
  generalize first : env.filled (sbSector * sectorSize) sizeofSuperblock
    (Bytes.ofFn sizeofSuperblock (env.junk world.heap.length)) = header at returned
  have held : (world.heap ++ [header])[world.heap.length]? = some header := by simp
  have width : header.size = sizeofSuperblock := by
    rw [← first]
    rfl
  obtain ⟨found, read, rest⟩ := bind_eq_ok.mp returned
  cases (World.deref_ok.mpr held).symm.trans read
  obtain ⟨magic, marked, rest⟩ := bind_eq_ok.mp rest
  split at rest
  · cases rest
  · rename_i same
    obtain ⟨u64s, length, rest⟩ := bind_eq_ok.mp rest
    simp only [World.realloc, read, ok_bind, pure_bind] at rest
    rw [World.fread_last (Bytes.ofFn_size _ _), ok_bind] at rest
    have kept : ∀ index, index < sizeofSuperblock → (env.filled (sbSector * sectorSize)
        (sizeofSuperblock + wrap32 (u64s * u64sSize))
        (Bytes.ofFn (sizeofSuperblock + wrap32 (u64s * u64sSize)) fun index =>
          if index < header.size then header.byte index
          else env.junk (world.heap ++ [header]).length index)).byte index =
            header.byte index := by
      intro index below
      rw [← first]
      exact Env.filled_again (Bytes.ofFn_size _ _) (Nat.le_add_right _ _) _ below
    generalize second : env.filled (sbSector * sectorSize) _ _ = sb at rest kept
    have size : sb.size = sizeofSuperblock + wrap32 (u64s * u64sSize) := by
      rw [← second]
      rfl
    have copied : ∀ count index, index + count ≤ sizeofSuperblock →
        load sb count index = load header count index := by
      intro count index below
      rw [load_inside (by omega), load_inside (by omega)]
      exact congrArg _ (Bytes.number_congr fun position _ upper => kept position (by omega))
    cases rest
    refine ⟨sb, u64s, List.getElem?_concat_length, ?_, ?_, size⟩
    · rw [Superblock.magic, copied 16 24 (by decide)]
      exact (not_not.mp same) ▸ marked
    · rw [Superblock.u64s, copied 4 124 (by decide)]
      exact length

theorem superblockOf_loaded {image : Bytes} (marked : HasMagic image) :
    LoadedSuperblock (superblockOf image)
      (image.number 4 (sbSector * sectorSize + 124)) := by
  have size : (superblockOf image).size = _ := Bytes.window_size _ _ _
  have copied : ∀ count index, index + count ≤ sizeofSuperblock →
      load (superblockOf image) count index =
        .ok (image.number count (sbSector * sectorSize + index)) := by
    intro count index below
    exact load_ok.mpr ⟨by rw [size]; omega, Bytes.number_window (by omega)⟩
  exact ⟨(copied 16 24 (by decide)).trans (congrArg _ marked), copied 4 124 (by decide), size⟩

theorem superblockOf_sizes (image : Bytes) : ∃ size blockSize,
    btreeNodeSize (superblockOf image) = .ok size ∧
    btreeBlockSize (superblockOf image) = .ok blockSize := by
  have size : (superblockOf image).size = _ := Bytes.window_size _ _ _
  have flags : Superblock.flags0 (superblockOf image) = .ok _ :=
    load_inside (by rw [size]; simp only [sizeofSuperblock]; omega)
  have block : Superblock.blockSize (superblockOf image) = .ok _ :=
    load_inside (by rw [size]; simp only [sizeofSuperblock]; omega)
  exact ⟨_, _, by rw [btreeNodeSize, flags]; rfl, by rw [btreeBlockSize, block]; rfl⟩

def magicCells : List (Nat × UInt8) :=
  [(4120, 0xc6), (4121, 0x85), (4122, 0x73), (4123, 0xf6), (4124, 0x4e), (4125, 0x1a),
   (4126, 0x45), (4127, 0xca), (4128, 0x82), (4129, 0x65), (4130, 0xf5), (4131, 0x7f),
   (4132, 0x48), (4133, 0xba), (4134, 0x6d), (4135, 0x81)]

end Bcachefs
