import Bcachefs.Format

/-! Opening an image: the superblock, its fields and the table of btree roots.
Pointers into the superblock are offsets from its first byte. -/

namespace Bcachefs

open ByteString Iteration

structure BCacheFSReader where
  sblock : Nat
  btreeRoots : List (Option Nat)

def readSuperblock (env : Env) (world : World) : Result (Nat × World) := do
  let (block, world) := world.malloc env sizeofSuperblock
  let world := world.fseek (sbSector * sectorSize)
  -- both reads drop the number of items that `fread` returns
  let world ← world.fread env block sizeofSuperblock
  let header ← world.deref block
  let magic ← Superblock.magic header
  if magic ≠ bcacheMagic then throw .assertion
  let u64s ← Superblock.u64s header
  let size := sizeofSuperblock + wrap32 (u64s * u64sSize)
  let (block, world) ← world.realloc env block size
  let world := world.fseek (sbSector * sectorSize)
  let world ← world.fread env block size
  return (block, world)

def findSuperblockFieldFrom (sb : Bytes) (type stop : Nat) : Nat → Nat → Result (Option Nat)
  | 0, _ => .error .fuel
  | fuel + 1, iter =>
      if iter = stop then .ok none
      else do
        let u64s ← SbField.u64s sb iter
        let fieldType ← SbField.type sb iter
        if fieldType = type then return some iter
        -- a field of no words is inspected again and again
        else findSuperblockFieldFrom sb type stop fuel (iter + u64s * u64sSize)

def findSuperblockField (sb : Bytes) (type fuel : Nat) : Result (Option Nat) := do
  let u64s ← Superblock.u64s sb
  findSuperblockFieldFrom sb type (wrap32 (u64s * u64sSize)) fuel sizeofSuperblock

def findBtreeRootFrom (sb : Bytes) (stop : Nat) : Nat → Nat → Result Nat
  | 0, _ => .error .fuel
  | fuel + 1, cursor =>
      if cursor = stop then .ok cursor
      else do
        let unused ← ExtentPtr.unused sb (BTreePtr.start cursor)
        if unused = 0 then return cursor
        -- `get_u64s` returns `sizeof(BTreePtr)`, which is then taken as words
        else findBtreeRootFrom sb stop fuel (cursor + sizeofBTreePtr * u64sSize)

def findBtreeRoot (sb : Bytes) (entry fuel : Nat) : Result Nat := do
  let key := JsetEntry.start entry
  let u64s ← BKey.u64s sb key
  let cursor ← findBtreeRootFrom sb (key + u64s * u64sSize) fuel (key + bkeyU64s * u64sSize)
  -- the debug line reads the pointer the loop stopped at
  let _ ← ExtentPtr.offset sb (BTreePtr.start cursor)
  return cursor

def storeRoot (sb : Bytes) (iter : Nat) (out : List (Option Nat)) :
    Result (List (Option Nat)) := do
  let btreeId ← JsetEntry.btreeId sb iter
  if btreeId < out.length then return out.set btreeId (some iter) else .error .badIndex

def findJournalEntriesFrom (sb : Bytes) (stop : Nat) :
    Nat → Nat → List (Option Nat) → Result (List (Option Nat))
  | 0, _, _ => .error .fuel
  | fuel + 1, iter, out =>
      if iter < stop then do
        let u64s ← JsetEntry.u64s sb iter
        let type ← JsetEntry.type sb iter
        let out ← if type = jsetEntryBtreeRoot then storeRoot sb iter out else .ok out
        if u64s = 0 then return out
        else findJournalEntriesFrom sb stop fuel (iter + (u64s + 1) * u64sSize) out
      else .ok out

def findJournalEntries (sb : Bytes) (field : Nat) : Result (List (Option Nat)) := do
  let u64s ← SbField.u64s sb field
  -- every entry is a word or more, so the bytes of the superblock bound the loop
  findJournalEntriesFrom sb (field + wrap32 (u64s * u64sSize)) (sb.size + 2)
    (field + sizeofFieldClean) (List.replicate btreeIdNr none)

def BCacheFSReader.new (env : Env) (fuel : Nat) (world : World) :
    Result (BCacheFSReader × World) := do
  let (sblock, world) ← readSuperblock env world
  let sb ← world.deref sblock
  match ← findSuperblockField sb sbFieldClean fuel with
  | none => .error .assertion
  | some field =>
      let btreeRoots ← findJournalEntries sb field
      return ({ sblock := sblock, btreeRoots := btreeRoots }, world)

def btreeNodeSize (sb : Bytes) : Result Nat := do
  let flags ← Superblock.flags0 sb
  return extractBitflag flags 12 28 % 2 ^ 16 * sectorSize

def btreeBlockSize (sb : Bytes) : Result Nat := do
  let blockSize ← Superblock.blockSize sb
  return blockSize * sectorSize

end Bcachefs
