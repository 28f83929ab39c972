import Bcachefs.TreeCore

/-! `parse_bkey`, `directory` and `extend`: what a returned key stands for. -/

namespace Bcachefs

open ByteString Iteration

def benzUintXXAsUint64 (block : Bytes) (bytes : Int) (width : Nat) : Result Nat :=
  if width = 64 ∨ width = 32 ∨ width = 16 ∨ width = 8 then
    if bytes < 0 then .error .outOfBounds else load block (width / 8) bytes.toNat
  else .ok (2 ^ 64 - 1)

structure BKeyLocal where
  u64s : Nat
  format : Nat
  needsWhiteout : Nat
  type : Nat
  versionHi : Nat
  versionLo : Nat
  size : Nat
  snapshot : Nat
  offset : Nat
  inode : Nat
  keyU64s : Nat
  deriving DecidableEq, Repr

namespace BKeyLocal

def setField (ret : BKeyLocal) (field : Fin 6) (value : Nat) : BKeyLocal :=
  match field with
  | 0 => { ret with inode := value }
  | 1 => { ret with offset := value }
  | 2 => { ret with snapshot := wrap32 value }
  | 3 => { ret with size := wrap32 value }
  | 4 => { ret with versionHi := wrap32 value }
  | 5 => { ret with versionLo := value }

def parseField (block : Bytes) (format : BKeyFormat) (field : Fin 6) (state : Int × BKeyLocal) :
    Result (Int × BKeyLocal) :=
  let width := format.bitsPerField field
  if width = 0 then .ok state
  else do
    let bytes := state.1 - (width / 8 : Nat)
    let value ← benzUintXXAsUint64 block bytes width
    return (bytes, state.2.setField field value)

end BKeyLocal

def parseBkey (block : Bytes) (key : Nat) (format : BKeyFormat) : Result BKeyLocal := do
  let u64s ← BKey.u64s block key
  let keyFormat ← BKey.format block key
  let needsWhiteout ← BKey.needsWhiteout block key
  let type ← BKey.type block key
  let ret : BKeyLocal :=
    { u64s := u64s, format := keyFormat, needsWhiteout := needsWhiteout, type := type
      versionHi := 0, versionLo := 0, size := 0, snapshot := 0, offset := 0, inode := 0
      keyU64s := 0 }
  if keyFormat = keyFormatLocalBtree ∧ format = bkeyFormatShort then do
    -- the overlay of `struct bkey_short`
    let snapshot ← load block 4 (key + 4)
    let offset ← load block 8 (key + 8)
    let inode ← load block 8 (key + 16)
    return { ret with snapshot := snapshot, offset := offset, inode := inode
                      keyU64s := format.keyU64s }
  else if keyFormat = keyFormatLocalBtree ∧ format.fieldOffset = fun _ => 0 then do
    let stop : Int := key + format.keyU64s * u64sSize
    let (_, ret) ← (List.finRange 6).foldlM
      (fun state field => BKeyLocal.parseField block format field state) (stop, ret)
    return { ret with keyU64s := format.keyU64s }
  else if keyFormat = keyFormatCurrent then do
    let versionHi ← BKey.versionHi block key
    let versionLo ← BKey.versionLo block key
    let size ← BKey.size block key
    let snapshot ← BKey.snapshot block key
    let offset ← BKey.offset block key
    let inode ← BKey.inode block key
    return { ret with versionHi := versionHi, versionLo := versionLo, size := size
                      snapshot := snapshot, offset := offset, inode := inode
                      keyU64s := bkeyU64s }
  else return ret

structure DirectoryEntry where
  parentInode : Nat
  inode : Nat
  type : Nat
  name : Option Ptr
  deriving DecidableEq, Repr

def DirectoryEntry.empty : DirectoryEntry := { parentInode := 0, inode := 0, type := 0, name := none }

@[ext]
structure Extend where
  inode : Nat
  fileOffset : Nat
  offset : Nat
  size : Nat
  deriving DecidableEq, Repr

def Extend.empty : Extend := { inode := 0, fileOffset := 0, offset := 0, size := 0 }

def directoryIn (btree block : Bytes) (key : Ptr) : Result DirectoryEntry := do
  let value ← getValue btree block key.offset
  let format ← BTreeNode.loadFormat btree
  let bkey ← parseBkey block key.offset format
  let inum ← BDirEnt.inum block value
  let type ← BDirEnt.type block value
  return { parentInode := bkey.inode, inode := inum, type := type
           name := some ⟨key.block, BDirEnt.name value⟩ }

/-- The part of `extend` that decodes the key with the format of `btree`, the
buffer in block `iter`; `ptr` is the pointer `btree` was loaded from. The
expressions keep their C++ widths: `size * 512` is 32 bits wide, the others 64. -/
def extendIn (world : World) (ptr : Ptr) (iter : Nat) (btree block : Bytes) (key : Ptr)
    (type : Nat) : Result Extend := do
  let format ← BTreeNode.loadFormat btree
  let _ ← parseBkey block key.offset format
  let val ← getValue btree block key.offset
  let offset ← BKey.offset block key.offset
  let size ← BKey.size block key.offset
  let fileOffset := wrap64 (wrap64 (offset + 2 ^ 64 - size) * sectorSize)
  if type = keyTypeExtent then do
    let valueOffset ← ExtentPtr.offset block val
    return { Extend.empty with
      fileOffset := fileOffset
      offset := wrap64 (valueOffset * sectorSize)
      size := wrap32 (size * sectorSize) }
  else do
    let u64s ← BKey.u64s block key.offset
    let source ← world.deref ptr.block
    let start ← btreePtrAddress source ptr.offset
    -- `val - btree` is only defined inside one buffer
    if key.block ≠ iter then .error .foreignPointer
    else return { Extend.empty with
      fileOffset := fileOffset
      offset := wrap64 (val + start)
      size := wrap64 (u64s * u64sSize + 2 ^ 64 - (val - key.offset)) }

namespace BTreeIterator

def directory (it : BTreeIterator) (world : World) (key : Option Ptr) : Result DirectoryEntry :=
  match key with
  | none => .ok DirectoryEntry.empty
  | some key => do
      let block ← world.deref key.block
      let type ← BKey.type block key.offset
      if type = keyTypeDirent then do
        let iter ← it.iterator
        let btree ← world.deref iter.iter
        directoryIn btree block key
      else return DirectoryEntry.empty

def extend (it : BTreeIterator) (world : World) (key : Option Ptr) : Result Extend :=
  match key with
  | none => .ok Extend.empty
  | some key => do
      let block ← world.deref key.block
      let type ← BKey.type block key.offset
      if type = keyTypeExtent ∨ type = keyTypeInlineData then do
        let iter ← it.iterator
        let btree ← world.deref iter.iter
        -- the disk address of inline data comes from `_ptr`, not from `iter._ptr`
        extendIn world it.ptr iter.iter btree block key type
      else return Extend.empty

end BTreeIterator

end Bcachefs
