import Mathlib.Data.Fin.VecNotation
import Mathlib.Data.Fintype.Basic
import Bcachefs.Memory

/-! The on-disk structures of `cbcachefs.h` as overlays: a field is a read at
the field's offset from a pointer to the structure. -/

namespace Bcachefs

open ByteString Iteration

abbrev sbSector := 8
abbrev sectorSize := 512
abbrev u64sSize := 8

abbrev sizeofCsum := 16
abbrev sizeofBSet := 24
abbrev sizeofBTreePtr := 40
abbrev sizeofSuperblock := 752
abbrev sizeofFieldClean := 24

abbrev bkeyU64s := 5
abbrev keyFormatLocalBtree := 0
abbrev keyFormatCurrent := 1

abbrev keyTypeDeleted := 0
abbrev keyTypeExtent := 6
abbrev keyTypeDirent := 10
abbrev keyTypeInlineData := 17
abbrev keyTypeBtreePtrV2 := 18

abbrev sbFieldClean := 6
abbrev jsetEntryBtreeRoot := 1
abbrev btreeIdNr := 8

inductive BTreeType
  | extents | inodes | dirents | xattrs | alloc | quotas | stripes | reflink
  deriving DecidableEq, Repr

def BTreeType.id : BTreeType → Nat
  | extents => 0
  | inodes => 1
  | dirents => 2
  | xattrs => 3
  | alloc => 4
  | quotas => 5
  | stripes => 6
  | reflink => 7

theorem BTreeType.id_lt (type : BTreeType) : type.id < btreeIdNr := by
  cases type <;> decide

def wrap32 (value : Nat) : Nat := value % 2 ^ 32
def wrap64 (value : Nat) : Nat := value % 2 ^ 64

def extractBitflag (bitfield firstBit lastBit : Nat) : Nat :=
  wrap64 (bitfield * 2 ^ (64 - lastBit)) / 2 ^ (64 - lastBit + firstBit)

namespace Superblock

def magic (block : Bytes) : Result Nat := load block 16 24
def blockSize (block : Bytes) : Result Nat := load block 2 120
def u64s (block : Bytes) : Result Nat := load block 4 124
def flags0 (block : Bytes) : Result Nat := load block 8 144

end Superblock

def bcacheMagic : Nat := 0x816dba487ff56582ca451a4ef67385c6

namespace SbField

def u64s (block : Bytes) (field : Nat) : Result Nat := load block 4 field
def type (block : Bytes) (field : Nat) : Result Nat := load block 4 (field + 4)

end SbField

namespace JsetEntry

def u64s (block : Bytes) (entry : Nat) : Result Nat := load block 2 entry
def btreeId (block : Bytes) (entry : Nat) : Result Nat := load block 1 (entry + 2)
def type (block : Bytes) (entry : Nat) : Result Nat := load block 1 (entry + 4)
def start (entry : Nat) : Nat := entry + 8

end JsetEntry

namespace ExtentPtr

def unused (block : Bytes) (ptr : Nat) : Result Nat := do
  let word ← load block 8 ptr
  return word / 2 ^ 2 % 2

def offset (block : Bytes) (ptr : Nat) : Result Nat := do
  let word ← load block 8 ptr
  return word / 2 ^ 4 % 2 ^ 44

end ExtentPtr

def BTreePtr.start (ptr : Nat) : Nat := ptr + sizeofBTreePtr

namespace BSet

def u64s (node : Bytes) (bset : Nat) : Result Nat := load node 2 (bset + 22)

end BSet

namespace BKey

def u64s (block : Bytes) (key : Nat) : Result Nat := load block 1 key

def format (block : Bytes) (key : Nat) : Result Nat := do
  let byte ← load block 1 (key + 1)
  return byte % 2 ^ 7

def needsWhiteout (block : Bytes) (key : Nat) : Result Nat := do
  let byte ← load block 1 (key + 1)
  return byte / 2 ^ 7

def type (block : Bytes) (key : Nat) : Result Nat := load block 1 (key + 2)
def versionHi (block : Bytes) (key : Nat) : Result Nat := load block 4 (key + 4)
def versionLo (block : Bytes) (key : Nat) : Result Nat := load block 8 (key + 8)
def size (block : Bytes) (key : Nat) : Result Nat := load block 4 (key + 16)
def snapshot (block : Bytes) (key : Nat) : Result Nat := load block 4 (key + 20)
def offset (block : Bytes) (key : Nat) : Result Nat := load block 8 (key + 24)
def inode (block : Bytes) (key : Nat) : Result Nat := load block 8 (key + 32)

end BKey

namespace BDirEnt

def inum (block : Bytes) (value : Nat) : Result Nat := load block 8 value
def type (block : Bytes) (value : Nat) : Result Nat := load block 1 (value + 8)
def name (value : Nat) : Nat := value + 9

end BDirEnt

structure BKeyFormat where
  keyU64s : Nat
  nrFields : Nat
  bitsPerField : Fin 6 → Nat
  fieldOffset : Fin 6 → Nat
  deriving DecidableEq

def bkeyFormatShort : BKeyFormat where
  keyU64s := 3
  nrFields := 6
  bitsPerField := ![64, 64, 32, 0, 0, 0]
  fieldOffset := fun _ => 0

namespace BTreeNode

abbrev format := 80
abbrev keys := 136

def formatOf (node : Bytes) : BKeyFormat where
  keyU64s := node.number 1 format
  nrFields := node.number 1 (format + 1)
  bitsPerField field := node.number 1 (format + 2 + field.val)
  fieldOffset field := node.number 8 (format + 8 + 8 * field.val)

def loadFormat (node : Bytes) : Result BKeyFormat :=
  if format + 56 ≤ node.size then .ok (formatOf node) else .error .outOfBounds

end BTreeNode

def getValue (node block : Bytes) (key : Nat) : Result Nat := do
  let format ← BTreeNode.loadFormat node
  let keyFormat ← BKey.format block key
  let keyU64s := if keyFormat = keyFormatLocalBtree then format.keyU64s else bkeyU64s
  return key + keyU64s * u64sSize

end Bcachefs
