import Bcachefs.NodeCore
import Bcachefs.ReaderCore

/-! `BTreeIterator`: the traversal of one btree through a chain of iterators. -/

namespace Bcachefs

open ByteString Iteration

/-- `iter` is the block of the node buffer, which a copy of the iterator shares. -/
structure BTreeIterator where
  type : BTreeType
  ptr : Ptr
  iter : Nat
  bsetIterator : BSetIterator
  keyIterator : BKeyIterator
  children : List BTreeIterator

def btreePtrAddress (block : Bytes) (ptr : Nat) : Result Nat := do
  let offset ← ExtentPtr.offset block (BTreePtr.start ptr)
  return offset * sectorSize

namespace BTreeIterator

def loadBtreeNode (env : Env) (reader : BCacheFSReader) (ptr : Ptr) (world : World) :
    Result (Nat × World) := do
  let sb ← world.deref reader.sblock
  let size ← btreeNodeSize sb
  let (node, world) := world.malloc env size
  let source ← world.deref ptr.block
  let offset ← btreePtrAddress source ptr.offset
  let world := world.fseek offset
  let world ← world.fread env node size
  return (node, world)

def new (env : Env) (reader : BCacheFSReader) (ptr : Ptr) (type : BTreeType) (world : World) :
    Result (BTreeIterator × World) := do
  let (iter, world) ← loadBtreeNode env reader ptr world
  let sb ← world.deref reader.sblock
  let size ← btreeNodeSize sb
  let bsetIterator ← BSetIterator.new size
  return ({ type := type, ptr := ptr, iter := iter, bsetIterator := bsetIterator
            keyIterator := BKeyIterator.empty, children := [] }, world)

/-- `_next_key`; every call of the source is one unit of fuel. -/
def nextKey (env : Env) (reader : BCacheFSReader) :
    Nat → BTreeIterator → World → Result (Option Ptr × BTreeIterator × World)
  | 0, _, _ => .error .fuel
  | fuel + 1, it, world =>
      match it.children.getLast? with
      | some nodeiter => do
          let (key, nodeiter, world) ← nextKey env reader fuel nodeiter world
          match key with
          | none => nextKey env reader fuel { it with children := it.children.dropLast } world
          | some key =>
              return (some key, { it with children := it.children.dropLast ++ [nodeiter] }, world)
      | none => do
          let node ← world.deref it.iter
          let (key, keyIterator) ← it.keyIterator.next node
          let it := { it with keyIterator := keyIterator }
          match key with
          | some key => do
              let type ← BKey.type node key
              if type = keyTypeBtreePtrV2 then do
                let value ← getValue node node key
                let (child, world) ← new env reader ⟨it.iter, value⟩ it.type world
                nextKey env reader fuel { it with children := it.children ++ [child] } world
              else return (some ⟨it.iter, key⟩, it, world)
          | none => do
              let sb ← world.deref reader.sblock
              let blockSize ← btreeBlockSize sb
              let (bset, bsetIterator) ← it.bsetIterator.next node blockSize
              let it := { it with bsetIterator := bsetIterator }
              match bset with
              | some bset => do
                  let keyIterator ← BKeyIterator.new node bset
                  nextKey env reader fuel { it with keyIterator := keyIterator } world
              | none => return (none, it, world)

def nextValue (env : Env) (reader : BCacheFSReader) (fuel : Nat) (it : BTreeIterator)
    (world : World) : Result (Option Ptr × BTreeIterator × World) := do
  let (key, it, world) ← nextKey env reader fuel it world
  -- `get_value` takes the format of this iterator's node, whichever node the key lies in
  let node ← world.deref it.iter
  match key with
  | none => do
      let _ ← BTreeNode.loadFormat node
      -- and reads the key's format bits without a look at the pointer
      .error .nullPointer
  | some key => do
      let block ← world.deref key.block
      let value ← getValue node block key.offset
      return (some ⟨key.block, value⟩, it, world)

def hasChildren (it : BTreeIterator) : Bool := decide (0 < it.children.length)

def iterator (it : BTreeIterator) : Result BTreeIterator :=
  if it.hasChildren then
    match it.children[it.children.length]? with
    | some child => .ok child
    | none => .error .outOfBounds
  else .ok it

end BTreeIterator

def BCacheFSReader.iterator (env : Env) (reader : BCacheFSReader) (fuel : Nat)
    (type : BTreeType) (world : World) : Result (BTreeIterator × World) :=
  match reader.btreeRoots[type.id]? with
  | none => .error .badIndex
  | some none => .error .nullPointer
  | some (some entry) => do
      let sb ← world.deref reader.sblock
      -- the debug line reads the entry first
      let _ ← JsetEntry.btreeId sb entry
      let btreePtr ← findBtreeRoot sb entry fuel
      BTreeIterator.new env reader ⟨reader.sblock, btreePtr⟩ type world

end Bcachefs
