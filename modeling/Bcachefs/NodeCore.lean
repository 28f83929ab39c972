import Bcachefs.Format

/-! The iterators inside one btree node. Their pointers all point into the node,
so a pointer is an offset from the node's first byte. -/

namespace Bcachefs

open ByteString Iteration

/-- `none` is the null pointer of a default-constructed iterator. -/
structure BKeyIterator where
  iter : Option Nat
  stop : Option Nat
  deriving DecidableEq, Repr

namespace BKeyIterator

def empty : BKeyIterator := { iter := none, stop := none }

def new (node : Bytes) (bset : Nat) : Result BKeyIterator := do
  let u64s ← BSet.u64s node bset
  -- `bset + u64s * BCH_U64S_SIZE` counts in units of `sizeof(BSet)`
  return { iter := some (bset + sizeofBSet)
           stop := some (bset + sizeofBSet * (u64s * u64sSize)) }

def next (node : Bytes) (it : BKeyIterator) : Result (Option Nat × BKeyIterator) :=
  match it.iter with
  | none => .ok (none, it)
  | some val =>
      if it.iter = it.stop then .ok (none, it)
      else do
        let u64s ← BKey.u64s node val
        let it := { it with iter := some (val + u64s * u64sSize) }
        if u64s = 0 then return (none, it) else return (some val, it)

end BKeyIterator

structure BSetIterator where
  iter : Nat
  stop : Nat
  deriving DecidableEq, Repr

namespace BSetIterator

def new (size : Nat) : Result BSetIterator :=
  if BTreeNode.keys < size then .ok { iter := BTreeNode.keys, stop := size }
  else .error .assertion

def offset (node : Bytes) (blockSize iter : Nat) : Result Nat := do
  let u64s ← BSet.u64s node iter
  if blockSize = 0 then .error .divisionByZero
  else
    let cb := iter + (sizeofBSet + u64s * u64sSize)
    return cb + (blockSize - cb % blockSize + sizeofCsum)

def nextWithin (node : Bytes) (blockSize : Nat) :
    Nat → BSetIterator → Result (Option Nat × BSetIterator)
  | 0, _ => .error .fuel
  | fuel + 1, it =>
      if it.stop ≤ it.iter then .ok (none, it)
      else do
        let val := it.iter
        let iter ← offset node blockSize it.iter
        let it := { it with iter := iter }
        let u64s ← BSet.u64s node val
        if u64s = 0 then nextWithin node blockSize fuel it else return (some val, it)

def next (node : Bytes) (blockSize : Nat) (it : BSetIterator) :
    Result (Option Nat × BSetIterator) :=
  -- every call moves `iter` forward, so the bytes left bound the recursion
  nextWithin node blockSize (it.stop - it.iter + 1) it

end BSetIterator

def bsetKeys (node : Bytes) (bset : Nat) : Result (List Nat) := do
  let it ← BKeyIterator.new node bset
  drain (BKeyIterator.next node) .fuel (node.size + 1) it

def nodeKeys (node : Bytes) (blockSize : Nat) : Result (List Nat) := do
  let it ← BSetIterator.new node.size
  let bsets ← drain (BSetIterator.next node blockSize) .fuel (node.size + 1) it
  let keys ← bsets.mapM (bsetKeys node)
  return keys.flatten

end Bcachefs
