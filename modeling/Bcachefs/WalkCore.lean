import Bcachefs.DecodeCore

/-! The loops of `main`: open the image, take the iterator of a btree and decode every
key that `next_key` returns. -/

namespace Bcachefs

open ByteString Iteration

/-- A returned key, the buffer it was returned in, and what the accessors make of it;
where one of them fails the walk still goes on. -/
structure Decoded where
  key : Ptr
  buffer : Bytes
  entry : Result DirectoryEntry
  ext : Result Extend

def walkFrom (env : Env) (reader : BCacheFSReader) (callFuel : Nat) :
    Nat → BTreeIterator → World → Result (List Decoded)
  | 0, _, _ => .error .fuel
  | fuel + 1, it, world => do
      let (key, it, world) ← it.nextKey env reader callFuel world
      match key with
      | none => return []
      | some key =>
          let buffer ← world.deref key.block
          let rest ← walkFrom env reader callFuel fuel it world
          return { key := key, buffer := buffer, entry := it.directory world (some key)
                   ext := it.extend world (some key) } :: rest

def walk (env : Env) (fuel : Nat) (type : BTreeType) : Result (Ptr × List Decoded) := do
  let (reader, world) ← BCacheFSReader.new env fuel World.start
  let (it, world) ← reader.iterator env fuel type world
  let keys ← walkFrom env reader fuel fuel it world
  return (it.ptr, keys)

end Bcachefs
