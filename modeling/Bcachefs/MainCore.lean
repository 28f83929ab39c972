import Bcachefs.WalkCore
import Bcachefs.DirentName

/-! `main`: the listing of all extents and then all dirents, as the bytes it prints. The lines
of the log, among them the version of the build, are left out. -/

namespace Bcachefs

open ByteString Iteration

abbrev Text := List UInt8

def ascii (text : String) : Text := text.toList.map fun char => UInt8.ofNat char.toNat

def decimal (value : Nat) : Text := (Nat.toDigits 10 value).map fun digit => UInt8.ofNat digit.toNat

def newline : Text := [10]

def BKey.print (block : Bytes) (key : Nat) : Result Text := do
  let u64s ← BKey.u64s block key
  let format ← BKey.format block key
  let type ← BKey.type block key
  let size ← BKey.size block key
  let offset ← BKey.offset block key
  return ascii " - bkey: u:" ++ decimal u64s ++ ascii ", f:" ++ decimal format ++
    ascii ", t:" ++ decimal type ++ ascii ", s:" ++ decimal size ++ ascii ", o:" ++ decimal offset

def Extend.text (ext : Extend) : Text :=
  ascii "f:" ++ decimal ext.fileOffset ++ ascii " i:" ++ decimal ext.inode ++
    ascii " o:" ++ decimal ext.offset ++ ascii " s:" ++ decimal ext.size

/-- Standard output. `printf` always writes to it, `cout` until its `badbit` is set. -/
structure Stream where
  text : Text
  bad : Bool
  deriving DecidableEq

namespace Stream

def start : Stream := { text := [], bad := false }

def printf (out : Stream) (text : Text) : Stream := { out with text := out.text ++ text }

def put (out : Stream) (text : Text) : Stream :=
  if out.bad then out else { out with text := out.text ++ text }

end Stream

def PrintedEntry.fields (dir : PrintedEntry) : Text :=
  ascii "p:" ++ decimal dir.parentInode ++ ascii " i:" ++ decimal dir.inode ++
    ascii " t:" ++ decimal dir.type ++ ascii " s:"

/-- `operator<<`; a stream that is given a null pointer for a string sets its `badbit`. -/
def PrintedEntry.put (dir : PrintedEntry) (out : Stream) : Stream :=
  match dir.name with
  | none => { out.put dir.fields with bad := true }
  | some name => (out.put dir.fields).put (name ++ ascii " ")

def DirectoryEntry.printed (dir : DirectoryEntry) (world : World) : Result PrintedEntry :=
  match dir.name with
  | none => dir.print world 0
  | some name => do
      let block ← world.deref name.block
      dir.print world (block.size + 1)

def extentItem (it : BTreeIterator) (world : World) (key : Ptr) (out : Stream) : Result Stream := do
  let block ← world.deref key.block
  let line ← BKey.print block key.offset
  let out := (out.printf line).put newline
  let ext ← it.extend world (some key)
  return ((out.put (ascii "    - ext ")).put ext.text).put newline

def direntItem (it : BTreeIterator) (world : World) (key : Ptr) (out : Stream) : Result Stream := do
  let block ← world.deref key.block
  let line ← BKey.print block key.offset
  let out := (out.printf line).put newline
  let dir ← it.directory world (some key)
  let entry ← dir.printed world
  return (entry.put (out.put (ascii "    - dirent "))).put newline

def listFrom (env : Env) (reader : BCacheFSReader)
    (item : BTreeIterator → World → Ptr → Stream → Result Stream) (callFuel : Nat) :
    Nat → BTreeIterator → World → Stream → Result (Stream × World)
  | 0, _, _, _ => .error .fuel
  | fuel + 1, it, world, out => do
      let (key, it, world) ← it.nextKey env reader callFuel world
      match key with
      | none => return (out, world)
      | some key =>
          let out ← item it world key out
          listFrom env reader item callFuel fuel it world out

/-- What is on standard output when `main` returns 0. -/
def main (env : Env) (fuel : Nat) : Result Text := do
  let (reader, world) ← BCacheFSReader.new env fuel World.start
  let (it, world) ← reader.iterator env fuel .extents world
  let (out, world) ← listFrom env reader extentItem fuel fuel it world Stream.start
  let (it, world) ← reader.iterator env fuel .dirents world
  let (out, _) ← listFrom env reader direntItem fuel fuel it world out
  return out.text

end Bcachefs
