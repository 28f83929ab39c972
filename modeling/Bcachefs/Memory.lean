import Bcachefs.Support.Bytes
import Bcachefs.Support.Iteration

/-! The machine the reader runs on: blocks of memory, one file and its single
read position. `malloc` hands out blocks with arbitrary contents, `fread` stores
the bytes available up to the end of the file and leaves the rest untouched. -/

namespace Bcachefs

open ByteString Iteration

/-- Why a call does not return a value. `fuel` is the model's own bound. -/
inductive Fault
  | outOfBounds
  | nullPointer
  | badIndex
  | foreignPointer
  | divisionByZero
  | assertion
  | fuel
  deriving DecidableEq, Repr

abbrev Result := Except Fault

/-- What a run cannot change: the image, and the bytes `malloc` hands out. -/
structure Env where
  image : Bytes
  junk : Nat → Nat → UInt8

/-- Freed blocks stay in the heap: the reader never uses one again, and block
numbers are never reused. -/
structure World where
  heap : List Bytes
  position : Nat

structure Ptr where
  block : Nat
  offset : Nat
  deriving DecidableEq, Repr

def World.start : World := { heap := [], position := 0 }

def load (source : Bytes) (count index : Nat) : Result Nat :=
  if index + count ≤ source.size then .ok (source.number count index) else .error .outOfBounds

namespace World

def deref (world : World) (block : Nat) : Result Bytes :=
  match world.heap[block]? with
  | some bytes => .ok bytes
  | none => .error .outOfBounds

def malloc (env : Env) (size : Nat) (world : World) : Nat × World :=
  (world.heap.length,
    { world with heap := world.heap ++ [Bytes.ofFn size (env.junk world.heap.length)] })

def realloc (env : Env) (block size : Nat) (world : World) : Result (Nat × World) := do
  let old ← world.deref block
  let bytes := Bytes.ofFn size fun index =>
    if index < old.size then old.byte index else env.junk world.heap.length index
  return (world.heap.length, { world with heap := world.heap ++ [bytes] })

def fseek (position : Nat) (world : World) : World := { world with position := position }

def fread (env : Env) (block size : Nat) (world : World) : Result World := do
  let old ← world.deref block
  if old.size < size then throw .outOfBounds
  let delivered := min size (env.image.size - world.position)
  let bytes := Bytes.ofFn old.size fun index =>
    if index < delivered then env.image.byte (world.position + index) else old.byte index
  return { heap := world.heap.set block bytes, position := world.position + delivered }

def Extends (before after : World) : Prop :=
  ∀ (block : Nat) (bytes : Bytes), before.heap[block]? = some bytes →
    after.heap[block]? = some bytes

theorem Extends.refl (world : World) : Extends world world := fun _ _ found => found

theorem Extends.trans {first second third : World} (left : Extends first second)
    (right : Extends second third) : Extends first third :=
  fun block bytes found => right block bytes (left block bytes found)

theorem deref_ok {world : World} {block : Nat} {bytes : Bytes} :
    world.deref block = .ok bytes ↔ world.heap[block]? = some bytes := by
  unfold deref
  split
  · rename_i found
    simp [found]
  · rename_i missing
    simp [missing]

end World

theorem load_ok {source : Bytes} {count index value : Nat} :
    load source count index = .ok value ↔
      index + count ≤ source.size ∧ source.number count index = value := by
  unfold load
  split <;> simp_all

theorem load_inside {source : Bytes} {count index : Nat} (bound : index + count ≤ source.size) :
    load source count index = .ok (source.number count index) := by
  simp [load, bound]

end Bcachefs
