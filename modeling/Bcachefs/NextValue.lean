import Bcachefs.Traversal

/-! `next` and `next_key` on two iterators over one tree, side by side. -/

namespace Bcachefs

open ByteString Iteration Flattening

def ReturnsValue (env : Env) (reader : BCacheFSReader) (before : BTreeIterator × World)
    (value : Option Ptr) (after : BTreeIterator × World) : Prop :=
  ∃ fuel, BTreeIterator.nextValue env reader fuel before.1 before.2 = .ok (value, after.1, after.2)

/-- The value of the key by the format of the node that holds it, in a node with the
same bytes; for null null. -/
def ValueOf (world : World) : Option Ptr → Option Ptr → Prop
  | none, none => True
  | some key, some value => ∃ node offset, world.heap[key.block]? = some node ∧
      getValue node node key.offset = .ok offset ∧ world.view value = some (node, offset)
  | _, _ => False

def InStep (env : Env) (reader : BCacheFSReader) :
    Nat → BTreeIterator → BTreeIterator → World → Prop
  | 0, _, _, _ => True
  | steps + 1, left, right, world =>
      ∃ key rightAfter middle value leftAfter after,
        Returns env reader (right, world) key (rightAfter, middle) ∧
        ReturnsValue env reader (left, middle) value (leftAfter, after) ∧
        ValueOf after key value ∧ InStep env reader steps leftAfter rightAfter after

def RootLength (root : Bytes) (key : TreeKey) : Prop :=
  key.node.number 1 (key.key + 1) % 2 ^ 7 = keyFormatLocalBtree →
    (BTreeNode.formatOf key.node).keyU64s = (BTreeNode.formatOf root).keyU64s

instance {root : Bytes} {key : TreeKey} : Decidable (RootLength root key) :=
  inferInstanceAs (Decidable (_ → _))

theorem getValue_ok {node block : Bytes} {key : Nat} (room : BTreeNode.keys ≤ node.size)
    (inside : key + 2 ≤ block.size) :
    getValue node block key = .ok (key +
      (if block.number 1 (key + 1) % 2 ^ 7 = keyFormatLocalBtree then
        (BTreeNode.formatOf node).keyU64s else bkeyU64s) * u64sSize) := by
  have loaded : BTreeNode.loadFormat node = .ok (BTreeNode.formatOf node) := if_pos room
  have byte : load block 1 (key + 1) = .ok _ := load_inside (by omega)
  rw [getValue, loaded, ok_bind, BKey.format, byte]
  rfl

theorem getValue_root_iff {root : Bytes} {key : TreeKey} (rootRoom : BTreeNode.keys ≤ root.size)
    (room : BTreeNode.keys ≤ key.node.size) (inside : key.key + 2 ≤ key.node.size) :
    getValue root key.node key.key = getValue key.node key.node key.key ↔
      RootLength root key := by
  rw [getValue_ok rootRoom inside, getValue_ok room inside, RootLength]
  simp only [Except.ok.injEq]
  by_cases packed : key.node.number 1 (key.key + 1) % 2 ^ 7 = keyFormatLocalBtree
  · simp only [packed, if_true, true_implies]
    simp only [u64sSize]
    omega
  · simp only [packed, if_false, false_implies]

section

variable {env : Env} {reader : BCacheFSReader} {size blockSize : Nat} {image root : Bytes}

theorem nodeKeys_room {node : Bytes} {keys : List Nat}
    (scanned : nodeKeys node blockSize = .ok keys) : BTreeNode.keys ≤ node.size := by
  obtain ⟨it, created, _⟩ := nodeKeys_rest scanned
  unfold BSetIterator.new at created
  split at created
  · omega
  · cases created

def Readable (key : TreeKey) : Prop :=
  BTreeNode.keys ≤ key.node.size ∧ key.key + 2 ≤ key.node.size

theorem flat_readableKeys {keys flat : List TreeKey}
    (expanded : Flat (Expands image size blockSize) keys flat)
    (room : ∀ key ∈ keys, BTreeNode.keys ≤ key.node.size) : ∀ key ∈ flat, Readable key := by
  intro key member
  have kept := expanded.keeps ?_ room key member
  · obtain ⟨inside, plain⟩ := kept
    cases plain with
    | plain typed _ =>
        have header := (load_ok.mp typed).1
        exact ⟨inside, by omega⟩
  · intro pointer inner entered _ other found
    cases entered with
    | pointer _ _ _ _ scanned =>
        obtain ⟨offset, _, rfl⟩ := List.mem_map.mp found
        exact nodeKeys_room scanned

theorem returnsValue_iff {before after : BTreeIterator × World} {value : Option Ptr} :
    ReturnsValue env reader before value after ↔ ∃ key node block offset,
      Returns env reader before (some key) after ∧
      after.2.heap[after.1.iter]? = some node ∧ after.2.heap[key.block]? = some block ∧
      getValue node block key.offset = .ok offset ∧ value = some ⟨key.block, offset⟩ := by
  constructor
  · rintro ⟨fuel, returned⟩
    obtain ⟨⟨result, it, world⟩, called, rest⟩ := bind_eq_ok.mp returned
    obtain ⟨node, held, rest⟩ := bind_eq_ok.mp rest
    cases result with
    | none =>
        obtain ⟨_, _, failed⟩ := bind_eq_ok.mp rest
        cases failed
    | some key =>
        obtain ⟨block, found, rest⟩ := bind_eq_ok.mp rest
        obtain ⟨offset, valued, same⟩ := bind_eq_ok.mp rest
        cases same
        exact ⟨key, node, block, offset, ⟨fuel, called⟩, World.deref_ok.mp held,
          World.deref_ok.mp found, valued, rfl⟩
  · rintro ⟨key, node, block, offset, ⟨fuel, called⟩, held, found, valued, rfl⟩
    refine ⟨fuel, ?_⟩
    rw [BTreeIterator.nextValue, called, ok_bind]
    dsimp only
    rw [World.deref_ok.mpr held, ok_bind, World.deref_ok.mpr found, ok_bind, valued, ok_bind]
    rfl

theorem Returns.unique {before left right : BTreeIterator × World} {leftKey rightKey : Option Ptr}
    (first : Returns env reader before leftKey left)
    (second : Returns env reader before rightKey right) : leftKey = rightKey ∧ left = right := by
  obtain ⟨same, it, world⟩ := first.returned.unique second.returned
  exact ⟨same, Prod.ext it world⟩

structure Pair (env : Env) (reader : BCacheFSReader) (size blockSize : Nat) (root : Bytes)
    (world : World) (left right : BTreeIterator) (flat : List TreeKey) : Prop where
  mounted : Mounted reader size blockSize world
  held : world.heap[left.iter]? = some root
  left : Remaining env.image size blockSize world 0 left flat
  right : Remaining env.image size blockSize world 0 right flat
  room : BTreeNode.keys ≤ root.size
  readable : ∀ key ∈ flat, Readable key

variable {world : World} {left right : BTreeIterator} {flat : List TreeKey} {key : TreeKey}
  {steps : Nat}

theorem Pair.exhausted (pair : Pair env reader size blockSize root world left right []) :
    ¬InStep env reader (steps + 1) left right world := by
  rintro ⟨_, _, middle, _, leftAfter, after, called, valued, _, _⟩
  have grown := called.returned.grows
  obtain ⟨key, _, _, _, returned, _⟩ := returnsValue_iff.mp valued
  have remaining := pair.left.extends grown
  have delivered := @returns_delivered env reader size blockSize 0 (left, middle) (leftAfter, after)
    (some key) [] (pair.mounted.extends grown) remaining returned
  cases delivered.1

theorem Pair.calls (pair : Pair env reader size blockSize root world left right (key :: flat)) :
    ∃ ptr rightAfter middle other leftAfter after,
      Returned env reader right world (some ptr) rightAfter middle ∧
      Returned env reader left middle (some other) leftAfter after ∧
      Pair env reader size blockSize root after leftAfter rightAfter flat ∧
      after.view ptr = some (key.node, key.key) ∧ after.view other = some (key.node, key.key) := by
  obtain ⟨_, rightAfter, middle, rightCall, ptr, _, _, rfl, shown, rightLeft, _⟩ :=
    nextKey_delivered env pair.mounted pair.right
  have grown := rightCall.grows
  obtain ⟨_, leftAfter, after, leftCall, other, _, _, rfl, leftShown, leftLeft, _⟩ :=
    nextKey_delivered env (pair.mounted.extends grown) (pair.left.extends grown)
  have later := leftCall.grows
  have held : after.heap[leftAfter.iter]? = some root := by
    rw [leftCall.keeps.1]
    exact later _ _ (grown _ _ pair.held)
  have kept : Pair env reader size blockSize root after leftAfter rightAfter flat :=
    ⟨(pair.mounted.extends grown).extends later, held, leftLeft, rightLeft.extends later, pair.room,
      fun key member => pair.readable key (List.mem_cons_of_mem _ member)⟩
  obtain ⟨block, position⟩ := World.view_some.mp shown
  exact ⟨ptr, rightAfter, middle, other, leftAfter, after, rightCall, leftCall, kept,
    World.view_some.mpr ⟨later _ _ block, position⟩, leftShown⟩

theorem Pair.step (pair : Pair env reader size blockSize root world left right (key :: flat)) :
    ∃ leftAfter rightAfter after,
      Pair env reader size blockSize root after leftAfter rightAfter flat ∧
      (InStep env reader (steps + 1) left right world ↔
        RootLength root key ∧ InStep env reader steps leftAfter rightAfter after) := by
  obtain ⟨ptr, rightAfter, middle, other, leftAfter, after, rightCall, leftCall, kept, shown,
    leftShown⟩ := pair.calls
  obtain ⟨block, position⟩ := World.view_some.mp shown
  obtain ⟨leftBlock, leftPosition⟩ := World.view_some.mp leftShown
  obtain ⟨room, inside⟩ := pair.readable key List.mem_cons_self
  have valued := @getValue_ok root key.node key.key pair.room inside
  have same := getValue_root_iff pair.room room inside
  refine ⟨leftAfter, rightAfter, after, kept, ?_⟩
  constructor
  · rintro ⟨_, _, _, _, _, _, called, returned, value, rest⟩
    obtain ⟨rfl, again⟩ := called.unique rightCall.returns
    cases again
    obtain ⟨_, node, _, offset, calledLeft, own, found, read, rfl⟩ := returnsValue_iff.mp returned
    obtain ⟨moved, again⟩ := calledLeft.unique leftCall.returns
    cases again
    cases moved
    cases kept.held.symm.trans own
    cases leftBlock.symm.trans found
    obtain ⟨_, stop, located, wanted, view⟩ := value
    cases block.symm.trans located
    obtain ⟨_, reached⟩ := World.view_some.mp view
    dsimp only at reached
    rw [leftPosition, reached] at read
    rw [position] at wanted
    exact ⟨same.mp (read.trans wanted.symm), rest⟩
  · rintro ⟨length, rest⟩
    have read := valued
    rw [← leftPosition] at read
    have returned := returnsValue_iff.mpr
      ⟨other, root, key.node, _, leftCall.returns, kept.held, leftBlock, read, rfl⟩
    refine ⟨some ptr, rightAfter, middle, _, leftAfter, after, rightCall.returns, returned, ?_, rest⟩
    refine ⟨key.node, _, block, ?_, World.view_some.mpr ⟨leftBlock, rfl⟩⟩
    rw [position, leftPosition, ← same.mpr length]
    exact valued

theorem Pair.inStep_iff (pair : Pair env reader size blockSize root world left right flat) :
    InStep env reader steps left right world ↔
      steps ≤ flat.length ∧ ∀ key ∈ flat.take steps, RootLength root key := by
  induction steps generalizing world left right flat with
  | zero => simp [InStep]
  | succ steps ih =>
      cases flat with
      | nil => exact iff_of_false pair.exhausted (by simp)
      | cons key flat =>
          obtain ⟨_, _, _, kept, iff⟩ := @Pair.step _ _ _ _ _ _ _ _ _ _ steps pair
          rw [iff, ih kept, List.take_succ_cons, List.forall_mem_cons, List.length_cons]
          constructor
          · rintro ⟨first, bound, rest⟩
            exact ⟨by omega, first, rest⟩
          · rintro ⟨bound, first, rest⟩
            exact ⟨first, by omega, rest⟩

variable {source : Bytes} {ptr : Ptr} {address : Nat}

theorem Pair.start (type : BTreeType) (mounted : Mounted reader size blockSize world)
    (pointed : world.heap[ptr.block]? = some source)
    (target : btreePtrAddress source ptr.offset = .ok address)
    (tree : Tree env.image size blockSize address flat) :
    ∃ left middle right start,
      BTreeIterator.new env reader ptr type world = .ok (left, middle) ∧
      BTreeIterator.new env reader ptr type middle = .ok (right, start) ∧
      Pair env reader size blockSize (env.image.window address size) start left right flat := by
  obtain ⟨readable, keys, scanned, expanded⟩ := tree
  obtain ⟨left, middle, leftNew, leftChildless, leftHeld, leftRest⟩ :=
    new_child_full type mounted pointed target readable scanned
  have grown := BTreeIterator.new_extends leftNew
  obtain ⟨right, start, rightNew, rightChildless, rightHeld, rightRest⟩ :=
    new_child_full type (mounted.extends grown) (grown _ _ pointed) target readable scanned
  have later := BTreeIterator.new_extends rightNew
  have room := nodeKeys_room scanned
  refine ⟨left, middle, right, start, leftNew, rightNew, ?_⟩
  constructor
  · exact (mounted.extends grown).extends later
  · exact later _ _ leftHeld
  · exact Remaining.own leftChildless (later _ _ leftHeld) leftRest expanded
  · exact Remaining.own rightChildless rightHeld rightRest expanded
  · exact room
  · refine flat_readableKeys expanded ?_
    intro key member
    obtain ⟨offset, _, rfl⟩ := List.mem_map.mp member
    exact room

/-- Two fresh iterators over one tree, one read with `next` and the other with
`next_key`, are in step for so many calls iff there are so many keys and each of them
is laid out as by the root's format; `next` fails behind the last key. -/
theorem next_inStep_iff (type : BTreeType) (mounted : Mounted reader size blockSize world)
    (pointed : world.heap[ptr.block]? = some source)
    (target : btreePtrAddress source ptr.offset = .ok address)
    (tree : Tree env.image size blockSize address flat) :
    ∃ left middle right start,
      BTreeIterator.new env reader ptr type world = .ok (left, middle) ∧
      BTreeIterator.new env reader ptr type middle = .ok (right, start) ∧
      ∀ steps, InStep env reader steps left right start ↔
        steps ≤ flat.length ∧
          ∀ key ∈ flat.take steps, RootLength (env.image.window address size) key := by
  obtain ⟨left, middle, right, start, leftNew, rightNew, pair⟩ :=
    Pair.start type mounted pointed target tree
  exact ⟨left, middle, right, start, leftNew, rightNew, fun _ => pair.inStep_iff⟩

end

theorem next_inStep_iff_sample :
    ∃ left middle right start,
      BTreeIterator.new sampleEnv sampleReader sampleRoot .dirents sampleWorld =
        .ok (left, middle) ∧
      BTreeIterator.new sampleEnv sampleReader sampleRoot .dirents middle = .ok (right, start) ∧
      ∀ steps, InStep sampleEnv sampleReader steps left right start ↔
        steps ≤ [sampleLeafKey].length ∧ ∀ key ∈ [sampleLeafKey].take steps,
          RootLength (sampleImage.window 512 512) key :=
  next_inStep_iff .dirents sampleMounted samplePointed sampleTarget sampleTree

def mixedImage : Bytes := Bytes.ofCells 1536
  [(670, 11), (672, 11), (673, 1), (674, 18), (752, 32),
   (1104, 3), (1182, 4), (1184, 4), (1186, 10)]

def mixedEnv : Env := { image := mixedImage, junk := fun _ _ => 0 }

def mixedLeafKey : TreeKey := { depth := 1, node := mixedImage.window 1024 512, key := 160 }

theorem mixedTree : Tree mixedEnv.image 512 512 512 [mixedLeafKey] := by
  have root : OnePointer (mixedImage.window 512 512) 512 160 200 1024 :=
    ⟨⟨by decide, rfl⟩, rfl, rfl⟩
  have leaf : OneKey (mixedImage.window 1024 512) 512 160 keyTypeDirent := ⟨by decide, rfl⟩
  exact root.tree leaf (by decide) (by decide) (by decide)

/-- In that tree the first call is already out of step; with the key in `sampleTree`
unpacked the second one, which fails where `next_key` gives null, is. -/
theorem next_not_inStep :
    (∃ left middle right start,
      BTreeIterator.new mixedEnv sampleReader sampleRoot .dirents sampleWorld =
        .ok (left, middle) ∧
      BTreeIterator.new mixedEnv sampleReader sampleRoot .dirents middle = .ok (right, start) ∧
      ¬InStep mixedEnv sampleReader 1 left right start) ∧
    ∃ left middle right start,
      BTreeIterator.new sampleEnv sampleReader sampleRoot .dirents sampleWorld =
        .ok (left, middle) ∧
      BTreeIterator.new sampleEnv sampleReader sampleRoot .dirents middle = .ok (right, start) ∧
      InStep sampleEnv sampleReader 1 left right start ∧
      ¬InStep sampleEnv sampleReader 2 left right start := by
  constructor
  · obtain ⟨left, middle, right, start, leftNew, rightNew, pair⟩ :=
      Pair.start .dirents sampleMounted samplePointed sampleTarget mixedTree
    refine ⟨left, middle, right, start, leftNew, rightNew, ?_⟩
    rw [pair.inStep_iff]
    decide
  · obtain ⟨left, middle, right, start, leftNew, rightNew, pair⟩ :=
      Pair.start .dirents sampleMounted samplePointed sampleTarget sampleTree
    refine ⟨left, middle, right, start, leftNew, rightNew, ?_, ?_⟩
    · rw [pair.inStep_iff]
      decide
    · rw [pair.inStep_iff]
      decide

end Bcachefs
