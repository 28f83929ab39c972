import Bcachefs.Encoding
import Bcachefs.KeyNode

/-! Trees of one node: the iterator never has a child, and every call returns the
next key of the node itself. -/

namespace Bcachefs

open ByteString Iteration

structure AtNode (world : World) (it : BTreeIterator) (node : Bytes) : Prop where
  childless : it.children = []
  held : world.heap[it.iter]? = some node
  pointed : ∃ source address, world.heap[it.ptr.block]? = some source ∧
    btreePtrAddress source it.ptr.offset = .ok address

structure SingleNode (image : Bytes) (size blockSize address : Nat) (keys : List Nat) : Prop where
  readable : address + size ≤ image.size
  scanned : nodeKeys (image.window address size) blockSize = .ok keys
  plain : ∀ key ∈ keys, ∃ type, BKey.type (image.window address size) key = .ok type ∧
    type ≠ keyTypeBtreePtrV2

theorem OneKey.singleNode {image : Bytes} {size blockSize address key type : Nat}
    (node : OneKey (image.window address size) blockSize key type)
    (plain : type ≠ keyTypeBtreePtrV2) (readable : address + size ≤ image.size) :
    SingleNode image size blockSize address [key] := by
  refine ⟨readable, node.scanned, fun other member => ?_⟩
  cases List.mem_singleton.mp member
  exact ⟨type, node.typed, plain⟩

structure NodeLeft (world : World) (node : Bytes) (blockSize block : Nat)
    (state : BTreeIterator × World) (elements : List Ptr) : Prop where
  here : state.2 = world
  buffer : state.1.iter = block
  atNode : AtNode world state.1 node
  rest : ∃ keys, elements = keys.map (Ptr.mk block) ∧
    Rest node blockSize state.1.keyIterator state.1.bsetIterator keys ∧
    ∀ key ∈ keys, ∃ type, BKey.type node key = .ok type ∧ type ≠ keyTypeBtreePtrV2

section

variable {env : Env} {reader : BCacheFSReader} {size blockSize : Nat}

theorem AtNode.of_keeps {world : World} {it after : BTreeIterator} {node : Bytes}
    (atNode : AtNode world it node) (childless : after.children = [])
    (same : after.iter = it.iter ∧ after.ptr = it.ptr) : AtNode world after node := by
  refine ⟨childless, ?_, ?_⟩
  · rw [same.1]
    exact atNode.held
  · rw [same.2]
    exact atNode.pointed

theorem NodeLeft.call {world : World} {node : Bytes} {block : Nat}
    {state : BTreeIterator × World} {elements : List Ptr}
    (mounted : Mounted reader size blockSize world)
    (left : NodeLeft world node blockSize block state elements) :
    ∃ after, Returned env reader state.1 state.2 elements.head? after world ∧
      NodeLeft world node blockSize block (after, world) elements.tail := by
  obtain ⟨it, here⟩ := state
  obtain ⟨same, held, atNode, keys, rfl, rest, plain⟩ := left
  dsimp only at same held atNode rest
  subst same held
  cases keys with
  | nil =>
      obtain ⟨after, childless, _, finished, returned⟩ :=
        rest.exhaust env mounted atNode.childless atNode.held
      refine ⟨after, returned, rfl, returned.keeps.1, ?_, [], rfl, finished, plain⟩
      exact atNode.of_keeps childless returned.keeps
  | cons key keys =>
      obtain ⟨paused, keyIterator, childless, same, next, later, lift⟩ :=
        rest.advance env mounted atNode.childless atNode.held
      obtain ⟨type, typed, other⟩ := plain key List.mem_cons_self
      have pausedHeld : here.heap[paused.iter]? = some node := same ▸ atNode.held
      have returned := lift _ _ _ (Returned.key childless pausedHeld next typed other)
      rw [same] at returned
      refine ⟨_, returned, rfl, returned.keeps.1, atNode.of_keeps childless returned.keeps,
        keys, rfl, later, ?_⟩
      exact fun key member => plain key (List.mem_cons_of_mem _ member)

theorem nodeLeft_lists {world : World} {node : Bytes} {block : Nat}
    (mounted : Mounted reader size blockSize world) :
    Lists (Returns env reader) (NodeLeft world node blockSize block) := by
  constructor
  · intro state elements left
    obtain ⟨after, returned, _⟩ := left.call mounted
    exact ⟨_, _, returned.returns⟩
  · intro state elements result next left taken
    obtain ⟨after, returned, rest⟩ := left.call mounted
    obtain ⟨rfl, same, there⟩ := taken.returned.unique returned
    refine ⟨rfl, ?_⟩
    cases next
    cases same
    cases there
    exact rest

theorem new_nodeLeft {world : World} {source : Bytes} {ptr : Ptr} {address : Nat}
    {keys : List Nat} (type : BTreeType) (mounted : Mounted reader size blockSize world)
    (pointed : world.heap[ptr.block]? = some source)
    (target : btreePtrAddress source ptr.offset = .ok address)
    (single : SingleNode env.image size blockSize address keys) :
    ∃ it start, BTreeIterator.new env reader ptr type world = .ok (it, start) ∧
      Mounted reader size blockSize start ∧
      NodeLeft start (env.image.window address size) blockSize it.iter (it, start)
        (keys.map (Ptr.mk it.iter)) := by
  obtain ⟨it, start, created, childless, loaded, rest⟩ :=
    new_child_full type mounted pointed target single.readable single.scanned
  have grown := BTreeIterator.new_extends created
  refine ⟨it, start, created, mounted.extends grown, rfl, rfl, ⟨childless, loaded, ?_⟩,
    keys, rfl, rest, single.plain⟩
  have same : it.ptr = ptr := BTreeIterator.new_ptr created
  rw [same]
  exact ⟨source, address, grown _ _ pointed, target⟩

theorem single_run {world : World} {source : Bytes} {ptr : Ptr} {address : Nat}
    {keys : List Nat} (type : BTreeType) (mounted : Mounted reader size blockSize world)
    (pointed : world.heap[ptr.block]? = some source)
    (target : btreePtrAddress source ptr.offset = .ok address)
    (single : SingleNode env.image size blockSize address keys) :
    ∃ it start, BTreeIterator.new env reader ptr type world = .ok (it, start) ∧
      (∀ position key after, Nth (Returns env reader) (it, start) position key after →
        ∃ offset, keys[position]? = some offset ∧ key = ⟨after.1.iter, offset⟩ ∧
          AtNode after.2 after.1 (env.image.window address size)) ∧
      ∀ position offset, keys[position]? = some offset →
        ∃ after, Nth (Returns env reader) (it, start) position ⟨after.1.iter, offset⟩ after := by
  obtain ⟨it, start, created, ready, left⟩ := new_nodeLeft type mounted pointed target single
  refine ⟨it, start, created, ?_, ?_⟩
  · intro position key after returned
    obtain ⟨found, rest⟩ := (nodeLeft_lists ready).nth left returned
    rw [List.getElem?_map, Option.map_eq_some_iff] at found
    obtain ⟨offset, listed, rfl⟩ := found
    refine ⟨offset, listed, by rw [rest.buffer], ?_⟩
    rw [rest.here]
    exact rest.atNode
  · intro position offset listed
    have found : (keys.map (Ptr.mk it.iter))[position]? = some ⟨it.iter, offset⟩ := by
      simp [listed]
    obtain ⟨after, returned⟩ := (nodeLeft_lists ready).nth_exists left found
    obtain ⟨_, rest⟩ := (nodeLeft_lists ready).nth left returned
    exact ⟨after, rest.buffer ▸ returned⟩

theorem single_returns {world start : World} {source : Bytes} {ptr : Ptr} {address : Nat}
    {keys : List Nat} {type : BTreeType} {it : BTreeIterator}
    (mounted : Mounted reader size blockSize world)
    (pointed : world.heap[ptr.block]? = some source)
    (target : btreePtrAddress source ptr.offset = .ok address)
    (single : SingleNode env.image size blockSize address keys)
    (created : BTreeIterator.new env reader ptr type world = .ok (it, start)) :
    ∀ results before, Calls (Returns env reader) (it, start) results before →
      ∃ result after, Returns env reader before result after := by
  obtain ⟨_, _, made, ready, left⟩ := new_nodeLeft type mounted pointed target single
  cases created.symm.trans made
  intro results before calls
  exact (nodeLeft_lists ready).returns ((nodeLeft_lists ready).calls left calls)

theorem single_atNode {world start : World} {source : Bytes} {ptr key : Ptr}
    {address position : Nat} {keys : List Nat} {type : BTreeType} {it : BTreeIterator}
    {after : BTreeIterator × World} (mounted : Mounted reader size blockSize world)
    (pointed : world.heap[ptr.block]? = some source)
    (target : btreePtrAddress source ptr.offset = .ok address)
    (single : SingleNode env.image size blockSize address keys)
    (created : BTreeIterator.new env reader ptr type world = .ok (it, start))
    (returned : Nth (Returns env reader) (it, start) position key after) :
    ∃ offset, key = ⟨after.1.iter, offset⟩ ∧
      AtNode after.2 after.1 (env.image.window address size) := by
  obtain ⟨_, _, made, sound, _⟩ := single_run type mounted pointed target single
  cases created.symm.trans made
  obtain ⟨offset, _, same, atNode⟩ := sound position key after returned
  exact ⟨offset, same, atNode⟩

theorem single_nth {world : World} {source : Bytes} {ptr : Ptr} {address position key : Nat}
    {keys : List Nat} (type : BTreeType) (mounted : Mounted reader size blockSize world)
    (pointed : world.heap[ptr.block]? = some source)
    (target : btreePtrAddress source ptr.offset = .ok address)
    (single : SingleNode env.image size blockSize address keys) (found : keys[position]? = some key) :
    ∃ it start after, BTreeIterator.new env reader ptr type world = .ok (it, start) ∧
      Nth (Returns env reader) (it, start) position ⟨after.1.iter, key⟩ after ∧
      AtNode after.2 after.1 (env.image.window address size) := by
  obtain ⟨it, start, created, sound, complete⟩ := single_run type mounted pointed target single
  obtain ⟨after, returned⟩ := complete position key found
  obtain ⟨_, _, _, atNode⟩ := sound _ _ _ returned
  exact ⟨it, start, after, created, returned, atNode⟩

end

/-! The accessors on such a state use the node's own format. -/

theorem AtNode.directory {world : World} {it : BTreeIterator} {node : Bytes} {key : Nat}
    (atNode : AtNode world it node) (typed : BKey.type node key = .ok keyTypeDirent) :
    it.directory world (some ⟨it.iter, key⟩) = directoryIn node node ⟨it.iter, key⟩ :=
  ((decodedInPlace_iff (Chain.deepest atNode.childless) rfl).mpr rfl).directory node atNode.held typed

theorem AtNode.extend {world : World} {it : BTreeIterator} {node : Bytes} {key type : Nat}
    (atNode : AtNode world it node) (typed : BKey.type node key = .ok type)
    (located : type = keyTypeExtent ∨ type = keyTypeInlineData) :
    it.extend world (some ⟨it.iter, key⟩) =
      extendIn world it.ptr it.iter node node ⟨it.iter, key⟩ type :=
  ((decodedInPlace_iff (Chain.deepest atNode.childless) rfl).mpr rfl).extend node type atNode.held
    typed located

end Bcachefs
