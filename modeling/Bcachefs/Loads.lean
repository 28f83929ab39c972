import Bcachefs.Buffers
import Bcachefs.ImageOnly

/-! How much a traversal reads and how much memory it takes: every pointer of the
tree is followed once, and only the nodes on the way to the current one are held. -/

namespace Bcachefs

open ByteString Iteration Flattening

def TreeKey.pointee (image : Bytes) (size : Nat) (key : TreeKey) : Result Bytes := do
  let value ← getValue key.node key.node key.key
  let address ← btreePtrAddress key.node value
  return image.window address size

section

variable {node : Bytes} {blockSize : Nat} {keyIterator keyAfter entered : BKeyIterator}
  {bsetIterator bsetAfter : BSetIterator} {keys : List Nat}

theorem Rest.of_key {key : Nat} (rest : Rest node blockSize keyIterator bsetIterator keys)
    (returned : keyIterator.next node = .ok (some key, keyAfter)) :
    ∃ later, keys = key :: later ∧ Rest node blockSize keyAfter bsetIterator later := by
  cases rest with
  | done ended _ => cases returned.symm.trans ended
  | bset ended _ _ _ => cases returned.symm.trans ended
  | key again tail =>
      cases returned.symm.trans again
      exact ⟨_, rfl, tail⟩

theorem Rest.of_bset {bset : Nat} (rest : Rest node blockSize keyIterator bsetIterator keys)
    (ended : keyIterator.next node = .ok (none, keyAfter))
    (stepped : bsetIterator.next node blockSize = .ok (some bset, bsetAfter))
    (created : BKeyIterator.new node bset = .ok entered) :
    Rest node blockSize entered bsetAfter keys := by
  cases rest with
  | done _ other => cases stepped.symm.trans other
  | key returned _ => cases ended.symm.trans returned
  | bset _ again made tail =>
      cases stepped.symm.trans again
      cases created.symm.trans made
      exact tail

theorem Rest.of_finished (rest : Rest node blockSize keyIterator bsetIterator keys)
    (ended : keyIterator.next node = .ok (none, keyAfter))
    (stepped : bsetIterator.next node blockSize = .ok (none, bsetAfter)) :
    keys = [] ∧ Rest node blockSize keyIterator bsetAfter [] := by
  cases rest with
  | bset _ other _ _ => cases stepped.symm.trans other
  | key returned _ => cases ended.symm.trans returned
  | done _ _ => exact ⟨rfl, Rest.done ended (BSetIterator.next_none stepped)⟩

end

def Descends (image : Bytes) (size blockSize : Nat) (node child : Bytes) : Prop :=
  ∃ keys key, nodeKeys node blockSize = .ok keys ∧ key ∈ keys ∧
    BKey.type node key = .ok keyTypeBtreePtrV2 ∧
    TreeKey.pointee image size ⟨0, node, key⟩ = .ok child

structure Way (image : Bytes) (size blockSize : Nat) (root : Bytes) (key : Option TreeKey)
    (path : List Bytes) : Prop where
  root : path.head? = some root
  linked : path.IsChain (Descends image size blockSize)
  length : path.length = key.elim 1 fun key => key.depth + 1
  last : ∀ found, key = some found → path.getLast? = some found.node

structure Remains (world : World) (blockSize : Nat) (it : BTreeIterator) (node : Bytes)
    (keys : List Nat) : Prop where
  held : world.heap[it.iter]? = some node
  among : ∃ all, nodeKeys node blockSize = .ok all ∧ keys <:+ all
  rest : Rest node blockSize it.keyIterator it.bsetIterator keys

/-- The pointer keys that the chain has still to follow. A child's buffer is younger
than its parent's. -/
inductive Pending (image : Bytes) (size blockSize : Nat) (world : World) :
    Nat → BTreeIterator → List TreeKey → Prop
  | own {depth it node keys entered} : it.children = [] →
      Remains world blockSize it node keys →
      Entered (Expands image size blockSize) (keys.map (TreeKey.mk depth node)) entered →
      Pending image size blockSize world depth it entered
  | inner {depth it child node below keys innerEntered entered} : it.children = [child] →
      it.iter < child.iter → Pending image size blockSize world (depth + 1) child innerEntered →
      world.heap[child.iter]? = some below → Descends image size blockSize node below →
      Remains world blockSize it node keys →
      Entered (Expands image size blockSize) (keys.map (TreeKey.mk depth node)) entered →
      Pending image size blockSize world depth it (innerEntered ++ entered)

structure Loads (image : Bytes) (size : Nat) (before after : World) (followed : List TreeKey) :
    Prop where
  loaded : ∃ nodes, followed.mapM (TreeKey.pointee image size) = .ok nodes ∧
    after.heap = before.heap ++ nodes

section

variable {env : Env} {reader : BCacheFSReader} {size blockSize : Nat} {image : Bytes}

theorem Remains.extends {world next : World} {it : BTreeIterator} {node : Bytes} {keys : List Nat}
    (remains : Remains world blockSize it node keys) (grown : world.Extends next) :
    Remains next blockSize it node keys :=
  ⟨grown _ _ remains.held, remains.among, remains.rest⟩

theorem Remains.of_key {world : World} {it : BTreeIterator} {node : Bytes} {keys : List Nat}
    {key : Nat} {keyAfter : BKeyIterator} (remains : Remains world blockSize it node keys)
    (returned : it.keyIterator.next node = .ok (some key, keyAfter)) :
    ∃ later, keys = key :: later ∧
      Remains world blockSize { it with keyIterator := keyAfter } node later ∧
      ∃ all, nodeKeys node blockSize = .ok all ∧ key ∈ all := by
  rcases remains.rest.of_key returned with ⟨later, rfl, tail⟩
  rcases remains.among with ⟨all, scanned, suffix⟩
  have listed : key ∈ all := suffix.subset List.mem_cons_self
  have shorter : later <:+ all := (List.suffix_cons key later).trans suffix
  exact ⟨later, rfl, ⟨remains.held, ⟨all, scanned, shorter⟩, tail⟩, all, scanned, listed⟩

theorem Loads.none (world : World) : Loads image size world world [] :=
  ⟨[], rfl, by simp⟩

theorem Loads.append {first second third : World} {followed later : List TreeKey}
    (left : Loads image size first second followed) (right : Loads image size second third later) :
    Loads image size first third (followed ++ later) := by
  rcases left.loaded with ⟨nodes, mapped, grown⟩
  rcases right.loaded with ⟨laterNodes, laterMapped, laterGrown⟩
  refine ⟨nodes ++ laterNodes, ?_, ?_⟩
  · simp only [List.mapM_append, mapped, laterMapped, ok_bind]
    rfl
  · rw [laterGrown, grown, List.append_assoc]

theorem Loads.follow {before middle after : World} {key : TreeKey} {node : Bytes}
    {later : List TreeKey} (points : key.pointee image size = .ok node)
    (grown : middle.heap = before.heap ++ [node]) (rest : Loads image size middle after later) :
    Loads image size before after (key :: later) := by
  have first : Loads image size before middle [key] :=
    ⟨[node], by simp only [List.mapM_cons, points, ok_bind, List.mapM_nil]; rfl, grown⟩
  exact first.append rest

theorem Returned.childless {it after : BTreeIterator} {world next : World} {result : Option Ptr}
    (returned : Returned env reader it world result after next) (null : result = none) :
    after.children = [] := by
  induction returned with
  | passed _ _ _ => cases null
  | popped _ _ _ _ ih => exact ih null
  | key _ _ _ _ _ => cases null
  | entered _ _ _ _ _ _ _ ih => exact ih null
  | advanced _ _ _ _ _ _ _ _ ih => exact ih null
  | finished childless _ _ _ _ _ => exact childless

theorem child_pending {world middle : World} {address value block depth : Nat} {node : Bytes}
    {keys : List Nat} {type : BTreeType} {child : BTreeIterator} {entered : List TreeKey}
    (mounted : Mounted reader size blockSize world) (held : world.heap[block]? = some node)
    (target : btreePtrAddress node value = .ok address)
    (readable : address + size ≤ env.image.size)
    (scanned : nodeKeys (env.image.window address size) blockSize = .ok keys)
    (created : BTreeIterator.new env reader ⟨block, value⟩ type world = .ok (child, middle))
    (inner : Entered (Expands env.image size blockSize)
      (keys.map (TreeKey.mk depth (env.image.window address size))) entered) :
    child.iter = world.heap.length ∧
      middle.heap = world.heap ++ [env.image.window address size] ∧
      Pending env.image size blockSize middle depth child entered := by
  rcases nodeKeys_rest scanned with ⟨bsetIterator, fresh, rest⟩
  rw [BTreeIterator.new_full mounted held target (Nat.le_sub_of_add_le' readable)] at created
  rw [Bytes.window_size] at fresh
  rw [fresh, ok_bind] at created
  cases created
  exact ⟨rfl, rfl, Pending.own rfl
    ⟨List.getElem?_concat_length, ⟨keys, scanned, List.suffix_rfl⟩, rest⟩ inner⟩

/-- A call follows pointers from the front of those that are left, and all of them
before it returns the null pointer. -/
theorem Returned.loads {it after : BTreeIterator} {world next : World} {result : Option Ptr}
    {depth : Nat} {entered : List TreeKey}
    (returned : Returned env reader it world result after next)
    (mounted : Mounted reader size blockSize world)
    (pending : Pending env.image size blockSize world depth it entered) :
    ∃ followed later, entered = followed ++ later ∧ Loads env.image size world next followed ∧
      Pending env.image size blockSize next depth after later ∧ (result = none → later = []) := by
  induction returned generalizing depth entered with
  | @passed it world child key childAfter next last inner ih =>
      cases pending with
      | own childless _ _ => simp [childless] at last
      | @inner _ _ only _ _ _ _ entered single younger below held linked remains expanded =>
          have same : only = child := by simpa [single] using last
          subst same
          rcases ih mounted below with ⟨followed, later, rfl, loads, pending, _⟩
          have children : it.children.dropLast ++ [childAfter] = [childAfter] := by simp [single]
          have kept := remains.extends inner.grows
          refine ⟨followed, later ++ entered, by simp, loads, ?_, by simp⟩
          exact Pending.inner children (inner.keeps.1 ▸ younger) pending
            (inner.keeps.1 ▸ inner.grows _ _ held) linked
            ⟨kept.held, kept.among, kept.rest⟩ expanded
  | @popped it world child childAfter middle result after next last inner _ ihChild ihRest =>
      cases pending with
      | own childless _ _ => simp [childless] at last
      | @inner _ _ only _ _ _ _ entered single younger below _ _ remains expanded =>
          have same : only = child := by simpa [single] using last
          subst same
          rcases ihChild mounted below with ⟨followed, later, rfl, loads, _, all⟩
          have children : it.children.dropLast = [] := by simp [single]
          have kept := remains.extends inner.grows
          have resumed : Pending env.image size blockSize middle depth
              { it with children := it.children.dropLast } entered :=
            Pending.own children ⟨kept.held, kept.among, kept.rest⟩ expanded
          rcases ihRest (mounted.extends inner.grows) resumed with
            ⟨further, left, rfl, more, pending, ended⟩
          refine ⟨followed ++ further, left, ?_, loads.append more, pending, ended⟩
          simp [all rfl]
  | @key it world node key keyIterator type childless held scanned typed plain =>
      cases pending with
      | inner single _ _ _ _ _ _ => simp [childless] at single
      | own _ remains expanded =>
          cases held.symm.trans remains.held
          rcases remains.of_key scanned with ⟨later, rfl, left, _⟩
          cases expanded with
          | keep _ expanded =>
              exact ⟨[], _, rfl, Loads.none world, Pending.own childless left expanded, by simp⟩
          | enter pointer _ _ =>
              cases pointer with
              | pointer other _ _ _ _ =>
                  cases typed.symm.trans other
                  exact absurd rfl plain
  | @entered it world node key keyIterator value child middle result after next childless held
      scanned typed valued created _ ih =>
      cases pending with
      | inner single _ _ _ _ _ _ => simp [childless] at single
      | own _ remains expanded =>
          cases held.symm.trans remains.held
          rcases remains.of_key scanned with ⟨later, rfl, left, all, listing, listed⟩
          cases expanded with
          | keep kept _ =>
              cases kept with
              | plain other notPointer =>
                  cases typed.symm.trans other
                  exact absurd rfl notPointer
          | enter pointer below expanded =>
              cases pointer with
              | @pointer _ address _ _ again target readable inside =>
                  cases valued.symm.trans again
                  rcases child_pending mounted held target readable inside created below with
                    ⟨fresh, grown, opened⟩
                  have extended := BTreeIterator.new_extends created
                  have old : it.iter < child.iter :=
                    fresh ▸ (List.getElem?_eq_some_iff.mp held).1
                  have points : TreeKey.pointee env.image size ⟨depth, node, key⟩ =
                      .ok (env.image.window address size) := by
                    simp only [TreeKey.pointee, valued, target, ok_bind]
                    rfl
                  have linked : Descends env.image size blockSize node
                      (env.image.window address size) := ⟨all, key, listing, listed, typed, points⟩
                  have loaded : middle.heap[child.iter]? = some (env.image.window address size) := by
                    rw [grown, fresh, List.getElem?_concat_length]
                  have started : Pending env.image size blockSize middle depth
                      { it with keyIterator := keyIterator, children := [child] } _ :=
                    Pending.inner rfl old opened loaded linked
                      ⟨extended _ _ held, left.among, left.rest⟩ expanded
                  rcases ih (mounted.extends extended) started with
                    ⟨followed, rest, split, loads, pending, ended⟩
                  refine ⟨_ :: followed, rest, ?_, Loads.follow points grown loads, pending, ended⟩
                  rw [split]
                  rfl
  | @advanced it world node keyAfter sb otherSize bset bsetIterator keyIterator result after next
      childless held scanned block sized stepped made _ ih =>
      cases pending with
      | inner single _ _ _ _ _ _ => simp [childless] at single
      | own _ remains expanded =>
          cases held.symm.trans remains.held
          rcases mounted.superblock with ⟨_, superblock, _, same⟩
          cases block.symm.trans superblock
          cases sized.symm.trans same
          apply ih mounted
          exact Pending.own childless
            ⟨held, remains.among, remains.rest.of_bset scanned stepped made⟩ expanded
  | @finished it world node keyAfter sb otherSize bsetIterator childless held scanned block sized
      stepped =>
      cases pending with
      | inner single _ _ _ _ _ _ => simp [childless] at single
      | own _ remains expanded =>
          cases held.symm.trans remains.held
          rcases mounted.superblock with ⟨_, superblock, _, same⟩
          cases block.symm.trans superblock
          cases sized.symm.trans same
          rcases remains.rest.of_finished scanned stepped with ⟨rfl, tail⟩
          cases expanded with
          | done =>
              exact ⟨[], [], rfl, Loads.none world,
                Pending.own childless ⟨held, remains.among, tail⟩ Entered.done, fun _ => rfl⟩

theorem calls_loads {first last : BTreeIterator × World} {results : List (Option Ptr)} {depth : Nat}
    {entered : List TreeKey} (calls : Calls (Returns env reader) first results last)
    (mounted : Mounted reader size blockSize first.2)
    (pending : Pending env.image size blockSize first.2 depth first.1 entered) :
    ∃ followed later, entered = followed ++ later ∧
      Loads env.image size first.2 last.2 followed ∧
      Pending env.image size blockSize last.2 depth last.1 later ∧ (none ∈ results → later = []) := by
  induction calls generalizing entered with
  | start state => exact ⟨[], entered, rfl, Loads.none state.2, pending, by simp⟩
  | @call state middle final result results returned _ ih =>
      rcases returned.returned.loads mounted pending with ⟨followed, rest, rfl, loads, left, ended⟩
      rcases ih (mounted.extends returned.returned.grows) left with
        ⟨further, later, rfl, more, pending, finished⟩
      refine ⟨followed ++ further, later, by simp, loads.append more, pending, ?_⟩
      intro member
      rcases List.mem_cons.mp member with null | member
      · have nothing := ended null.symm
        simp only [List.append_eq_nil_iff] at nothing
        exact nothing.2
      · exact finished member

theorem entered_pointees {keys entered : List TreeKey}
    (expanded : Entered (Expands image size blockSize) keys entered) :
    ∃ nodes, entered.mapM (TreeKey.pointee image size) = .ok nodes := by
  induction expanded with
  | done => exact ⟨[], rfl⟩
  | keep _ _ ih => exact ih
  | @enter key inner keys innerEntered entered pointer _ _ ihInner ihLater =>
      rcases ihInner with ⟨nodes, mapped⟩
      rcases ihLater with ⟨laterNodes, laterMapped⟩
      cases pointer with
      | @pointer value address _ _ valued target _ _ =>
          refine ⟨image.window address size :: (nodes ++ laterNodes), ?_⟩
          simp only [List.mapM_cons, List.mapM_append, TreeKey.pointee, valued, target, ok_bind,
            pure_bind, mapped, laterMapped]
          rfl

theorem Pending.buffers {world : World} {depth levels : Nat} {it deepest : BTreeIterator}
    {entered : List TreeKey} (pending : Pending image size blockSize world depth it entered)
    (chain : Chain it levels deepest) :
    ∃ (blocks : List Nat) (path : List Bytes), path.length = levels + 1 ∧
      blocks.Pairwise (· < ·) ∧ (∀ block ∈ blocks, it.iter ≤ block) ∧
      (∀ block, it.Holds block ↔ block ∈ blocks) ∧
      blocks.map (world.heap[·]?) = path.map some ∧ path.head? = world.heap[it.iter]? ∧
      path.getLast? = world.heap[deepest.iter]? ∧
      path.IsChain (Descends image size blockSize) := by
  induction pending generalizing levels with
  | @own depth it node keys entered childless remains _ =>
      cases chain with
      | child single _ => simp [childless] at single
      | deepest _ =>
          refine ⟨[deepest.iter], [node], rfl, by simp, by simp, ?_, by simp [remains.held],
            remains.held.symm, remains.held.symm, List.IsChain.singleton node⟩
          intro block
          constructor
          · intro holds
            cases holds with
            | own => simp
            | child member _ => simp [childless] at member
          · intro member
            cases List.mem_singleton.mp member
            exact .own deepest
  | @inner depth it child node below keys innerEntered entered single younger _ loaded linked
      remains _ ih =>
      cases chain with
      | deepest childless => simp [childless] at single
      | @child _ other _ _ children chain =>
          have same : child = other := by simpa [single] using children
          subst same
          rcases ih chain with
            ⟨blocks, path, length, rising, above, held, filled, first, last, nodes⟩
          rw [loaded] at first
          rcases List.head?_eq_some_iff.mp first with ⟨deeper, rfl⟩
          refine ⟨it.iter :: blocks, node :: below :: deeper, by simp [length], ?_, ?_, ?_,
            by simp [remains.held, filled], remains.held.symm, last,
            List.isChain_cons_cons.mpr ⟨linked, nodes⟩⟩
          · apply List.Pairwise.cons _ rising
            intro block member
            exact Nat.lt_of_lt_of_le younger (above block member)
          · intro block member
            rcases List.mem_cons.mp member with rfl | deeper
            · exact Nat.le_refl _
            · exact Nat.le_of_lt (Nat.lt_of_lt_of_le younger (above block deeper))
          · intro block
            constructor
            · intro holds
              cases holds with
              | own => exact List.mem_cons_self
              | child member holds =>
                  rw [single] at member
                  cases List.mem_singleton.mp member
                  exact List.mem_cons_of_mem _ ((held block).mp holds)
            · intro member
              rcases List.mem_cons.mp member with rfl | deeper
              · exact .own it
              · exact .child (single ▸ List.mem_cons_self) ((held block).mpr deeper)

theorem new_pending {world : World} {source : Bytes} {ptr : Ptr} {address : Nat}
    {flat : List TreeKey} (type : BTreeType) (mounted : Mounted reader size blockSize world)
    (pointed : world.heap[ptr.block]? = some source)
    (target : btreePtrAddress source ptr.offset = .ok address)
    (tree : Tree env.image size blockSize address flat) :
    ∃ it start keys entered, BTreeIterator.new env reader ptr type world = .ok (it, start) ∧
      start.heap = world.heap ++ [env.image.window address size] ∧
      nodeKeys (env.image.window address size) blockSize = .ok keys ∧
      Entered (Expands env.image size blockSize)
        (keys.map (TreeKey.mk 0 (env.image.window address size))) entered ∧
      Pending env.image size blockSize start 0 it entered ∧ it.iter = world.heap.length := by
  rcases tree with ⟨readable, keys, scanned, flattened⟩
  rcases flattened.entered with ⟨entered, expanded⟩
  rcases new_child_full type mounted pointed target readable scanned with ⟨it, start, created, _⟩
  rcases child_pending mounted pointed target readable scanned created expanded with
    ⟨last, grown, pending⟩
  exact ⟨it, start, keys, entered, created, grown, scanned, expanded, pending, last⟩

/-- A traversal reads the root and then, each exactly once and in preorder, the nodes
behind the pointers of the tree; when it returns the null pointer all are read. -/
theorem nodes_loaded_once {world : World} {source : Bytes} {ptr : Ptr} {address : Nat}
    {flat : List TreeKey} (type : BTreeType) (mounted : Mounted reader size blockSize world)
    (pointed : world.heap[ptr.block]? = some source)
    (target : btreePtrAddress source ptr.offset = .ok address)
    (tree : Tree env.image size blockSize address flat) :
    ∃ it start keys entered nodes,
      BTreeIterator.new env reader ptr type world = .ok (it, start) ∧
      start.heap = world.heap ++ [env.image.window address size] ∧
      nodeKeys (env.image.window address size) blockSize = .ok keys ∧
      Entered (Expands env.image size blockSize)
        (keys.map (TreeKey.mk 0 (env.image.window address size))) entered ∧
      entered.mapM (TreeKey.pointee env.image size) = .ok nodes ∧
      ∀ results last, Calls (Returns env reader) (it, start) results last →
        ∃ count, last.2.heap = start.heap ++ nodes.take count ∧
          (none ∈ results → count = nodes.length) := by
  rcases new_pending type mounted pointed target tree with
    ⟨it, start, keys, entered, created, grown, scanned, expanded, pending, _⟩
  rcases entered_pointees expanded with ⟨nodes, mapped⟩
  refine ⟨it, start, keys, entered, nodes, created, grown, scanned, expanded, mapped, ?_⟩
  intro results last calls
  have started := mounted.extends (BTreeIterator.new_extends created)
  rcases calls_loads calls started pending with ⟨followed, later, rfl, loads, _, ended⟩
  rcases loads.loaded with ⟨read, readMapped, heap⟩
  rw [List.mapM_append, readMapped, ok_bind] at mapped
  rcases bind_eq_ok.mp mapped with ⟨rest, restMapped, same⟩
  cases same
  refine ⟨read.length, by rw [heap, List.take_left], ?_⟩
  intro null
  cases ended null
  cases restMapped
  simp

theorem Returns.held {before after : BTreeIterator × World} {result : Option Ptr} {node : Bytes}
    (returned : Returns env reader before result after)
    (held : before.2.heap[before.1.iter]? = some node) :
    after.2.heap[after.1.iter]? = some node := by
  rw [returned.returned.keeps.1]
  exact returned.returned.grows _ _ held

/-- After a call the iterator holds one buffer for each node on the way from the root to
the key it returned, and at the end only the root's. -/
theorem buffers_held {world : World} {source : Bytes} {ptr : Ptr} {address : Nat}
    {flat : List TreeKey} (type : BTreeType) (mounted : Mounted reader size blockSize world)
    (pointed : world.heap[ptr.block]? = some source)
    (target : btreePtrAddress source ptr.offset = .ok address)
    (tree : Tree env.image size blockSize address flat) :
    ∃ it start, BTreeIterator.new env reader ptr type world = .ok (it, start) ∧
      ∀ results before result after, Calls (Returns env reader) (it, start) results before →
        Returns env reader before result after →
        ∃ (blocks : List Nat) (path : List Bytes), blocks.Nodup ∧
          (∀ block, after.1.Holds block ↔ block ∈ blocks) ∧
          blocks.map (after.2.heap[·]?) = path.map some ∧
          Way env.image size blockSize (env.image.window address size) flat[results.length]?
            path := by
  rcases new_pending type mounted pointed target tree with
    ⟨it, start, keys, entered, created, grown, _, _, pending, newest⟩
  refine ⟨it, start, created, ?_⟩
  intro results before result after calls returned
  have started := mounted.extends (BTreeIterator.new_extends created)
  have delivered := fresh_delivered mounted pointed target tree created calls returned
  rcases calls_loads calls started pending with ⟨_, _, _, loads, left, _⟩
  have beforeMounted : Mounted reader size blockSize before.2 := by
    rcases new_remaining type mounted pointed target tree with ⟨_, _, made, _, remaining⟩
    cases created.symm.trans made
    exact (calls_remaining calls started remaining).1
  rcases returned.returned.loads beforeMounted left with ⟨_, _, _, _, pendingAfter, _⟩
  have loaded : start.heap[it.iter]? = some (env.image.window address size) := by
    rw [grown, newest, List.getElem?_concat_length]
  have root := returned.held (calls.keeps Returns.held loaded)
  cases result with
  | none =>
      have chain := Chain.deepest (returned.returned.childless rfl)
      rcases pendingAfter.buffers chain with
        ⟨blocks, path, length, rising, _, held, filled, first, _, nodes⟩
      have ended : flat[results.length]? = none := by
        rw [← List.head?_drop]
        cases rest : flat.drop results.length with
        | nil => rfl
        | cons key others =>
            rw [rest] at delivered
            rcases delivered with ⟨_, _, _, other, _⟩
            cases other
      refine ⟨blocks, path, rising.imp Nat.ne_of_lt, held, filled, first.trans root, nodes, ?_, ?_⟩
      · rw [length, ended]
        rfl
      · simp [ended]
  | some key =>
      have shows := delivered.shows.1
      rcases delivered.placed with ⟨treeKey, levels, deepest, listed, chain, inside, deep⟩
      rcases pendingAfter.buffers chain with
        ⟨blocks, path, length, rising, _, held, filled, first, last, nodes⟩
      rw [listed] at shows
      rw [List.head?_drop] at listed
      refine ⟨blocks, path, rising.imp Nat.ne_of_lt, held, filled, first.trans root, nodes, ?_, ?_⟩
      · rw [length, listed, Option.elim_some, deep, Nat.zero_add]
      · intro found reached
        cases listed.symm.trans reached
        rw [last, ← inside]
        exact (World.view_some.mp shows).1

end

theorem nodes_loaded_once_sample : ∃ it start keys entered nodes,
    BTreeIterator.new forestEnv sampleReader sampleRoot .dirents forestWorld = .ok (it, start) ∧
    start.heap = forestWorld.heap ++ [forestImage.window 512 512] ∧
    nodeKeys (forestImage.window 512 512) 512 = .ok keys ∧
    Entered (Expands forestImage 512 512)
      (keys.map (TreeKey.mk 0 (forestImage.window 512 512))) entered ∧
    entered.mapM (TreeKey.pointee forestImage 512) = .ok nodes ∧
    ∀ results last, Calls (Returns forestEnv sampleReader) (it, start) results last →
      ∃ count, last.2.heap = start.heap ++ nodes.take count ∧
        (none ∈ results → count = nodes.length) :=
  nodes_loaded_once .dirents forestMounted forestPointed forestTarget forestTree

theorem buffers_held_sample : ∃ it start,
    BTreeIterator.new forestEnv sampleReader sampleRoot .dirents forestWorld = .ok (it, start) ∧
    ∀ results before result after, Calls (Returns forestEnv sampleReader) (it, start) results before →
      Returns forestEnv sampleReader before result after →
      ∃ (blocks : List Nat) (path : List Bytes), blocks.Nodup ∧
        (∀ block, after.1.Holds block ↔ block ∈ blocks) ∧
        blocks.map (after.2.heap[·]?) = path.map some ∧
        Way forestImage 512 512 (forestImage.window 512 512) forestKeys[results.length]? path :=
  buffers_held .dirents forestMounted forestPointed forestTarget forestTree

end Bcachefs
