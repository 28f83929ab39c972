import Bcachefs.Support.Acyclic
import Bcachefs.Traversal

/-! When the traversal ends. A node may lie partly behind the end of the image, so
its buffer also depends on the block it was read into. -/

namespace Bcachefs

open ByteString Iteration Relation

def KeyReads (node : Bytes) (key : Nat) : Prop :=
  ∃ type, BKey.type node key = .ok type ∧
    (type = keyTypeBtreePtrV2 →
      ∃ value address, getValue node node key = .ok value ∧
        btreePtrAddress node value = .ok address)

def NodeReads (node : Bytes) (blockSize : Nat) : Prop :=
  ∃ keys, nodeKeys node blockSize = .ok keys ∧ ∀ key ∈ keys, KeyReads node key

def PointsTo (env : Env) (size blockSize address next : Nat) : Prop :=
  ∃ block keys key value, nodeKeys (loadedNode env block address size) blockSize = .ok keys ∧
    key ∈ keys ∧ BKey.type (loadedNode env block address size) key = .ok keyTypeBtreePtrV2 ∧
    getValue (loadedNode env block address size) (loadedNode env block address size) key =
      .ok value ∧
    btreePtrAddress (loadedNode env block address size) value = .ok next

def Scannable (env : Env) (size blockSize root : Nat) : Prop :=
  ∀ address, ReflTransGen (PointsTo env size blockSize) root address →
    ∀ block, NodeReads (loadedNode env block address size) blockSize

section

variable {env : Env} {reader : BCacheFSReader} {size blockSize : Nat}

theorem ends_inside {state : BTreeIterator × World} (ends : Ends (Returns env reader) state)
    {it : BTreeIterator} (single : it.children = [state.1])
    (resume : ∀ next, state.2.Extends next →
      Ends (Returns env reader) ({ it with children := [] }, next)) :
    Ends (Returns env reader) (it, state.2) := by
  induction ends generalizing it with
  | @last state final returned =>
      have inner := returned.returned
      have last : it.children.getLast? = some state.1 := by simp [single]
      refine Ends.of_same_steps (fun result next taken => ?_) (resume final.2 inner.grows)
      have outer := taken.returned
      refine Returned.returns (Returned.popped last inner ?_)
      simpa [single] using outer
  | @more state middle key returned _ ih =>
      have inner := returned.returned
      have last : it.children.getLast? = some state.1 := by simp [single]
      refine Ends.more (Returned.passed last inner).returns ?_
      refine @ih { it with children := it.children.dropLast ++ [middle.1] } (by simp [single]) ?_
      exact fun next grown => resume next (inner.grows.trans grown)

theorem ends_of_acc {address : Nat}
    (grounded : Acc (fun next node => PointsTo env size blockSize node next) address)
    (scannable : Scannable env size blockSize address) {block : Nat} {all keys : List Nat}
    {it : BTreeIterator} {world : World} (mounted : Mounted reader size blockSize world)
    (scanned : nodeKeys (loadedNode env block address size) blockSize = .ok all)
    (readable : ∀ key ∈ all, KeyReads (loadedNode env block address size) key)
    (part : keys ⊆ all) (childless : it.children = [])
    (held : world.heap[it.iter]? = some (loadedNode env block address size))
    (rest : Rest (loadedNode env block address size) blockSize it.keyIterator it.bsetIterator
      keys) :
    Ends (Returns env reader) (it, world) := by
  -- outside on the pointers below the node, inside on the node's remaining keys
  induction grounded generalizing block all keys it world with
  | intro address _ below =>
      induction keys generalizing it world with
      | nil =>
          obtain ⟨after, _, _, _, returned⟩ := rest.exhaust env mounted childless held
          exact Ends.last returned.returns
      | cons key keys ih =>
          obtain ⟨paused, after, pausedChildless, same, returned, tail, lift⟩ :=
            rest.advance env mounted childless held
          have pausedHeld : world.heap[paused.iter]? = some (loadedNode env block address size) :=
            same ▸ held
          have later : keys ⊆ all := fun _ member => part (List.mem_cons_of_mem _ member)
          obtain ⟨type, typed, target⟩ := readable key (part List.mem_cons_self)
          suffices ends : Ends (Returns env reader) (paused, world) from
            Ends.of_same_steps (fun _ _ taken => (lift _ _ _ taken.returned).returns) ends
          by_cases pointer : type = keyTypeBtreePtrV2
          · subst pointer
            obtain ⟨value, next, valued, target⟩ := target rfl
            have linked : PointsTo env size blockSize address next :=
              ⟨block, all, key, value, scanned, part List.mem_cons_self, typed, valued, target⟩
            have scannableBelow : Scannable env size blockSize next :=
              fun reached path => scannable reached (path.head linked)
            obtain ⟨childKeys, childScanned, childReadable⟩ :=
              scannable next (ReflTransGen.single linked) world.heap.length
            obtain ⟨child, childWorld, created, fresh, loaded, childRest⟩ :=
              new_child paused.type mounted pausedHeld target childScanned
            have grown := BTreeIterator.new_extends created
            have childEnds := below next linked scannableBelow (mounted.extends grown) childScanned
              childReadable (List.Subset.refl _) fresh loaded childRest
            refine Ends.of_same_steps (fun _ _ taken => (Returned.entered pausedChildless pausedHeld
              returned typed valued created taken.returned).returns) (ends_inside childEnds rfl ?_)
            intro final further
            have reached := grown.trans further
            exact @ih { paused with keyIterator := after, children := [] } final
              (mounted.extends reached) later rfl (reached _ _ pausedHeld) tail
          · refine Ends.more
              (Returned.key pausedChildless pausedHeld returned typed pointer).returns ?_
            exact @ih { paused with keyIterator := after } world mounted later pausedChildless
              pausedHeld tail

/-- Without a pointer cycle below the root every call returns, and the calls reach
the null pointer: the loops of `main` end. Shared subtrees are allowed. -/
theorem nextKey_terminates {world : World} {source : Bytes} {ptr : Ptr} {address : Nat}
    (type : BTreeType) (mounted : Mounted reader size blockSize world)
    (pointed : world.heap[ptr.block]? = some source)
    (target : btreePtrAddress source ptr.offset = .ok address)
    (scannable : Scannable env size blockSize address)
    (acyclic : ∀ node, ReflTransGen (PointsTo env size blockSize) address node →
      ¬TransGen (PointsTo env size blockSize) node node) :
    ∃ it start, BTreeIterator.new env reader ptr type world = .ok (it, start) ∧
      Ends (Returns env reader) (it, start) ∧
      ∀ results before, Calls (Returns env reader) (it, start) results before →
        ∃ result after, Returns env reader before result after := by
  have bounded : ∀ node next, PointsTo env size blockSize node next → next < 2 ^ 53 := by
    rintro node next ⟨_, _, _, _, _, _, _, _, linked⟩
    exact btreePtrAddress_lt linked
  have grounded := Acyclic.acc_of_acyclic bounded acyclic
  obtain ⟨keys, scanned, readable⟩ := scannable address ReflTransGen.refl world.heap.length
  obtain ⟨it, start, created, childless, loaded, rest⟩ :=
    new_child type mounted pointed target scanned
  have ends : Ends (Returns env reader) (it, start) :=
    ends_of_acc grounded scannable (mounted.extends (BTreeIterator.new_extends created)) scanned
      readable (List.Subset.refl _) childless loaded rest
  refine ⟨it, start, created, ends, fun results before calls => ?_⟩
  refine ends.calls_step ?_ ?_ calls
  · intro _ _ _ _ _ first second
    obtain ⟨same, left, right⟩ := first.returned.unique second.returned
    exact ⟨same, Prod.ext left right⟩
  · intro _ _ taken
    exact (taken.returned.null_stays rfl).returns

theorem PointsTo.full {address next : Nat} {keys : List Nat}
    (linked : PointsTo env size blockSize address next) (readable : address + size ≤ env.image.size)
    (scanned : nodeKeys (env.image.window address size) blockSize = .ok keys) :
    ∃ key ∈ keys, ∃ value, BKey.type (env.image.window address size) key = .ok keyTypeBtreePtrV2 ∧
      getValue (env.image.window address size) (env.image.window address size) key = .ok value ∧
      btreePtrAddress (env.image.window address size) value = .ok next := by
  obtain ⟨block, found, key, value, list, member, typed, valued, target⟩ := linked
  rw [loadedNode_full (by omega)] at list typed valued target
  cases scanned.symm.trans list
  exact ⟨key, member, value, typed, valued, target⟩

theorem PointsTo.single {address next key value target : Nat}
    (linked : PointsTo env size blockSize address next) (readable : address + size ≤ env.image.size)
    (node : OnePointer (env.image.window address size) blockSize key value target) :
    next = target := by
  obtain ⟨found, member, other, _, valued, pointed⟩ := linked.full readable node.scanned
  cases List.mem_singleton.mp member
  cases node.valued.symm.trans valued
  cases node.target.symm.trans pointed
  rfl

theorem OneKey.no_pointers {address key type : Nat}
    (node : OneKey (env.image.window address size) blockSize key type)
    (plain : type ≠ keyTypeBtreePtrV2) (readable : address + size ≤ env.image.size) (next : Nat) :
    ¬PointsTo env size blockSize address next := by
  intro linked
  obtain ⟨found, member, _, typed, _⟩ := linked.full readable node.scanned
  cases List.mem_singleton.mp member
  cases node.typed.symm.trans typed
  exact plain rfl

theorem OneKey.reads {node : Bytes} {key type : Nat} (one : OneKey node blockSize key type)
    (plain : type ≠ keyTypeBtreePtrV2) : NodeReads node blockSize := by
  refine ⟨[key], one.scanned, fun other member => ?_⟩
  cases List.mem_singleton.mp member
  exact ⟨type, one.typed, fun pointer => absurd pointer plain⟩

theorem OnePointer.reads {node : Bytes} {key value next : Nat}
    (one : OnePointer node blockSize key value next) : NodeReads node blockSize := by
  refine ⟨[key], one.scanned, fun other member => ?_⟩
  cases List.mem_singleton.mp member
  exact ⟨_, one.typed, fun _ => ⟨value, next, one.valued, one.target⟩⟩

end

theorem sampleRootPoints {next : Nat} (linked : PointsTo sampleEnv 512 512 512 next) :
    next = 1024 :=
  linked.single (by decide) sampleRootNode

theorem sampleLeafEnds (next : Nat) : ¬PointsTo sampleEnv 512 512 1024 next :=
  @OneKey.no_pointers sampleEnv 512 512 1024 160 _ sampleLeafNode (by decide) (by decide) next

theorem sampleReached {address : Nat}
    (path : ReflTransGen (PointsTo sampleEnv 512 512) 512 address) :
    address = 512 ∨ address = 1024 := by
  induction path with
  | refl => exact Or.inl rfl
  | tail _ linked ih =>
      rcases ih with rfl | rfl
      · exact Or.inr (sampleRootPoints linked)
      · exact absurd linked (sampleLeafEnds _)

theorem sampleScannable : Scannable sampleEnv 512 512 512 := by
  intro address path block
  rcases sampleReached path with rfl | rfl
  · rw [loadedNode_full (by decide)]
    exact sampleRootNode.reads
  · rw [loadedNode_full (by decide)]
    exact sampleLeafNode.reads (by decide)

theorem sampleAcyclic {node : Nat} (path : ReflTransGen (PointsTo sampleEnv 512 512) 512 node) :
    ¬TransGen (PointsTo sampleEnv 512 512) node node := by
  intro cycle
  obtain ⟨next, linked, back⟩ := TransGen.head'_iff.mp cycle
  rcases sampleReached path with rfl | rfl
  · cases sampleRootPoints linked
    rcases back.cases_head with same | ⟨_, further, _⟩
    · cases same
    · exact sampleLeafEnds _ further
  · exact sampleLeafEnds _ linked

theorem nextKey_terminates_sample : ∃ it start,
    BTreeIterator.new sampleEnv sampleReader sampleRoot .dirents sampleWorld = .ok (it, start) ∧
      Ends (Returns sampleEnv sampleReader) (it, start) ∧
      ∀ results before, Calls (Returns sampleEnv sampleReader) (it, start) results before →
        ∃ result after, Returns sampleEnv sampleReader before result after :=
  nextKey_terminates .dirents sampleMounted samplePointed sampleTarget sampleScannable
    fun _ path => sampleAcyclic path

def loopImage : Bytes := Bytes.ofCells 1024
  [(670, 11), (672, 11), (673, 1), (674, 18), (752, 16)]

def loopEnv : Env := { image := loopImage, junk := fun _ _ => 0 }

theorem loopNode : OnePointer (loopImage.window 512 512) 512 160 200 512 :=
  ⟨⟨by decide, rfl⟩, rfl, rfl⟩

theorem loopPoints {next : Nat} (linked : PointsTo loopEnv 512 512 512 next) : next = 512 :=
  linked.single (by decide) loopNode

theorem loopScannable : Scannable loopEnv 512 512 512 := by
  intro address path block
  have same : address = 512 := by
    induction path with
    | refl => rfl
    | tail _ linked ih =>
        subst ih
        exact loopPoints linked
  subst same
  rw [loadedNode_full (by decide)]
  exact loopNode.reads

structure AtLoop (it : BTreeIterator) (world : World) : Prop where
  superblock : world.heap[0]? = some sampleSuperblock
  childless : it.children = []
  held : world.heap[it.iter]? = some (loopImage.window 512 512)
  keyIterator : it.keyIterator = BKeyIterator.empty
  bsetIterator : it.bsetIterator = { iter := 136, stop := 512 }

theorem loop_new {world : World} {ptr : Ptr} {source : Bytes} (type : BTreeType)
    (superblock : world.heap[0]? = some sampleSuperblock)
    (pointed : world.heap[ptr.block]? = some source)
    (target : btreePtrAddress source ptr.offset = .ok 512) :
    ∃ it next, BTreeIterator.new loopEnv sampleReader ptr type world = .ok (it, next) ∧
      AtLoop it next ∧ world.Extends next := by
  have created : BTreeIterator.new loopEnv sampleReader ptr type world = _ :=
    BTreeIterator.new_ok superblock (by decide : btreeNodeSize sampleSuperblock = .ok 512)
      pointed target (rfl : BSetIterator.new 512 = .ok { iter := 136, stop := 512 })
  have loaded : loadedNode loopEnv world.heap.length 512 512 = loopImage.window 512 512 :=
    loadedNode_full (by decide)
  rw [loaded] at created
  exact ⟨_, _, created, ⟨World.heap_get _ superblock, rfl, List.getElem?_concat_length, rfl, rfl⟩,
    BTreeIterator.new_extends created⟩

theorem AtLoop.opened {it : BTreeIterator} {world : World} (looping : AtLoop it world) (fuel : Nat) :
    BTreeIterator.nextKey loopEnv sampleReader (fuel + 1) it world =
      BTreeIterator.nextKey loopEnv sampleReader fuel
        { it with
          keyIterator := { iter := some 160, stop := some 2248 }
          bsetIterator := { iter := 528, stop := 512 } } world := by
  have finished : it.keyIterator.next (loopImage.window 512 512) = .ok (none, .empty) := by
    rw [looping.keyIterator]
    exact BKeyIterator.empty_next _
  have stepped : it.bsetIterator.next (loopImage.window 512 512) 512 =
      .ok (some 136, { iter := 528, stop := 512 }) := by
    rw [looping.bsetIterator]
    decide
  have sized : btreeBlockSize sampleSuperblock = .ok 512 := rfl
  have entered : BKeyIterator.new (loopImage.window 512 512) 136 =
      .ok { iter := some 160, stop := some 2248 } := rfl
  exact BTreeIterator.nextKey_advanced fuel looping.childless looping.held finished
    looping.superblock sized stepped entered

theorem AtLoop.entered {it : BTreeIterator} {world : World} (looping : AtLoop it world)
    (fuel : Nat) : ∃ parent child next, parent.children = [child] ∧ AtLoop child next ∧
      BTreeIterator.nextKey loopEnv sampleReader (fuel + 2) it world =
        BTreeIterator.nextKey loopEnv sampleReader fuel parent next := by
  obtain ⟨child, next, created, childLooping, _⟩ :=
    @loop_new world ⟨it.iter, 200⟩ _ it.type looping.superblock looping.held loopNode.target
  have scanned : BKeyIterator.next (loopImage.window 512 512)
      { iter := some 160, stop := some 2248 } =
        .ok (some 160, { iter := some 248, stop := some 2248 }) := rfl
  refine ⟨{ it with
    keyIterator := { iter := some 248, stop := some 2248 }
    bsetIterator := { iter := 528, stop := 512 }
    children := [child] }, child, next, rfl, childLooping, ?_⟩
  rw [looping.opened]
  exact BTreeIterator.nextKey_entered fuel looping.childless looping.held scanned loopNode.typed
    loopNode.valued created

theorem loop_endless (fuel : Nat) {it : BTreeIterator} {world : World} (looping : AtLoop it world) :
    BTreeIterator.nextKey loopEnv sampleReader fuel it world = .error .fuel := by
  induction fuel using Nat.strong_induction_on generalizing it world with
  | _ fuel ih =>
      rcases fuel with _ | _ | fuel
      · rfl
      · rw [looping.opened]
        rfl
      · obtain ⟨parent, child, next, single, childLooping, same⟩ := looping.entered fuel
        rw [same]
        rcases fuel with _ | fuel
        · rfl
        · have inner := ih fuel (by omega) childLooping
          have last : parent.children.getLast? = some child := by simp [single]
          simp only [BTreeIterator.nextKey, last, inner, error_bind]

theorem nextKey_endless_sample : Scannable loopEnv 512 512 512 ∧ ∃ it start,
    BTreeIterator.new loopEnv sampleReader sampleRoot .dirents sampleWorld = .ok (it, start) ∧
      ∀ fuel, BTreeIterator.nextKey loopEnv sampleReader fuel it start = .error .fuel := by
  obtain ⟨it, start, created, looping, _⟩ :=
    @loop_new sampleWorld sampleRoot _ .dirents rfl samplePointed sampleTarget
  exact ⟨loopScannable, it, start, created, fun fuel => loop_endless fuel looping⟩

end Bcachefs
