import Bcachefs.PartialScan
import Bcachefs.Support.Log

/-! A node is a log: a later bset overrides an earlier one, and deleted keys only
override. What `next_key` returns of it. -/

namespace Bcachefs

open ByteString Iteration

def Live (node : Bytes) (bsets : List BSetEntry) (key : Nat) : Prop :=
  Log.last (fun other => keyPosition node other == keyPosition node key) (logKeys bsets) = some key ∧
    BKey.type node key ≠ .ok keyTypeDeleted

/-- The calls of `next_key` return, the keys they return are live, and no two share a
position. -/
structure LogComposed (env : Env) (reader : BCacheFSReader) (first : BTreeIterator × World)
    (node : Bytes) (bsets : List BSetEntry) : Prop where
  returns : ∀ results before, Calls (Returns env reader) first results before →
    ∃ result after, Returns env reader before result after
  live : ∀ count key after, Nth (Returns env reader) first count key after →
    Live node bsets key.offset
  once : ∀ i j left right leftAfter rightAfter, i < j →
    Nth (Returns env reader) first i left leftAfter →
    Nth (Returns env reader) first j right rightAfter →
    keyPosition node left.offset ≠ keyPosition node right.offset

def NothingReplaced (node : Bytes) (bsets : List BSetEntry) : Prop :=
  bsets.Pairwise fun earlier later => ∀ left ∈ earlier.keys, ∀ right ∈ later.keys,
    keyPosition node left ≠ keyPosition node right

def NothingDeleted (node : Bytes) (bsets : List BSetEntry) : Prop :=
  ∀ bset ∈ bsets, ∀ key ∈ bset.keys, BKey.type node key ≠ .ok keyTypeDeleted

def PositionsDistinct (node : Bytes) (bset : BSetEntry) : Prop :=
  bset.keys.Pairwise fun left right => keyPosition node left ≠ keyPosition node right

def NoPointerBehind (node : Bytes) (bsets : List BSetEntry) : Prop :=
  ∀ bset ∈ bsets, bset.u64s node ≠ 0 → node.byte (bset.stop node) ≠ 0 →
    BKey.type node (bset.stop node) ≠ .ok keyTypeBtreePtrV2

theorem logKeys_pairwise {node : Bytes} {bsets : List BSetEntry}
    (distinct : ∀ bset ∈ bsets, PositionsDistinct node bset) :
    (logKeys bsets).Pairwise (fun left right => keyPosition node left ≠ keyPosition node right) ↔
      NothingReplaced node bsets := by
  rw [logKeys, List.pairwise_flatten, List.pairwise_map]
  constructor
  · intro both
    exact both.2
  · intro nothing
    refine ⟨fun keys member => ?_, nothing⟩
    obtain ⟨bset, inside, rfl⟩ := List.mem_map.mp member
    exact distinct bset inside

theorem Mounted.sectors {reader : BCacheFSReader} {size blockSize : Nat} {world : World}
    (mounted : Mounted reader size blockSize world) : 512 ∣ size ∧ 512 ∣ blockSize := by
  obtain ⟨sb, _, nodeSize, blockSized⟩ := mounted.superblock
  obtain ⟨_, _, nodeSize⟩ := bind_eq_ok.mp nodeSize
  obtain ⟨_, _, blockSized⟩ := bind_eq_ok.mp blockSized
  cases nodeSize
  cases blockSized
  exact ⟨Nat.dvd_mul_left _ _, Nat.dvd_mul_left _ _⟩

structure AtStart (world : World) (it : BTreeIterator) (node : Bytes) : Prop where
  childless : it.children = []
  held : world.heap[it.iter]? = some node
  keys : it.keyIterator = BKeyIterator.empty
  bsets : it.bsetIterator = { iter := BTreeNode.keys, stop := node.size }

section

variable {env : Env} {reader : BCacheFSReader} {size blockSize address : Nat} {world start : World}
  {source node : Bytes} {ptr : Ptr} {bsets earlier later : List BSetEntry} {bset : BSetEntry}
  {it : BTreeIterator}

theorem new_leaf (type : BTreeType) (mounted : Mounted reader size blockSize world)
    (pointed : world.heap[ptr.block]? = some source)
    (target : btreePtrAddress source ptr.offset = .ok address)
    (readable : address + size ≤ env.image.size)
    (log : BSetLog (env.image.window address size) blockSize BTreeNode.keys bsets) :
    ∃ it start, BTreeIterator.new env reader ptr type world = .ok (it, start) ∧
      Mounted reader size blockSize start ∧ AtStart start it (env.image.window address size) := by
  obtain ⟨sb, superblock, nodeSize, _⟩ := mounted.superblock
  have created := log.created
  rw [Bytes.window_size] at created
  have made : BTreeIterator.new env reader ptr type world = _ :=
    BTreeIterator.new_ok superblock nodeSize pointed target created
  have full : loadedNode env world.heap.length address size = env.image.window address size :=
    loadedNode_full (by omega)
  rw [full] at made
  exact ⟨_, _, made, mounted.extends (BTreeIterator.new_extends made),
    ⟨rfl, List.getElem?_concat_length, rfl, rfl⟩⟩

/-- Where the log is padded up to a bset and the calls compose it, a zero byte follows that
bset too: otherwise the place behind it is returned, which is no key of the log. -/
theorem LogComposed.zero_next
    (composed : LogComposed env reader (it, start) node bsets)
    (log : BSetLog node blockSize BTreeNode.keys bsets) (positive : 0 < blockSize)
    (mounted : Mounted reader size blockSize start) (atStart : AtStart start it node)
    (produces : Produces (BSetIterator.next node blockSize) it.bsetIterator
      ((filledBSets node bsets).map BSetEntry.start))
    (leaf : ∀ key ∈ logKeys bsets, ∃ kind, BKey.type node key = .ok kind ∧ kind ≠ keyTypeBtreePtrV2)
    (plain : NoPointerBehind node bsets)
    (split : filledBSets node bsets = earlier ++ bset :: later)
    (zero : ∀ entry ∈ earlier, ZeroBehind node entry) : ZeroBehind node bset := by
  have listed : ∀ entry ∈ earlier ++ bset :: later, entry ∈ bsets ∧ entry.u64s node ≠ 0 := by
    rw [← split]
    exact fun entry member => mem_filledBSets.mp member
  have here := listed bset (by simp)
  rw [split] at produces
  obtain ⟨bound, bsetAfter, past, reads⟩ := filled_readsTo produces
    (fun entry member => log.wellFormed entry (listed entry member).1)
    (fun entry member => (listed entry member).2) zero (BKeyIterator.empty_next node)
  rw [← atStart.keys] at reads
  have known : ∀ key ∈ logKeys earlier ++ bset.keys, key ∈ logKeys bsets := by
    intro key member
    rcases List.mem_append.mp member with before | own
    · obtain ⟨entry, inside, found⟩ := mem_logKeys.mp before
      exact mem_logKeys.mpr ⟨entry, (listed entry (by simp [inside])).1, found⟩
    · exact mem_logKeys.mpr ⟨bset, here.1, own⟩
  obtain ⟨before, calls, done, same, rest⟩ := reads.calls mounted atStart.childless atStart.held
    fun key member => leaf key (known key member)
  obtain ⟨result, after, called⟩ := composed.returns _ _ calls
  have heldBefore : start.heap[before.iter]? = some node := same ▸ atStart.held
  have returned := rest.last mounted done heldBefore called.returned
  rcases returned.behind done heldBefore rfl past (plain bset here.1 here.2) with zero | key
  · exact zero
  · rw [key] at called
    have live := composed.live _ _ _ ⟨_, _, rfl, calls, called⟩
    have chosen := List.mem_of_getLast? live.1
    exact absurd (List.mem_filter.mp chosen).1 (log.stop_no_key positive bset here.1)

theorem LogComposed.zero
    (composed : LogComposed env reader (it, start) node bsets)
    (log : BSetLog node blockSize BTreeNode.keys bsets) (positive : 0 < blockSize)
    (mounted : Mounted reader size blockSize start) (atStart : AtStart start it node)
    (produces : Produces (BSetIterator.next node blockSize) it.bsetIterator
      ((filledBSets node bsets).map BSetEntry.start))
    (leaf : ∀ key ∈ logKeys bsets, ∃ kind, BKey.type node key = .ok kind ∧ kind ≠ keyTypeBtreePtrV2)
    (plain : NoPointerBehind node bsets) :
    ∀ entry ∈ filledBSets node bsets, ZeroBehind node entry := by
  have first : ∀ earlier later, filledBSets node bsets = earlier ++ later →
      ∀ entry ∈ earlier, ZeroBehind node entry := by
    intro earlier
    induction earlier using List.reverseRecOn with
    | nil => simp
    | append_singleton earlier bset ih =>
        intro later split
        rw [List.append_assoc, List.singleton_append] at split
        have before := ih (bset :: later) split
        intro entry member
        rcases List.mem_append.mp member with older | newest
        · exact before entry older
        · cases List.mem_singleton.mp newest
          exact composed.zero_next log positive mounted atStart produces leaf plain split before
  exact first _ [] (List.append_nil _).symm

end

/-- A leaf that is padded, without a position in two bsets and without a deleted key, is
composed by `next_key`. On every leaf whose bsets the scan meets, and behind whose bsets no
pointer is found, it is composed only then. -/
theorem nextKey_composed_iff {env : Env} {reader : BCacheFSReader} {size blockSize address : Nat}
    {world : World} {source : Bytes} {ptr : Ptr} {bsets : List BSetEntry} (type : BTreeType)
    (mounted : Mounted reader size blockSize world)
    (pointed : world.heap[ptr.block]? = some source)
    (target : btreePtrAddress source ptr.offset = .ok address)
    (readable : address + size ≤ env.image.size) (positive : 0 < blockSize)
    (log : BSetLog (env.image.window address size) blockSize BTreeNode.keys bsets)
    (leaf : ∀ key ∈ logKeys bsets, ∃ kind,
      BKey.type (env.image.window address size) key = .ok kind ∧ kind ≠ keyTypeBtreePtrV2)
    (distinct : ∀ bset ∈ bsets, PositionsDistinct (env.image.window address size) bset) :
    ∃ it start, BTreeIterator.new env reader ptr type world = .ok (it, start) ∧
      (Padded (env.image.window address size) blockSize bsets ∧
          NothingReplaced (env.image.window address size) bsets ∧
          NothingDeleted (env.image.window address size) bsets →
        LogComposed env reader (it, start) (env.image.window address size) bsets) ∧
      ((bsets.map BSetEntry.start).IsChain (Reached (env.image.window address size) blockSize) →
        NoPointerBehind (env.image.window address size) bsets →
        LogComposed env reader (it, start) (env.image.window address size) bsets →
        Padded (env.image.window address size) blockSize bsets ∧
          NothingReplaced (env.image.window address size) bsets ∧
          NothingDeleted (env.image.window address size) bsets) := by
  have sectors := mounted.sectors.2
  have nodeSectors : 512 ∣ (env.image.window address size).size := mounted.sectors.1
  obtain ⟨it, start, created, ready, atStart⟩ :=
    new_leaf type mounted pointed target readable log
  have single : Padded (env.image.window address size) blockSize bsets →
      SingleNode env.image size blockSize address (logKeys bsets) :=
    fun padded => ⟨readable, log.nodeKeys padded positive sectors nodeSectors, leaf⟩
  refine ⟨it, start, created, ?_, ?_⟩
  · rintro ⟨padded, nothing, kept⟩
    have apart := (logKeys_pairwise distinct).mpr nothing
    obtain ⟨_, _, made, sound, _⟩ := single_run type mounted pointed target (single padded)
    cases created.symm.trans made
    constructor
    · exact single_returns mounted pointed target (single padded) created
    · intro count key after returned
      obtain ⟨offset, listed, rfl, _⟩ := sound count key after returned
      have member : offset ∈ logKeys bsets := List.mem_of_getElem? listed
      refine ⟨Log.last_of_pairwise apart member, ?_⟩
      obtain ⟨bset, inBSet, inside⟩ := mem_logKeys.mp member
      exact kept bset inBSet offset inside
    · intro i j left right leftAfter rightAfter earlier leftReturned rightReturned
      obtain ⟨leftKey, leftListed, rfl, _⟩ := sound i left leftAfter leftReturned
      obtain ⟨rightKey, rightListed, rfl, _⟩ := sound j right rightAfter rightReturned
      exact pairwise_iff_positions.mp apart i j leftKey rightKey earlier leftListed rightListed
  · intro reached plain composed
    have produces := log.produces reached positive sectors nodeSectors
    rw [← atStart.bsets] at produces
    have zero := composed.zero log positive ready atStart produces leaf plain
    have padded : Padded (env.image.window address size) blockSize bsets :=
      ⟨fun bset member filled => zero bset (mem_filledBSets.mpr ⟨member, filled⟩), reached⟩
    obtain ⟨_, _, made, _, complete⟩ := single_run type mounted pointed target (single padded)
    cases created.symm.trans made
    refine ⟨padded, (logKeys_pairwise distinct).mp ?_, ?_⟩
    · apply pairwise_iff_positions.mpr
      intro i j leftKey rightKey earlier leftListed rightListed
      obtain ⟨leftAfter, left⟩ := complete i leftKey leftListed
      obtain ⟨rightAfter, right⟩ := complete j rightKey rightListed
      have different := composed.once i j _ _ _ _ earlier left right
      exact different
    · intro bset member key inside
      obtain ⟨position, listed⟩ := List.mem_iff_getElem?.mp (mem_logKeys.mpr ⟨bset, member, inside⟩)
      obtain ⟨after, returned⟩ := complete position key listed
      exact (composed.live position _ after returned).2

def logSuperblock : Bytes := Bytes.ofCells 760 [(120, 1), (145, 32), (752, 16)]

def logWorld : World := { heap := [logSuperblock], position := 0 }

def logImage : Bytes := Bytes.ofCells 1536
  [(670, 7), (672, 7), (673, 1), (674, 10), (696, 7), (704, 1),
   (1062, 5), (1064, 5), (1065, 1), (1088, 7), (1096, 1)]

def logEnv : Env := { image := logImage, junk := fun _ _ => 0 }

def logNode : Bytes := logImage.window 512 1024

def logBSets : List BSetEntry := [{ start := 136, keys := [160] }, { start := 528, keys := [552] }]

theorem logMounted : Mounted sampleReader 1024 512 logWorld :=
  ⟨logSuperblock, rfl, rfl, rfl⟩

theorem logTarget : btreePtrAddress logSuperblock sampleRoot.offset = .ok 512 := by
  decide

theorem logZero : ∀ index, 592 ≤ index → logNode.byte index = 0 := by
  intro index bound
  have behind : logImage.byte (512 + index) = 0 :=
    @Bytes.ofCells_zero 1536 1104 _ _ (by decide) (by omega)
  by_cases inside : index < 1024
  · rw [logNode, Bytes.window, Bytes.ofFn_byte _ inside]
    exact behind
  · exact logNode.outside index (Nat.not_lt.mp inside)

theorem KeyWords.single {node : Bytes} {start stop : Nat} (positive : 0 < node.number 1 start)
    (fills : start + node.number 1 start * u64sSize = stop) : KeyWords node stop start [start] := by
  refine KeyWords.key positive ?_ ?_
  · simp only [u64sSize] at fills
    omega
  · rw [fills]
    exact KeyWords.done

theorem logNode_log : BSetLog logNode 512 BTreeNode.keys logBSets := by
  have first : BSetEntry.WellFormed logNode { start := 136, keys := [160] } :=
    ⟨by decide, KeyWords.single (by decide) (by decide)⟩
  have second : BSetEntry.WellFormed logNode { start := 528, keys := [552] } :=
    ⟨by decide, KeyWords.single (by decide) rfl⟩
  have next : roundup (BSetEntry.stop logNode { start := 136, keys := [160] }) 512 + sizeofCsum =
      528 := by decide
  have stop : BSetEntry.stop logNode { start := 528, keys := [552] } = 592 := rfl
  refine @BSetLog.more _ _ { start := 136, keys := [160] } _ first ?_
  rw [next]
  refine @BSetLog.last _ _ { start := 528, keys := [552] } second fun index bound => ?_
  rw [stop] at bound
  exact logZero index bound

theorem logNode_padded : Padded logNode 512 logBSets := by
  have stop : bsetStop logNode 136 = 216 := rfl
  constructor
  · intro bset member _
    rcases List.mem_pair.mp member with rfl | rfl
    · exact ⟨by decide, rfl⟩
    · exact ⟨by decide, rfl⟩
  · refine List.isChain_cons_cons.mpr ⟨fun boundary => ?_, List.IsChain.singleton _⟩
    rw [stop] at boundary
    exact absurd boundary (by decide)

theorem logNode_leaf : ∀ key ∈ logKeys logBSets, ∃ kind, BKey.type logNode key = .ok kind ∧
    kind ≠ keyTypeBtreePtrV2 := by
  intro key member
  rcases List.mem_pair.mp member with rfl | rfl
  · exact ⟨keyTypeDirent, rfl, by decide⟩
  · exact ⟨keyTypeDeleted, rfl, by decide⟩

theorem logNode_distinct : ∀ bset ∈ logBSets, PositionsDistinct logNode bset := by
  intro bset member
  rcases List.mem_pair.mp member with rfl | rfl
  · exact List.pairwise_singleton _ _
  · exact List.pairwise_singleton _ _

theorem nextKey_stale_sample :
    BSetLog logNode 512 BTreeNode.keys logBSets ∧ Padded logNode 512 logBSets ∧
    keyPosition logNode 160 = keyPosition logNode 552 ∧
    ∃ it start, BTreeIterator.new logEnv sampleReader sampleRoot .dirents logWorld =
        .ok (it, start) ∧
      (∃ after, Nth (Returns logEnv sampleReader) (it, start) 0 ⟨after.1.iter, 160⟩ after) ∧
      (∃ after, Nth (Returns logEnv sampleReader) (it, start) 1 ⟨after.1.iter, 552⟩ after) ∧
      ¬LogComposed logEnv sampleReader (it, start) logNode logBSets := by
  have same : keyPosition logNode 160 = keyPosition logNode 552 := rfl
  have single : SingleNode logEnv.image 1024 512 512 [160, 552] :=
    ⟨by decide, by decide, logNode_leaf⟩
  have pointed : logWorld.heap[sampleRoot.block]? = some logSuperblock := rfl
  obtain ⟨it, start, created, _, complete⟩ :=
    @single_run logEnv _ _ _ _ _ _ _ _ .dirents logMounted pointed logTarget single
  obtain ⟨first, stale⟩ := complete 0 160 rfl
  obtain ⟨second, mark⟩ := complete 1 552 rfl
  refine ⟨logNode_log, logNode_padded, same, it, start, created, ⟨first, stale⟩, ⟨second, mark⟩, ?_⟩
  intro composed
  exact composed.once 0 1 _ _ _ _ (by decide) stale mark same

theorem nextKey_composed_iff_sample : ∃ it start,
    BTreeIterator.new logEnv sampleReader sampleRoot .dirents logWorld = .ok (it, start) ∧
      (Padded logNode 512 logBSets ∧ NothingReplaced logNode logBSets ∧
          NothingDeleted logNode logBSets →
        LogComposed logEnv sampleReader (it, start) logNode logBSets) ∧
      ((logBSets.map BSetEntry.start).IsChain (Reached logNode 512) →
        NoPointerBehind logNode logBSets →
        LogComposed logEnv sampleReader (it, start) logNode logBSets →
        Padded logNode 512 logBSets ∧ NothingReplaced logNode logBSets ∧
          NothingDeleted logNode logBSets) :=
  nextKey_composed_iff .dirents logMounted rfl logTarget (by decide) (by decide) logNode_log
    logNode_leaf logNode_distinct

end Bcachefs
