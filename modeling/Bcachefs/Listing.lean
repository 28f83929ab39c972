import Bcachefs.MainCore
import Bcachefs.Opening
import Bcachefs.Locality
import Bcachefs.Extend

/-! Loops over `next_key`: the states in which the body of such a loop runs, which are
the same for every body. -/

namespace Bcachefs

open ByteString Iteration Flattening

structure Visit where
  key : Ptr
  it : BTreeIterator
  world : World

inductive Visits (env : Env) (reader : BCacheFSReader) :
    BTreeIterator → World → List Visit → BTreeIterator → World → Prop
  | done {it world after next} : Returned env reader it world none after next →
      Visits env reader it world [] after next
  | more {it world key after next visits last final} :
      Returned env reader it world (some key) after next →
      Visits env reader after next visits last final →
      Visits env reader it world (⟨key, after, next⟩ :: visits) last final

section

variable {env : Env} {reader : BCacheFSReader} {it last : BTreeIterator} {world final : World}
  {visits : List Visit}

theorem Visits.grows (run : Visits env reader it world visits last final) :
    world.Extends final := by
  induction run with
  | done returned => exact returned.grows
  | more returned _ ih => exact returned.grows.trans ih

theorem Returned.readable {after : BTreeIterator} {next : World} {result : Option Ptr}
    (returned : Returned env reader it world result after next) {key : Ptr}
    (found : result = some key) : ∃ buffer, next.heap[key.block]? = some buffer := by
  induction returned with
  | passed _ _ ih => exact ih found
  | popped _ _ _ _ ih => exact ih found
  | key _ held _ _ _ =>
      cases found
      exact ⟨_, held⟩
  | entered _ _ _ _ _ _ _ ih => exact ih found
  | advanced _ _ _ _ _ _ _ _ ih => exact ih found
  | finished => cases found

/-- With enough fuel the loop runs its body at each visit, on the output of the one
before, and it fails where the body does. -/
theorem Visits.listFrom (item : BTreeIterator → World → Ptr → Stream → Result Stream)
    (run : Visits env reader it world visits last final) :
    ∃ enough, ∀ callFuel fuel out, enough ≤ callFuel → enough ≤ fuel →
      Bcachefs.listFrom env reader item callFuel fuel it world out =
        (visits.foldlM (fun out visit => item visit.it visit.world visit.key out) out) >>= fun out =>
          .ok (out, final) := by
  induction run with
  | done returned =>
      rcases BTreeIterator.returned_nextKey returned with ⟨calls, called⟩
      refine ⟨calls + 1, ?_⟩
      intro callFuel fuel out enoughCalls enough
      cases fuel with
      | zero => omega
      | succ fuel =>
          rw [Bcachefs.listFrom, BTreeIterator.nextKey_mono (by omega) called, ok_bind]
          rfl
  | @more it world key after next visits last final returned _ ih =>
      rcases BTreeIterator.returned_nextKey returned with ⟨calls, called⟩
      rcases ih with ⟨later, rest⟩
      refine ⟨max calls later + 1, ?_⟩
      intro callFuel fuel out enoughCalls enough
      cases fuel with
      | zero => omega
      | succ fuel =>
          rw [Bcachefs.listFrom, BTreeIterator.nextKey_mono (by omega) called, ok_bind]
          dsimp only
          rw [List.foldlM_cons, bind_assoc]
          congr 1
          funext out
          exact rest callFuel fuel out (by omega) (by omega)

def Visit.decoded (visit : Visit) (buffer : Bytes) : Decoded where
  key := visit.key
  buffer := buffer
  entry := visit.it.directory visit.world (some visit.key)
  ext := visit.it.extend visit.world (some visit.key)

theorem Visits.walkFrom (run : Visits env reader it world visits last final) :
    ∃ fuel keys, Bcachefs.walkFrom env reader fuel fuel it world = .ok keys ∧
      List.Forall₂ (fun visit decoded => ∃ buffer,
        visit.world.heap[visit.key.block]? = some buffer ∧ decoded = visit.decoded buffer)
        visits keys := by
  induction run with
  | done returned =>
      rcases BTreeIterator.returned_nextKey returned with ⟨fuel, called⟩
      refine ⟨fuel + 1, [], ?_, List.Forall₂.nil⟩
      rw [Bcachefs.walkFrom, BTreeIterator.nextKey_mono (Nat.le_succ _) called, ok_bind]
      rfl
  | more returned _ ih =>
      rcases BTreeIterator.returned_nextKey returned with ⟨calls, called⟩
      rcases returned.readable rfl with ⟨buffer, held⟩
      rcases ih with ⟨fuel, keys, walked, matched⟩
      refine ⟨max calls fuel + 1, _, ?_, List.Forall₂.cons ⟨buffer, held, rfl⟩ matched⟩
      rw [Bcachefs.walkFrom, BTreeIterator.nextKey_mono (by omega) called, ok_bind]
      dsimp only
      rw [World.deref_ok.mpr held, ok_bind, walkFrom_mono (by omega) (by omega) walked, ok_bind]
      rfl

end

structure VisitOf (world : World) (ptr : Ptr) (visit : Visit) (key : TreeKey) : Prop where
  buffer : visit.world.heap[visit.key.block]? = some key.node
  offset : visit.key.offset = key.key
  chain : ∃ deepest, Chain visit.it key.depth deepest ∧ visit.key.block = deepest.iter
  root : visit.it.ptr = ptr
  grown : world.Extends visit.world

section

variable {env : Env} {reader : BCacheFSReader} {it : BTreeIterator} {world : World}
  {size blockSize : Nat} {flat : List TreeKey}

theorem VisitOf.earlier {older : World} {ptr : Ptr} {visit : Visit} {key : TreeKey}
    (visitOf : VisitOf world ptr visit key) (grown : older.Extends world) :
    VisitOf older ptr visit key :=
  { visitOf with grown := grown.trans visitOf.grown }

theorem Remaining.visits (mounted : Mounted reader size blockSize world)
    (remaining : Remaining env.image size blockSize world 0 it flat) :
    ∃ visits last final, Visits env reader it world visits last final ∧
      List.Forall₂ (VisitOf world it.ptr) visits flat := by
  induction flat generalizing it world with
  | nil =>
      rcases nextKey_delivered env mounted remaining with ⟨result, after, next, returned, null, _⟩
      rw [null] at returned
      exact ⟨[], after, next, Visits.done returned, List.Forall₂.nil⟩
  | cons key flat ih =>
      rcases nextKey_delivered env mounted remaining with ⟨result, after, next, returned, delivered⟩
      rcases delivered with ⟨ptr, levels, deepest, found, view, later, chain, placed, depth⟩
      rw [found] at returned
      rcases World.view_some.mp view with ⟨held, offset⟩
      rcases ih (mounted.extends returned.grows) later with ⟨visits, last, final, run, matched⟩
      refine ⟨_, last, final, Visits.more returned run, List.Forall₂.cons ?_ ?_⟩
      · rw [Nat.zero_add] at depth
        exact ⟨held, offset, ⟨deepest, depth ▸ chain, placed⟩, returned.keeps.2, returned.grows⟩
      · rw [returned.keeps.2] at matched
        exact matched.imp fun _ _ visitOf => visitOf.earlier returned.grows

end

def extendAt (address : Nat) (node : Bytes) (key type : Nat) : Result Extend := do
  let format ← BTreeNode.loadFormat node
  let _ ← parseBkey node key format
  let val ← getValue node node key
  let offset ← BKey.offset node key
  let size ← BKey.size node key
  if type = keyTypeExtent then do
    let valueOffset ← ExtentPtr.offset node val
    return { Extend.empty with
      fileOffset := fileOffsetOf offset size
      offset := wrap64 (valueOffset * sectorSize)
      size := wrap32 (size * sectorSize) }
  else do
    let u64s ← BKey.u64s node key
    return { Extend.empty with
      fileOffset := fileOffsetOf offset size
      offset := wrap64 (val + address)
      size := wrap64 (u64s * u64sSize + 2 ^ 64 - (val - key)) }

namespace TreeKey

def directory (key : TreeKey) (block : Nat) : Result DirectoryEntry := do
  let type ← BKey.type key.node key.key
  if type = keyTypeDirent then
    -- `iterator()` of an iterator with children reads behind them
    if key.depth = 0 then directoryIn key.node key.node ⟨block, key.key⟩ else .error .outOfBounds
  else return DirectoryEntry.empty

def extend (key : TreeKey) (address : Nat) : Result Extend := do
  let type ← BKey.type key.node key.key
  if type = keyTypeExtent ∨ type = keyTypeInlineData then
    if key.depth = 0 then extendAt address key.node key.key type else .error .outOfBounds
  else return Extend.empty

end TreeKey

section

variable {world : World} {ptr : Ptr} {visit : Visit} {key : TreeKey}

theorem VisitOf.place (visitOf : VisitOf world ptr visit key) :
    visit.key = ⟨visit.key.block, key.key⟩ := by
  rw [← visitOf.offset]

theorem VisitOf.iterator (visitOf : VisitOf world ptr visit key) :
    visit.it.iterator = if key.depth = 0 then .ok visit.it else .error .outOfBounds := by
  rcases visitOf.chain with ⟨deepest, chain, _⟩
  rw [BTreeIterator.iterator_chain chain]
  by_cases root : key.depth = 0
  · rw [root] at chain
    cases chain with
    | deepest _ => rfl
  · simp [root]

theorem VisitOf.root_block (visitOf : VisitOf world ptr visit key) (root : key.depth = 0) :
    visit.it.iter = visit.key.block := by
  rcases visitOf.chain with ⟨deepest, chain, placed⟩
  rw [root] at chain
  cases chain with
  | deepest _ => exact placed.symm

theorem VisitOf.directory (visitOf : VisitOf world ptr visit key) :
    visit.it.directory visit.world (some visit.key) = key.directory visit.key.block := by
  rw [BTreeIterator.directory, World.deref_ok.mpr visitOf.buffer, ok_bind, TreeKey.directory,
    visitOf.offset]
  congr 1
  funext type
  by_cases dirent : type = keyTypeDirent
  · rw [if_pos dirent, if_pos dirent, visitOf.iterator]
    by_cases root : key.depth = 0
    · rw [if_pos root, if_pos root, ok_bind, visitOf.root_block root,
        World.deref_ok.mpr visitOf.buffer, ok_bind, visitOf.place]
    · rw [if_neg root, if_neg root]
      rfl
  · rw [if_neg dirent, if_neg dirent]

theorem extendIn_at {source node : Bytes} {address block key type : Nat}
    (held : world.heap[ptr.block]? = some source)
    (target : btreePtrAddress source ptr.offset = .ok address) :
    extendIn world ptr block node node ⟨block, key⟩ type = extendAt address node key type := by
  simp only [extendIn, extendAt, World.deref_ok.mpr held, ok_bind, target, ne_eq, not_true_eq_false,
    if_false]
  rfl

theorem VisitOf.extend (visitOf : VisitOf world ptr visit key) {source : Bytes} {address : Nat}
    (held : world.heap[ptr.block]? = some source)
    (target : btreePtrAddress source ptr.offset = .ok address) :
    visit.it.extend visit.world (some visit.key) = key.extend address := by
  rw [BTreeIterator.extend, World.deref_ok.mpr visitOf.buffer, ok_bind, TreeKey.extend,
    visitOf.offset]
  congr 1
  funext type
  by_cases located : type = keyTypeExtent ∨ type = keyTypeInlineData
  · rw [if_pos located, if_pos located, visitOf.iterator]
    by_cases root : key.depth = 0
    · rw [if_pos root, if_pos root, ok_bind, visitOf.root_block root,
        World.deref_ok.mpr visitOf.buffer, ok_bind, visitOf.root, visitOf.place]
      exact extendIn_at (visitOf.grown _ _ held) target
    · rw [if_neg root, if_neg root]
      rfl
  · rw [if_neg located, if_neg located]

end

structure Listed (image : Bytes) (type : BTreeType) (size blockSize address : Nat)
    (flat : List TreeKey) : Prop where
  complete : SuperblockComplete image
  magic : HasMagic image
  nodeSized : btreeNodeSize (superblockOf image) = .ok size
  blockSized : btreeBlockSize (superblockOf image) = .ok blockSize
  root : RootAddress (superblockOf image) type address
  tree : Tree image size blockSize address flat

structure OpenedOn (image : Bytes) (reader : BCacheFSReader) (world : World) : Prop where
  held : world.heap[reader.sblock]? = some (superblockOf image)
  table : ∃ fuel field, findSuperblockField (superblockOf image) sbFieldClean fuel = .ok (some field) ∧
    findJournalEntries (superblockOf image) field = .ok reader.btreeRoots

section

variable {env : Env} {reader : BCacheFSReader} {world next : World} {type : BTreeType}
  {size blockSize address : Nat} {flat : List TreeKey}

theorem OpenedOn.grown (opened : OpenedOn env.image reader world) (grown : world.Extends next) :
    OpenedOn env.image reader next :=
  { opened with held := grown _ _ opened.held }

theorem OpenedOn.of_new {fuel : Nat} (complete : SuperblockComplete env.image)
    (opened : BCacheFSReader.new env fuel World.start = .ok (reader, world)) :
    HasMagic env.image ∧ OpenedOn env.image reader world := by
  rcases reader_opened complete opened with ⟨marked, held, field, search, filled⟩
  exact ⟨marked, held, fuel, field, search, filled⟩

theorem Listed.opens (listed : Listed env.image type size blockSize address flat) :
    ∃ fuel reader world, BCacheFSReader.new env fuel World.start = .ok (reader, world) ∧
      OpenedOn env.image reader world := by
  rcases listed.root with ⟨fuel, field, table, entry, root, search, filled, _⟩
  rcases BCacheFSReader.new_ok listed.complete listed.magic search filled with
    ⟨reader, world, opened, held, same⟩
  refine ⟨fuel, reader, world, opened, held, fuel, field, search, ?_⟩
  rw [same]
  exact filled

theorem Listed.mounted (listed : Listed env.image type size blockSize address flat)
    (opened : OpenedOn env.image reader world) : Mounted reader size blockSize world :=
  ⟨_, opened.held, listed.nodeSized, listed.blockSized⟩

theorem Listed.iterator (listed : Listed env.image type size blockSize address flat)
    (opened : OpenedOn env.image reader world) :
    (∃ fuel it next, reader.iterator env fuel type world = .ok (it, next)) ∧
      ∀ fuel it next, reader.iterator env fuel type world = .ok (it, next) →
        world.Extends next ∧ Remaining env.image size blockSize next 0 it flat ∧
          next.heap[it.ptr.block]? = some (superblockOf env.image) ∧
          btreePtrAddress (superblockOf env.image) it.ptr.offset = .ok address := by
  rcases listed.root with ⟨fuel, field, table, entry, root, search, filled, slot, found, target⟩
  rcases opened.table with ⟨other, again, research, refilled⟩
  cases findSuperblockField_unique search research
  cases filled.symm.trans refilled
  have loaded : Loaded reader (superblockOf env.image) size blockSize world :=
    ⟨opened.held, listed.nodeSized, listed.blockSized⟩
  rcases bind_eq_ok.mp found with ⟨u64s, length, _⟩
  have header := (load_ok.mp length).1
  simp only [JsetEntry.start] at header
  have read : JsetEntry.btreeId (superblockOf env.image) entry = .ok _ := load_inside (by omega)
  have rooted : RootedTree env reader (superblockOf env.image) size blockSize type flat :=
    ⟨entry, _, fuel, root, address, slot, read, found, target, listed.tree⟩
  rcases iterator_remaining loaded rooted with ⟨some, remains⟩
  refine ⟨some, ?_⟩
  intro more it next returned
  rcases remains more it next returned with ⟨grown, remaining⟩
  refine ⟨grown, remaining, ?_⟩
  simp only [BCacheFSReader.iterator, slot, World.deref_ok.mpr opened.held, ok_bind, read] at returned
  rcases bind_eq_ok.mp returned with ⟨cursor, search, created⟩
  cases findBtreeRoot_unique found search
  rw [BTreeIterator.new_ptr created]
  exact ⟨grown _ _ opened.held, target⟩

structure Decodes (address : Nat) (decoded : Decoded) (key : TreeKey) : Prop where
  buffer : decoded.buffer = key.node
  offset : decoded.key.offset = key.key
  entry : decoded.entry = key.directory decoded.key.block
  ext : decoded.ext = key.extend address

theorem VisitOf.decodes {ptr : Ptr} {visit : Visit} {key : TreeKey} {source buffer : Bytes}
    (visitOf : VisitOf world ptr visit key) (held : world.heap[ptr.block]? = some source)
    (target : btreePtrAddress source ptr.offset = .ok address)
    (found : visit.world.heap[visit.key.block]? = some buffer) :
    Decodes address (visit.decoded buffer) key where
  buffer := Option.some.inj (found.symm.trans visitOf.buffer)
  offset := visitOf.offset
  entry := visitOf.directory
  ext := visitOf.extend held target

theorem decodes_all {ptr : Ptr} {visits : List Visit} {keys : List Decoded} {source : Bytes}
    (held : world.heap[ptr.block]? = some source)
    (target : btreePtrAddress source ptr.offset = .ok address)
    (matched : List.Forall₂ (VisitOf world ptr) visits flat)
    (decoded : List.Forall₂ (fun visit decoded => ∃ buffer,
      visit.world.heap[visit.key.block]? = some buffer ∧ decoded = visit.decoded buffer)
      visits keys) : List.Forall₂ (Decodes address) keys flat := by
  induction matched generalizing keys with
  | nil =>
      cases decoded
      exact List.Forall₂.nil
  | cons visitOf _ ih =>
      cases decoded with
      | cons here rest =>
          rcases here with ⟨buffer, found, same⟩
          rw [same]
          exact List.Forall₂.cons (visitOf.decodes held target found) (ih rest)

theorem Listed.walk (listed : Listed env.image type size blockSize address flat) :
    ∃ fuel ptr keys, Bcachefs.walk env fuel type = .ok (ptr, keys) ∧
      List.Forall₂ (Decodes address) keys flat := by
  rcases listed.opens with ⟨first, reader, world, opening, opened⟩
  rcases listed.iterator opened with ⟨⟨second, it, next, rooted⟩, remains⟩
  rcases remains second it next rooted with ⟨grown, remaining, held, target⟩
  rcases remaining.visits ((listed.mounted opened).extends grown) with
    ⟨visits, last, final, run, matched⟩
  rcases run.walkFrom with ⟨third, keys, walked, decoded⟩
  refine ⟨max first (max second third), it.ptr, keys, ?_, ?_⟩
  · rw [Bcachefs.walk, BCacheFSReader.new_mono (by omega) opening, ok_bind]
    dsimp only
    rw [BCacheFSReader.iterator_mono (by omega) rooted, ok_bind]
    dsimp only
    rw [walkFrom_mono (by omega) (by omega) walked]
    rfl
  · exact decodes_all held target matched decoded

end

end Bcachefs
