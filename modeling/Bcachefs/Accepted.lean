import Bcachefs.StoredListing

/-! The other direction: a loop over `next_key` that comes to its end has gone through a
finite tree, so the images on which `main` gets through are exactly those with finite trees. -/

namespace Bcachefs

open ByteString Iteration Flattening Relation

section

variable {node : Bytes} {blockSize : Nat} {keyIterator : BKeyIterator} {bsetIterator : BSetIterator}
  {keys : List Nat}

theorem Rest.split (rest : Rest node blockSize keyIterator bsetIterator keys) :
    ∃ own bsets lists, Produces (BKeyIterator.next node) keyIterator own ∧
      Produces (BSetIterator.next node blockSize) bsetIterator bsets ∧
      bsets.mapM (bsetKeys node) = .ok lists ∧ keys = own ++ lists.flatten := by
  induction rest with
  | done finished stepped => exact ⟨[], [], [], Produces.done finished, Produces.done stepped, rfl, rfl⟩
  | @bset _ _ _ _ bset _ keys finished stepped created _ ih =>
      rcases ih with ⟨own, bsets, lists, current, later, scanned, same⟩
      have scan : bsetKeys node bset = .ok own := by
        have ended := bsetKeys_ne_fuel node bset
        rw [bsetKeys, created, ok_bind] at ended ⊢
        exact drain_of_produces current ended
      refine ⟨[], bset :: bsets, own :: lists, Produces.done finished, Produces.more stepped later, ?_, ?_⟩
      · rw [List.mapM_cons, scan, ok_bind, scanned]
        rfl
      · simpa using same
  | key returned _ ih =>
      rcases ih with ⟨own, bsets, lists, current, later, scanned, same⟩
      refine ⟨_ :: own, bsets, lists, Produces.more returned current, later, scanned, ?_⟩
      rw [same, List.cons_append]

theorem Rest.nodeKeys (rest : Rest node blockSize BKeyIterator.empty bsetIterator keys)
    (created : BSetIterator.new node.size = .ok bsetIterator) :
    Bcachefs.nodeKeys node blockSize = .ok keys := by
  rcases rest.split with ⟨own, bsets, lists, current, later, scanned, same⟩
  have drained : drain (BSetIterator.next node blockSize) .fuel (node.size + 1) bsetIterator =
      .ok bsets := by
    apply drain_of_produces later
    intro failed
    apply nodeKeys_ne_fuel node blockSize
    rw [Bcachefs.nodeKeys, created, ok_bind, failed]
    rfl
  cases current with
  | more returned _ => cases returned
  | done _ =>
      rw [Bcachefs.nodeKeys, created, ok_bind, drained, ok_bind, scanned, ok_bind, same]
      rfl

end

section

variable {env : Env} {reader : BCacheFSReader} {size blockSize root : Nat}

theorem Remaining.of_new {world after : World} {it : BTreeIterator} {ptr : Ptr} {type : BTreeType}
    {source : Bytes} {address depth : Nat} {flat : List TreeKey}
    (remaining : Remaining env.image size blockSize after depth it flat)
    (mounted : Mounted reader size blockSize world)
    (pointed : world.heap[ptr.block]? = some source)
    (target : btreePtrAddress source ptr.offset = .ok address)
    (readable : ReadsFull env.image address size)
    (created : BTreeIterator.new env reader ptr type world = .ok (it, after)) :
    address + size ≤ env.image.size ∧
      ∃ keys, nodeKeys (env.image.window address size) blockSize = .ok keys ∧
        Flat (Expands env.image size blockSize)
          (keys.map (TreeKey.mk depth (env.image.window address size))) flat := by
  rw [BTreeIterator.new_full mounted pointed target readable] at created
  rcases bind_eq_ok.mp created with ⟨bsetIterator, fresh, same⟩
  cases same
  have filled : BTreeNode.keys < size := by
    by_contra short
    rw [BSetIterator.new, if_neg short] at fresh
    cases fresh
  constructor
  · simp only [ReadsFull] at readable
    omega
  · cases remaining with
    | own _ held rest expanded =>
        cases held.symm.trans List.getElem?_concat_length
        exact ⟨_, rest.nodeKeys (by simpa using fresh), expanded⟩
    | inner single _ _ _ _ => cases single

/-- A call that returns has gone through finitely many keys, so where a finite tree is
left after it there was one before it. -/
theorem Returned.finite {it after : BTreeIterator} {world next : World} {result : Option Ptr}
    (returned : Returned env reader it world result after next)
    (complete : ∀ node, ReflTransGen (LinksTo env.image size blockSize) root node →
      ReadsFull env.image node size)
    (mounted : Mounted reader size blockSize world)
    (inside : Inside env.image size blockSize root world it) (depth : Nat)
    (later : ∀ key, result = some key →
      ∃ flat, Remaining env.image size blockSize next depth after flat) :
    ∃ flat, Remaining env.image size blockSize world depth it flat := by
  induction returned generalizing depth with
  | @passed it world child key childAfter next last inner ih =>
      cases inside with
      | leaf childless _ _ _ => simp [childless] at last
      | @inner _ only address single below reached held _ =>
          have same : only = child := by simpa [single] using last
          cases same
          rcases later key rfl with ⟨flat, remaining⟩
          cases remaining with
          | own childless _ _ _ => simp at childless
          | inner one inside heldAfter rest expanded =>
              simp only [single, List.dropLast_singleton, List.nil_append, List.cons.injEq,
                and_true] at one
              cases one
              cases heldAfter.symm.trans (inner.grows _ _ held)
              rcases ih mounted below (depth + 1) (fun _ _ => ⟨_, inside⟩) with ⟨innerFlat, before⟩
              exact ⟨_, Remaining.inner single before held rest expanded⟩
  | @popped it world child childAfter middle result after next last inner _ ih ihLater =>
      cases inside with
      | leaf childless _ _ _ => simp [childless] at last
      | @inner _ only address single below reached held scanning =>
          have same : only = child := by simpa [single] using last
          cases same
          have children : it.children.dropLast = [] := by simp [single]
          have stillHeld := inner.grows _ _ held
          rcases ih mounted below (depth + 1) (fun _ null => by cases null) with ⟨innerFlat, before⟩
          rcases ihLater (mounted.extends inner.grows)
            (Inside.leaf children reached stillHeld scanning) depth later with ⟨flat, remaining⟩
          cases remaining with
          | own _ heldAfter rest expanded =>
              cases heldAfter.symm.trans stillHeld
              exact ⟨_, Remaining.inner single before held rest expanded⟩
          | inner one _ _ _ _ => simp [children] at one
  | @key it world node key keyIterator type childless held scanned typed plain =>
      rcases later _ rfl with ⟨flat, remaining⟩
      cases remaining with
      | own _ again rest expanded =>
          cases held.symm.trans again
          exact ⟨_, Remaining.own childless held (Rest.key scanned rest)
            (Flat.keep (Expands.plain typed plain) expanded)⟩
      | inner one _ _ _ _ => simp [childless] at one
  | @entered it world node key keyIterator value child middle result after next childless held
      scanned typed valued created _ ih =>
      cases inside with
      | inner single _ _ _ _ => simp [childless] at single
      | @leaf _ address _ reached loaded scanning =>
          cases held.symm.trans loaded
          have grown := BTreeIterator.new_extends created
          have target := child_target complete reached scanning scanned typed valued
          have below := BTreeIterator.new_inside mounted loaded target created
          rcases BTreeIterator.new_target mounted loaded created with ⟨place, found⟩
          rcases ih (mounted.extends grown)
            (Inside.inner rfl below reached (grown _ _ loaded) (Scanning.key scanning scanned))
            depth later with ⟨flat, remaining⟩
          cases remaining with
          | own none _ _ _ => cases none
          | inner one inside again rest expanded =>
              cases one
              cases again.symm.trans (grown _ _ loaded)
              rcases inside.of_new mounted loaded found (target place found).1 created with
                ⟨readable, keys, listed, innerExpanded⟩
              exact ⟨_, Remaining.own childless held (Rest.key scanned rest)
                (Flat.enter (Expands.pointer typed valued found readable listed) innerExpanded expanded)⟩
  | @advanced it world node keyAfter sb otherSize bset bsetIterator keyIterator result after next
      childless held scanned block sized stepped entered _ ih =>
      cases inside with
      | inner single _ _ _ _ => simp [childless] at single
      | @leaf _ address _ reached loaded scanning =>
          cases held.symm.trans loaded
          rcases mounted.superblock with ⟨_, superblock, _, same⟩
          cases block.symm.trans superblock
          cases sized.symm.trans same
          rcases ih mounted (Inside.leaf childless reached loaded
            (Scanning.bset scanning scanned stepped entered)) depth later with ⟨flat, remaining⟩
          cases remaining with
          | own _ again rest expanded =>
              cases held.symm.trans again
              exact ⟨_, Remaining.own childless held (Rest.bset scanned stepped entered rest) expanded⟩
          | inner one _ _ _ _ => simp [childless] at one
  | @finished it world node keyAfter sb otherSize bsetIterator childless held scanned block sized
      stepped =>
      rcases mounted.superblock with ⟨_, superblock, _, same⟩
      cases block.symm.trans superblock
      cases sized.symm.trans same
      exact ⟨[], Remaining.own childless held (Rest.done scanned stepped) Flat.done⟩

theorem Visits.finite {it last : BTreeIterator} {world final : World} {visits : List Visit}
    (run : Visits env reader it world visits last final)
    (complete : ∀ node, ReflTransGen (LinksTo env.image size blockSize) root node →
      ReadsFull env.image node size)
    (mounted : Mounted reader size blockSize world)
    (inside : Inside env.image size blockSize root world it) :
    ∃ flat, Remaining env.image size blockSize world 0 it flat := by
  induction run with
  | done returned => exact returned.finite complete mounted inside 0 fun _ null => by cases null
  | more returned _ ih =>
      apply returned.finite complete mounted inside 0
      intro _ _
      exact ih (mounted.extends returned.grows) (returned_inside complete returned mounted inside)

end

section

variable {env : Env} {reader : BCacheFSReader} {it last : BTreeIterator} {world next final : World}
  {type : BTreeType}

/-- Where the calls on an iterator of the reader come to their end, the btree is a finite tree. -/
theorem Visits.listed {fuel : Nat} {visits : List Visit}
    (run : Visits env reader it next visits last final) (complete : Complete env.image type)
    (marked : HasMagic env.image) (opened : OpenedOn env.image reader world)
    (rooted : reader.iterator env fuel type world = .ok (it, next)) :
    ∃ size blockSize address flat, Listed env.image type size blockSize address flat := by
  rcases superblockOf_sizes env.image with ⟨size, blockSize, nodeSized, blockSized⟩
  rcases opened.table with ⟨more, field, search, filled⟩
  have enough := findSuperblockField_mono (Nat.le_max_right fuel more) search
  have again := BCacheFSReader.iterator_mono (Nat.le_max_left fuel more) rooted
  have mounted : Mounted reader size blockSize world := ⟨_, opened.held, nodeSized, blockSized⟩
  cases slot : reader.btreeRoots[type.id]? with
  | none =>
      rw [BCacheFSReader.iterator, slot] at again
      cases again
  | some recorded =>
      cases recorded with
      | none =>
          rw [BCacheFSReader.iterator, slot] at again
          cases again
      | some entry =>
          simp only [BCacheFSReader.iterator, slot, World.deref_ok.mpr opened.held, ok_bind] at again
          rcases bind_eq_ok.mp again with ⟨id, read, rest⟩
          rcases bind_eq_ok.mp rest with ⟨cursor, found, created⟩
          rcases BTreeIterator.new_target mounted opened.held created with ⟨address, target⟩
          have root : RootAddress (superblockOf env.image) type address :=
            ⟨_, field, _, entry, cursor, enough, filled, slot, found, target⟩
          have readable : ∀ node, ReflTransGen (LinksTo env.image size blockSize) address node →
              ReadsFull env.image node size :=
            fun node path => complete.nodes marked size blockSize address node nodeSized blockSized
              root path
          have inside : Inside env.image size blockSize address next it := by
            apply BTreeIterator.new_inside mounted opened.held ?_ created
            intro other same
            cases target.symm.trans same
            exact ⟨readable address ReflTransGen.refl, ReflTransGen.refl⟩
          have grown := BTreeIterator.new_extends created
          rcases run.finite readable (mounted.extends grown) inside with ⟨flat, remaining⟩
          exact ⟨size, blockSize, address, flat, complete.superblock, marked, nodeSized, blockSized,
            root, remaining.of_new mounted opened.held target (readable address ReflTransGen.refl)
              created⟩

theorem walkFrom_visits {callFuel fuel : Nat} {keys : List Decoded}
    (walked : walkFrom env reader callFuel fuel it world = .ok keys) :
    ∃ visits last final, Visits env reader it world visits last final := by
  induction fuel generalizing it world keys with
  | zero => cases walked
  | succ fuel ih =>
      rcases bind_eq_ok.mp walked with ⟨⟨key, after, next⟩, returned, rest⟩
      have derivation := BTreeIterator.nextKey_returned returned
      cases key with
      | none => exact ⟨[], after, next, Visits.done derivation⟩
      | some key =>
          rcases bind_eq_ok.mp rest with ⟨buffer, held, rest⟩
          rcases bind_eq_ok.mp rest with ⟨later, walked, rest⟩
          rcases ih walked with ⟨visits, last, final, run⟩
          exact ⟨_, last, final, Visits.more derivation run⟩

theorem listFrom_visits {item : BTreeIterator → World → Ptr → Stream → Result Stream}
    {callFuel fuel : Nat} {out ended : Stream}
    (listed : listFrom env reader item callFuel fuel it world out = .ok (ended, final)) :
    ∃ visits last, Visits env reader it world visits last final := by
  induction fuel generalizing it world out with
  | zero => cases listed
  | succ fuel ih =>
      rcases bind_eq_ok.mp listed with ⟨⟨key, after, next⟩, returned, rest⟩
      have derivation := BTreeIterator.nextKey_returned returned
      cases key with
      | none =>
          cases rest
          exact ⟨[], after, Visits.done derivation⟩
      | some key =>
          rcases bind_eq_ok.mp rest with ⟨further, printed, rest⟩
          rcases ih rest with ⟨visits, last, run⟩
          exact ⟨_, last, Visits.more derivation run⟩

theorem listFrom_mono {item : BTreeIterator → World → Ptr → Stream → Result Stream}
    {callFuel moreCalls fuel more : Nat} {out : Stream} {outcome : Stream × World}
    (enoughCalls : callFuel ≤ moreCalls) (enough : fuel ≤ more)
    (listed : listFrom env reader item callFuel fuel it world out = .ok outcome) :
    listFrom env reader item moreCalls more it world out = .ok outcome := by
  induction fuel generalizing more it world out with
  | zero => cases listed
  | succ fuel ih =>
      cases more with
      | zero => omega
      | succ more =>
          rcases bind_eq_ok.mp listed with ⟨⟨key, after, next⟩, returned, rest⟩
          rw [listFrom, BTreeIterator.nextKey_mono enoughCalls returned, ok_bind]
          cases key with
          | none => exact rest
          | some key =>
              rcases bind_eq_ok.mp rest with ⟨further, printed, rest⟩
              dsimp only
              rw [printed, ok_bind]
              exact ih (by omega) rest

end

theorem main_mono {env : Env} {fuel more : Nat} {text : Text} (enough : fuel ≤ more)
    (printed : main env fuel = .ok text) : main env more = .ok text := by
  rcases bind_eq_ok.mp printed with ⟨⟨reader, world⟩, opening, rest⟩
  rcases bind_eq_ok.mp rest with ⟨⟨it, next⟩, rooted, rest⟩
  rcases bind_eq_ok.mp rest with ⟨⟨first, final⟩, listed, rest⟩
  rcases bind_eq_ok.mp rest with ⟨⟨again, start⟩, rootedAgain, rest⟩
  rcases bind_eq_ok.mp rest with ⟨⟨second, last⟩, listedAgain, rest⟩
  rw [main, BCacheFSReader.new_mono enough opening, ok_bind]
  dsimp only
  rw [BCacheFSReader.iterator_mono enough rooted, ok_bind]
  dsimp only
  rw [listFrom_mono enough enough listed, ok_bind]
  dsimp only
  rw [BCacheFSReader.iterator_mono enough rootedAgain, ok_bind]
  dsimp only
  rw [listFrom_mono enough enough listedAgain, ok_bind]
  exact rest

theorem RootAddress.unique {sb : Bytes} {type : BTreeType} {left right : Nat}
    (first : RootAddress sb type left) (second : RootAddress sb type right) : left = right := by
  rcases first with ⟨fuel, field, table, entry, root, search, filled, slot, found, target⟩
  rcases second with ⟨more, _, _, _, _, searchAgain, filledAgain, slotAgain, foundAgain, again⟩
  cases findSuperblockField_unique search searchAgain
  cases filled.symm.trans filledAgain
  cases slot.symm.trans slotAgain
  cases findBtreeRoot_unique found foundAgain
  cases target.symm.trans again
  rfl

theorem Listed.whole {image : Bytes} {type : BTreeType} {size blockSize address : Nat}
    {flat : List TreeKey} (listed : Listed image type size blockSize address flat) :
    Complete image type where
  superblock := listed.complete
  nodes _ otherSize otherBlock root node nodeSized blockSized rooted path := by
    cases listed.nodeSized.symm.trans nodeSized
    cases listed.blockSized.symm.trans blockSized
    cases listed.root.unique rooted
    exact Nat.le_sub_of_add_le' (listed.tree.readable path)

/-- A run over a btree of an image that is not cut off returns exactly when the image
opens, has a root for the btree, and the tree below it is finite with nodes that scan. -/
theorem walk_iff {env : Env} {type : BTreeType} (complete : Complete env.image type) :
    (∃ fuel output, walk env fuel type = .ok output) ↔
      ∃ size blockSize address flat, Listed env.image type size blockSize address flat := by
  constructor
  · rintro ⟨fuel, output, walked⟩
    rcases bind_eq_ok.mp walked with ⟨⟨reader, world⟩, opening, rest⟩
    rcases bind_eq_ok.mp rest with ⟨⟨it, next⟩, rooted, rest⟩
    rcases bind_eq_ok.mp rest with ⟨keys, listed, _⟩
    rcases OpenedOn.of_new complete.superblock opening with ⟨marked, opened⟩
    rcases walkFrom_visits listed with ⟨visits, last, final, run⟩
    exact run.listed complete marked opened rooted
  · rintro ⟨size, blockSize, address, flat, listed⟩
    rcases listed.walk with ⟨fuel, ptr, keys, walked, _⟩
    exact ⟨fuel, _, walked⟩

theorem walk_iff_sample : (∃ fuel output, walk (cleanEnv 6144) fuel .dirents = .ok output) ↔
    ∃ size blockSize address flat, Listed (sectorImage 6144) .dirents size blockSize address flat :=
  @walk_iff (cleanEnv 6144) .dirents sectorComplete

/-- `main` prints a text exactly when extents and dirents are finite trees whose keys can
all be printed, and then the text is their listing. -/
theorem main_iff {env : Env} (extents : Complete env.image .extents)
    (dirents : Complete env.image .dirents) (text : Text) :
    (∃ fuel, main env fuel = .ok text) ↔
      ∃ size blockSize extentRoot direntRoot extentKeys direntKeys,
        Listed env.image .extents size blockSize extentRoot extentKeys ∧
        Listed env.image .dirents size blockSize direntRoot direntKeys ∧
        listing extentRoot extentKeys direntKeys = .ok text := by
  constructor
  · rintro ⟨fuel, printed⟩
    rcases bind_eq_ok.mp printed with ⟨⟨reader, world⟩, opening, rest⟩
    rcases bind_eq_ok.mp rest with ⟨⟨it, next⟩, rooted, rest⟩
    rcases bind_eq_ok.mp rest with ⟨⟨first, final⟩, listed, rest⟩
    rcases bind_eq_ok.mp rest with ⟨⟨again, start⟩, rootedAgain, rest⟩
    rcases bind_eq_ok.mp rest with ⟨⟨second, last⟩, listedAgain, _⟩
    rcases OpenedOn.of_new extents.superblock opening with ⟨marked, opened⟩
    rcases listFrom_visits listed with ⟨_, _, run⟩
    rcases listFrom_visits listedAgain with ⟨_, _, runAgain⟩
    rcases run.listed extents marked opened rooted with
      ⟨size, blockSize, extentRoot, extentKeys, extentsListed⟩
    have grown := ((extentsListed.iterator opened).2 fuel it next rooted).1.trans run.grows
    rcases runAgain.listed dirents marked (opened.grown grown) rootedAgain with
      ⟨otherSize, otherBlock, direntRoot, direntKeys, direntsListed⟩
    cases extentsListed.nodeSized.symm.trans direntsListed.nodeSized
    cases extentsListed.blockSized.symm.trans direntsListed.blockSized
    rcases extentsListed.main direntsListed rfl rfl with ⟨enough, lines⟩
    refine ⟨size, blockSize, extentRoot, direntRoot, extentKeys, direntKeys, extentsListed,
      direntsListed, ?_⟩
    have more := main_mono (Nat.le_max_left fuel enough) printed
    rw [lines _ (Nat.le_max_right fuel enough)] at more
    exact more
  · rintro ⟨size, blockSize, extentRoot, direntRoot, extentKeys, direntKeys, extentsListed,
      direntsListed, printed⟩
    rcases extentsListed.main direntsListed rfl rfl with ⟨enough, lines⟩
    exact ⟨enough, (lines enough (Nat.le_refl _)).trans printed⟩

theorem main_iff_sample : (∃ fuel, main deletedEnv fuel = .ok deletedText) ↔
    ∃ size blockSize extentRoot direntRoot extentKeys direntKeys,
      Listed deletedEnv.image .extents size blockSize extentRoot extentKeys ∧
      Listed deletedEnv.image .dirents size blockSize direntRoot direntKeys ∧
      listing extentRoot extentKeys direntKeys = .ok deletedText := by
  rcases deletedSystem_listed with ⟨_, _, _, _, extents, dirents⟩
  exact @main_iff deletedEnv extents.whole dirents.whole deletedText

end Bcachefs
