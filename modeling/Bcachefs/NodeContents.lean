import Bcachefs.NodeLog
import Bcachefs.Contents

/-! The contents of a node, the bytes they are written as, and that the reader's
iterators get them back from every node that holds them. -/

namespace Bcachefs

open ByteString Iteration

structure NodeContents where
  format : KeyFormat
  bsets : List (List (Item format))

def NodeContents.items (contents : NodeContents) : List (Item contents.format) :=
  contents.bsets.flatten

section

variable {format : KeyFormat}

def wordsOf (items : List (Item format)) : Nat := (items.map Item.u64s).sum

def bsetEnd (start : Nat) (items : List (Item format)) : Nat :=
  start + sizeofBSet + wordsOf items * u64sSize

def bsetAfter (blockSize start : Nat) (items : List (Item format)) : Nat :=
  roundup (bsetEnd start items) blockSize + sizeofCsum

def itemStarts : Nat → List (Item format) → List Nat
  | _, [] => []
  | start, item :: items => start :: itemStarts (start + item.u64s * u64sSize) items

def ItemsIn (node : Bytes) : Nat → List (Item format) → Prop
  | _, [] => True
  | start, item :: items =>
      node.Holds start item.bytes ∧ ItemsIn node (start + item.u64s * u64sSize) items

structure BSetIn (node : Bytes) (start : Nat) (items : List (Item format)) : Prop where
  u64s : node.number 2 (start + 22) = wordsOf items
  written : ItemsIn node (start + sizeofBSet) items
  inside : bsetEnd start items < node.size
  zero : node.byte (bsetEnd start items) = 0

inductive LogIn (node : Bytes) (blockSize : Nat) : Nat → List (List (Item format)) → Prop
  | last {start items} : BSetIn node start items →
      (∀ index, bsetEnd start items ≤ index → node.byte index = 0) →
      LogIn node blockSize start [items]
  | more {start items bsets} : BSetIn node start items → bsetEnd start items % blockSize ≠ 0 →
      LogIn node blockSize (bsetAfter blockSize start items) bsets →
      LogIn node blockSize start (items :: bsets)

def logEntries (blockSize : Nat) : Nat → List (List (Item format)) → List BSetEntry
  | _, [] => []
  | start, items :: bsets =>
      { start := start, keys := itemStarts (start + sizeofBSet) items } ::
        logEntries blockSize (bsetAfter blockSize start items) bsets

end

structure NodeContents.HeldIn (contents : NodeContents) (node : Bytes) (blockSize : Nat) :
    Prop where
  format : BTreeNode.loadFormat node = .ok contents.format.toBKeyFormat
  log : LogIn node blockSize BTreeNode.keys contents.bsets

section

variable {format : KeyFormat} {node : Bytes} {blockSize start : Nat} {items : List (Item format)}
  {bsets : List (List (Item format))}

theorem ItemsIn.keyWords (held : ItemsIn node start items) :
    KeyWords node (start + wordsOf items * u64sSize) start (itemStarts start items) := by
  induction items generalizing start with
  | nil =>
      have empty : start + wordsOf ([] : List (Item format)) * u64sSize = start := by simp [wordsOf]
      rw [empty]
      exact KeyWords.done
  | cons item items ih =>
      have u64s := (Item.held_header held.1).1
      have positive := item.u64s_bounds.1
      have rest : start + wordsOf (item :: items) * u64sSize =
          start + item.u64s * u64sSize + wordsOf items * u64sSize := by
        simp only [wordsOf, List.map_cons, List.sum_cons, u64sSize]
        omega
      have later := ih held.2
      rw [rest]
      apply KeyWords.key
      · omega
      · simp only [u64sSize]
        omega
      · rw [u64s]
        exact later

theorem ItemsIn.readsBack (held : ItemsIn node start items)
    (loaded : BTreeNode.loadFormat node = .ok format.toBKeyFormat) :
    List.Forall₂ (ReadsBack node) (itemStarts start items) items := by
  induction items generalizing start with
  | nil => exact List.Forall₂.nil
  | cons item items ih => exact List.Forall₂.cons (Item.readsBack held.1 loaded) (ih held.2)

theorem BSetIn.stop (held : BSetIn node start items) (keys : List Nat) :
    BSetEntry.stop node { start := start, keys := keys } = bsetEnd start items := by
  simp only [BSetEntry.stop, BSetEntry.u64s, held.u64s, bsetEnd]

theorem BSetIn.wellFormed (held : BSetIn node start items) :
    BSetEntry.WellFormed node { start := start, keys := itemStarts (start + sizeofBSet) items } where
  inside := by
    rw [held.stop]
    exact Nat.le_of_lt held.inside
  keys := by
    rw [held.stop]
    exact held.written.keyWords

theorem LogIn.bsetLog (held : LogIn node blockSize start bsets) :
    BSetLog node blockSize start (logEntries blockSize start bsets) := by
  induction held with
  | last bset zeros =>
      apply BSetLog.last bset.wellFormed
      rw [bset.stop]
      exact zeros
  | more bset _ _ ih =>
      apply BSetLog.more bset.wellFormed
      rw [bset.stop]
      exact ih

theorem LogIn.zero (held : LogIn node blockSize start bsets) :
    ∀ entry ∈ logEntries blockSize start bsets, ZeroBehind node entry := by
  induction held with
  | last bset _ =>
      intro entry member
      rcases List.mem_singleton.mp member with same
      rw [same, ZeroBehind, bset.stop]
      exact ⟨bset.inside, bset.zero⟩
  | more bset _ _ ih =>
      intro entry member
      rcases List.mem_cons.mp member with same | member
      · rw [same, ZeroBehind, bset.stop]
        exact ⟨bset.inside, bset.zero⟩
      · exact ih entry member

theorem LogIn.reached (held : LogIn node blockSize start bsets) :
    ((logEntries blockSize start bsets).map BSetEntry.start).IsChain (Reached node blockSize) := by
  induction held with
  | last _ _ => exact List.IsChain.singleton _
  | @more start items bsets bset inBlock rest ih =>
      have stop : bsetStop node start = bsetEnd start items := bset.stop []
      have here : ∀ next, Reached node blockSize start next :=
        fun _ boundary => absurd (stop ▸ boundary) inBlock
      cases rest with
      | last _ _ => exact List.isChain_cons_cons.mpr ⟨here _, ih⟩
      | more _ _ _ => exact List.isChain_cons_cons.mpr ⟨here _, ih⟩

theorem LogIn.padded (held : LogIn node blockSize start bsets) :
    Padded node blockSize (logEntries blockSize start bsets) where
  zero bset member _ := held.zero bset member
  reached := held.reached

theorem LogIn.readsBack (held : LogIn node blockSize start bsets)
    (loaded : BTreeNode.loadFormat node = .ok format.toBKeyFormat) :
    List.Forall₂ (ReadsBack node)
      ((logEntries blockSize start bsets).map BSetEntry.keys).flatten bsets.flatten := by
  induction held with
  | last bset _ => simpa [logEntries] using bset.written.readsBack loaded
  | more bset _ _ ih =>
      simp only [logEntries, List.map_cons, List.flatten_cons]
      exact List.rel_append (bset.written.readsBack loaded) ih

theorem NodeContents.HeldIn.nodeKeys {contents : NodeContents} (held : contents.HeldIn node blockSize)
    (positive : 0 < blockSize) (sectors : 512 ∣ blockSize) (nodeSectors : 512 ∣ node.size) :
    ∃ keys, Bcachefs.nodeKeys node blockSize = .ok keys ∧
      List.Forall₂ (ReadsBack node) keys contents.items :=
  ⟨_, held.log.bsetLog.nodeKeys held.log.padded positive sectors nodeSectors,
    held.log.readsBack held.format⟩

end

/-! The writer: zeros, with each item, length and format field written at its place. -/

section

variable {format : KeyFormat}

def itemPatches : Nat → List (Item format) → List Patch
  | _, [] => []
  | start, item :: items =>
      ⟨start, item.bytes⟩ :: itemPatches (start + item.u64s * u64sSize) items

def bsetPatches (start : Nat) (items : List (Item format)) : List Patch :=
  .number (start + 22) 2 (wordsOf items) :: itemPatches (start + sizeofBSet) items

def logPatches (blockSize : Nat) : Nat → List (List (Item format)) → List Patch
  | _, [] => []
  | start, items :: bsets =>
      bsetPatches start items ++ logPatches blockSize (bsetAfter blockSize start items) bsets

/-- The offsets of a supported format are zero, as is the space they lie in. -/
def formatPatches (format : BKeyFormat) : List Patch :=
  [.number 80 1 format.keyU64s, .number 81 1 format.nrFields,
   .number 82 1 (format.bitsPerField bkeyFieldInode),
   .number 83 1 (format.bitsPerField bkeyFieldOffset),
   .number 84 1 (format.bitsPerField bkeyFieldSnapshot),
   .number 85 1 (format.bitsPerField bkeyFieldSize),
   .number 86 1 (format.bitsPerField bkeyFieldVersionHi),
   .number 87 1 (format.bitsPerField bkeyFieldVersionLo)]

def LogFits (size blockSize : Nat) : Nat → List (List (Item format)) → Prop
  | _, [] => True
  | start, items :: bsets =>
      wordsOf items < 2 ^ 16 ∧ bsetEnd start items < size ∧
        (bsets ≠ [] → bsetEnd start items % blockSize ≠ 0) ∧
        LogFits size blockSize (bsetAfter blockSize start items) bsets

end

namespace NodeContents

def write (contents : NodeContents) (size blockSize : Nat) : Bytes :=
  (Bytes.zeros size).patched (formatPatches contents.format.toBKeyFormat ++
    logPatches blockSize BTreeNode.keys contents.bsets)

structure Fits (contents : NodeContents) (size blockSize : Nat) : Prop where
  started : contents.bsets ≠ []
  log : LogFits size blockSize BTreeNode.keys contents.bsets

end NodeContents

section

variable {format : KeyFormat} {node : Bytes} {size blockSize start stop : Nat}
  {items : List (Item format)} {bsets : List (List (Item format))}

theorem bsetEnd_le_after (positive : 0 < blockSize) (start : Nat) (items : List (Item format)) :
    bsetEnd start items + sizeofCsum ≤ bsetAfter blockSize start items :=
  Nat.add_le_add_right (le_roundup positive _) _

theorem itemPatches_row (start : Nat) (items : List (Item format)) :
    Patch.Row (start + wordsOf items * u64sSize) start (itemPatches start items) := by
  induction items generalizing start with
  | nil => exact Nat.le_add_right _ _
  | cons item items ih =>
      have rest : start + wordsOf (item :: items) * u64sSize =
          start + item.u64s * u64sSize + wordsOf items * u64sSize := by
        simp only [wordsOf, List.map_cons, List.sum_cons, u64sSize]
        omega
      refine ⟨Nat.le_refl _, ?_⟩
      rw [Patch.stop, item.bytes_size, rest]
      exact ih (start + item.u64s * u64sSize)

theorem bsetPatches_row (start : Nat) (items : List (Item format)) :
    Patch.Row (bsetEnd start items) start (bsetPatches start items) :=
  ⟨Nat.le_add_right _ _, itemPatches_row (start + sizeofBSet) items⟩

theorem LogFits.row (fits : LogFits size blockSize start bsets) (positive : 0 < blockSize)
    (started : bsets ≠ []) : Patch.Row size start (logPatches blockSize start bsets) := by
  induction bsets generalizing start with
  | nil => exact absurd rfl started
  | cons items bsets ih =>
      rcases fits with ⟨_, inside, _, rest⟩
      have before := bsetEnd_le_after positive start items
      apply (bsetPatches_row start items).append
      cases bsets with
      | nil => exact Nat.le_of_lt inside
      | cons next bsets =>
          apply (ih rest (by simp)).from_le
          omega

theorem itemsIn_of_patches
    (held : ∀ patch ∈ itemPatches start items, node.Holds patch.start patch.bytes) :
    ItemsIn node start items := by
  induction items generalizing start with
  | nil => trivial
  | cons item items ih =>
      refine ⟨held ⟨start, item.bytes⟩ (by simp [itemPatches]), ?_⟩
      exact ih fun patch member => held patch (by simp [itemPatches, member])

theorem bsetIn_of_patches (narrow : wordsOf items < 2 ^ 16) (inside : bsetEnd start items < node.size)
    (held : ∀ patch ∈ bsetPatches start items, node.Holds patch.start patch.bytes)
    (zero : node.byte (bsetEnd start items) = 0) : BSetIn node start items where
  u64s := by
    have length := held (.number (start + 22) 2 (wordsOf items)) (by simp [bsetPatches])
    have read := length.number 0 2 (by simp [Patch.number])
    rw [Nat.add_zero] at read
    simp only [Patch.number] at read
    rw [read, Bytes.number_ofNumber (by decide), Nat.pow_zero, Nat.div_one]
    exact Nat.mod_eq_of_lt narrow
  written := itemsIn_of_patches fun patch member => held patch (by simp [bsetPatches, member])
  inside := inside
  zero := zero

theorem logIn_of_patches (fits : LogFits node.size blockSize start bsets) (positive : 0 < blockSize)
    (started : bsets ≠ [])
    (held : ∀ patch ∈ logPatches blockSize start bsets, node.Holds patch.start patch.bytes)
    (zero : ∀ index, start ≤ index →
      (∀ patch ∈ logPatches blockSize start bsets, index < patch.start ∨ patch.stop ≤ index) →
      node.byte index = 0) : LogIn node blockSize start bsets := by
  induction bsets generalizing start with
  | nil => exact absurd rfl started
  | cons items bsets ih =>
      rcases fits with ⟨narrow, inside, inBlock, rest⟩
      have before := bsetEnd_le_after positive start items
      have first := (bsetPatches_row start items).bounds
      have length := (bsetPatches_row start items).le
      have here : ∀ patch ∈ bsetPatches start items, node.Holds patch.start patch.bytes :=
        fun patch member => held patch (by simp [logPatches, member])
      cases bsets with
      | nil =>
          have behind : ∀ index, bsetEnd start items ≤ index → node.byte index = 0 := by
            intro index later
            apply zero index (by omega)
            intro patch member
            simp only [logPatches, List.append_nil] at member
            exact Or.inr ((first patch member).2.trans later)
          exact LogIn.last (bsetIn_of_patches narrow inside here (behind _ (Nat.le_refl _))) behind
      | cons next bsets =>
          have row := rest.row positive (by simp)
          have gap : node.byte (bsetEnd start items) = 0 := by
            apply zero _ length
            intro patch member
            rcases List.mem_append.mp member with member | member
            · exact Or.inr (first patch member).2
            · have bounds := row.bounds patch member
              left
              simp only [sizeofCsum] at before
              omega
          apply LogIn.more (bsetIn_of_patches narrow inside here gap) (inBlock (by simp))
          apply ih rest (by simp)
          · intro patch member
            exact held patch (List.mem_append.mpr (Or.inr member))
          · intro index later outside
            apply zero index (by omega)
            intro patch member
            rcases List.mem_append.mp member with member | member
            · right
              have bounds := first patch member
              omega
            · exact outside patch member

end

theorem formatPatches_row (format : BKeyFormat) : Patch.Row 88 80 (formatPatches format) := by
  simp [formatPatches, Patch.Row]

theorem KeyFormat.bits_lt (format : KeyFormat) (field : Fin 6) : format.bitsPerField field < 256 := by
  have decodable := format.decodable field
  simp only [decodableWidths, List.mem_cons, List.not_mem_nil, or_false] at decodable
  omega

namespace NodeContents

variable {contents : NodeContents} {size blockSize : Nat}

theorem Fits.row (fits : contents.Fits size blockSize) (positive : 0 < blockSize) :
    Patch.Row size 80 (formatPatches contents.format.toBKeyFormat ++
      logPatches blockSize BTreeNode.keys contents.bsets) := by
  apply (formatPatches_row _).append
  apply (fits.log.row positive fits.started).from_le
  decide

theorem Fits.room (fits : contents.Fits size blockSize) : 160 < size := by
  have log := fits.log
  cases filled : contents.bsets with
  | nil => exact absurd filled fits.started
  | cons items bsets =>
      rw [filled] at log
      have inside := log.2.1
      simp only [bsetEnd, BTreeNode.keys, sizeofBSet] at inside
      omega

theorem written (fits : contents.Fits size blockSize) (positive : 0 < blockSize) :
    contents.HeldIn (contents.write size blockSize) blockSize := by
  have row := fits.row positive
  have sized : (contents.write size blockSize).size = size := by simp [write]
  have held : ∀ patch ∈ formatPatches contents.format.toBKeyFormat ++
      logPatches blockSize BTreeNode.keys contents.bsets,
      (contents.write size blockSize).Holds patch.start patch.bytes := by
    intro patch member
    apply Bytes.patched_holds row.apart member
    simpa using (row.bounds patch member).2
  have zero : ∀ index, (∀ patch ∈ formatPatches contents.format.toBKeyFormat ++
      logPatches blockSize BTreeNode.keys contents.bsets,
      index < patch.start ∨ patch.stop ≤ index) → (contents.write size blockSize).byte index = 0 := by
    intro index outside
    rw [write, Bytes.patched_outside outside, Bytes.zeros_byte]
  have later := (fits.log.row positive fits.started).bounds
  have early := (formatPatches_row contents.format.toBKeyFormat).bounds
  constructor
  · have byte : ∀ start value, Patch.number start 1 value ∈
        formatPatches contents.format.toBKeyFormat → start + 1 ≤ size → value < 256 →
        (contents.write size blockSize).number 1 start = value := by
      intro start value member inside small
      exact Bytes.patched_number row.apart (List.mem_append.mpr (Or.inl member)) inside small
    have room := fits.room
    apply BTreeNode.loadFormat_ok (by omega)
    · exact byte 80 _ (by simp [formatPatches]) (by omega) contents.format.narrow.1
    · exact byte 81 _ (by simp [formatPatches]) (by omega) contents.format.narrow.2
    · intro field
      apply byte _ _ _ (by omega) (contents.format.bits_lt field)
      fin_cases field <;> simp [formatPatches]
    · intro field
      rw [contents.format.zero]
      apply Bytes.number_zero
      intro index lower upper
      apply zero
      intro patch member
      rcases List.mem_append.mp member with member | member
      · right
        have bounds := early patch member
        omega
      · left
        have bounds := later patch member
        simp only [BTreeNode.keys] at bounds
        omega
  · apply logIn_of_patches (by rw [sized]; exact fits.log) positive fits.started
    · intro patch member
      exact held patch (List.mem_append.mpr (Or.inr member))
    · intro index behind outside
      apply zero
      intro patch member
      rcases List.mem_append.mp member with member | member
      · right
        have bounds := early patch member
        simp only [BTreeNode.keys] at behind
        omega
      · exact outside patch member

end NodeContents

/-- Items written into a node come back from its bytes, all of them and in log order, each
with its type, its fields and its value. -/
theorem nodeKeys_write {contents : NodeContents} {size blockSize : Nat}
    (fits : contents.Fits size blockSize) (positive : 0 < blockSize) (sectors : 512 ∣ blockSize)
    (nodeSectors : 512 ∣ size) :
    ∃ keys, nodeKeys (contents.write size blockSize) blockSize = .ok keys ∧
      List.Forall₂ (ReadsBack (contents.write size blockSize)) keys contents.items := by
  apply (NodeContents.written fits positive).nodeKeys positive sectors
  simpa [NodeContents.write] using nodeSectors

def sampleFormat : KeyFormat where
  keyU64s := 2
  nrFields := 6
  bitsPerField _ := 8
  fieldOffset _ := 0
  zero := rfl
  decodable := by decide
  room := by decide
  narrow := by decide

def sampleExtent : Item sampleFormat where
  encoding := .current
  type := keyTypeExtent
  fields := ![7, 16, 0, 8, 0, 0]
  value := Bytes.ofCells 8 [(1, 4)]
  typed := by decide
  members := by decide
  fits := by decide
  whole := by decide
  short := by decide

def sampleDirent : Item sampleFormat where
  encoding := .current
  type := keyTypeDirent
  fields := ![6, 1, 0, 0, 0, 0]
  value := Bytes.ofCells 16 [(0, 7), (8, 8), (9, 97)]
  typed := by decide
  members := by decide
  fits := by decide
  whole := by decide
  short := by decide

def samplePacked : Item sampleFormat where
  encoding := .packed
  type := keyTypeDirent
  fields := ![6, 2, 0, 0, 0, 0]
  value := Bytes.ofCells 16 [(0, 9), (8, 4), (9, 98)]
  typed := by decide
  members := by decide
  fits := by decide
  whole := by decide
  short := by decide

def sampleContents : NodeContents where
  format := sampleFormat
  bsets := [[samplePacked, sampleDirent], [sampleExtent]]

theorem sampleContents_fits : sampleContents.Fits 1024 512 where
  started := by simp [sampleContents]
  log := by
    refine ⟨by decide, by decide, fun _ => by decide, by decide, by decide, ?_, trivial⟩
    intro more
    exact absurd rfl more

theorem nodeKeys_write_sample : ∃ keys, nodeKeys (sampleContents.write 1024 512) 512 = .ok keys ∧
    List.Forall₂ (ReadsBack (sampleContents.write 1024 512)) keys
      [samplePacked, sampleDirent, sampleExtent] :=
  nodeKeys_write sampleContents_fits (by decide) (by decide) (by decide)

end Bcachefs
