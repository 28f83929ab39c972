import Bcachefs.Extend

/-! The value of an extent key is a list of entries, and the place of its data is in the
first pointer among them. `extend` takes the value itself for a pointer. -/

namespace Bcachefs

open ByteString Iteration BitFields

inductive EntryKind where
  | ptr | crc32 | crc64 | crc128 | stripePtr
  deriving DecidableEq

namespace EntryKind

def typeBits : EntryKind → Nat
  | ptr => 1
  | crc32 => 2
  | crc64 => 3
  | crc128 => 4
  | stripePtr => 5

def size : EntryKind → Nat
  | ptr => 8
  | crc32 => 8
  | crc64 => 16
  | crc128 => 24
  | stripePtr => 8

def ofWord (word : Nat) : Option EntryKind :=
  [ptr, crc32, crc64, crc128, stripePtr].find? fun kind =>
    word % 2 ^ kind.typeBits = 2 ^ (kind.typeBits - 1)

end EntryKind

/-! The bit fields of the entries that are no pointers. -/

namespace ExtentCrc32

def compressedSize (word : Nat) : Nat := field word 2 7
def uncompressedSize (word : Nat) : Nat := field word 9 7
def offset (word : Nat) : Nat := field word 16 7
def unused (word : Nat) : Nat := field word 23 1
def csumType (word : Nat) : Nat := field word 24 4
def compressionType (word : Nat) : Nat := field word 28 4
def csum (word : Nat) : Nat := field word 32 32

end ExtentCrc32

namespace ExtentCrc64

def compressedSize (word : Nat) : Nat := field word 3 9
def uncompressedSize (word : Nat) : Nat := field word 12 9
def offset (word : Nat) : Nat := field word 21 9
def nonce (word : Nat) : Nat := field word 30 10
def csumType (word : Nat) : Nat := field word 40 4
def compressionType (word : Nat) : Nat := field word 44 4

end ExtentCrc64

namespace ExtentCrc128

def compressedSize (word : Nat) : Nat := field word 4 13
def uncompressedSize (word : Nat) : Nat := field word 17 13
def offset (word : Nat) : Nat := field word 30 13
def nonce (word : Nat) : Nat := field word 43 13

end ExtentCrc128

namespace ExtentStripePtr

def block (word : Nat) : Nat := field word 5 8
def redundancy (word : Nat) : Nat := field word 13 4
def idx (word : Nat) : Nat := field word 17 47

end ExtentStripePtr

def EntryKind.overlaid (word : Nat) : EntryKind → List (Nat × Nat)
  | ptr => [(44, field word 4 44)]
  | crc32 =>
      [(5, ExtentCrc32.compressedSize word / 2 ^ 2), (7, ExtentCrc32.uncompressedSize word),
       (7, ExtentCrc32.offset word), (1, ExtentCrc32.unused word), (4, ExtentCrc32.csumType word),
       (4, ExtentCrc32.compressionType word), (16, ExtentCrc32.csum word % 2 ^ 16)]
  | crc64 =>
      [(8, ExtentCrc64.compressedSize word / 2 ^ 1), (9, ExtentCrc64.uncompressedSize word),
       (9, ExtentCrc64.offset word), (10, ExtentCrc64.nonce word),
       (4, ExtentCrc64.csumType word), (4, ExtentCrc64.compressionType word)]
  | crc128 =>
      [(13, ExtentCrc128.compressedSize word), (13, ExtentCrc128.uncompressedSize word),
       (13, ExtentCrc128.offset word), (5, ExtentCrc128.nonce word % 2 ^ 5)]
  | stripePtr =>
      -- the topmost bit of its tag is the lowest of these
      [(1, 1), (8, ExtentStripePtr.block word), (4, ExtentStripePtr.redundancy word),
       (31, ExtentStripePtr.idx word % 2 ^ 31)]

inductive ExtentEntries (value : Bytes) : Nat → List (EntryKind × Nat) → Prop
  | done : ExtentEntries value value.size []
  | entry {cursor kind entries} : EntryKind.ofWord (value.number 8 cursor) = some kind →
      ExtentEntries value (cursor + kind.size) entries →
      ExtentEntries value cursor ((kind, cursor) :: entries)

def firstPtr (entries : List (EntryKind × Nat)) : Option Nat :=
  (entries.find? fun entry => entry.1 = .ptr).map Prod.snd

def ptrOffset (value : Bytes) (place : Nat) : Nat := value.number 8 place / 2 ^ 4 % 2 ^ 44

/-- The value starts with a pointer, or with an entry whose fields spell the offset of
the first pointer. -/
def LeadsToPtr (value : Bytes) (entries : List (EntryKind × Nat)) (place : Nat) : Prop :=
  ∃ kind rest, entries = (kind, 0) :: rest ∧
    (kind = .ptr ∨ joined (kind.overlaid (value.number 8 0)) = ptrOffset value place)

def ReportsOffset (outcome : Result Extend) (offset : Nat) : Prop :=
  ∃ record, outcome = .ok record ∧ record.offset = sectorSize * offset

section

variable {node value : Bytes} {key type cursor place : Nat} {format : BKeyFormat}
  {entries : List (EntryKind × Nat)}

theorem ExtentEntries.cursor_le (listed : ExtentEntries value cursor entries) :
    cursor ≤ value.size := by
  induction listed with
  | done => exact Nat.le_refl _
  | entry _ _ ih => exact Nat.le_trans (Nat.le_add_right _ _) ih

theorem ExtentEntries.inside (listed : ExtentEntries value cursor entries)
    {entry : EntryKind × Nat} (member : entry ∈ entries) :
    cursor ≤ entry.2 ∧ entry.2 + entry.1.size ≤ value.size := by
  induction listed with
  | done => exact absurd member List.not_mem_nil
  | entry _ rest ih =>
      rcases List.mem_cons.mp member with rfl | later
      · exact ⟨Nat.le_refl _, rest.cursor_le⟩
      · have further := ih later
        exact ⟨by omega, further.2⟩

theorem firstPtr_member (first : firstPtr entries = some place) : (.ptr, place) ∈ entries := by
  obtain ⟨⟨kind, other⟩, found, rfl⟩ := Option.map_eq_some_iff.mp first
  have pointer := List.find?_some found
  simp only [decide_eq_true_eq] at pointer
  subst pointer
  exact List.mem_of_find?_eq_some found

theorem ExtentEntries.room (listed : ExtentEntries value 0 entries)
    (first : firstPtr entries = some place) : 8 ≤ value.size := by
  have fits := (listed.inside (firstPtr_member first)).2
  simp only [EntryKind.size] at fits
  omega

theorem EntryKind.tag {word : Nat} {kind : EntryKind} (tagged : ofWord word = some kind) :
    word % 2 ^ kind.typeBits = 2 ^ (kind.typeBits - 1) := by
  have found := List.find?_some tagged
  exact of_decide_eq_true found

theorem EntryKind.overlaid_joined {word : Nat} {kind : EntryKind}
    (tagged : ofWord word = some kind) : joined (kind.overlaid word) = field word 4 44 := by
  have adjacent : Adjacent word 4 (kind.overlaid word) := by
    have tag := EntryKind.tag tagged
    cases kind with
    | ptr => exact ⟨rfl, trivial⟩
    | crc32 =>
        exact ⟨field_upper word 2 2 5, rfl, rfl, rfl, rfl, rfl, field_lower word 32 16 16, trivial⟩
    | crc64 => exact ⟨field_upper word 3 1 8, rfl, rfl, rfl, rfl, rfl, trivial⟩
    | crc128 => exact ⟨rfl, rfl, rfl, field_lower word 43 5 8, trivial⟩
    | stripePtr =>
        refine ⟨?_, rfl, rfl, field_lower word 17 31 16, trivial⟩
        simp only [EntryKind.typeBits] at tag
        simp only [field]
        omega
  cases kind <;> exact adjacent.joined

theorem ExtentEntries.leads_iff (listed : ExtentEntries value 0 entries)
    (first : firstPtr entries = some place) :
    LeadsToPtr value entries place ↔ ptrOffset value 0 = ptrOffset value place := by
  generalize start : 0 = cursor at listed
  cases listed with
  | done => cases first
  | @entry _ kind rest tagged _ =>
      subst start
      have overlaid : joined (kind.overlaid (value.number 8 0)) = ptrOffset value 0 :=
        EntryKind.overlaid_joined tagged
      constructor
      · rintro ⟨_, _, same, leading⟩
        cases same
        rcases leading with rfl | spelled
        · cases first
          rfl
        · exact overlaid.symm.trans spelled
      · intro same
        exact ⟨kind, rest, rfl, Or.inr (overlaid.trans same)⟩

theorem extentOffset_exact (value : Bytes) (place : Nat) :
    wrap64 (ptrOffset value place * sectorSize) = sectorSize * ptrOffset value place := by
  have narrow : ptrOffset value place < 2 ^ 44 := Nat.mod_lt _ (by decide)
  simp only [wrap64, sectorSize]
  omega

theorem ReportsOffset.unique {outcome : Result Extend} {offset other : Nat}
    (reported : ReportsOffset outcome offset) (again : ReportsOffset outcome other) :
    offset = other := by
  obtain ⟨record, returned, same⟩ := reported
  obtain ⟨_, outcome, wanted⟩ := again
  cases returned.symm.trans outcome
  exact Nat.eq_of_mul_eq_mul_left (by decide) (same.symm.trans wanted)

variable {world : World} {it : BTreeIterator}

theorem AtNode.reportsOffset (atNode : AtNode world it node)
    (stored : StoredKey format node key keyTypeExtent value) (word : 8 ≤ value.size)
    (inside : key + 32 ≤ node.size) :
    ReportsOffset (it.extend world (some ⟨it.iter, key⟩)) (ptrOffset value 0) := by
  obtain ⟨loaded, parsed, keyFormat, keyU64s, read, located⟩ := stored.read
  have offset : BKey.offset node key = .ok _ := load_inside (by omega)
  have size : BKey.size node key = .ok _ := load_inside (by omega)
  obtain ⟨record, returned, _, _, extent, _⟩ :=
    atNode.extend_record read loaded located parsed offset size (Or.inl ⟨rfl, word⟩)
  exact ⟨record, returned, (extent rfl).2.trans (extentOffset_exact value 0)⟩

theorem AtNode.reportsOffset_iff (atNode : AtNode world it node)
    (stored : StoredKey format node key keyTypeExtent value)
    (listed : ExtentEntries value 0 entries) (first : firstPtr entries = some place) :
    ReportsOffset (it.extend world (some ⟨it.iter, key⟩)) (ptrOffset value place) ↔
      key + 32 ≤ node.size ∧ LeadsToPtr value entries place := by
  have word := listed.room first
  rw [listed.leads_iff first]
  constructor
  · intro reported
    by_cases inside : key + 32 ≤ node.size
    · exact ⟨inside, (atNode.reportsOffset stored word inside).unique reported⟩
    · obtain ⟨_, _, _, _, read, _⟩ := stored.read
      obtain ⟨record, returned, _⟩ := reported
      exact absurd returned (atNode.extend_fails read.type (Or.inl rfl) (by omega) record)
  · rintro ⟨inside, same⟩
    rw [← same]
    exact atNode.reportsOffset stored word inside

end

/-- For every extent key that a fresh iterator over a tree of one node returns, `extend`
reports the offset of the first pointer exactly when the raw bytes of a `struct bkey`
lie in the node up to `p.offset` and the value leads to that pointer. -/
theorem extend_firstPtr_iff {env : Env} {reader : BCacheFSReader}
    {size blockSize address position place : Nat} {world start : World} {source value : Bytes}
    {ptr key : Ptr} {keys : List Nat} {type : BTreeType} {it : BTreeIterator}
    {after : BTreeIterator × World} {format : BKeyFormat} {entries : List (EntryKind × Nat)}
    (mounted : Mounted reader size blockSize world)
    (pointed : world.heap[ptr.block]? = some source)
    (target : btreePtrAddress source ptr.offset = .ok address)
    (single : SingleNode env.image size blockSize address keys)
    (created : BTreeIterator.new env reader ptr type world = .ok (it, start))
    (returned : Nth (Returns env reader) (it, start) position key after)
    (stored : StoredKey format (env.image.window address size) key.offset keyTypeExtent value)
    (listed : ExtentEntries value 0 entries) (first : firstPtr entries = some place) :
    ReportsOffset (after.1.extend after.2 (some key)) (ptrOffset value place) ↔
      key.offset + 32 ≤ size ∧ LeadsToPtr value entries place := by
  obtain ⟨offset, rfl, atNode⟩ := single_atNode mounted pointed target single created returned
  exact atNode.reportsOffset_iff stored listed first

/-! The extent of `currentExtentImage` with a crc32 entry in front of its pointer, for
8 sectors that are not compressed. -/

def checksumImage : Bytes := Bytes.ofCells 1024
  [(670, 7), (672, 7), (673, 1), (674, 6), (688, 8), (696, 16), (705, 16),
   (712, 30), (713, 14), (720, 65), (721, 6)]

def checksumEnv : Env := { image := checksumImage, junk := fun _ _ => 0 }

def checksumValue : Bytes := checksumImage.window 712 16

theorem checksumSingle : SingleNode checksumEnv.image 512 512 512 [160] :=
  @OneKey.singleNode checksumImage 512 512 512 160 keyTypeExtent ⟨by decide, rfl⟩ (by decide)
    (by decide)

theorem checksumStored : StoredKey zeroFormat (checksumImage.window 512 512) 160 keyTypeExtent
    checksumValue := by
  have loaded : BTreeNode.loadFormat (checksumImage.window 512 512) = .ok zeroFormat :=
    BTreeNode.loadFormat_ok (by decide) rfl rfl (by decide) (by decide)
  have stored : Stored (checksumImage.window 512 512) 160 keyFormatCurrent bkeyU64s
      keyTypeExtent checksumValue :=
    ⟨by decide, by decide, ⟨7, rfl, by decide⟩, rfl, rfl, by decide⟩
  exact StoredKey.current (stored.current loaded)

def checksumEntries : List (EntryKind × Nat) := [(.crc32, 0), (.ptr, 8)]

theorem checksumListed : ExtentEntries checksumValue 0 checksumEntries := by
  have last : ExtentEntries checksumValue 16 [] := ExtentEntries.done
  have pointer : ExtentEntries checksumValue 8 [(.ptr, 8)] := ExtentEntries.entry rfl last
  exact ExtentEntries.entry rfl pointer

theorem extend_checksum : ∃ it start after,
    BTreeIterator.new checksumEnv sampleReader sampleRoot .extents sampleWorld = .ok (it, start) ∧
    Nth (Returns checksumEnv sampleReader) (it, start) 0 ⟨after.1.iter, 160⟩ after ∧
    StoredKey zeroFormat (checksumImage.window 512 512) 160 keyTypeExtent checksumValue ∧
    ExtentEntries checksumValue 0 checksumEntries ∧ firstPtr checksumEntries = some 8 ∧
    ptrOffset checksumValue 8 = 100 ∧
    ReportsOffset (after.1.extend after.2 (some ⟨after.1.iter, 160⟩)) 225 ∧
    ¬ReportsOffset (after.1.extend after.2 (some ⟨after.1.iter, 160⟩)) 100 := by
  rcases single_nth .extents sampleMounted samplePointed sampleTarget checksumSingle
    (rfl : [160][0]? = some 160) with ⟨it, start, after, created, returned, atNode⟩
  have reported := atNode.reportsOffset checksumStored (by decide) (by decide)
  refine ⟨it, start, after, created, returned, checksumStored, checksumListed, rfl, rfl, reported, ?_⟩
  intro wanted
  exact absurd (reported.unique wanted) (by decide)

theorem extend_firstPtr_iff_sample : ∃ it start after,
    BTreeIterator.new checksumEnv sampleReader sampleRoot .extents sampleWorld = .ok (it, start) ∧
    Nth (Returns checksumEnv sampleReader) (it, start) 0 ⟨after.1.iter, 160⟩ after ∧
    (ReportsOffset (after.1.extend after.2 (some ⟨after.1.iter, 160⟩)) (ptrOffset checksumValue 8) ↔
      160 + 32 ≤ 512 ∧ LeadsToPtr checksumValue checksumEntries 8) := by
  rcases single_nth .extents sampleMounted samplePointed sampleTarget checksumSingle
    (rfl : [160][0]? = some 160) with ⟨it, start, after, created, returned, _⟩
  exact ⟨it, start, after, created, returned, extend_firstPtr_iff sampleMounted samplePointed
    sampleTarget checksumSingle created returned checksumStored checksumListed rfl⟩

end Bcachefs
