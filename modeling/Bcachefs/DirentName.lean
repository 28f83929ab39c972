import Bcachefs.Directory
import Bcachefs.Extend
import Bcachefs.Support.CString

/-! The name of a directory entry. The entry has only a pointer to its first byte, and
whoever prints it reads on to the next zero byte in memory. -/

namespace Bcachefs

open ByteString Bytes Iteration

def readString (block : Bytes) : Nat → Nat → Result (List UInt8)
  | 0, _ => .error .fuel
  | fuel + 1, index => do
      let byte ← load block 1 index
      if byte = 0 then return []
      else do
        let rest ← readString block fuel (index + 1)
        return UInt8.ofNat byte :: rest

structure PrintedEntry where
  parentInode : Nat
  inode : Nat
  type : Nat
  name : Option (List UInt8)

def DirectoryEntry.print (dir : DirectoryEntry) (world : World) (fuel : Nat) :
    Result PrintedEntry :=
  match dir.name with
  | none =>
      .ok { parentInode := dir.parentInode, inode := dir.inode, type := dir.type, name := none }
  | some name => do
      let block ← world.deref name.block
      let text ← readString block fuel name.offset
      return { parentInode := dir.parentInode, inode := dir.inode, type := dir.type
               name := some text }

def nameField (value : Bytes) : List UInt8 := value.slice 9 (value.size - 9)

def Prints (dir : DirectoryEntry) (world : World) (name : List UInt8) : Prop :=
  ∃ fuel printed, dir.print world fuel = .ok printed ∧ printed.name = some name

def NameInside (dir : DirectoryEntry) (block place : Nat) (value : Bytes) : Prop :=
  ∀ (world : World) (bytes : Bytes), world.heap[block]? = some bytes →
    place + value.size ≤ bytes.size → bytes.window place value.size = value →
    Prints dir world (upToNul (nameField value))

structure NameDelimited (dir : DirectoryEntry) (world : World) (block place : Nat) (value : Bytes) :
    Prop where
  printed : Prints dir world (upToNul (nameField value))
  inside : NameInside dir block place value

section

variable {block value node : Bytes} {index key place : Nat} {text : List UInt8}

theorem load_byte {byte : Nat} :
    load block 1 index = .ok byte ↔ index < block.size ∧ (block.byte index).toNat = byte := by
  rw [load_ok, Bytes.number, Bytes.number, Nat.mul_zero, Nat.add_zero]
  rfl

theorem readString_iff :
    (∃ fuel, readString block fuel index = .ok text) ↔ StringAt block index text := by
  constructor
  · rintro ⟨fuel, returned⟩
    induction fuel generalizing index text with
    | zero => cases returned
    | succ fuel ih =>
        obtain ⟨byte, read, rest⟩ := bind_eq_ok.mp returned
        obtain ⟨below, rfl⟩ := load_byte.mp read
        split at rest
        · rename_i zero
          cases rest
          exact StringAt.nul below (UInt8.toNat_inj.mp zero)
        · rename_i nonzero
          obtain ⟨later, found, same⟩ := bind_eq_ok.mp rest
          cases same
          rw [UInt8.ofNat_toNat]
          exact StringAt.char below (fun zero => nonzero (congrArg UInt8.toNat zero)) (ih found)
  · intro string
    induction string with
    | @nul index below zero =>
        refine ⟨1, ?_⟩
        rw [readString, load_byte.mpr ⟨below, rfl⟩, ok_bind, zero]
        rfl
    | @char index text below nonzero _ ih =>
        obtain ⟨fuel, rest⟩ := ih
        refine ⟨fuel + 1, ?_⟩
        have other : (block.byte index).toNat ≠ 0 := fun zero => nonzero (UInt8.toNat_inj.mp zero)
        rw [readString, load_byte.mpr ⟨below, rfl⟩, ok_bind, if_neg other, rest, ok_bind,
          UInt8.ofNat_toNat]
        rfl

theorem DirectoryEntry.prints_iff {dir : DirectoryEntry} {world : World} {name : Ptr}
    (named : dir.name = some name) (held : world.heap[name.block]? = some block) :
    Prints dir world text ↔ StringAt block name.offset text := by
  rw [← readString_iff]
  constructor
  · rintro ⟨fuel, printed, returned, shown⟩
    rw [print, named] at returned
    dsimp only at returned
    rw [World.deref_ok.mpr held, ok_bind] at returned
    obtain ⟨read, found, same⟩ := bind_eq_ok.mp returned
    cases same
    cases shown
    exact ⟨fuel, found⟩
  · rintro ⟨fuel, found⟩
    refine ⟨fuel, { parentInode := dir.parentInode, inode := dir.inode, type := dir.type
                    name := some text }, ?_, rfl⟩
    rw [print, named]
    dsimp only
    rw [World.deref_ok.mpr held, ok_bind, found]
    rfl

theorem nameField_window (fits : 9 ≤ value.size) (same : node.window place value.size = value) :
    nameField value = node.slice (place + 9) (value.size - 9) := by
  rw [nameField, ← same, Bytes.window_size, slice_window (by omega)]

theorem stringAt_name (fits : 9 ≤ value.size) (inside : place + value.size ≤ node.size)
    (same : node.window place value.size = value) :
    StringAt node (place + 9) (upToNul (nameField value)) ↔
      0 ∈ nameField value ∨
        place + value.size < node.size ∧ node.byte (place + value.size) = 0 := by
  have stop : place + 9 + (value.size - 9) = place + value.size := by omega
  rw [nameField_window fits same, StringAt.upToNul_iff (by omega), stop]

variable {dir : DirectoryEntry} {iter : Nat}

theorem prints_name_iff {world : World} (named : dir.name = some ⟨iter, BDirEnt.name place⟩)
    (held : world.heap[iter]? = some node) (fits : 9 ≤ value.size)
    (inside : place + value.size ≤ node.size) (same : node.window place value.size = value) :
    Prints dir world (upToNul (nameField value)) ↔ 0 ∈ nameField value ∨
      place + value.size < node.size ∧ node.byte (place + value.size) = 0 := by
  rw [DirectoryEntry.prints_iff named held]
  exact stringAt_name fits inside same

theorem nameInside_iff (named : dir.name = some ⟨iter, BDirEnt.name place⟩)
    (fits : 9 ≤ value.size) : NameInside dir iter place value ↔ 0 ∈ nameField value := by
  constructor
  · intro alone
    let bytes := Bytes.ofFn (place + value.size + 1) fun index =>
      if index < place + value.size then value.byte (index - place) else 1
    let memory : World := { heap := List.replicate (iter + 1) bytes, position := 0 }
    have held : memory.heap[iter]? = some bytes := by simp [memory]
    have inside : place + value.size ≤ bytes.size := Nat.le_succ _
    have same : bytes.window place value.size = value := by
      refine Bytes.ext_inside rfl fun index below => ?_
      rw [Bytes.window_size] at below
      rw [window, ofFn_byte _ below, ofFn_byte _ (by omega), if_pos (by omega),
        Nat.add_sub_cancel_left]
    have printed := alone memory bytes held inside same
    rcases (prints_name_iff named held fits inside same).mp printed with zero | ⟨_, zero⟩
    · exact zero
    · rw [ofFn_byte _ (Nat.lt_succ_self _), if_neg (Nat.lt_irrefl _)] at zero
      exact absurd zero (by decide)
  · intro zero world bytes held inside same
    exact (prints_name_iff named held fits inside same).mpr (Or.inl zero)

theorem AtNode.directory_name {world : World} {it : BTreeIterator} {format : BKeyFormat}
    (atNode : AtNode world it node) (stored : StoredKey format node key keyTypeDirent value)
    (fits : 9 ≤ value.size) :
    ∃ entry place, it.directory world (some ⟨it.iter, key⟩) = .ok entry ∧
      getValue node node key = .ok place ∧ entry.name = some ⟨it.iter, BDirEnt.name place⟩ ∧
      place + value.size ≤ node.size ∧ node.window place value.size = value := by
  obtain ⟨loaded, ⟨parsed, returned⟩, _, _, read, located⟩ := stored.read
  obtain ⟨entry, outcome, _, _⟩ :=
    @directoryIn_ok _ _ _ _ _ _ it.iter _ read loaded located returned fits
  refine ⟨entry, _, ?_, located, ?_, read.inside, read.value⟩
  · rw [atNode.directory read.type]
    exact outcome
  · obtain ⟨place, found, rest⟩ := bind_eq_ok.mp outcome
    cases located.symm.trans found
    obtain ⟨_, _, rest⟩ := bind_eq_ok.mp rest
    obtain ⟨_, _, rest⟩ := bind_eq_ok.mp rest
    obtain ⟨_, _, rest⟩ := bind_eq_ok.mp rest
    obtain ⟨_, _, rest⟩ := bind_eq_ok.mp rest
    cases rest
    rfl

end

/-- For every dirent that a fresh iterator over a tree of one node returns, the printed
name is delimited by the value exactly when it has a zero byte there; without one it
comes out right only where the byte behind the value is zero. -/
theorem directory_name_iff {env : Env} {reader : BCacheFSReader}
    {size blockSize address position : Nat} {world start : World} {source value : Bytes}
    {ptr key : Ptr} {keys : List Nat} {type : BTreeType} {it : BTreeIterator}
    {after : BTreeIterator × World} {format : BKeyFormat}
    (mounted : Mounted reader size blockSize world)
    (pointed : world.heap[ptr.block]? = some source)
    (target : btreePtrAddress source ptr.offset = .ok address)
    (single : SingleNode env.image size blockSize address keys)
    (created : BTreeIterator.new env reader ptr type world = .ok (it, start))
    (returned : Nth (Returns env reader) (it, start) position key after)
    (stored : StoredKey format (env.image.window address size) key.offset keyTypeDirent value)
    (named : 9 < value.size) :
    ∃ entry place, after.1.directory after.2 (some key) = .ok entry ∧
      getValue (env.image.window address size) (env.image.window address size) key.offset =
        .ok place ∧
      (NameDelimited entry after.2 key.block place value ↔ 0 ∈ nameField value) ∧
      (Prints entry after.2 (upToNul (nameField value)) ↔ 0 ∈ nameField value ∨
        place + value.size < size ∧
          (env.image.window address size).byte (place + value.size) = 0) := by
  obtain ⟨offset, rfl, atNode⟩ := single_atNode mounted pointed target single created returned
  have fits := Nat.le_of_lt named
  obtain ⟨entry, place, outcome, located, pointer, inside, same⟩ :=
    atNode.directory_name stored fits
  have printed := prints_name_iff pointer atNode.held fits inside same
  have alone := nameInside_iff pointer fits
  refine ⟨entry, place, outcome, located, ?_, printed⟩
  constructor
  · intro delimited
    exact alone.mp delimited.inside
  · intro zero
    exact ⟨printed.mpr (Or.inl zero), alone.mpr zero⟩

def filledNameImage : Bytes := Bytes.ofCells 1024
  [(670, 14), (672, 7), (673, 1), (674, 10), (721, 97), (722, 98), (723, 99), (724, 100),
   (725, 101), (726, 102), (727, 103), (728, 7), (729, 1), (730, 10), (777, 104)]

def filledNameEnv : Env := { image := filledNameImage, junk := fun _ _ => 0 }

def filledNameNode : Bytes := filledNameImage.window 512 512

def filledNameValue : Bytes := filledNameNode.window 200 16

theorem filledNameSingle : SingleNode filledNameEnv.image 512 512 512 [160, 216] := by
  refine ⟨by decide, by decide, fun key member => ?_⟩
  rcases List.mem_pair.mp member with rfl | rfl
  · exact ⟨keyTypeDirent, rfl, by decide⟩
  · exact ⟨keyTypeDirent, rfl, by decide⟩

theorem filledNameStored :
    StoredKey zeroFormat filledNameNode 160 keyTypeDirent filledNameValue := by
  have loaded : BTreeNode.loadFormat filledNameNode = .ok zeroFormat :=
    BTreeNode.loadFormat_ok (by decide) rfl rfl (by decide) (by decide)
  have stored : Stored filledNameNode 160 keyFormatCurrent bkeyU64s keyTypeDirent
      filledNameValue :=
    ⟨by decide, by decide, ⟨7, rfl, by decide⟩, rfl, rfl, rfl⟩
  exact StoredKey.current (stored.current loaded)

theorem directory_name_overrun : ∃ it start after entry,
    BTreeIterator.new filledNameEnv sampleReader sampleRoot .dirents sampleWorld =
      .ok (it, start) ∧
    Nth (Returns filledNameEnv sampleReader) (it, start) 0 ⟨after.1.iter, 160⟩ after ∧
    StoredKey zeroFormat filledNameNode 160 keyTypeDirent filledNameValue ∧
    upToNul (nameField filledNameValue) = [97, 98, 99, 100, 101, 102, 103] ∧
    after.1.directory after.2 (some ⟨after.1.iter, 160⟩) = .ok entry ∧
    Prints entry after.2 [97, 98, 99, 100, 101, 102, 103, 7, 1, 10] ∧
    ¬Prints entry after.2 [97, 98, 99, 100, 101, 102, 103] := by
  rcases single_nth .dirents sampleMounted samplePointed sampleTarget filledNameSingle
    (rfl : [160, 216][0]? = some 160) with ⟨it, start, after, created, returned, atNode⟩
  obtain ⟨entry, place, outcome, located, named, _⟩ :=
    atNode.directory_name filledNameStored (by decide)
  cases located
  have text : StringAt filledNameNode 209 [97, 98, 99, 100, 101, 102, 103, 7, 1, 10] :=
    readString_iff.mp ⟨11, rfl⟩
  refine ⟨it, start, after, entry, created, returned, filledNameStored, by decide, outcome, ?_, ?_⟩
  · exact (DirectoryEntry.prints_iff named atNode.held).mpr text
  · intro printed
    have shorter := (DirectoryEntry.prints_iff named atNode.held).mp printed
    exact absurd (text.unique shorter) (by decide)

theorem directory_name_iff_sample : ∃ it start after entry place,
    BTreeIterator.new filledNameEnv sampleReader sampleRoot .dirents sampleWorld =
      .ok (it, start) ∧
    Nth (Returns filledNameEnv sampleReader) (it, start) 0 ⟨after.1.iter, 160⟩ after ∧
    after.1.directory after.2 (some ⟨after.1.iter, 160⟩) = .ok entry ∧
    getValue filledNameNode filledNameNode 160 = .ok place ∧
    (NameDelimited entry after.2 after.1.iter place filledNameValue ↔
      0 ∈ nameField filledNameValue) ∧
    (Prints entry after.2 (upToNul (nameField filledNameValue)) ↔ 0 ∈ nameField filledNameValue ∨
      place + filledNameValue.size < 512 ∧
        filledNameNode.byte (place + filledNameValue.size) = 0) := by
  rcases single_nth .dirents sampleMounted samplePointed sampleTarget filledNameSingle
    (rfl : [160, 216][0]? = some 160) with ⟨it, start, after, created, returned, _⟩
  rcases directory_name_iff sampleMounted samplePointed sampleTarget filledNameSingle created
    returned filledNameStored (by decide) with ⟨entry, place, outcome⟩
  exact ⟨it, start, after, entry, place, created, returned, outcome⟩

end Bcachefs
