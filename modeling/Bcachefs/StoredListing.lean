import Bcachefs.Main

/-! What `main` prints for a stored file system. It gets through exactly when no extent
and no dirent lies below the root node of its btree. -/

namespace Bcachefs

open ByteString Iteration Flattening

namespace Item

variable {format : KeyFormat}

structure IsExtent (item : Item format) : Prop where
  current : item.encoding = .current
  type : item.type = keyTypeExtent
  pointer : 8 ≤ item.value.size

structure IsDirent (item : Item format) : Prop where
  current : item.encoding = .current
  type : item.type = keyTypeDirent
  named : 0 ∈ nameField item.value

def keyText (item : Item format) : Text :=
  ascii " - bkey: u:" ++ decimal item.u64s ++ ascii ", f:" ++ decimal item.encoding.format ++
    ascii ", t:" ++ decimal item.type ++ ascii ", s:" ++ decimal (item.fields bkeyFieldSize) ++
    ascii ", o:" ++ decimal (item.fields bkeyFieldOffset)

def extentLine (item : Item format) : Line where
  printed := item.keyText
  streamed := newline ++ ascii "    - ext " ++ item.reported.text ++ newline
  breaks := false

def direntLine (item : Item format) : Line :=
  PrintedEntry.line
    { parentInode := item.fields bkeyFieldInode, inode := item.value.number 8 0
      type := item.value.number 1 8, name := some (upToNul (nameField item.value)) } item.keyText

end Item

theorem named_long {value : Bytes} (named : 0 ∈ nameField value) : 9 < value.size := by
  by_contra short
  have empty : value.size - 9 = 0 := by omega
  rw [nameField, empty] at named
  cases named

theorem readString_within {block : Bytes} {index fuel : Nat} {text : Text}
    (string : block.StringAt index text) (enough : block.size < fuel + index) :
    readString block fuel index = .ok text := by
  induction string generalizing fuel with
  | @nul index inside zero =>
      cases fuel with
      | zero => omega
      | succ fuel =>
          have read : load block 1 index = .ok 0 := load_byte.mpr ⟨inside, by simp [zero]⟩
          rw [readString, read, ok_bind, if_pos rfl]
          rfl
  | @char index text inside other _ ih =>
      cases fuel with
      | zero => omega
      | succ fuel =>
          have read : load block 1 index = .ok (block.byte index).toNat := load_byte.mpr ⟨inside, rfl⟩
          have different : (block.byte index).toNat ≠ 0 := by
            intro zero
            exact other (UInt8.toNat_inj.mp zero)
          rw [readString, read, ok_bind, if_neg different, ih (by omega), ok_bind, UInt8.ofNat_toNat]
          rfl

section

variable {key : TreeKey} {entry : Entry}

theorem Means.print (means : Means key entry) (current : entry.item.encoding = .current) :
    BKey.print key.node key.key = .ok entry.item.keyText := by
  have raw := Item.currentAt means.held current
  have stored := Item.stored means.held
  rw [BKey.print, means.readsBack.u64s, ok_bind, stored.keyFormat, ok_bind, stored.type, ok_bind,
    raw.size, ok_bind, raw.offset, ok_bind]
  rfl

theorem Means.extentLine (means : Means key entry) (extent : entry.item.IsExtent) (address : Nat) :
    key.extentLine address =
      if entry.depth = 0 then .ok entry.item.extentLine else .error .outOfBounds := by
  have other : keyTypeExtent ≠ keyTypeInlineData := by decide
  have record := means.extend extent.current (fun _ => extent.pointer)
    (by rw [extent.type]; exact other) address
  rw [TreeKey.extentLine, means.print extent.current, ok_bind, record, Entry.extend,
    if_pos extent.type]
  by_cases root : entry.depth = 0
  · rw [if_pos root, if_pos root, ok_bind]
    rfl
  · rw [if_neg root, if_neg root]
    rfl

theorem Means.direntLine (means : Means key entry) (dirent : entry.item.IsDirent) :
    key.direntLine =
      if entry.depth = 0 then .ok entry.item.direntLine else .error .outOfBounds := by
  have long := named_long dirent.named
  rcases means.directory (fun _ => by omega) 0 with ⟨place, held, record⟩
  rw [TreeKey.direntLine, means.print dirent.current, ok_bind, TreeKey.direntEntry, record,
    Entry.directory, if_pos dirent.type]
  by_cases root : entry.depth = 0
  · have string := (stringAt_name (by omega) held.inside held.window).mpr (Or.inl dirent.named)
    have read : readString key.node (key.node.size + 1) (BDirEnt.name place) = .ok _ :=
      readString_within string (by omega)
    have alone : World.deref { heap := [key.node], position := 0 } 0 = .ok key.node := rfl
    rw [if_pos root, if_pos root, ok_bind, Item.dirent, DirectoryEntry.printed]
    dsimp only
    rw [alone, ok_bind, DirectoryEntry.print]
    dsimp only
    rw [alone, ok_bind, read]
    rfl
  · rw [if_neg root, if_neg root]
    rfl

end

theorem mapM_guarded {α β : Type} {guarded : α → Prop} [DecidablePred guarded] {line : α → β}
    {fault : Fault} (elements : List α) :
    (elements.mapM fun element => if guarded element then Except.ok (line element) else .error fault) =
      if ∀ element ∈ elements, guarded element then .ok (elements.map line) else .error fault := by
  induction elements with
  | nil => rfl
  | cons element elements ih =>
      rw [List.mapM_cons, ih]
      by_cases held : guarded element
      · by_cases rest : ∀ later ∈ elements, guarded later
        · have all := List.forall_mem_cons.mpr ⟨held, rest⟩
          rw [if_pos held, ok_bind, if_pos rest, ok_bind, if_pos all]
          rfl
        · rw [if_pos held, ok_bind, if_neg rest, if_neg fun all => rest (List.forall_mem_cons.mp all).2]
          rfl
      · rw [if_neg held, if_neg fun all => held (List.forall_mem_cons.mp all).1]
        rfl

theorem lines_matched {keys : List TreeKey} {flat : List Entry} {kind : Entry → Prop}
    {line : TreeKey → Result Line} {text : Entry → Line}
    (same : ∀ key entry, Means key entry → kind entry →
      line key = if entry.depth = 0 then .ok (text entry) else .error .outOfBounds)
    (meant : List.Forall₂ Means keys flat) (typed : ∀ entry ∈ flat, kind entry) :
    keys.mapM line =
      if ∀ entry ∈ flat, entry.depth = 0 then .ok (flat.map text) else .error .outOfBounds := by
  have matched : keys.mapM line =
      flat.mapM fun entry => if entry.depth = 0 then .ok (text entry) else .error .outOfBounds := by
    apply mapM_matched
    induction meant with
    | nil => exact List.Forall₂.nil
    | cons means _ ih =>
        refine List.Forall₂.cons ?_ ?_
        · exact same _ _ means (typed _ List.mem_cons_self)
        · exact ih fun entry member => typed entry (List.mem_cons_of_mem _ member)
  rw [matched]
  exact mapM_guarded flat

theorem lines_text (extents dirents : List Entry) :
    ((extents.map (fun entry => entry.item.extentLine) ++
      dirents.map fun entry => entry.item.direntLine).foldl Stream.line Stream.start).text =
      (extents.map fun entry => entry.item.extentLine.text).flatten ++
        (dirents.map fun entry => entry.item.direntLine.text).flatten := by
  have unbroken : ∀ line ∈ extents.map (fun entry => entry.item.extentLine) ++
      dirents.map fun entry => entry.item.direntLine, line.breaks = false := by
    intro line member
    rcases List.mem_append.mp member with extent | dirent
    · rcases List.mem_map.mp extent with ⟨_, _, rfl⟩
      rfl
    · rcases List.mem_map.mp dirent with ⟨_, _, rfl⟩
      rfl
  rw [Stream.lines_unbroken rfl unbroken]
  simp [Stream.start, Function.comp_def]

/-- On every image that stores a file system of extents and named dirents in `struct bkey`
keys `main` prints the lines of all of them if their btrees have one node each, and
otherwise it reads out of bounds; the record in an extent's line is not always the extent. -/
theorem main_stored {env : Env} {fs : FileSystem} {extentSector direntSector : Nat}
    {extentEntries direntEntries : List Entry} (stored : fs.StoredOn env.image)
    (extentRoot : fs.root .extents = some extentSector)
    (direntRoot : fs.root .dirents = some direntSector)
    (extents : fs.Lists extentSector extentEntries) (dirents : fs.Lists direntSector direntEntries)
    (typed : ∀ entry ∈ extentEntries, entry.item.IsExtent)
    (named : ∀ entry ∈ direntEntries, entry.item.IsDirent) :
    (∃ enough, ∀ fuel, enough ≤ fuel → main env fuel =
      if ∀ entry ∈ extentEntries ++ direntEntries, entry.depth = 0 then
        .ok ((extentEntries.map fun entry => entry.item.extentLine.text).flatten ++
          (direntEntries.map fun entry => entry.item.direntLine.text).flatten)
      else .error .outOfBounds) ∧
    ∀ entry ∈ extentEntries, ∀ entries place, entry.item.Locates entries place →
      (entry.item.reported = entry.item.extent place ↔ entry.item.fields bkeyFieldInode = 0 ∧
        entry.item.fields bkeyFieldSize < 2 ^ 23 ∧ LeadsToPtr entry.item.value entries place) := by
  refine ⟨?_, fun entry _ entries place locates => Item.reported_iff locates⟩
  rcases stored.listed extentRoot extents with ⟨extentKeys, extentsListed, extentsMeant⟩
  rcases stored.listed direntRoot dirents with ⟨direntKeys, direntsListed, direntsMeant⟩
  have extentLines := lines_matched
    (fun key entry means extent => means.extentLine extent (extentSector * sectorSize))
    extentsMeant typed
  have direntLines := lines_matched (fun key entry means dirent => means.direntLine dirent)
    direntsMeant named
  rcases extentsListed.main direntsListed extentLines direntLines with ⟨enough, printed⟩
  refine ⟨enough, ?_⟩
  intro fuel more
  rw [printed fuel more]
  by_cases shallow : ∀ entry ∈ extentEntries, entry.depth = 0
  · by_cases flat : ∀ entry ∈ direntEntries, entry.depth = 0
    · rw [if_pos shallow, if_pos flat, if_pos (List.forall_mem_append.mpr ⟨shallow, flat⟩), ok_bind,
        ok_bind, lines_text]
      rfl
    · rw [if_pos shallow, if_neg flat, if_neg fun all => flat (List.forall_mem_append.mp all).2]
      rfl
  · rw [if_neg shallow, if_neg fun all => shallow (List.forall_mem_append.mp all).1]
    rfl

theorem sampleExtent_isExtent : sampleExtent.IsExtent := ⟨rfl, rfl, by decide⟩

theorem sampleDirent_isDirent : sampleDirent.IsDirent := ⟨rfl, rfl, by decide⟩

theorem sampleSystem_text : sampleExtent.extentLine.text ++ sampleDirent.direntLine.text = ascii
    " - bkey: u:6, f:1, t:6, s:8, o:16\n    - ext f:4096 i:0 o:32768 s:4096\n" ++ ascii
    " - bkey: u:7, f:1, t:10, s:0, o:1\n    - dirent p:6 i:7 t:8 s:a \n" := by
  decide

theorem main_stored_sample : (∃ enough, ∀ fuel, enough ≤ fuel → main systemEnv fuel = .ok (ascii
    " - bkey: u:6, f:1, t:6, s:8, o:16\n    - ext f:4096 i:0 o:32768 s:4096\n" ++ ascii
    " - bkey: u:7, f:1, t:10, s:0, o:1\n    - dirent p:6 i:7 t:8 s:a \n")) ∧
    ∀ entry ∈ [(⟨0, _, sampleExtent⟩ : Entry)], ∀ entries place, entry.item.Locates entries place →
      (entry.item.reported = entry.item.extent place ↔ entry.item.fields bkeyFieldInode = 0 ∧
        entry.item.fields bkeyFieldSize < 2 ^ 23 ∧ LeadsToPtr entry.item.value entries place) := by
  rw [← sampleSystem_text]
  exact main_stored sampleSystem_fits.stored rfl rfl sampleSystem_extents sampleSystem_dirents
    (by simp [sampleExtent_isExtent]) (by simp [sampleDirent_isDirent])

end Bcachefs
