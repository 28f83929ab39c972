import Bcachefs.Recovery

/-! What `main` prints: the lines of the keys of two trees, each line a function of its key. -/

namespace Bcachefs

open ByteString Iteration Flattening

/-- What is written for one key: by `printf`, then by `cout`, which a null name breaks. -/
structure Line where
  printed : Text
  streamed : Text
  breaks : Bool

def Line.text (line : Line) : Text := line.printed ++ line.streamed

def Stream.line (out : Stream) (line : Line) : Stream where
  text := out.text ++ line.printed ++ if out.bad then [] else line.streamed
  bad := out.bad || line.breaks

def PrintedEntry.line (dir : PrintedEntry) (printed : Text) : Line where
  printed := printed
  streamed := newline ++ ascii "    - dirent " ++ dir.fields ++
    (dir.name.elim [] fun name => name ++ ascii " " ++ newline)
  breaks := dir.name.isNone

namespace TreeKey

def extentLine (address : Nat) (key : TreeKey) : Result Line := do
  let line ← BKey.print key.node key.key
  let ext ← key.extend address
  return { printed := line, streamed := newline ++ ascii "    - ext " ++ ext.text ++ newline
           breaks := false }

def direntEntry (key : TreeKey) : Result PrintedEntry := do
  let dir ← key.directory 0
  dir.printed { heap := [key.node], position := 0 }

def direntLine (key : TreeKey) : Result Line := do
  let line ← BKey.print key.node key.key
  let entry ← key.direntEntry
  return entry.line line

end TreeKey

def listing (extentRoot : Nat) (extentKeys direntKeys : List TreeKey) : Result Text := do
  let extents ← extentKeys.mapM (TreeKey.extentLine extentRoot)
  let dirents ← direntKeys.mapM TreeKey.direntLine
  return ((extents ++ dirents).foldl Stream.line Stream.start).text

namespace Stream

variable (out : Stream)

@[simp] theorem put_put (first second : Text) :
    (out.put first).put second = out.put (first ++ second) := by
  cases out with
  | mk text bad => cases bad <;> simp [put]

theorem put_bad (text : Text) : ({ out with bad := true } : Stream).put text = { out with bad := true } :=
  rfl

theorem line_unbroken (printed streamed : Text) :
    out.line { printed := printed, streamed := streamed, breaks := false } =
      (out.printf printed).put streamed := by
  cases out with
  | mk text bad => cases bad <;> simp [line, put, printf]

theorem line_broken (printed streamed : Text) :
    out.line { printed := printed, streamed := streamed, breaks := true } =
      { (out.printf printed).put streamed with bad := true } := by
  cases out with
  | mk text bad => cases bad <;> simp [line, put, printf]

theorem lines_unbroken {out : Stream} {lines : List Line} (good : out.bad = false)
    (unbroken : ∀ line ∈ lines, line.breaks = false) :
    (lines.foldl Stream.line out).text = out.text ++ (lines.map Line.text).flatten := by
  induction lines generalizing out with
  | nil => simp
  | cons line lines ih =>
      have still : (out.line line).bad = false := by
        simp [Stream.line, good, unbroken line List.mem_cons_self]
      rw [List.foldl_cons, ih still fun other member => unbroken other (List.mem_cons_of_mem _ member)]
      simp [Stream.line, Line.text, good]

end Stream

theorem PrintedEntry.put_line (dir : PrintedEntry) (printed : Text) (out : Stream) :
    (dir.put (((out.printf printed).put newline).put (ascii "    - dirent "))).put newline =
      out.line (dir.line printed) := by
  cases named : dir.name with
  | none =>
      rw [PrintedEntry.line, named, Option.isNone_none, Stream.line_broken, PrintedEntry.put, named]
      simp [Stream.put_bad]
  | some name =>
      rw [PrintedEntry.line, named, Option.isNone_some, Stream.line_unbroken, PrintedEntry.put, named]
      simp

section

variable {world : World} {ptr : Ptr} {visit : Visit} {key : TreeKey} {address : Nat}

theorem TreeKey.directory_printed {block : Nat} (held : world.heap[block]? = some key.node) :
    (key.directory block >>= fun dir => dir.printed world) = key.direntEntry := by
  have alone : World.deref { heap := [key.node], position := 0 } 0 = .ok key.node := rfl
  rw [TreeKey.direntEntry, TreeKey.directory, TreeKey.directory, bind_assoc, bind_assoc]
  congr 1
  funext type
  by_cases dirent : type = keyTypeDirent
  · by_cases root : key.depth = 0
    · simp only [dirent, root, if_true, directoryIn, bind_assoc, pure_bind, DirectoryEntry.printed,
        DirectoryEntry.print, World.deref_ok.mpr held, alone, ok_bind]
    · rw [if_pos dirent, if_pos dirent, if_neg root, if_neg root]
      rfl
  · rw [if_neg dirent, if_neg dirent]
    rfl

theorem VisitOf.extentItem (visitOf : VisitOf world ptr visit key) {source : Bytes} (out : Stream)
    (held : world.heap[ptr.block]? = some source)
    (target : btreePtrAddress source ptr.offset = .ok address) :
    extentItem visit.it visit.world visit.key out =
      key.extentLine address >>= fun line => .ok (out.line line) := by
  rw [Bcachefs.extentItem, World.deref_ok.mpr visitOf.buffer, ok_bind, visitOf.offset,
    visitOf.extend held target]
  simp only [TreeKey.extentLine, bind_assoc, pure_bind, Stream.line_unbroken, Stream.put_put]
  rfl

theorem VisitOf.direntItem (visitOf : VisitOf world ptr visit key) (out : Stream) :
    direntItem visit.it visit.world visit.key out =
      key.direntLine >>= fun line => .ok (out.line line) := by
  rw [Bcachefs.direntItem, World.deref_ok.mpr visitOf.buffer, ok_bind, visitOf.offset,
    visitOf.directory, TreeKey.direntLine, ← TreeKey.directory_printed visitOf.buffer]
  simp only [bind_assoc, pure_bind, PrintedEntry.put_line]
  rfl

theorem mapM_matched {α β γ : Type} {left : α → Result γ} {right : β → Result γ} {elements : List α}
    {partners : List β}
    (matched : List.Forall₂ (fun element partner => left element = right partner) elements partners) :
    elements.mapM left = partners.mapM right := by
  induction matched with
  | nil => rfl
  | cons same _ ih => rw [List.mapM_cons, List.mapM_cons, same, ih]

theorem foldlM_lines {α β : Type} {body : Stream → α → Result Stream} {line : β → Result Line}
    {elements : List α} {partners : List β}
    (matched : List.Forall₂ (fun element partner => ∀ out,
      body out element = line partner >>= fun line => .ok (out.line line)) elements partners)
    (out : Stream) :
    elements.foldlM body out =
      partners.mapM line >>= fun lines => .ok (lines.foldl Stream.line out) := by
  induction matched generalizing out with
  | nil => rfl
  | cons same _ ih =>
      rw [List.foldlM_cons, List.mapM_cons, same]
      simp only [bind_assoc, ok_bind, pure_bind, ih, List.foldl_cons]

end

section

variable {env : Env} {size blockSize extentRoot direntRoot : Nat} {extentKeys direntKeys : List TreeKey}

/-- One loop of `main` over a finite tree, from any memory that holds the superblock. -/
theorem Listed.lines {reader : BCacheFSReader} {world : World} {type : BTreeType} {address : Nat}
    {flat : List TreeKey} {item : BTreeIterator → World → Ptr → Stream → Result Stream}
    {line : TreeKey → Result Line} (listed : Listed env.image type size blockSize address flat)
    (opened : OpenedOn env.image reader world)
    (same : ∀ start ptr visit key, VisitOf start ptr visit key →
      start.heap[ptr.block]? = some (superblockOf env.image) →
      btreePtrAddress (superblockOf env.image) ptr.offset = .ok address →
      ∀ out, item visit.it visit.world visit.key out =
        line key >>= fun line => .ok (out.line line)) :
    ∃ enough it next final, world.Extends final ∧ ∀ fuel out, enough ≤ fuel →
      reader.iterator env fuel type world = .ok (it, next) ∧
      listFrom env reader item fuel fuel it next out =
        flat.mapM line >>= fun lines => .ok (lines.foldl Stream.line out, final) := by
  rcases listed.iterator opened with ⟨⟨fuel, it, next, rooted⟩, remains⟩
  rcases remains fuel it next rooted with ⟨grown, remaining, held, target⟩
  rcases remaining.visits ((listed.mounted opened).extends grown) with
    ⟨visits, last, final, run, matched⟩
  have alike := foldlM_lines (matched.imp fun _ _ visitOf => same _ _ _ _ visitOf held target)
  rcases run.listFrom item with ⟨more, printed⟩
  refine ⟨max fuel more, it, next, final, grown.trans run.grows, ?_⟩
  intro most out enough
  refine ⟨BCacheFSReader.iterator_mono (by omega) rooted, ?_⟩
  rw [printed most most out (by omega) (by omega), alike, bind_assoc]
  rfl

theorem Listed.main {extentLines direntLines : Result (List Line)}
    (extents : Listed env.image .extents size blockSize extentRoot extentKeys)
    (dirents : Listed env.image .dirents size blockSize direntRoot direntKeys)
    (extentsPrinted : extentKeys.mapM (TreeKey.extentLine extentRoot) = extentLines)
    (direntsPrinted : direntKeys.mapM TreeKey.direntLine = direntLines) :
    ∃ enough, ∀ fuel, enough ≤ fuel → Bcachefs.main env fuel = do
      let extents ← extentLines
      let dirents ← direntLines
      return ((extents ++ dirents).foldl Stream.line Stream.start).text := by
  rcases extents.opens with ⟨fuel, reader, world, opening, opened⟩
  rcases extents.lines opened (fun _ _ _ _ visitOf held target out => visitOf.extentItem out held target) with
    ⟨first, it, next, final, grown, listed⟩
  rcases dirents.lines (opened.grown grown) (fun _ _ _ _ visitOf _ _ out => visitOf.direntItem out) with
    ⟨second, again, start, last, _, listedAgain⟩
  refine ⟨max fuel (max first second), ?_⟩
  intro most enough
  rcases listed most Stream.start (by omega) with ⟨rooted, printed⟩
  have rootedAgain := fun out => (listedAgain most out (by omega)).1
  have printedAgain := fun out => (listedAgain most out (by omega)).2
  rw [Bcachefs.main, BCacheFSReader.new_mono (by omega) opening, ok_bind]
  dsimp only
  rw [rooted, ok_bind]
  dsimp only
  rw [printed, extentsPrinted]
  simp only [bind_assoc, ok_bind, rootedAgain Stream.start, printedAgain, direntsPrinted,
    List.foldl_append]

/-- On every image whose extents and dirents are finite trees `main` prints one line for
each key of the one and then of the other, or fails with the first of them that cannot be
printed. -/
theorem main_lines (extents : Listed env.image .extents size blockSize extentRoot extentKeys)
    (dirents : Listed env.image .dirents size blockSize direntRoot direntKeys) :
    ∃ enough, ∀ fuel, enough ≤ fuel →
      main env fuel = listing extentRoot extentKeys direntKeys :=
  extents.main dirents rfl rfl

end

def sampleDeleted : Item sampleFormat where
  encoding := .current
  type := keyTypeDeleted
  fields := ![6, 3, 0, 0, 0, 0]
  value := Bytes.zeros 0
  typed := by decide
  members := by decide
  fits := by decide
  whole := by decide
  short := by decide

def deletedSystem : FileSystem :=
  { sampleSystem with
    nodes := [(11, ⟨sampleFormat, [[sampleExtent]]⟩),
      (13, ⟨sampleFormat, [[sampleDirent, sampleDeleted, sampleDirent]]⟩)]
    roots := [(.extents, 11), (.dirents, 13)] }

def deletedEnv : Env := { image := deletedSystem.write 7680, junk := fun _ _ => 0 }

theorem deletedSystem_fits : deletedSystem.Fits 7680 where
  blockSectors := by decide
  nodeSectors := by decide
  roots := by decide
  sectors := by decide
  nodes := by
    simp only [deletedSystem, List.forall_mem_cons]
    exact ⟨⟨by simp, by decide, by decide, fun more => absurd rfl more, trivial⟩,
      ⟨by simp, by decide, by decide, fun more => absurd rfl more, trivial⟩, by simp⟩
  apart := by decide
  inside := by decide

theorem deletedSystem_listed : ∃ extentKeys direntKeys : List TreeKey,
    extentKeys.length = 1 ∧ direntKeys.length = 3 ∧
    Listed deletedEnv.image .extents 1024 512 (11 * sectorSize) extentKeys ∧
    Listed deletedEnv.image .dirents 1024 512 (13 * sectorSize) direntKeys := by
  have extents : deletedSystem.root .extents = some 11 := rfl
  have dirents : deletedSystem.root .dirents = some 13 := rfl
  have extentItems : deletedSystem.Lists 11 [⟨0, _, sampleExtent⟩] :=
    ⟨_, rfl, FileSystem.flat_plain (by decide)⟩
  have direntItems : deletedSystem.Lists 13
      [⟨0, _, sampleDirent⟩, ⟨0, _, sampleDeleted⟩, ⟨0, _, sampleDirent⟩] :=
    ⟨_, rfl, FileSystem.flat_plain (by decide)⟩
  rcases deletedSystem_fits.stored.listed extents extentItems with
    ⟨extentKeys, extentsListed, extentsMeant⟩
  rcases deletedSystem_fits.stored.listed dirents direntItems with
    ⟨direntKeys, direntsListed, direntsMeant⟩
  exact ⟨extentKeys, direntKeys, extentsMeant.length_eq, direntsMeant.length_eq, extentsListed,
    direntsListed⟩

def deletedText : Text :=
  ascii " - bkey: u:6, f:1, t:6, s:8, o:16\n    - ext f:4096 i:0 o:32768 s:4096\n" ++
  ascii " - bkey: u:7, f:1, t:10, s:0, o:1\n    - dirent p:6 i:7 t:8 s:a \n" ++
  ascii " - bkey: u:5, f:1, t:0, s:0, o:3\n    - dirent p:0 i:0 t:0 s:" ++
  ascii " - bkey: u:7, f:1, t:10, s:0, o:1"

theorem main_lines_sample : ∃ extentKeys direntKeys : List TreeKey,
    extentKeys.length = 1 ∧ direntKeys.length = 3 ∧
    (∃ enough, ∀ fuel, enough ≤ fuel →
      main deletedEnv fuel = listing (11 * sectorSize) extentKeys direntKeys) ∧
    main deletedEnv 12 = .ok deletedText := by
  rcases deletedSystem_listed with ⟨extentKeys, direntKeys, one, three, extents, dirents⟩
  exact ⟨extentKeys, direntKeys, one, three, @main_lines deletedEnv _ _ _ _ _ _ extents dirents,
    by decide +kernel⟩

end Bcachefs
