import Packfile.Command
import Packfile.Proofs.Recognition

/-!
# Opening an archive on a desk

The commands open the archive that they are about in one of two ways: in the format that it is
recognized to be in, or in a given one. Both come to the same. The file is read, a format finds the
entries in its bytes on its own, and the stream of the archive is one over these bytes. Neither
touches the files.

## Main definitions

* `Input.Opens` — an input and what it is opened as
* `Archive.IsReadFrom` — an archive and the bytes that it was found in

## Main results

* `Task.keeps_openInput` — opening leaves the files alone
* `Input.opens_iff_of_none`, `Input.opens_iff_of_some` — the two ways
* `Input.Opens.exists_isReadFrom` — what is known of an archive that was opened
* `Input.opens_of_readAlone` — a file that a format takes is opened
-/

namespace Packfile

open Run Reading

theorem Decode.outcome_eq_ok {α : Type} {body : Decode α} {x : Session} {a : α} :
    (body.outcome x).1 = .ok a ↔ ∃ y, body x = .ok a y := by
  rw [Decode.outcome]
  cases body x <;> simp

namespace Task

variable {α : Type} {desk desk' : Desk}

/-! ### Steps -/

theorem keeps_orError (result : Except Error α) : Keeps Desk.files (orError result) := by
  cases result with
  | ok a => exact keeps_pure a
  | error e => exact keeps_throw _

theorem orError_eq_ok {result : Except Error α} {a : α} :
    orError result desk = .ok a desk' ↔ result = .ok a ∧ desk' = desk := by
  cases result with
  | ok found => simp [orError, pure_eq_ok, eq_comm]
  | error e => simp [orError, throw_eq_ok]

theorem keeps_about {body : Task α} (h : Keeps Desk.files body) (context : String) :
    Keeps Desk.files (about context body) := by
  intro desk
  have hbody := h desk
  unfold after at hbody ⊢
  unfold about
  cases hrun : body desk with
  | ok a desk' => rwa [hrun] at hbody
  | error causes desk' => rwa [hrun] at hbody

theorem about_eq_ok {body : Task α} {context : String} {a : α} :
    about context body desk = .ok a desk' ↔ body desk = .ok a desk' := by
  rw [about]
  cases body desk <;> simp

theorem keeps_decode (options : Options) (stream : Stream) (body : Decode α) :
    Keeps Desk.files (decode options stream body) := fun _ => rfl

theorem decode_eq_ok {options : Options} {stream : Stream} {body : Decode α}
    {result : Except Error α} : decode options stream body desk = .ok result desk' ↔
      (body.outcome (.opening stream options desk.files)).1 = result ∧
        desk' = { desk with warnings := desk.warnings ++
          (body.outcome (.opening stream options desk.files)).2.warnings } := by
  show EStateM.Result.ok _ _ = _ ↔ _
  rw [EStateM.Result.ok.injEq]
  exact and_congr Iff.rfl eq_comm

/-- A decode that succeeds is handed on. -/
theorem decode_of_ok (desk : Desk) {options : Options} {stream : Stream} {body : Decode α} {a : α}
    {y : Session} (h : body (.opening stream options desk.files) = .ok a y) :
    ∃ desk', decode options stream body desk = .ok (.ok a) desk' :=
  ⟨_, decode_eq_ok.mpr ⟨Decode.outcome_eq_ok.mpr ⟨y, h⟩, rfl⟩⟩

theorem keeps_openFile (path : String) : Keeps Desk.files (openFile path) :=
  keeps_get.bind fun _ => (keeps_orError _).bind fun _ => keeps_pure _

/-- A file that is opened is a stream over its bytes. -/
theorem of_openFile {path : String} {stream : Stream} {source : Location}
    (h : openFile path desk = .ok (stream, source) desk') : ∃ bytes,
      desk.files.read path = .ok bytes ∧ stream = .ofBytes bytes ∧
        source = .file path bytes.length ∧ desk' = desk := by
  rw [openFile, bind_of_ok (get_eq_ok.mpr ⟨rfl, rfl⟩)] at h
  obtain ⟨found, _, hfound, hrest⟩ := bind_eq_ok.mp h
  obtain ⟨hfile, rfl⟩ := orError_eq_ok.mp hfound
  obtain ⟨hpair, rfl⟩ := pure_eq_ok.mp hrest
  cases hread : desk'.files.read path with
  | error problem =>
    rw [Stream.ofFile, hread] at hfile
    cases hfile
  | ok bytes =>
    rw [Stream.ofFile, hread] at hfile
    cases hfile
    cases hpair
    exact ⟨bytes, rfl, rfl, rfl, rfl⟩

theorem openFile_of_read {path : String} {bytes : Bytes} (h : desk.files.read path = .ok bytes) :
    openFile path desk = .ok (.ofBytes bytes, .file path bytes.length) desk := by
  have hfile : orError (Stream.ofFile desk.files path) desk = .ok (.ofBytes bytes) desk := by
    rw [Stream.ofFile, h]
    rfl
  rw [openFile, bind_of_ok (get_eq_ok.mpr ⟨rfl, rfl⟩), bind_of_ok hfile]
  rfl

theorem keeps_openInput (input : Input) : Keeps Desk.files (openInput input) := by
  rw [openInput]
  split
  · refine (keeps_about (keeps_openFile _) _).bind fun _ => ?_
    refine (keeps_decode _ _ _).bind fun _ => (keeps_orError _).bind fun result => ?_
    cases result with
    | recognized archive => exact keeps_pure _
    | unrecognized => exact keeps_throw _
    | corrupt format e => exact keeps_throw _
  · refine keeps_about ((keeps_openFile _).bind fun _ => ?_) _
    exact (keeps_decode _ _ _).bind fun _ => keeps_orError _

end Task

namespace Command

variable {command : Command} {host : Host} {files : FileTree} {desk : Desk}

theorem run_eq_ok :
    command.run host files = (.ok (), desk) ↔ command.task host { files } = .ok () desk := by
  rw [run]
  cases command.task host { files } <;> simp

end Command

/-- The input is opened as the archive. -/
def Input.Opens (input : Input) (files : FileTree) (archive : Archive) : Prop :=
  ∃ desk, Task.openInput input { files } = .ok archive desk

section

variable {files : FileTree} {archive : Archive} {x y : Session} {source : Location}

/-- What an input is opened as can be found out by opening it. -/
theorem Input.opens_of_parts {input : Input}
    (h : (match Task.openInput input { files } with
      | .ok a _ => some (a.format, a.stream, a.entries)
      | .error _ _ => none) = some (archive.format, archive.stream, archive.entries)) :
    input.Opens files archive := by
  cases hopen : Task.openInput input { files } with
  | ok found desk =>
    rw [hopen] at h
    obtain ⟨format, stream, entries⟩ := found
    cases h
    exact ⟨desk, hopen⟩
  | error causes desk =>
    rw [hopen] at h
    cases h

theorem Input.Opens.unique {input : Input} {other : Archive} (h : input.Opens files archive)
    (h' : input.Opens files other) : archive = other := by
  obtain ⟨desk, h⟩ := h
  obtain ⟨desk', h'⟩ := h'
  rw [h] at h'
  cases h'
  rfl

/-- What is opened in a given format is what the format reads. -/
theorem Registry.openAs_eq_ok {registry : Registry} {id : String} :
    registry.openAs id source x = .ok archive y ↔ ∃ format, registry.find? id = some format ∧
      archive.format = format.id ∧ format.readDirectory source x = .ok archive.entries y ∧
        archive.stream = y.stream := by
  rw [openAs]
  cases hfind : registry.find? id with
  | none => simp [throw_eq_ok]
  | some format =>
    simp only [bind_eq_ok, get_eq_ok, pure_eq_ok, Option.some.injEq, exists_eq_left']
    constructor
    · rintro ⟨entries, z, hread, _, _, ⟨rfl, rfl⟩, rfl, rfl⟩
      exact ⟨rfl, hread, rfl⟩
    · rintro ⟨hformat, hread, hstream⟩
      refine ⟨archive.entries, y, hread, y, y, ⟨rfl, rfl⟩, ?_, rfl⟩
      rw [← hformat, ← hstream]

/-- An archive that a format of the library has found in the bytes on its own. -/
structure Archive.IsReadFrom (archive : Archive) (format : Format) (path : String) (bytes : Bytes)
    (files : FileTree) : Prop where
  /-- The format is one of the library. -/
  mem_formats : format ∈ Registry.standard.formats
  /-- The archive says which. -/
  format_eq : archive.format = format.id
  /-- The stream is one over the bytes. -/
  isOver : archive.stream.IsOver bytes
  /-- The format finds the entries, whatever else it was allowed. -/
  readAlone_eq : ∃ options, format.readAlone (.file path bytes.length) (.ofBytes bytes) options
    files = .ok archive.entries

variable {options : Options} {path : String} {bytes : Bytes}

/-- What a stream is recognized to be is what the first format of the ranking finds that can read
it. -/
theorem Registry.firstSuccess_of_openStream {s : Stream}
    (h : standard.openStream source (.opening s options files) = .ok (.recognized archive) y) :
    FirstSuccess (·.readAlone source s options files) (standard.ranking source s) archive ∧
      archive.stream.source = s.source := by
  obtain ⟨result, z, hopen, hchosen, hsource⟩ :=
    exists_openStream (fun _ (h : _ ∈ standard.formats) => h) source s options files
  obtain rfl : .recognized archive = result := by
    rw [h] at hopen
    cases hopen
    rfl
  exact ⟨hchosen.firstSuccess, hsource archive rfl⟩

theorem Archive.exists_isReadFrom_of_openStream
    (h : Registry.standard.openStream (.file path bytes.length)
      (.opening (.ofBytes bytes) options files) = .ok (.recognized archive) y) :
    ∃ format, archive.IsReadFrom format path bytes files := by
  obtain ⟨hfirst, hsource⟩ := Registry.firstSuccess_of_openStream h
  obtain ⟨format, hmem, hid, halone⟩ := hfirst.exists_mem
  exact ⟨format, (Registry.mem_ranking.mp hmem).1, hid,
    (Stream.isOver_ofBytes bytes).of_source hsource, _, halone⟩

theorem Archive.exists_isReadFrom_of_openAs {id : String}
    (h : Registry.standard.openAs id (.file path bytes.length)
      (.opening (.ofBytes bytes) options files) = .ok archive y) :
    ∃ format, archive.IsReadFrom format path bytes files := by
  obtain ⟨format, hfind, hid, hfound, hstream⟩ := Registry.openAs_eq_ok.mp h
  have hmem : format ∈ Registry.standard.formats := List.mem_of_find?_eq_some hfind
  have hsource : y.stream.source = (Stream.ofBytes bytes).source :=
    congrArg Prod.fst ((Format.keeps_readDirectory hmem _).of_ok hfound)
  exact ⟨format, hmem, hid,
    (Stream.isOver_ofBytes bytes).of_source (by rw [hstream, hsource]), _,
    Format.readAlone_eq_ok.mpr ⟨y, hfound⟩⟩

/-- Without a format an input is opened as what the stream over its file is recognized to be. -/
theorem Input.opens_iff_of_none {input : Input} (hformat : input.format = none) :
    input.Opens files archive ↔ ∃ bytes y, files.read input.file = .ok bytes ∧
      Registry.standard.openStream (.file input.file bytes.length)
          (.opening (.ofBytes bytes) { nameTable := input.names } files)
        = .ok (.recognized archive) y := by
  rw [Opens, Task.openInput, hformat]
  constructor
  · rintro ⟨desk, h⟩
    obtain ⟨⟨stream, source⟩, _, hfile, hrest⟩ := bind_eq_ok.mp h
    obtain ⟨bytes, hread, rfl, rfl, rfl⟩ := Task.of_openFile (Task.about_eq_ok.mp hfile)
    obtain ⟨result, _, hdecode, hrest⟩ := bind_eq_ok.mp hrest
    obtain ⟨hresult, rfl⟩ := Task.decode_eq_ok.mp hdecode
    obtain ⟨found, _, hfound, hrest⟩ := bind_eq_ok.mp hrest
    obtain ⟨rfl, rfl⟩ := Task.orError_eq_ok.mp hfound
    obtain ⟨y, hopen⟩ := Decode.outcome_eq_ok.mp hresult
    cases found with
    | recognized found =>
      obtain ⟨rfl, -⟩ := pure_eq_ok.mp hrest
      exact ⟨bytes, y, hread, hopen⟩
    | unrecognized => exact absurd hrest (by simp [Task.fail, throw_eq_ok])
    | corrupt format e => exact absurd hrest (by simp [throw_eq_ok])
  · rintro ⟨bytes, y, hread, hopen⟩
    have hfile : Task.about ("path: " ++ input.file) (Task.openFile input.file) { files }
        = .ok (.ofBytes bytes, .file input.file bytes.length) { files } :=
      Task.about_eq_ok.mpr (Task.openFile_of_read hread)
    obtain ⟨desk, hdecode⟩ := Task.decode_of_ok { files } hopen
    refine ⟨desk, (bind_of_ok hfile).trans ((bind_of_ok hdecode).trans ?_)⟩
    exact (bind_of_ok (Task.orError_eq_ok.mpr ⟨rfl, rfl⟩)).trans rfl

/-- In a given format an input is opened as what the stream over its file is in that format. -/
theorem Input.opens_iff_of_some {input : Input} {id : String} (hformat : input.format = some id) :
    input.Opens files archive ↔ ∃ bytes y, files.read input.file = .ok bytes ∧
      Registry.standard.openAs id (.file input.file bytes.length)
          (.opening (.ofBytes bytes) { nameTable := input.names } files) = .ok archive y := by
  rw [Opens, Task.openInput, hformat]
  constructor
  · rintro ⟨desk, h⟩
    obtain ⟨⟨stream, source⟩, _, hfile, hrest⟩ := bind_eq_ok.mp (Task.about_eq_ok.mp h)
    obtain ⟨bytes, hread, rfl, rfl, rfl⟩ := Task.of_openFile hfile
    obtain ⟨result, _, hdecode, hrest⟩ := bind_eq_ok.mp hrest
    obtain ⟨hresult, rfl⟩ := Task.decode_eq_ok.mp hdecode
    obtain ⟨rfl, -⟩ := Task.orError_eq_ok.mp hrest
    obtain ⟨y, hopen⟩ := Decode.outcome_eq_ok.mp hresult
    exact ⟨bytes, y, hread, hopen⟩
  · rintro ⟨bytes, y, hread, hopen⟩
    have hfile : Task.openFile input.file { files }
        = .ok (.ofBytes bytes, .file input.file bytes.length) { files } :=
      Task.openFile_of_read hread
    obtain ⟨desk, hdecode⟩ := Task.decode_of_ok { files } hopen
    refine ⟨desk, Task.about_eq_ok.mpr ((bind_of_ok hfile).trans ((bind_of_ok hdecode).trans ?_))⟩
    exact Task.orError_eq_ok.mpr ⟨rfl, rfl⟩

/-- **What an input is opened as** is what a format finds in the bytes of the file. -/
theorem Input.Opens.exists_isReadFrom {input : Input} (h : input.Opens files archive) :
    ∃ bytes format, files.read input.file = .ok bytes ∧
      archive.IsReadFrom format input.file bytes files := by
  cases hformat : input.format with
  | none =>
    obtain ⟨bytes, y, hread, hopen⟩ := (Input.opens_iff_of_none hformat).mp h
    obtain ⟨format, hfrom⟩ := Archive.exists_isReadFrom_of_openStream hopen
    exact ⟨bytes, format, hread, hfrom⟩
  | some id =>
    obtain ⟨bytes, y, hread, hopen⟩ := (Input.opens_iff_of_some hformat).mp h
    obtain ⟨format, hfrom⟩ := Archive.exists_isReadFrom_of_openAs hopen
    exact ⟨bytes, format, hread, hfrom⟩

/-- A file that a format takes, and finds entries in on its own, is opened as these. -/
theorem Input.opens_of_readAlone {format : Format} {entries : List Entry}
    (hmem : format ∈ Registry.standard.formats)
    (hread : files.read path = .ok bytes)
    (hcandidate : format.IsCandidate (.file path bytes.length) (.ofBytes bytes))
    (halone : format.readAlone (.file path bytes.length) (.ofBytes bytes) {} files = .ok entries) :
    ∃ archive, Input.Opens { file := path } files archive ∧ archive.format = format.id ∧
      archive.entries = entries ∧ archive.stream.IsOver bytes := by
  obtain ⟨archive, y, hopen, hformat, hentries⟩ := Registry.openStream_of_readAlone
    (Stream.isOver_ofBytes bytes) hmem hcandidate halone
  exact ⟨archive, (opens_iff_of_none rfl).mpr ⟨bytes, y, hread, hopen⟩, hformat, hentries,
    (Stream.isOver_ofBytes bytes).of_source (Registry.firstSuccess_of_openStream hopen).2⟩

end

end Packfile
