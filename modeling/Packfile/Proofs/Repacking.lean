import Packfile.Proofs.AtomicSaves
import Packfile.Proofs.Desks
import Packfile.Proofs.Replacements
import Packfile.Proofs.Rewriting

/-!
# Repacking replaces, keeps and adds

Repacking an archive with the files of a folder gives an archive that lists the entries of the old
one, in their order and under their names, and behind them a new entry for each file that none of
them is named like. The first entry of a file's name has the content of the file, and every other
entry the content that it had.

The new archive is complete before anything is written, and then it is put in place as a whole
(`Packfile.Proofs.AtomicSaves`). So whatever goes wrong, every file is as it was, if only the system
removes a temporary file that is given up; and where nothing goes wrong one file has changed.

## Scope

The files are those that a walk through the folder finds, under names that stay distinct when
backslashes are taken for slashes. Their names are texts without a zero character, as the names of
files are. The new archive is opened under the standard options, and may have as many entries as
these allow.

## Main definitions

* `Command.archiveBytes` — everything that repacking does before it writes
* `IsRepacked` — what repacking has made of an archive

## Main results

* `Command.run_repack` — repacking succeeds with an archive that is repacked, or changes no file
-/

namespace Packfile

open Run Reading

/-! ### Everything before the write -/

namespace Command

variable {host : Host} {input : Input} {directory output : String} {overwrite : Bool}
  {files : FileTree} {desk desk' : Desk} {bytes : Bytes}

/-- The bytes of the new archive. -/
def archiveBytes (walk : Walk) (input : Input) (directory output : String) (overwrite : Bool) :
    Task Bytes := do
  if !overwrite && (← get).files.exists? output then Task.fail (output ++ " already exists")
  let archive ← Task.openInput input
  let edited := editedEntries archive (replacements walk (← get).files directory)
  Task.about ("encoding " ++ output) <| Task.orError (Registry.standard.encode archive edited).1

/-- Writing is the last step. -/
theorem repackArchive_eq (host : Host) (input : Input) (directory output : String)
    (overwrite : Bool) :
    repackArchive host input directory output overwrite
      = archiveBytes host.walk input directory output overwrite
        >>= saveArchive host.storage output := by
  rw [repackArchive, archiveBytes, bind_assoc]
  refine bind_congr fun desk => ?_
  split
  · simp only [bind_assoc]
  · simp only [bind_assoc]

theorem keeps_archiveBytes (walk : Walk) (input : Input) (directory output : String)
    (overwrite : Bool) : Keeps Desk.files (archiveBytes walk input directory output overwrite) := by
  refine keeps_get.bind fun desk => Keeps.guard ?_
  refine (Task.keeps_openInput input).bind fun archive => keeps_get.bind fun desk => ?_
  exact Task.keeps_about (Task.keeps_orError _) _

/-- The bytes of the new archive are the edited entries of the old one, written. -/
theorem archiveBytes_eq_ok {walk : Walk} :
    archiveBytes walk input directory output overwrite { files } = .ok bytes desk ↔
      ¬ (!overwrite && files.exists? output) = true ∧ ∃ old,
        Task.openInput input { files } = .ok old desk ∧ (Registry.standard.encode old
          (editedEntries old (replacements walk files directory))).1 = .ok bytes := by
  rw [archiveBytes, bind_of_ok (get_eq_ok.mpr ⟨rfl, rfl⟩)]
  refine guard_eq_ok.trans (and_congr_right fun _ => ?_)
  constructor
  · intro h
    obtain ⟨old, desk', hopen, hrest⟩ := bind_eq_ok.mp h
    have hfiles : desk'.files = files := (Task.keeps_openInput input).of_ok hopen
    rw [bind_of_ok (get_eq_ok.mpr ⟨rfl, rfl⟩), hfiles] at hrest
    obtain ⟨hencode, rfl⟩ := Task.orError_eq_ok.mp (Task.about_eq_ok.mp hrest)
    exact ⟨old, hopen, hencode⟩
  · rintro ⟨old, hopen, hencode⟩
    have hfiles : desk.files = files := (Task.keeps_openInput input).of_ok hopen
    refine bind_eq_ok.mpr ⟨old, desk, hopen, ?_⟩
    rw [bind_of_ok (get_eq_ok.mpr ⟨rfl, rfl⟩), hfiles]
    exact Task.about_eq_ok.mpr (Task.orError_eq_ok.mpr ⟨hencode, rfl⟩)

theorem saveArchive_eq_ok {storage : Storage} {u : Unit} :
    saveArchive storage output bytes desk = .ok u desk' ↔
      ∃ saved, storage.save output bytes desk.files = .ok () saved ∧
        desk' = { desk with files := saved } := by
  rw [saveArchive]
  cases storage.save output bytes desk.files <;> simp [eq_comm]

/-- Repacking succeeds by writing the bytes of the new archive. -/
theorem repackArchive_eq_ok :
    repackArchive host input directory output overwrite { files } = .ok () desk ↔ ∃ bytes desk',
      archiveBytes host.walk input directory output overwrite { files } = .ok bytes desk' ∧
        ∃ saved, host.storage.save output bytes files = .ok () saved ∧
          desk = { desk' with files := saved } := by
  rw [repackArchive_eq, bind_eq_ok]
  refine exists_congr fun bytes => exists_congr fun desk' => and_congr_right fun hbytes => ?_
  have hfiles : desk'.files = files := (keeps_archiveBytes _ _ _ _ _).of_ok hbytes
  rw [saveArchive_eq_ok, hfiles]

end Command

/-! ### The new archive -/

namespace Registry

variable {format : Format} {archive : Archive} {edits : List EditedEntry} {bytes : Bytes}

/-- What is written of an archive that a format has found is what the format writes. -/
theorem of_encode (hmem : format ∈ standard.formats) (hformat : archive.format = format.id)
    (h : (standard.encode archive edits).1 = .ok bytes) :
    ∃ encode t, format.encode = some encode ∧ encode edits archive.stream = .ok bytes t := by
  rw [Registry.encode, hformat, find?_id (fun _ h => h) hmem, Option.bind_some] at h
  cases hencode : format.encode with
  | none =>
    rw [hencode] at h
    cases h
  | some encode =>
    rw [hencode] at h
    obtain ⟨t, hbytes⟩ := Reader.outcome_eq_ok.mp h
    exact ⟨encode, t, rfl, hbytes⟩

/-- XARC and TRE, by their identifiers. -/
theorem isFaithful_of_id (hmem : format ∈ standard.formats)
    (hid : format.id = "xarc" ∨ format.id = "tre") : format.IsFaithful := by
  simp only [standard, List.mem_cons, List.not_mem_nil, or_false] at hmem
  rcases hmem with rfl | rfl | rfl | rfl | rfl | rfl | rfl | rfl
  · exact Xarc.isFaithful
  · exact absurd hid (by decide)
  · exact absurd hid (by decide)
  · exact Tre.isFaithful
  · exact absurd hid (by decide)
  · exact absurd hid (by decide)
  · exact absurd hid (by decide)
  · exact absurd hid (by decide)

end Registry

section

variable {old new : Archive} {format : Format} {path : String} {bytes out : Bytes}
  {before after : FileTree} {found files : Command.Replacements} {content : Bytes}

/-- The names of new entries have no zero character, if those of the files have none. -/
theorem Command.isPlain_addedEntry {name written : String} (h : Utf8.IsPlain name)
    (hwritten : (addedEntry (separatorOf old) name content).entry.name = some written) :
    Utf8.IsPlain written := by
  obtain rfl : (name.map fun c => if c = '/' then separatorOf old else c) = written :=
    Option.some.inj hwritten
  rw [Utf8.IsPlain, String.toList_map, List.mem_map]
  rintro ⟨c, hc, hzero⟩
  split at hzero
  · rw [separatorOf] at hzero
    split at hzero
    · exact absurd hzero (by decide)
    · exact absurd hzero (by decide)
  · exact h (hzero ▸ hc)

/-- The edited entries of an archive that a format has found may be written by it. -/
theorem Archive.IsReadFrom.admits (hold : old.IsReadFrom format path bytes before)
    (hfaithful : format.IsFaithful) (hplain : ∀ file ∈ files, Utf8.IsPlain file.1) :
    format.Admits bytes old.entries (Command.editedEntries old files) := by
  obtain ⟨options, halone⟩ := hold.readAlone_eq
  refine ⟨⟨_, _, options, before, rfl, Stream.isOver_ofBytes bytes, halone⟩, ?_, ?_⟩
  · intro edit hedit hkept
    rcases Command.of_mem_editedEntries hedit with hown | ⟨file, -, rfl⟩
    · exact hown
    · cases hkept
  · intro edit hedit name hname
    rcases Command.of_mem_editedEntries hedit with hown | ⟨file, hfile, rfl⟩
    · obtain ⟨name', hname', hname''⟩ := hfaithful.named (Stream.isOver_ofBytes bytes) halone _ hown
      rw [hname, Option.some.injEq] at hname'
      exact hname' ▸ hname''
    · exact Command.isPlain_addedEntry (hplain file hfile) hname

/-- What repacking has made of an archive: the new archive, before and after which the files were as
given, has taken the files that were found, each under its name, into the old one. -/
structure IsRepacked (old new : Archive) (before after : FileTree) (found : Command.Replacements) :
    Prop where
  /-- The format is the same. -/
  format_eq : new.format = old.format
  /-- The entries of the old archive come first, in their order and under their names. -/
  name_eq : ∀ (i : ℕ) (e : Entry), old.entries[i]? = some e →
    (new.entries[i]?).map Entry.name = some e.name
  /-- The first entry of a file's name has the content of the file. -/
  replaced : ∀ (i : ℕ) (name : String) (content : Bytes), (name, content) ∈ found →
    old.firstNamed? name = some i → (new.readEntry after i).1 = .ok content
  /-- Every other entry has the content that it had. -/
  kept : ∀ i < old.size, (∀ file ∈ found, old.firstNamed? file.1 ≠ some i) →
    ∃ content, (old.readEntry before i).1 = .ok content ∧ (new.readEntry after i).1 = .ok content
  /-- The files of no entry's name follow in ascending order, in the folders of the archive and with
  their contents. -/
  added : ∃ added : Command.Replacements,
    added.Perm (found.filter fun file => old.firstNamed? file.1 = none) ∧
    added.Pairwise (fun a b => a.1 < b.1) ∧ new.size = old.size + added.length ∧
    ∀ (k : ℕ) (name : String) (content : Bytes), added[k]? = some (name, content) →
      (new.entries[old.size + k]?).map Entry.name
          = some (some (name.map fun c => if c = '/' then Command.separatorOf old else c)) ∧
        (new.readEntry after (old.size + k)).1 = .ok content

/-- An archive that lists what edited entries were written as is repacked. -/
theorem isRepacked_of_isRewriting (hold : old.IsReadFrom format path bytes before)
    (hformat : new.format = old.format) (hnew : new.stream.IsOver out)
    (h : IsRewriting bytes out (Command.editedEntries old files) new.entries)
    (hperm : files.Perm found) (hsorted : files.Pairwise fun a b => a.1 < b.1) :
    IsRepacked old new before after found := by
  have hdistinct : (files.map Prod.fst).Nodup := by
    rw [List.Nodup, List.pairwise_map]
    exact hsorted.imp fun hlt => ne_of_lt hlt
  have hget {i : ℕ} {edit : EditedEntry}
      (hedit : (Command.editedEntries old files)[i]? = some edit) :
      ∃ e, new.entries[i]? = some e := by
    have hi := (List.getElem?_eq_some_iff.mp hedit).1
    rw [← h.length_eq] at hi
    exact ⟨_, List.getElem?_eq_getElem hi⟩
  refine ⟨hformat, fun i e he => ?_, fun i name content hfile hfirst => ?_, fun i hi hother => ?_,
    _, ?_, hsorted.filter fun file => file.1 ∉ old.entries.map Entry.slashedName, ?_,
    fun k name content hfile => ?_⟩
  · have hedit := Command.getElem?_editedEntries_own files he
    obtain ⟨e', he'⟩ := hget hedit
    rw [he', Option.map_some, (h.holds hedit he').1, Command.entry_editOf]
  · obtain ⟨e, he, hedit⟩ :=
      Command.getElem?_editedEntries_of_first hdistinct hfirst (hperm.mem_iff.mpr hfile)
    obtain ⟨e', he'⟩ := hget hedit
    obtain ⟨-, _, rfl, hholds⟩ := h.holds hedit he'
    exact Archive.readEntry_of_holdsIn hholds hnew he' after
  · have he := List.getElem?_eq_getElem hi
    have hedit := Command.getElem?_editedEntries_of_not_first hdistinct he fun file hfile =>
      hother file (hperm.mem_iff.mp hfile)
    obtain ⟨e', he'⟩ := hget hedit
    obtain ⟨-, content, hstands, hholds⟩ := h.holds hedit he'
    exact ⟨content, Archive.readEntry_of_holdsIn hstands hold.isOver he before,
      Archive.readEntry_of_holdsIn hholds hnew he' after⟩
  · refine ((hperm.filter _).trans (.of_eq ?_))
    refine List.filter_congr fun file _ => ?_
    rw [decide_eq_decide, Archive.firstNamed?_eq_none]
  · rw [Archive.size, h.length_eq, Command.length_editedEntries]
  · have hedit := Command.getElem?_editedEntries_added old files k
    rw [hfile, Option.map_some] at hedit
    obtain ⟨e', he'⟩ := hget hedit
    obtain ⟨hname, _, rfl, hholds⟩ := h.holds hedit he'
    refine ⟨?_, Archive.readEntry_of_holdsIn hholds hnew he' after⟩
    rw [he', Option.map_some, hname]
    rfl

end

namespace Command

/-- What was written of an archive that a format has found is opened as the archive repacked. -/
theorem exists_isRepacked {old : Archive} {format : Format} {path output : String}
    {bytes out : Bytes} {before after : FileTree} {files found : Replacements}
    (hold : old.IsReadFrom format path bytes before) (hfaithful : format.IsFaithful)
    (hplain : ∀ file ∈ files, Utf8.IsPlain file.1)
    (hencode : (Registry.standard.encode old (editedEntries old files)).1 = .ok out)
    (hcount : (editedEntries old files).length ≤ ({} : Options).maxEntries)
    (hread : after.read output = .ok out) (hperm : files.Perm found)
    (hsorted : files.Pairwise fun a b => a.1 < b.1) :
    ∃ new, Input.Opens { file := output } after new ∧ IsRepacked old new before after found := by
  obtain ⟨encode, t, hformat, hwritten⟩ :=
    Registry.of_encode hold.mem_formats hold.format_eq hencode
  have hread' : format.IsCandidate (.file output out.length) (.ofBytes out) ∧ ∃ entries,
      format.readAlone (.file output out.length) (.ofBytes out) {} after = .ok entries ∧
        IsRewriting bytes out (editedEntries old files) entries :=
    hfaithful.rewritten hformat (hold.admits hfaithful hplain) hold.isOver hwritten hcount rfl rfl
      (Stream.isOver_ofBytes out)
  obtain ⟨hcandidate, entries, halone, hrewriting⟩ := hread'
  obtain ⟨new, hopens, hnew, rfl, hover⟩ :=
    Input.opens_of_readAlone hold.mem_formats hread hcandidate halone
  exact ⟨new, hopens, isRepacked_of_isRewriting hold (hnew.trans hold.format_eq.symm) hover
    hrewriting hperm hsorted⟩

/-- An XARC or TRE archive that was repacked is opened as what repacking has made of it. -/
theorem exists_isRepacked_of_repackArchive {host : Host} {input : Input} {directory output : String}
    {overwrite : Bool} {files : FileTree} {desk : Desk} {old : Archive}
    (h : repackArchive host input directory output overwrite { files } = .ok () desk)
    (hopens : input.Opens files old) (hformat : old.format = "xarc" ∨ old.format = "tre")
    (hdistinct : ((filesFor files directory).map Prod.fst).Nodup)
    (hplain : ∀ file ∈ filesFor files directory, Utf8.IsPlain file.1)
    (hcount : old.size + ((filesFor files directory).filter
      fun file => old.firstNamed? file.1 = none).length ≤ ({} : Options).maxEntries) :
    ∃ new, Input.Opens { file := output } desk.files new ∧
      IsRepacked old new files desk.files (filesFor files directory) := by
  obtain ⟨out, desk', hbytes, saved, hsave, rfl⟩ := repackArchive_eq_ok.mp h
  obtain ⟨-, old', hopen', hencode⟩ := archiveBytes_eq_ok.mp hbytes
  obtain rfl := hopens.unique ⟨_, hopen'⟩
  obtain ⟨place, -, hread, -⟩ := Storage.of_save hsave
  obtain ⟨bytes, format, -, hold⟩ := hopens.exists_isReadFrom
  have hfaithful : format.IsFaithful :=
    Registry.isFaithful_of_id hold.mem_formats (hold.format_eq ▸ hformat)
  have hperm := perm_replacements host.walk hdistinct
  have hadded := (hperm.filter fun file => file.1 ∉ old.entries.map Entry.slashedName).length_eq
  refine exists_isRepacked hold hfaithful (fun file hfile => hplain file (hperm.mem_iff.mp hfile))
    hencode ?_ hread hperm (pairwise_replacements host.walk hdistinct)
  rw [length_editedEntries, hadded]
  simpa only [Archive.firstNamed?_eq_none] using hcount

section

variable {input : Input} {directory output : String} {files : FileTree} {old : Archive}

/-- What it takes for repacking to come to the write: a new path, an archive that can be opened, and
entries that can be written. -/
theorem exists_archiveBytes {walk : Walk} (hnew : files.exists? output = false)
    (hopens : input.Opens files old)
    (hencode : ((Registry.standard.encode old
      (editedEntries old (replacements walk files directory))).1).isOk = true) :
    ∃ bytes desk, archiveBytes walk input directory output false { files } = .ok bytes desk := by
  obtain ⟨opened, hopen⟩ := hopens
  cases hout : (Registry.standard.encode old
      (editedEntries old (replacements walk files directory))).1 with
  | error e =>
    rw [hout] at hencode
    cases hencode
  | ok out =>
    refine ⟨out, opened, archiveBytes_eq_ok.mpr ⟨?_, old, hopen, hout⟩⟩
    rw [hnew]
    exact Bool.false_ne_true

/-- It succeeds if the new archive can be saved, -/
theorem exists_run_repack (host : Host) (hnew : files.exists? output = false)
    (hopens : input.Opens files old)
    (hencode : ((Registry.standard.encode old
      (editedEntries old (replacements host.walk files directory))).1).isOk = true)
    (hsave : ∀ bytes, ∃ saved, host.storage.save output bytes files = .ok () saved) :
    ∃ desk, (Command.repack input directory output false).run host files = (.ok (), desk) := by
  obtain ⟨out, desk, hbytes⟩ := exists_archiveBytes hnew hopens hencode
  obtain ⟨saved, hsaved⟩ := hsave out
  exact ⟨_, run_eq_ok.mpr (repackArchive_eq_ok.mpr ⟨out, desk, hbytes, saved, hsaved, rfl⟩)⟩

end

/-- An archive, and a folder with a file for one of its entries and another file. -/
def shelf : FileTree where
  nodes := [(["in.xarc"], .file 0 Xarc.double), (["d"], .folder), (["d", "a"], .file 1 [0x3F]),
    (["d", "c"], .file 2 [0x2A])]

/-- The archive as it is opened. -/
def shelved : Archive where
  format := "xarc"
  stream := { bytes := Xarc.double, position := 44 }
  entries := [
    { source := .file "in.xarc" 49, name := some "b", offset := 44, stored := 2,
      properties := [("reserved", .int 7)] },
    { source := .file "in.xarc" 49, name := some "a", offset := 48, stored := 1,
      properties := [("reserved", .int 7)] }]

theorem place_shelf : shelf.place "d" = .ok ["d"] := by decide +kernel

theorem filesBelow_shelf : shelf.filesBelow ["d"] = [(["a"], [0x3F]), (["c"], [0x2A])] := by
  decide +kernel

theorem filesFor_shelf : filesFor shelf "d" = [("a", [0x3F]), ("c", [0x2A])] := by decide +kernel

end Command

end Packfile
