import Packfile.Proofs.Extraction
import Packfile.Proofs.OtherFiles
import Packfile.Proofs.Repacking

/-!
# Repacking what was extracted

An archive that is extracted to a folder without files, and repacked with that folder, comes back
with its entries in their order, under their names and with their contents, each of which is what
the file of the entry holds.

## Names that are not tidy

Extraction and repacking do not agree on the name of a file. The file of an entry is created where
the name of the entry leads, and on the way there empty parts and `.` parts are passed over. What
repacking calls the file has no such parts: it is the way from the folder, put together again. So
the file of `./a` is called `a`, and is not taken for the file of the entry. The entry is kept,
which does it no harm, but the file is left over and is added behind, as a second entry of the same
content. A name that leads to itself is *tidy*; for each that is not, the new archive has one entry
more.

## Main definitions

* `FileTree.IsWellFormed` — trees that list each place once
* `Entry.tidyName`, `Entry.IsTidy` — what the file of an entry is called, and whether the entry is
* `Archive.untidyCount` — how many entries are not

## Main results

* `FileTree.mem_filesBelow` — the files below a place
* `Archive.IsExtracted.of_mem_filesFor`, `perm_filesFor` — the files of the folder are the entries'
* `IsRepacked.readEntry_eq` — an archive that is repacked with them has the contents that it had
* `Command.run_repack_extracted` — extracting and then repacking
-/

namespace Packfile

open Run

/-! ### Trees that list each place once -/

namespace FileTree

variable {t u : FileTree} {place above start : Place} {names : List String} {path : String}
  {content : Bytes} {node : Node}

/-- Each place is listed once, and the root not at all. -/
structure IsWellFormed (t : FileTree) : Prop where
  /-- No place is listed twice. -/
  nodup_places : (t.nodes.map Prod.fst).Nodup
  /-- The root is not listed. -/
  root_not_mem : [] ∉ t.nodes.map Prod.fst

theorem IsWellFormed.put (h : t.IsWellFormed) (hplace : place ≠ []) (node : Node) :
    (t.put place node).IsWellFormed := by
  have hsub : ((t.nodes.filter fun entry => entry.1 != place).map Prod.fst).Sublist
      (t.nodes.map Prod.fst) := List.filter_sublist.map _
  have hplaces : (t.put place node).nodes.map Prod.fst
      = (t.nodes.filter fun entry => entry.1 != place).map Prod.fst ++ [place] := List.map_append
  refine ⟨?_, ?_⟩
  · rw [hplaces, List.nodup_append]
    refine ⟨h.nodup_places.sublist hsub, List.pairwise_singleton _ _, ?_⟩
    intro other hother last hlast
    obtain ⟨entry, hentry, rfl⟩ := List.mem_map.mp hother
    rw [List.mem_singleton.mp hlast]
    exact bne_iff_ne.mp (List.mem_filter.mp hentry).2
  · rw [hplaces, List.mem_append, List.mem_singleton]
    rintro (hmem | hroot)
    · exact h.root_not_mem (hsub.subset hmem)
    · exact hplace hroot.symm

theorem isWellFormed_of_createAlong (h : t.IsWellFormed) (hu : t.createAlong start names = .ok u) :
    u.IsWellFormed := by
  induction names generalizing t start with
  | nil =>
    cases hu
    exact h
  | cons name names ih =>
    rw [createAlong] at hu
    split at hu
    · next hnone =>
      have hplace : t.at? (step start name) ≠ some .folder := by simp [hnone]
      exact ih (h.put (ne_nil_of_at? hplace) _) hu
    · exact ih h hu
    · cases hu

theorem IsWellFormed.rewrite (h : t.IsWellFormed) (number : ℕ) (content : Bytes) :
    (t.rewrite number content).IsWellFormed := by
  have hplaces : (t.rewrite number content).nodes.map Prod.fst = t.nodes.map Prod.fst := by
    rw [FileTree.rewrite, List.map_map]
    rfl
  refine ⟨?_, ?_⟩
  · rw [hplaces]
    exact h.nodup_places
  · rw [hplaces]
    exact h.root_not_mem

theorem IsWellFormed.fill (h : t.IsWellFormed) (hat : t.at? place ≠ some .folder)
    (content : Bytes) : (t.fill place content).IsWellFormed := by
  rw [FileTree.fill]
  split
  · exact h.rewrite _ _
  · exact h.put (ne_nil_of_at? hat) _

theorem isWellFormed_of_writeFile (h : t.IsWellFormed) (hu : t.writeFile path content = .ok u) :
    u.IsWellFormed := by
  obtain ⟨place, -, -, hat, rfl⟩ := writeFile_eq_ok.mp hu
  exact h.fill hat content

theorem isWellFormed_of_createFile (h : t.IsWellFormed) (hu : t.createFile path = .ok u) :
    u.IsWellFormed := by
  obtain ⟨place, -, -, hat, rfl⟩ := createFile_eq_ok.mp hu
  exact h.put (ne_nil_of_at? (by rw [hat]; exact nofun)) _

/-! ### The files below a place -/

theorem below?_eq_some {rest : Place} : below? above place = some rest ↔ place = above ++ rest := by
  induction above generalizing place with
  | nil => simp [below?, eq_comm]
  | cons a above ih =>
    cases place with
    | nil => simp [below?]
    | cons b place =>
      rw [below?]
      by_cases hab : a = b
      · simp [hab, ih]
      · simp [hab, Ne.symm hab]

/-- What is found of one listed node among the files below a place. -/
theorem foundBelow_eq_some {entry : Place × Node} {file : Place × Bytes} :
    foundBelow above entry = some file ↔
      ∃ number, entry = (above ++ file.1, .file number file.2) := by
  obtain ⟨place, node⟩ := entry
  obtain ⟨rest, content⟩ := file
  simp only [foundBelow, Prod.mk.injEq, ← below?_eq_some]
  cases node with
  | folder => simp
  | file number found => cases below? above place <;> simp

/-- **The files below a place** are those that the tree has there. -/
theorem mem_filesBelow (h : t.IsWellFormed) {rest : Place} :
    (rest, content) ∈ t.filesBelow above ↔ t.file? (above ++ rest) = some content := by
  have hat (number : ℕ) : (above ++ rest, Node.file number content) ∈ t.nodes ↔
      t.at? (above ++ rest) = some (.file number content) := by
    refine ⟨fun hmem => ?_, mem_nodes_of_at?⟩
    have hroot : above ++ rest ≠ [] :=
      fun hnil => h.root_not_mem (hnil ▸ List.mem_map_of_mem hmem)
    rw [at?, if_neg hroot]
    exact (lookup_eq_some_iff_of_nodup h.nodup_places).mpr hmem
  rw [filesBelow, List.mem_filterMap, file?_eq_some]
  simp only [foundBelow_eq_some, ← hat]
  constructor
  · rintro ⟨_, hmem, number, rfl⟩
    exact ⟨number, hmem⟩
  · rintro ⟨number, hmem⟩
    exact ⟨_, hmem, number, rfl⟩

/-- Each file below a place is found once. -/
theorem nodup_filesBelow (h : t.IsWellFormed) (above : Place) :
    ((t.filesBelow above).map Prod.fst).Nodup := by
  rw [filesBelow, List.Nodup, List.pairwise_map, List.pairwise_filterMap]
  have hplaces := h.nodup_places
  rw [List.Nodup, List.pairwise_map] at hplaces
  refine hplaces.imp fun hne file hfile other hother heq => hne ?_
  obtain ⟨number, rfl⟩ := foundBelow_eq_some.mp hfile
  obtain ⟨number', rfl⟩ := foundBelow_eq_some.mp hother
  rw [heq]

end FileTree

/-! ### Extraction keeps the tree well formed, and leaves its folder -/

namespace Command

open FileTree

variable {storage : Storage} {desk desk' : Desk} {path directory : String} {overwrite : Bool}
  {archive : Archive} {index : ℕ}

theorem preserves_change {P : FileTree → Prop} {update : FileTree → Except ResourceProblem FileTree}
    (h : ∀ t u, P t → update t = .ok u → P u) :
    Preserves (fun desk : Desk => P desk.files) (Task.change update) := by
  intro desk hdesk
  rw [after, Task.change]
  cases hupdate : update desk.files with
  | error problem => exact hdesk
  | ok files => exact h _ _ hdesk hupdate

theorem preserves_onFiles {P : FileTree → Prop} {α : Type}
    {steps : EStateM ResourceProblem FileTree α} (h : Preserves P steps) :
    Preserves (fun desk : Desk => P desk.files) (Task.onFiles steps) := by
  intro desk hdesk
  rw [Task.files_after_onFiles]
  exact h desk.files hdesk

theorem preserves_createFolders (storage : Storage) (path : String) :
    Preserves IsWellFormed (storage.createFolders path) := by
  intro t ht
  rcases after_createFolders storage path t with hsame | ⟨names, hcreated⟩
  · rwa [hsame]
  · exact isWellFormed_of_createAlong ht hcreated

theorem preserves_about {P : Desk → Prop} {α : Type} {body : Task α} (h : Preserves P body)
    (context : String) : Preserves P (Task.about context body) := by
  intro desk hdesk
  rw [Task.after_about]
  exact h desk hdesk

theorem preserves_extractEntry (storage : Storage) (directory : String) (overwrite : Bool)
    (archive : Archive) (index : ℕ) : Preserves (fun desk : Desk => desk.files.IsWellFormed)
      (extractEntry storage directory overwrite archive index) := by
  have hkeeps {α : Type} {body : Task α} (h : Keeps Desk.files body) :
      Preserves (fun desk : Desk => desk.files.IsWellFormed) body :=
    h.preserves FileTree.IsWellFormed
  have hwrite (path : String) (content : Bytes) :
      Preserves (fun desk : Desk => desk.files.IsWellFormed)
        (Task.change fun t => t.writeFile path content) :=
    preserves_change fun _ _ h hu => isWellFormed_of_writeFile h hu
  refine (hkeeps keeps_get).bind fun desk => ?_
  refine (hkeeps (Task.keeps_orError _)).bind fun ⟨e, content⟩ => ?_
  dsimp only
  cases targetPath directory (e.name.getD "") with
  | error message => exact hkeeps (keeps_throw _)
  | ok path =>
    have hfolder : Preserves (fun desk : Desk => desk.files.IsWellFormed)
        (createFolderOf storage path) := by
      rw [createFolderOf]
      split
      · exact hkeeps (keeps_pure _)
      · exact preserves_about (preserves_onFiles (preserves_createFolders storage _)) _
    refine hfolder.bind fun _ => Preserves.bind ?_ fun _ => ?_
    · refine preserves_about (preserves_change fun t u h hu => ?_) _
      split at hu
      · cases hu
      split at hu
      · exact isWellFormed_of_writeFile h hu
      · exact isWellFormed_of_createFile h hu
    · refine Preserves.bind ((hkeeps keeps_get).bind fun desk => ?_) fun _ => ?_
      · split
        · exact hwrite _ _
        · exact (hwrite _ _).bind fun _ => hkeeps (keeps_throw _)
      · split
        · exact hkeeps (keeps_pure _)
        · exact hkeeps (keeps_throw _)

/-- Content is copied by writing a file. -/
theorem exists_of_copyContent {content : ContentReader} {u : Unit}
    (h : copyContent storage path content desk = .ok u desk') :
    ∃ copied files, desk.files.writeFile path copied = .ok files ∧ desk'.files = files := by
  rw [copyContent] at h
  rcases hpieces : content.pieces copySize with ⟨copied, failure⟩
  rw [hpieces] at h
  obtain ⟨_, written, hwrite, h⟩ := bind_eq_ok.mp h
  have hfiles : desk'.files = written.files := by
    cases failure with
    | none =>
      cases h
      rfl
    | some e => cases h
  rw [hfiles]
  rw [writePart, bind_of_ok (get_eq_ok.mpr ⟨rfl, rfl⟩)] at hwrite
  cases hpart : storage.interruption desk.files path copied with
  | none =>
    rw [hpart] at hwrite
    obtain ⟨files, hwritten, rfl⟩ := Task.change_eq_ok.mp hwrite
    exact ⟨copied, files, hwritten, rfl⟩
  | some interrupted =>
    rw [hpart] at hwrite
    obtain ⟨_, _, -, hthrow⟩ := bind_eq_ok.mp hwrite
    cases hthrow

/-- What has been extracted lies in a folder that is there, if one was given. -/
theorem place_of_extractEntry {u : Unit} (hdirectory : directory ≠ "")
    (h : extractEntry storage directory overwrite archive index desk = .ok u desk') :
    desk'.files.place directory = .ok (desk'.files.destination directory) := by
  rw [extractEntry] at h
  rw [bind_of_ok (get_eq_ok.mpr ⟨rfl, rfl⟩)] at h
  obtain ⟨⟨e, content⟩, opened, -, h⟩ := bind_eq_ok.mp h
  dsimp only at h
  cases htarget : targetPath directory (e.name.getD "") with
  | error message =>
    rw [htarget] at h
    cases h
  | ok path =>
    rw [htarget] at h
    obtain ⟨hname, hinside, rfl⟩ := targetPath_eq_ok.mp htarget
    obtain ⟨_, grown, -, h⟩ := bind_eq_ok.mp h
    obtain ⟨_, created, hcreate, h⟩ := bind_eq_ok.mp h
    obtain ⟨place, -, hmeans, -⟩ := of_createTarget hcreate
    have hnames := Path.names_ne_nil_of_join hname hinside.relative hmeans
    -- the content is written where the path leads, and it leads there afterwards
    obtain ⟨copied, files, hfiles, hfinal⟩ := exists_of_copyContent h
    obtain ⟨place, hplace, -, hat, rfl⟩ := writeFile_eq_ok.mp hfiles
    rw [hfinal]
    exact place_of_join hdirectory hinside.relative hnames
      ((keepsFolders_fill hat copied).place_eq hplace)

variable {input : Input} {files : FileTree}

theorem isWellFormed_of_extractEntries {u : Unit} (hfiles : files.IsWellFormed)
    (h : extractEntries storage input directory overwrite { files } = .ok u desk) :
    desk.files.IsWellFormed := by
  have hpreserves : Preserves (fun desk : Desk => desk.files.IsWellFormed)
      (extractEntries storage input directory overwrite) :=
    ((Task.keeps_openInput input).preserves FileTree.IsWellFormed).bind fun archive =>
      preserves_forM fun index _ => preserves_extractEntry storage directory overwrite archive index
  have hafter := hpreserves { files } hfiles
  rwa [after_of_ok h] at hafter

/-- An archive with entries lies in a folder that is there: the last entry does. -/
theorem place_of_extractEntries {u : Unit} (hopens : input.Opens files archive)
    (hentries : archive.entries ≠ []) (hdirectory : directory ≠ "")
    (h : extractEntries storage input directory overwrite { files } = .ok u desk) :
    desk.files.place directory = .ok (desk.files.destination directory) := by
  obtain ⟨found, mid, hopen, h⟩ := bind_eq_ok.mp h
  obtain rfl := hopens.unique ⟨_, hopen⟩
  obtain ⟨last, hlast⟩ := Nat.exists_eq_succ_of_ne_zero (mt List.length_eq_zero_iff.mp hentries)
  rw [Archive.size, hlast, List.range_succ, List.forM_eq_forM, List.forM_append] at h
  obtain ⟨_, before, -, h⟩ := bind_eq_ok.mp h
  obtain ⟨_, final, hfinal, h⟩ := bind_eq_ok.mp h
  cases h
  exact place_of_extractEntry hdirectory hfinal

end Command

/-! ### Tidy names -/

/-- With slashes between its folders a name has no backslashes, and no other new characters. -/
theorem EntryName.mem_toList_slashed {name : String} {c : Char} (h : c ∈ (slashed name).toList) :
    c ≠ separator ∧ (c = '/' ∨ c ∈ name.toList) := by
  rw [slashed, String.toList_map, List.mem_map] at h
  obtain ⟨a, ha, rfl⟩ := h
  split
  · exact ⟨by decide, .inl rfl⟩
  · next hne => exact ⟨hne, .inr ha⟩

/-- A name without backslashes stays as it is. -/
theorem EntryName.slashed_of_not_mem {name : String} (h : separator ∉ name.toList) :
    slashed name = name := by
  have hsame : ∀ c ∈ name.toList, (if c = separator then '/' else c) = c :=
    fun c hc => if_neg fun heq : c = separator => h (heq ▸ hc)
  rw [← String.toList_inj, slashed, String.toList_map]
  exact (List.map_congr_left hsame).trans (List.map_id _)

namespace Entry

variable {e other : Entry} {c : Char}

/-- What the file of an entry is called: the way to it, with slashes. -/
def tidyName (e : Entry) : String := "/".intercalate e.way

/-- The name of an entry, with slashes, is what its file is called. -/
def IsTidy (e : Entry) : Prop := e.tidyName = e.slashedName

instance (e : Entry) : Decidable e.IsTidy := decEq _ _

/-- What the file of an entry is called leads to where the entry goes. -/
theorem names_tidyName (e : Entry) : Path.names e.tidyName = e.way :=
  Path.names_intercalate fun _ hname => Path.ne_of_mem_names hname

/-- A file that is called like an entry lies where the entry goes. -/
theorem way_eq_of_tidyName (h : e.tidyName = other.slashedName) : e.way = other.way := by
  rw [← names_tidyName, h]
  rfl

theorem mem_toList_tidyName (h : c ∈ e.tidyName.toList) : c = '/' ∨ c ∈ e.slashedName.toList :=
  (Path.mem_toList_intercalate h).imp_right fun ⟨_, hname, hc⟩ => Path.subset_of_mem_names hname hc

/-- What the file of an entry is called has no backslashes. -/
theorem slashed_tidyName (e : Entry) : EntryName.slashed e.tidyName = e.tidyName := by
  refine EntryName.slashed_of_not_mem fun hmem => ?_
  rcases mem_toList_tidyName hmem with hslash | hslashed
  · exact absurd hslash (by decide)
  · exact (EntryName.mem_toList_slashed hslashed).1 rfl

/-- It has no zero character, if the name of the entry has none. -/
theorem isPlain_tidyName {name : String} (hname : e.name = some name) (h : Utf8.IsPlain name) :
    Utf8.IsPlain e.tidyName := by
  intro hzero
  rcases mem_toList_tidyName hzero with hslash | hslashed
  · exact absurd hslash (by decide)
  · rw [slashedName, hname, Option.getD_some] at hslashed
    rcases (EntryName.mem_toList_slashed hslashed).2 with hslash | hmem
    · exact absurd hslash (by decide)
    · exact h hmem

end Entry

namespace Archive

variable {a : Archive} {e : Entry} {i : ℕ}

/-- How many entries have a name that is not tidy. -/
def untidyCount (a : Archive) : ℕ := a.entries.countP fun e => ¬ e.IsTidy

/-- Entries that go to different places have different names. -/
theorem nodup_slashedName (h : (a.entries.map Entry.way).Nodup) :
    (a.entries.map Entry.slashedName).Nodup := by
  refine List.Nodup.of_map Path.names ?_
  rw [List.map_map]
  exact h

/-- And their files are called differently. -/
theorem nodup_tidyName (h : (a.entries.map Entry.way).Nodup) :
    (a.entries.map Entry.tidyName).Nodup := by
  refine List.Nodup.of_map Path.names ?_
  have hways : Path.names ∘ Entry.tidyName = Entry.way := funext Entry.names_tidyName
  rw [List.map_map, hways]
  exact h

/-- **The file of an entry is taken for the entry if the entry is tidy**, and otherwise for none. -/
theorem firstNamed?_tidyName (h : (a.entries.map Entry.way).Nodup) (he : a.entries[i]? = some e) :
    a.firstNamed? e.tidyName = if e.IsTidy then some i else none := by
  obtain ⟨hi, rfl⟩ := List.getElem?_eq_some_iff.mp he
  split
  · next htidy =>
    refine firstNamed?_eq_some.mpr ⟨_, he, htidy.symm, fun hmem => ?_⟩
    obtain ⟨e', he', hsame⟩ := List.mem_map.mp hmem
    obtain ⟨j, hj, rfl⟩ := List.mem_take_iff_getElem.mp he'
    have hlt : j < (a.entries.map Entry.slashedName).length := by
      rw [List.length_map]
      omega
    have hlt' : i < (a.entries.map Entry.slashedName).length := by rwa [List.length_map]
    have hnames : (a.entries.map Entry.slashedName)[j] = (a.entries.map Entry.slashedName)[i] := by
      rw [List.getElem_map, List.getElem_map, hsame, htidy]
    have hindex := (nodup_slashedName h).getElem_inj_iff.mp hnames
    omega
  · next huntidy =>
    refine firstNamed?_eq_none.mpr fun hmem => huntidy ?_
    obtain ⟨e', he', hsame⟩ := List.mem_map.mp hmem
    have heq : a.entries[i] = e' :=
      List.inj_on_of_nodup_map h (List.getElem_mem hi) he' (Entry.way_eq_of_tidyName hsame.symm)
    rw [Entry.IsTidy, ← hsame, heq]

end Archive

/-! ### The files of an extracted folder -/

section

variable {a old new : Archive} {before files extracted repacked : FileTree} {target : Place}
  {directory : String} {file : String × Bytes} {found : Command.Replacements}

open FileTree

/-- Each file of the folder is that of an entry, and has its content. -/
theorem Archive.IsExtracted.of_mem_filesFor
    (h : a.IsExtracted before extracted target a.entries) (hwell : extracted.IsWellFormed)
    (htarget : target = extracted.destination directory)
    (hfile : file ∈ Command.filesFor extracted directory) : ∃ (i : ℕ) (e : Entry),
      a.entries[i]? = some e ∧ file.1 = e.tidyName ∧ (a.readEntry before i).1 = .ok file.2 := by
  rw [Command.filesFor] at hfile
  cases hplace : extracted.place directory with
  | error problem =>
    rw [hplace] at hfile
    cases hfile
  | ok place =>
    rw [hplace] at hfile
    obtain ⟨⟨way, content⟩, hbelow, rfl⟩ := List.mem_map.mp hfile
    have hat := (mem_filesBelow hwell).mp hbelow
    rw [destination_of_place hplace, ← htarget] at hat
    obtain ⟨e, he, rfl⟩ := List.mem_map.mp (h.only way content hat)
    obtain ⟨i, hi, rfl⟩ := List.getElem_of_mem he
    have hget := List.getElem?_eq_getElem hi
    obtain ⟨content', hread, hat'⟩ := h.holds i _ hget
    rw [hat', Option.some.injEq] at hat
    exact ⟨i, _, hget, Entry.slashed_tidyName _, hat ▸ hread⟩

/-- **The files of the folder are those of the entries**, one for each. -/
theorem Archive.IsExtracted.perm_filesFor
    (h : a.IsExtracted before extracted target a.entries) (hwell : extracted.IsWellFormed)
    (hplace : extracted.place directory = .ok target) :
    ((Command.filesFor extracted directory).map Prod.fst).Perm (a.entries.map Entry.tidyName) := by
  have hways : ((extracted.filesBelow target).map Prod.fst).Perm (a.entries.map Entry.way) := by
    refine (List.perm_ext_iff_of_nodup (nodup_filesBelow hwell target) h.distinct).mpr fun way => ?_
    rw [List.mem_map]
    constructor
    · rintro ⟨⟨way, content⟩, hbelow, rfl⟩
      exact h.only way content ((mem_filesBelow hwell).mp hbelow)
    · intro hmem
      obtain ⟨e, he, rfl⟩ := List.mem_map.mp hmem
      obtain ⟨i, hi, rfl⟩ := List.getElem_of_mem he
      obtain ⟨content, -, hat⟩ := h.holds i _ (List.getElem?_eq_getElem hi)
      exact ⟨(_, content), (mem_filesBelow hwell).mpr hat, rfl⟩
  have hnames : (fun way : Place => EntryName.slashed ("/".intercalate way)) ∘ Entry.way
      = Entry.tidyName := funext Entry.slashed_tidyName
  have hperm := hways.map fun way => EntryName.slashed ("/".intercalate way)
  rw [List.map_map, List.map_map, hnames] at hperm
  rw [Command.filesFor, hplace]
  dsimp only
  rw [List.map_map]
  exact hperm

/-- The files that no entry is named like are those of the entries that are not tidy. -/
theorem Archive.IsExtracted.length_filter_filesFor
    (h : a.IsExtracted before extracted target a.entries) (hwell : extracted.IsWellFormed)
    (hplace : extracted.place directory = .ok target) :
    ((Command.filesFor extracted directory).filter
      fun file => a.firstNamed? file.1 = none).length = a.untidyCount := by
  have hcount := (h.perm_filesFor hwell hplace).countP_eq fun name => a.firstNamed? name = none
  rw [List.countP_map, List.countP_map] at hcount
  rw [← List.countP_eq_length_filter]
  refine hcount.trans (List.countP_congr fun e he => ?_)
  obtain ⟨i, hi, rfl⟩ := List.getElem_of_mem he
  simp [Archive.firstNamed?_tidyName h.distinct (List.getElem?_eq_getElem hi)]

theorem Archive.IsExtracted.length_filter_le
    (h : a.IsExtracted before extracted target a.entries) (hwell : extracted.IsWellFormed)
    (htarget : target = extracted.destination directory) :
    ((Command.filesFor extracted directory).filter
      fun file => a.firstNamed? file.1 = none).length ≤ a.untidyCount := by
  cases hplace : extracted.place directory with
  | error problem =>
    rw [Command.filesFor, hplace]
    exact Nat.zero_le _
  | ok place =>
    rw [destination_of_place hplace, ← htarget] at hplace
    exact (h.length_filter_filesFor hwell hplace).le

theorem Archive.IsExtracted.nodup_filesFor
    (h : a.IsExtracted before extracted target a.entries) (hwell : extracted.IsWellFormed)
    (htarget : target = extracted.destination directory) :
    ((Command.filesFor extracted directory).map Prod.fst).Nodup := by
  cases hplace : extracted.place directory with
  | error problem =>
    rw [Command.filesFor, hplace]
    exact List.nodup_nil
  | ok place =>
    rw [destination_of_place hplace, ← htarget] at hplace
    exact (h.perm_filesFor hwell hplace).nodup_iff.mpr (Archive.nodup_tidyName h.distinct)

/-- What the files are called can be stored as names of entries. -/
theorem Archive.IsExtracted.isPlain_of_mem_filesFor {format : Format} {path : String}
    {bytes : Bytes} (h : a.IsExtracted before extracted target a.entries)
    (hwell : extracted.IsWellFormed) (htarget : target = extracted.destination directory)
    (hread : a.IsReadFrom format path bytes before) (hformat : a.format = "xarc" ∨ a.format = "tre")
    (hfile : file ∈ Command.filesFor extracted directory) : Utf8.IsPlain file.1 := by
  obtain ⟨i, e, he, hname, -⟩ := h.of_mem_filesFor hwell htarget hfile
  obtain ⟨options, halone⟩ := hread.readAlone_eq
  have hfaithful : format.IsFaithful :=
    Registry.isFaithful_of_id hread.mem_formats (hread.format_eq ▸ hformat)
  obtain ⟨name, hnamed, hzero⟩ :=
    hfaithful.named (Stream.isOver_ofBytes bytes) halone e (List.mem_of_getElem? he)
  rw [hname]
  exact Entry.isPlain_tidyName hnamed hzero

/-! ### What repacking makes of it -/

/-- **An archive that is repacked with the files of its entries has the contents that it had.** An
entry that is tidy takes its content from its file, and the others keep theirs. -/
theorem IsRepacked.readEntry_eq (h : IsRepacked old new extracted repacked found)
    (hdistinct : (old.entries.map Entry.way).Nodup)
    (hfound : ∀ file ∈ found, ∃ (i : ℕ) (e : Entry), old.entries[i]? = some e ∧
      file.1 = e.tidyName ∧ (old.readEntry extracted i).1 = .ok file.2)
    {i : ℕ} (hi : i < old.size) :
    (new.readEntry repacked i).1 = (old.readEntry extracted i).1 := by
  by_cases htaken : ∃ file ∈ found, old.firstNamed? file.1 = some i
  · obtain ⟨⟨name, content⟩, hfile, hfirst⟩ := htaken
    obtain ⟨j, e, he, rfl, hread⟩ := hfound _ hfile
    rw [h.replaced i _ content hfile hfirst]
    rw [Archive.firstNamed?_tidyName hdistinct he] at hfirst
    split at hfirst
    · obtain rfl : j = i := Option.some.inj hfirst
      exact hread.symm
    · cases hfirst
  · obtain ⟨content, hold, hnew⟩ :=
      h.kept i hi fun file hfile hfirst => htaken ⟨file, hfile, hfirst⟩
    rw [hold, hnew]

theorem IsRepacked.size_eq (h : IsRepacked old new extracted repacked found) :
    new.size = old.size + (found.filter fun file => old.firstNamed? file.1 = none).length := by
  obtain ⟨added, hperm, -, hsize, -⟩ := h.added
  rw [hsize, hperm.length_eq]

end

/-- What is opened has no more entries than are allowed. -/
theorem Input.Opens.size_le {input : Input} {files : FileTree} {archive : Archive}
    (h : input.Opens files archive) : archive.size ≤ ({} : Options).maxEntries := by
  cases hgiven : input.format with
  | none =>
    obtain ⟨bytes, y, -, hopen⟩ := (Input.opens_iff_of_none hgiven).mp h
    obtain ⟨format, hmem, -, halone⟩ := (Registry.firstSuccess_of_openStream hopen).1.exists_mem
    obtain ⟨z, hread⟩ := Format.readAlone_eq_ok.mp halone
    exact (Format.isSound_of_readDirectory (Registry.mem_ranking.mp hmem).1 hread).2.1
  | some id =>
    obtain ⟨bytes, y, -, hopen⟩ := (Input.opens_iff_of_some hgiven).mp h
    obtain ⟨format, hfind, -, hread, -⟩ := Registry.openAs_eq_ok.mp hopen
    exact (Format.isSound_of_readDirectory (List.mem_of_find?_eq_some hfind) hread).2.1

namespace Command

open FileTree

/-- **Extracting an archive and repacking it with the folder** gives the archive back: its entries
in their order, under their names and with their contents, which are what their files hold. Nothing
is added if all names are tidy. Otherwise, unless the path of the folder is empty, so that repacking
finds nothing, there is one entry more for each name that is not. The two may be done on different
systems. -/
theorem run_repack_extracted (host other : Host) (input : Input) (directory output : String)
    (overwrite : Bool) (files : FileTree) (old : Archive) (extracted repacked : Desk)
    (hfiles : files.IsWellFormed)
    (hfresh : ∀ way, files.file? (files.destination directory ++ way) = none)
    (hextract : (Command.extract input directory false).run host files = (.ok (), extracted))
    (hopens : input.Opens files old) (hformat : old.format = "xarc" ∨ old.format = "tre")
    (hrepack : (Command.repack input directory output overwrite).run other extracted.files
      = (.ok (), repacked))
    (hroom : old.untidyCount = 0 ∨ old.size + old.untidyCount ≤ ({} : Options).maxEntries) :
    ∃ new, Input.Opens { file := output } repacked.files new ∧ new.format = old.format ∧
      (∀ (i : ℕ) (e : Entry), old.entries[i]? = some e →
        (new.entries[i]?).map Entry.name = some e.name ∧ ∃ content,
          (old.readEntry files i).1 = .ok content ∧
          extracted.files.file? (files.destination directory ++ e.way) = some content ∧
          (new.readEntry repacked.files i).1 = .ok content) ∧
      (old.untidyCount = 0 → new.size = old.size) ∧
      (directory ≠ "" → new.size = old.size + old.untidyCount) := by
  have hextract := run_eq_ok.mp hextract
  obtain ⟨old', hopens', hin⟩ := isExtracted_of_extractEntries hextract hfresh
  obtain rfl := hopens.unique hopens'
  have hwell := isWellFormed_of_extractEntries hfiles hextract
  have htarget := (destination_congr hin.extends_before.current_eq directory).symm
  obtain ⟨bytes, format, hbytes, hold⟩ := hopens.exists_isReadFrom
  -- what repacking opens is the archive that was extracted
  have hagain : input.Opens extracted.files old :=
    hopens.of_read hformat ((hin.extends_before.read_eq hbytes).trans hbytes.symm)
  have hread {i : ℕ} {content : Bytes} (h : (old.readEntry files i).1 = .ok content) :
      (old.readEntry extracted.files i).1 = .ok content :=
    (hold.readEntry_eq_ok_iff hin.extends_before).mpr h
  have hplain : ∀ file ∈ filesFor extracted.files directory, Utf8.IsPlain file.1 :=
    fun _ hfile => hin.isPlain_of_mem_filesFor hwell htarget hold hformat hfile
  have hadded := hin.length_filter_le hwell htarget
  obtain ⟨new, hnew, h⟩ := exists_isRepacked_of_repackArchive (run_eq_ok.mp hrepack) hagain hformat
    (hin.nodup_filesFor hwell htarget) hplain (by
      have hsize := hopens.size_le
      omega)
  refine ⟨new, hnew, h.format_eq, fun i e he => ⟨h.name_eq i e he, ?_⟩, fun htidy => ?_,
    fun hne => ?_⟩
  · obtain ⟨content, hcontent, hfile⟩ := hin.holds i e he
    refine ⟨content, hcontent, hfile, ?_⟩
    rw [h.readEntry_eq hin.distinct ?_ (List.getElem?_eq_some_iff.mp he).1, hread hcontent]
    intro file hfile
    obtain ⟨j, e', he', hname, hcontent'⟩ := hin.of_mem_filesFor hwell htarget hfile
    exact ⟨j, e', he', hname, hread hcontent'⟩
  · rw [h.size_eq]
    omega
  · rw [h.size_eq]
    by_cases hentries : old.entries = []
    · have hnone : old.untidyCount = 0 := by
        rw [Archive.untidyCount, hentries]
        rfl
      omega
    · have hplace := place_of_extractEntries hopens hentries hne hextract
      rw [← htarget] at hplace
      rw [hin.length_filter_filesFor hwell hplace]

/-- An archive with one entry, of a name of three characters, and nothing else. -/
def single (name : String) : FileTree where
  nodes := [(["in.xarc"], .file 0 ([0x58, 0x41, 0x52, 0x43, 1, 0, 0, 0, 0x1C, 0, 0, 0, 2, 0, 0, 0,
    0, 0, 0, 0, 0, 0, 0, 0] ++ Utf8.encode name ++ [0, 0x68, 0x69]))]

/-- The archive as it is opened. -/
def singleArchive (name : String) : Archive where
  format := "xarc"
  stream :=
    { bytes := [0x58, 0x41, 0x52, 0x43, 1, 0, 0, 0, 0x1C, 0, 0, 0, 2, 0, 0, 0,
        0, 0, 0, 0, 0, 0, 0, 0] ++ Utf8.encode name ++ [0, 0x68, 0x69]
      position := 28 }
  entries := [
    { source := .file "in.xarc" 30, name := some name, offset := 28, stored := 2,
      properties := [("reserved", .int 0)] }]

/-- The input that it is opened from. -/
def singleInput : Input := { file := "in.xarc", format := some "xarc" }

theorem isWellFormed_single (name : String) : (single name).IsWellFormed :=
  ⟨List.pairwise_singleton _ _, by simp [single]⟩

theorem file?_single (name : String) (way : Place) :
    (single name).file? ((single name).destination "out" ++ way) = none := by
  have hout : (single name).destination "out" = ["out"] :=
    (destination_congr (t := .empty) rfl "out").trans (by decide +kernel)
  rw [hout]
  simp [file?, at?, single, List.lookup_cons]

/-- A folder of one file gives one file, wherever a walk through it begins. -/
theorem replacements_single (walk : Walk) {files : FileTree} {file : String × Bytes}
    (hfiles : filesFor files directory = [file]) : replacements walk files directory = [file] := by
  have hnodup : ((filesFor files directory).map Prod.fst).Nodup := by
    rw [hfiles]
    exact List.pairwise_singleton _ _
  have hperm := perm_replacements walk hnodup
  rw [hfiles] at hperm
  exact List.perm_singleton.mp hperm

/-- The archive is extracted and repacked, if it is known what the folder looks like then. -/
theorem exists_run_single (name fileName : String) (after : FileTree)
    (hopens : singleInput.Opens (single name) (singleArchive name))
    (hextract : ((Command.extract singleInput "out" false).run .plain (single name)).1 = .ok ())
    (hafter : ((Command.extract singleInput "out" false).run .plain (single name)).2.files = after)
    (hread : after.read "in.xarc" = (single name).read "in.xarc")
    (hfiles : filesFor after "out" = [(fileName, [0x68, 0x69])])
    (hnew : after.exists? "new.xarc" = false)
    (hsave : ∀ bytes, ∃ saved, Storage.reliable.save "new.xarc" bytes after = .ok () saved)
    (hencode : ((Registry.standard.encode (singleArchive name)
      (editedEntries (singleArchive name) [(fileName, [0x68, 0x69])])).1).isOk = true) :
    ∃ extracted repacked, extracted.files = after ∧
      (Command.extract singleInput "out" false).run .plain (single name) = (.ok (), extracted) ∧
      (Command.repack singleInput "out" "new.xarc" false).run .plain extracted.files
        = (.ok (), repacked) := by
  subst hafter
  rw [← replacements_single Host.plain.walk hfiles] at hencode
  obtain ⟨repacked, hrepack⟩ := exists_run_repack .plain hnew
    (hopens.of_read (.inl rfl) hread) hencode hsave
  exact ⟨_, repacked, rfl, Prod.ext hextract rfl, hrepack⟩

/-- What is in the folder if the name is tidy. -/
def tidied : FileTree where
  nodes := (single "b\\a").nodes ++
    [(["out"], .folder), (["out", "b"], .folder), (["out", "b", "a"], .file 1 [0x68, 0x69])]

/-- Extracted and repacked, an archive with a tidy name is an archive with that name. -/
theorem run_repack_extracted_tidy : ∃ extracted repacked new,
    (Command.extract singleInput "out" false).run .plain (single "b\\a") = (.ok (), extracted) ∧
    (Command.repack singleInput "out" "new.xarc" false).run .plain extracted.files
      = (.ok (), repacked) ∧
    Input.Opens { file := "new.xarc" } repacked.files new ∧ new.size = 1 ∧
      (new.entries[0]?).map Entry.name = some (some "b\\a") ∧
      (new.readEntry repacked.files 0).1 = .ok [0x68, 0x69] := by
  have hopens : singleInput.Opens (single "b\\a") (singleArchive "b\\a") :=
    Input.opens_of_parts (by decide +kernel)
  have htarget : (tidied.addFile [".tmp0000000"] []).targetPlace "new.xarc" = .ok ["new.xarc"] := by
    decide +kernel
  have hsave : ∀ bytes, ∃ saved, Storage.reliable.save "new.xarc" bytes tidied = .ok () saved :=
    Storage.exists_save (by decide +kernel) (by decide +kernel) (by decide +kernel)
      (by decide +kernel) htarget
  obtain ⟨extracted, repacked, -, hextract, hrepack⟩ := exists_run_single "b\\a" "b/a" tidied
    hopens (by decide +kernel) (by decide +kernel) (by decide +kernel) (by decide +kernel)
    (by decide +kernel) hsave (by decide +kernel)
  obtain ⟨new, hnew, -, hentries, hsize, -⟩ := run_repack_extracted .plain .plain singleInput "out"
    "new.xarc" false (single "b\\a") (singleArchive "b\\a") extracted repacked
    (isWellFormed_single _) (file?_single _) hextract hopens (.inl rfl) hrepack
    (.inl (by decide +kernel))
  obtain ⟨hname, content, hold, -, hcontent⟩ := hentries 0 _ rfl
  have hhi : ((singleArchive "b\\a").readEntry (single "b\\a") 0).1 = .ok [0x68, 0x69] := by
    decide +kernel
  rw [hhi, Except.ok.injEq] at hold
  subst hold
  exact ⟨extracted, repacked, new, hextract, hrepack, hnew, hsize (by decide +kernel), hname,
    hcontent⟩

/-- What is in the folder if the name starts with a dot that stands for the folder. -/
def dotted : FileTree where
  nodes := (single "./a").nodes ++ [(["out"], .folder), (["out", "a"], .file 1 [0x68, 0x69])]

/-- Extracted and repacked, an archive with one entry that is not tidy has two. -/
theorem run_repack_extracted_dotted : ∃ (old new : Archive) (extracted repacked : Desk),
    (single "./a").IsWellFormed ∧
    (∀ way, (single "./a").file? ((single "./a").destination "out" ++ way) = none) ∧
    (Command.extract singleInput "out" false).run .plain (single "./a") = (.ok (), extracted) ∧
    singleInput.Opens (single "./a") old ∧ old.format = "xarc" ∧
    (Command.repack singleInput "out" "new.xarc" false).run .plain extracted.files
      = (.ok (), repacked) ∧
    Input.Opens { file := "new.xarc" } repacked.files new ∧ old.size = 1 ∧ new.size = 2 := by
  have hopens : singleInput.Opens (single "./a") (singleArchive "./a") :=
    Input.opens_of_parts (by decide +kernel)
  have htarget : (dotted.addFile [".tmp0000000"] []).targetPlace "new.xarc" = .ok ["new.xarc"] := by
    decide +kernel
  have hsave : ∀ bytes, ∃ saved, Storage.reliable.save "new.xarc" bytes dotted = .ok () saved :=
    Storage.exists_save (by decide +kernel) (by decide +kernel) (by decide +kernel)
      (by decide +kernel) htarget
  have hread : dotted.read "in.xarc" = (single "./a").read "in.xarc" := by decide +kernel
  have hfiles : filesFor dotted "out" = [("a", [0x68, 0x69])] := by decide +kernel
  obtain ⟨extracted, repacked, hafter, hextract, hrepack⟩ := exists_run_single "./a" "a" dotted
    hopens (by decide +kernel) (by decide +kernel) hread hfiles (by decide +kernel) hsave
    (by decide +kernel)
  rw [← hafter] at hfiles
  obtain ⟨new, hnew, h⟩ := exists_isRepacked_of_repackArchive (run_eq_ok.mp hrepack)
    (hopens.of_read (.inl rfl) (by rw [hafter]; exact hread)) (.inl rfl) (by rw [hfiles]; decide)
    (by rw [hfiles]; decide) (by rw [hfiles]; decide +kernel)
  refine ⟨_, new, extracted, repacked, isWellFormed_single _, file?_single _, hextract, hopens, rfl,
    hrepack, hnew, rfl, ?_⟩
  rw [h.size_eq, hfiles]
  decide +kernel

end Command

end Packfile
