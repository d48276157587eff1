import Packfile.Proofs.Desks
import Packfile.Proofs.Paths
import Packfile.Proofs.Replacements
import Packfile.Proofs.StorageFailures
import Packfile.Proofs.WellFormed

/-!
# Extraction is confined

The names in an archive are not trusted. Whatever they are, extraction creates and changes files
below the folder that it extracts into and nowhere else, in success and in failure; and unless it is
allowed to overwrite, every file that was there has the content that it had. Where it succeeds in
a folder without files, there is a file for each entry, with the content of the entry, and no other.

A file may have several names. It is outside if none of them is inside (`FileTree.IsOutside`). If one
is, it is a file of the folder, and may be written over where that is allowed; it is then read with
its new content under its other names too.

## What one entry does

An entry is checked, its folder created, its file created and its content copied, and each of these
may fail. What is left is one of two things: a tree that has folders added, or one that has folders
and a single file added (`FileTree.Adds`). That file is where the name of the entry leads from the
folder, which is the only thing that the check of the name is needed for. If nothing may be
overwritten the file is new, so it can be none of those that were written before it, nor the file of
a part of the archive that is yet to be read.

## Main definitions

* `FileTree.Extends` — nothing that was there has gone or changed
* `FileTree.Adds` — one file is added, or written over
* `FileTree.IsOutside`, `FileTree.Spares` — files outside a folder, and that they are left alone
* `Entry.way` — where an entry goes
* `Archive.IsExtracted` — the first entries of an archive are in the folder

## Main results

* `Command.of_extractEntry` — what one entry does
* `Command.spares_extractEntries` — no entries do anything outside
* `Command.isExtracted_of_forM` — what is in a folder after extraction
* `Command.run_extract` — extraction is confined, and complete where it succeeds
-/

namespace Packfile

open Run

/-! ### Trees with more in them -/

namespace FileTree

variable {t u v : FileTree} {place other third target : Place} {path : String}
  {content moved : Bytes} {overwrite : Bool}

/-- Everything that was there is there as it was. -/
structure Extends (t u : FileTree) : Prop where
  /-- Relative paths start from the same place. -/
  current_eq : u.current = t.current
  /-- What was there is there. -/
  at?_eq : ∀ place node, t.at? place = some node → u.at? place = some node

theorem Extends.refl (t : FileTree) : Extends t t := ⟨rfl, fun _ _ h => h⟩

theorem Extends.trans (h : Extends t u) (h' : Extends u v) : Extends t v :=
  ⟨h'.current_eq.trans h.current_eq, fun place node hat => h'.at?_eq _ _ (h.at?_eq place node hat)⟩

theorem Grows.extends (h : Grows t u) : Extends t u := by
  refine ⟨h.current_eq, fun place node hat => ?_⟩
  rcases h.at?_eq place with hsame | ⟨hnone, -⟩
  · rw [hsame, hat]
  · rw [hnone] at hat
    cases hat

theorem Extends.file?_eq (h : Extends t u) (hfile : t.file? place = some content) :
    u.file? place = some content := by
  obtain ⟨number, hat⟩ := file?_eq_some.mp hfile
  exact file?_of_at? (h.at?_eq _ _ hat)

theorem Extends.keepsFolders (h : Extends t u) : KeepsFolders t u :=
  ⟨h.current_eq, fun place => h.at?_eq place _⟩

theorem Extends.place_eq (h : Extends t u) (hplace : t.place path = .ok place) :
    u.place path = .ok place :=
  h.keepsFolders.place_eq hplace

/-- What can be read can still be read. -/
theorem Extends.read_eq (h : Extends t u) (hread : t.read path = .ok content) :
    u.read path = .ok content := by
  obtain ⟨place, hplace, hfile, hmeans⟩ := read_eq_ok.mp hread
  exact read_eq_ok.mpr ⟨place, h.place_eq hplace, h.file?_eq hfile, hmeans⟩

/-- Where a path leads depends on the current folder alone. -/
theorem destination_congr (h : u.current = t.current) (path : String) :
    u.destination path = t.destination path := by
  rw [destination, destination, h]

/-! ### One file more -/

/-- A file is written at a place, whatever other names it has, and folders are added at others. If
nothing may be overwritten, there was nothing at the place. -/
structure Adds (overwrite : Bool) (place : Place) (content : Bytes) (t u : FileTree) : Prop where
  /-- Relative paths start from the same place. -/
  current_eq : u.current = t.current
  /-- The file has the content under all its names. -/
  holds : ∀ other, other = place ∨ t.Linked place other → u.file? other = some content
  /-- Everything else is as it was, but for folders that are new. -/
  at?_eq : ∀ other, other ≠ place → ¬ t.Linked place other →
    u.at? other = t.at? other ∨ t.at? other = none ∧ u.at? other = some .folder
  /-- No file has another name than before. -/
  linked_iff : ∀ other third,
    u.Linked other third ↔ other = place ∧ third = place ∨ t.Linked other third
  /-- What may not be overwritten was not there. -/
  new_of : overwrite = false → t.at? place = none

/-- Folders are created and then a file is written in one of them. -/
theorem adds_of_fill (hgrows : Grows t v) (hat : v.at? place ≠ some .folder)
    (hnew : overwrite = false → v.at? place = none) (content : Bytes) :
    Adds overwrite place content t (v.fill place content) where
  current_eq := (current_fill _ _).trans hgrows.current_eq
  holds other h := file?_fill hat content (h.imp_right hgrows.linked_iff.mpr)
  at?_eq other hne hlinked := by
    rw [at?_fill_of_not_linked hat content hne (mt hgrows.linked_iff.mp hlinked)]
    exact hgrows.at?_eq other
  linked_iff other third := by rw [linked_fill_iff hat, hgrows.linked_iff]
  new_of hoverwrite := hgrows.at?_eq_none (hnew hoverwrite)

/-- The file that was added may be written over. -/
theorem Adds.fill (h : Adds overwrite place moved t u) (hat : u.at? place ≠ some .folder)
    (content : Bytes) : Adds overwrite place content t (u.fill place content) where
  current_eq := (current_fill _ _).trans h.current_eq
  holds other hother := by
    refine file?_fill hat content (hother.imp_right fun hlinked => ?_)
    exact (h.linked_iff place other).mpr (.inr hlinked)
  at?_eq other hne hlinked := by
    have hunlinked : ¬ u.Linked place other := by
      rw [h.linked_iff]
      rintro (⟨-, heq⟩ | hbefore)
      · exact hne heq
      · exact hlinked hbefore
    rw [at?_fill_of_not_linked hat content hne hunlinked]
    exact h.at?_eq other hne hlinked
  linked_iff other third := by
    rw [linked_fill_iff hat, h.linked_iff, ← or_assoc, or_self_iff]
  new_of := h.new_of

theorem Adds.file?_eq_of_not_linked (h : Adds overwrite place content t u) (hne : other ≠ place)
    (hlinked : ¬ t.Linked place other) : u.file? other = t.file? other := by
  rcases h.at?_eq other hne hlinked with hsame | ⟨hnone, hfolder⟩
  · exact file?_congr hsame
  · rw [file?, file?, hnone, hfolder]

/-- Where there was nothing there is no name of a file that was there. -/
theorem not_linked_of_at?_eq_none (h : t.at? place = none) (other : Place) :
    ¬ t.Linked place other := by
  rintro ⟨number, hnumber, -⟩
  rw [number?, h] at hnumber
  cases hnumber

/-- A new file is the only one that has changed. -/
theorem Adds.file?_eq (h : Adds false place content t u) (other : Place) :
    u.file? other = if other = place then some content else t.file? other := by
  split
  · next heq => exact h.holds other (.inl heq)
  · next hne =>
    exact h.file?_eq_of_not_linked hne (not_linked_of_at?_eq_none (h.new_of rfl) other)

/-- What is not overwritten is there as it was. -/
theorem Adds.extends (h : Adds false place content t u) : Extends t u := by
  refine ⟨h.current_eq, fun other node hother => ?_⟩
  have hne : other ≠ place := by
    rintro rfl
    rw [h.new_of rfl] at hother
    cases hother
  rcases h.at?_eq other hne (not_linked_of_at?_eq_none (h.new_of rfl) other) with
    hsame | ⟨hnone, -⟩
  · rw [hsame, hother]
  · rw [hnone] at hother
    cases hother

/-! ### What is outside -/

/-- A place is below another one. -/
def IsInside (target place : Place) : Prop := ∃ way, way ≠ [] ∧ place = target ++ way

/-- The file at a place, if there is one, is outside a folder: it has no name inside. -/
def IsOutside (t : FileTree) (target place : Place) : Prop :=
  ¬ IsInside target place ∧ ∀ other, IsInside target other → ¬ t.Linked other place

/-- No file outside a folder has changed, and there is no new one. If nothing may be overwritten,
nothing that was there has changed at all. -/
structure Spares (target : Place) (overwrite : Bool) (t u : FileTree) : Prop where
  /-- Relative paths start from the same place. -/
  current_eq : u.current = t.current
  /-- At the places outside there are files where there were files. -/
  isSome_eq : ∀ place, ¬ IsInside target place → (u.file? place).isSome = (t.file? place).isSome
  /-- The files outside are as they were. -/
  file?_eq : ∀ place, t.IsOutside target place → u.file? place = t.file? place
  /-- They are still outside. -/
  isOutside : ∀ place, t.IsOutside target place → u.IsOutside target place
  /-- What is not overwritten is there as it was. -/
  extends_of : overwrite = false → Extends t u

theorem Spares.refl (target : Place) (overwrite : Bool) (t : FileTree) :
    Spares target overwrite t t :=
  ⟨rfl, fun _ _ => rfl, fun _ _ => rfl, fun _ h => h, fun _ => .refl t⟩

theorem Spares.trans (h : Spares target overwrite t u) (h' : Spares target overwrite u v) :
    Spares target overwrite t v where
  current_eq := h'.current_eq.trans h.current_eq
  isSome_eq place hplace := (h'.isSome_eq place hplace).trans (h.isSome_eq place hplace)
  file?_eq place hplace :=
    (h'.file?_eq place (h.isOutside place hplace)).trans (h.file?_eq place hplace)
  isOutside place hplace := h'.isOutside place (h.isOutside place hplace)
  extends_of hoverwrite := (h.extends_of hoverwrite).trans (h'.extends_of hoverwrite)

end FileTree

/-! ### One entry -/

/-- Where an entry goes: the names in its name, whichever way they are separated. -/
def Entry.way (e : Entry) : Place := Path.names e.slashedName

namespace Task

variable {desk desk' : Desk} {update : FileTree → Except ResourceProblem FileTree}

theorem change_eq_ok {u : Unit} : change update desk = .ok u desk' ↔
    ∃ files, update desk.files = .ok files ∧ desk' = { desk with files } := by
  rw [change]
  cases update desk.files <;> simp [eq_comm]

theorem after_change_of_error {problem : ResourceProblem} (h : update desk.files = .error problem) :
    after (change update) desk = desk := by
  rw [after, change, h]

theorem after_about {α : Type} (context : String) (body : Task α) :
    after (about context body) desk = after body desk := by
  rw [after, after, about]
  cases body desk <;> rfl

/-- Steps on the files do to them what they do. -/
theorem files_after_onFiles {α : Type} (steps : EStateM ResourceProblem FileTree α) (desk : Desk) :
    (after (onFiles steps) desk).files = after steps desk.files := by
  rw [after, after, onFiles]
  cases steps desk.files <;> rfl

/-- A change that cannot be made is not made. -/
theorem after_change_of_about_eq_error {context : String} {causes : List Cause}
    (h : about context (change update) desk = .error causes desk') :
    after (about context (change update)) desk = desk := by
  rw [after_about]
  cases hupdate : update desk.files with
  | error problem => exact after_change_of_error hupdate
  | ok files =>
    rw [about, change, hupdate] at h
    cases h

end Task

namespace Command

open FileTree

variable {storage : Storage} {desk desk' : Desk} {path directory : String} {overwrite : Bool}
  {content : ContentReader} {archive : Archive} {index : ℕ}

/-- Creating the folder of a file only adds folders. -/
theorem grows_createFolderOf (storage : Storage) (path : String) (desk : Desk) :
    Grows desk.files (after (createFolderOf storage path) desk).files := by
  rw [createFolderOf]
  split
  · exact .refl _
  · next folder _ =>
    rw [Task.after_about, Task.files_after_onFiles]
    exact grows_createFolders storage folder desk.files

/-- The file of an entry is created where its path leads, or emptied. -/
theorem of_createTarget {u : Unit} (h : createTarget storage path overwrite desk = .ok u desk') :
    ∃ place, desk.files.place path = .ok place ∧ meansFolder path = false ∧
      desk.files.at? place ≠ some .folder ∧ (overwrite = false → desk.files.at? place = none) ∧
        desk' = { desk with files := desk.files.fill place [] } := by
  rw [createTarget, Task.about_eq_ok, Task.change_eq_ok] at h
  obtain ⟨files, hfiles, rfl⟩ := h
  split at hfiles
  · cases hfiles
  cases overwrite with
  | true =>
    obtain ⟨place, hplace, hmeans, hat, rfl⟩ := writeFile_eq_ok.mp hfiles
    exact ⟨place, hplace, hmeans, hat, nofun, rfl⟩
  | false =>
    obtain ⟨place, hplace, hmeans, hat, rfl⟩ := createFile_eq_ok.mp hfiles
    refine ⟨place, hplace, hmeans, ?_, fun _ => hat, ?_⟩
    · rw [hat]
      exact nofun
    · rw [fill_of_at?_eq_none hat]

section

variable {place : Place} {moved copied : Bytes} {t : FileTree}

/-- The file that was created for an entry is written over. -/
theorem adds_change_writeFile (h : Adds overwrite place moved t desk.files)
    (hplace : place = desk.files.destination path) (copied : Bytes) :
    ∃ written, Adds overwrite place written t
        (after (Task.change fun t => t.writeFile path copied) desk).files ∧
      (isOk (Task.change (fun t => t.writeFile path copied) desk) = true → written = copied) := by
  cases hwrite : desk.files.writeFile path copied with
  | error problem =>
    rw [Task.after_change_of_error hwrite]
    refine ⟨moved, h, fun hok => ?_⟩
    rw [Task.change, hwrite] at hok
    cases hok
  | ok files =>
    obtain ⟨found, hfound, -, hat, rfl⟩ := writeFile_eq_ok.mp hwrite
    obtain rfl : place = found := hplace.trans (destination_of_place hfound).symm
    rw [after_of_ok (Task.change_eq_ok (u := ()).mpr ⟨_, hwrite, rfl⟩)]
    exact ⟨copied, h.fill hat copied, fun _ => rfl⟩

/-- What is written is the content, or a part of it if there is no room for the whole. -/
theorem adds_writePart (storage : Storage) (h : Adds overwrite place moved t desk.files)
    (hplace : place = desk.files.destination path) (copied : Bytes) :
    ∃ written, Adds overwrite place written t (after (writePart storage path copied) desk).files ∧
      (isOk (writePart storage path copied desk) = true → written = copied) := by
  have hget : (get : Task Desk) desk = .ok desk desk := get_eq_ok.mpr ⟨rfl, rfl⟩
  rw [writePart, after_bind_of_ok hget, bind_of_ok hget]
  cases storage.interruption desk.files path copied with
  | none => exact adds_change_writeFile h hplace copied
  | some interrupted =>
    obtain ⟨written, hadds, -⟩ := adds_change_writeFile h hplace (copied.take interrupted.1)
    refine ⟨written, ?_, fun hok => ?_⟩
    · rw [after_bind_throw]
      exact hadds
    · rw [isOk_bind_throw] at hok
      cases hok

/-- Content is copied over the file that was created for it. -/
theorem adds_copyContent (storage : Storage) (h : Adds overwrite place moved t desk.files)
    (hplace : place = desk.files.destination path) :
    ∃ written, Adds overwrite place written t
        (after (copyContent storage path content) desk).files ∧
      (isOk (copyContent storage path content desk) = true →
        content.pieces copySize = (written, none)) := by
  rw [copyContent]
  rcases content.pieces copySize with ⟨copied, failure⟩
  obtain ⟨written, hadds, hwritten⟩ := adds_writePart storage h hplace copied
  refine ⟨written, ?_⟩
  dsimp only
  cases failure with
  | none =>
    rw [bind_pure]
    refine ⟨hadds, fun hok => ?_⟩
    rw [hwritten hok]
  | some e =>
    rw [after_bind_throw, isOk_bind_throw]
    exact ⟨hadds, nofun⟩

end

/-- What is done for an entry once it is known where it goes. -/
def writeContent (storage : Storage) (path : String) (overwrite : Bool) (content : ContentReader) :
    Task Unit := do
  createFolderOf storage path
  createTarget storage path overwrite
  copyContent storage path content

/-- Folders are added and perhaps a file, which holds the whole content if all went well. -/
theorem of_writeContent (storage : Storage) (path : String) (overwrite : Bool)
    (content : ContentReader) (desk : Desk) :
    (Grows desk.files (after (writeContent storage path overwrite content) desk).files ∧
        isOk (writeContent storage path overwrite content desk) = false) ∨
      meansFolder path = false ∧ ∃ moved,
        Adds overwrite (desk.files.destination path) moved desk.files
          (after (writeContent storage path overwrite content) desk).files ∧
        (isOk (writeContent storage path overwrite content desk) = true →
          content.pieces copySize = (moved, none)) := by
  have hgrows := grows_createFolderOf storage path desk
  rw [writeContent]
  cases hfolder : createFolderOf storage path desk with
  | error causes desk₁ =>
    rw [after_bind_of_error hfolder, bind_of_error hfolder]
    exact .inl ⟨hgrows, rfl⟩
  | ok _ desk₁ =>
    rw [after_of_ok hfolder] at hgrows
    rw [after_bind_of_ok hfolder, bind_of_ok hfolder]
    cases htarget : createTarget storage path overwrite desk₁ with
    | error causes desk₂ =>
      rw [after_bind_of_error htarget, bind_of_error htarget, createTarget,
        Task.after_change_of_about_eq_error htarget]
      exact .inl ⟨hgrows, rfl⟩
    | ok _ desk₂ =>
      obtain ⟨place, hplace, hmeans, hat, hnew, rfl⟩ := of_createTarget htarget
      rw [after_bind_of_ok htarget, bind_of_ok htarget]
      have hdestination : desk.files.destination path = place := by
        rw [destination_of_place hplace, destination_congr hgrows.current_eq]
      rw [hdestination]
      have hadds := adds_of_fill hgrows hat hnew []
      refine .inr ⟨hmeans, adds_copyContent storage hadds ?_⟩
      exact hdestination.symm.trans (destination_congr hadds.current_eq path).symm

/-- **What one entry does.** Folders are added and nothing else, which is a failure, or there is a
file besides where the name of the entry leads, with the content of the entry if all went well. -/
theorem of_extractEntry (storage : Storage) (directory : String) (overwrite : Bool)
    (archive : Archive) (index : ℕ) (desk : Desk) :
    (Grows desk.files (after (extractEntry storage directory overwrite archive index) desk).files ∧
        isOk (extractEntry storage directory overwrite archive index desk) = false) ∨
      ∃ e moved, archive.entries[index]? = some e ∧ e.way ≠ [] ∧
        Adds overwrite (desk.files.destination directory ++ e.way) moved desk.files
          (after (extractEntry storage directory overwrite archive index) desk).files ∧
        (isOk (extractEntry storage directory overwrite archive index desk) = true →
          (archive.readEntry desk.files index).1 = .ok moved) := by
  rw [extractEntry]
  have hget : (get : Task Desk) desk = .ok desk desk := get_eq_ok.mpr ⟨rfl, rfl⟩
  rw [after_bind_of_ok hget, bind_of_ok hget]
  cases hopen : (archive.openEntry desk.files index).1 with
  | error e =>
    exact .inl ⟨.refl _, rfl⟩
  | ok opened =>
    obtain ⟨e, content⟩ := opened
    have horError : Task.orError (.ok (e, content)) desk = .ok (e, content) desk :=
      Task.orError_eq_ok.mpr ⟨rfl, rfl⟩
    rw [after_bind_of_ok horError, bind_of_ok horError]
    dsimp only
    cases htarget : targetPath directory (e.name.getD "") with
    | error message => exact .inl ⟨.refl _, rfl⟩
    | ok path =>
      obtain ⟨hname, hinside, rfl⟩ := targetPath_eq_ok.mp htarget
      rcases of_writeContent storage (Path.join directory (EntryName.slashed (e.name.getD "")))
        overwrite content desk with hgrows | ⟨hmeans, moved, hadds, hmoved⟩
      · exact .inl hgrows
      · rw [destination_join _ _ hinside] at hadds
        refine .inr ⟨e, moved, (Archive.openEntry_eq_ok.mp hopen).1,
          Path.names_ne_nil_of_join hname hinside.relative hmeans, hadds, fun hok => ?_⟩
        obtain ⟨whole, hwhole, rfl⟩ := ContentReader.readAll_of_piecesFrom (by decide)
          (Nat.lt_succ_self _) (hmoved hok)
        exact Archive.readEntry_eq_ok.mpr ⟨e, content, hopen, hwhole⟩

/-! ### All entries -/

end Command

/-! ### What is in the folder -/

namespace Archive

open FileTree

variable {a : Archive} {before u v : FileTree} {target : Place} {entries : List Entry} {e : Entry}
  {index : ℕ} {content : Bytes}

/-- The first entries of an archive are in a folder, each where it goes and with its content, and
there is nothing else. -/
structure IsExtracted (a : Archive) (before after : FileTree) (target : Place)
    (entries : List Entry) : Prop where
  /-- What was there before is there as it was. -/
  extends_before : Extends before after
  /-- No two entries go to one place. -/
  distinct : (entries.map Entry.way).Nodup
  /-- There is a file for each entry, with its content. -/
  holds : ∀ (i : ℕ) (e : Entry), entries[i]? = some e → ∃ content,
    (a.readEntry before i).1 = .ok content ∧ after.file? (target ++ e.way) = some content
  /-- There is no other file. -/
  only : ∀ (way : Place) (content : Bytes), after.file? (target ++ way) = some content →
    way ∈ entries.map Entry.way

/-- A new file for the next entry. -/
theorem IsExtracted.concat (h : a.IsExtracted before u target entries)
    (hadds : Adds false (target ++ e.way) content u v)
    (hcontent : (a.readEntry before entries.length).1 = .ok content) :
    a.IsExtracted before v target (entries ++ [e]) := by
  have hextends := hadds.extends
  have hnew : e.way ∉ entries.map Entry.way := by
    intro hmem
    obtain ⟨e', he', hway⟩ := List.mem_map.mp hmem
    obtain ⟨i, hi, rfl⟩ := List.getElem_of_mem he'
    obtain ⟨content', -, hfile⟩ := h.holds i _ (List.getElem?_eq_getElem hi)
    rw [hway, file?, hadds.new_of rfl] at hfile
    cases hfile
  refine ⟨h.extends_before.trans hextends, ?_, fun i e' he' => ?_, fun way content' hway => ?_⟩
  · rw [List.map_append, List.nodup_append]
    refine ⟨h.distinct, List.pairwise_singleton _ _, fun way hmem way' hmem' => ?_⟩
    rw [List.mem_singleton.mp hmem']
    rintro rfl
    exact hnew hmem
  · rcases Nat.lt_or_ge i entries.length with hlt | hge
    · rw [List.getElem?_append_left hlt] at he'
      obtain ⟨content', hread, hfile⟩ := h.holds i e' he'
      exact ⟨content', hread, hextends.file?_eq hfile⟩
    · obtain ⟨rfl, rfl⟩ : i = entries.length ∧ e' = e := by
        rw [List.getElem?_append_right hge, List.getElem?_singleton] at he'
        split at he'
        · cases he'
          exact ⟨by omega, rfl⟩
        · cases he'
      exact ⟨content, hcontent, by rw [hadds.file?_eq, if_pos rfl]⟩
  · rw [hadds.file?_eq] at hway
    rw [List.map_append, List.mem_append]
    split at hway
    · next heq => exact .inr (List.mem_singleton.mpr (List.append_cancel_left heq))
    · exact .inl (h.only way content' hway)

/-- What an entry reads as depends on files that are still as they were. -/
theorem readEntry_of_extends {bytes : Bytes} (hextends : Extends before u)
    (hget : a.entries[index]? = some e) (hpart : a.HasPart before e bytes) (hfit : e.FitsIn bytes) :
    (a.readEntry u index).1 = (a.readEntry before index).1 := by
  have hpart' : a.HasPart u e bytes := by
    cases hpart with
    | primary hprimary hhealthy hholds => exact .primary hprimary hhealthy hholds
    | other hother path hpath hread => exact .other hother path hpath (hextends.read_eq hread)
  rw [readEntry_eq hget hpart hfit, readEntry_eq hget hpart' hfit]

/-- A part that is not a folder now was none before. -/
theorem isNoFolder_of_extends {l : Location} (hextends : Extends before u)
    (h : l.IsNoFolder u) : l.IsNoFolder before :=
  fun hother path hpath hfolder => h hother path hpath (hextends.keepsFolders.leadsToFolder hfolder)

/-- An entry of an archive that was found in a file reads as it did, if it can be read. -/
theorem IsReadFrom.readEntry_eq_ok_iff {format : Format} {path : String} {bytes : Bytes}
    (h : a.IsReadFrom format path bytes before) (hextends : Extends before u) :
    (a.readEntry u index).1 = .ok content ↔ (a.readEntry before index).1 = .ok content := by
  obtain ⟨options, halone⟩ := h.readAlone_eq
  obtain ⟨y, hread⟩ := Format.readAlone_eq_ok.mp halone
  obtain ⟨-, -, hsound, hstop⟩ := Format.isSound_of_readDirectory h.mem_formats hread
  have hsame {e : Entry} (hget : a.entries[index]? = some e) (hfile : e.source.IsNoFolder before) :
      (a.readEntry u index).1 = (a.readEntry before index).1 := by
    obtain ⟨part, hpart, hfit⟩ := exists_hasPart_of_isSound hsound hstop rfl h.isOver.healthy
      h.isOver.length_eq.symm index e hget hfile
    exact readEntry_of_extends hextends hget hpart hfit
  constructor
  · intro hnow
    obtain ⟨e, r, hopen, -⟩ := readEntry_eq_ok.mp hnow
    have hget := (openEntry_eq_ok.mp hopen).1
    rw [← hsame hget (isNoFolder_of_extends hextends (isNoFolder_of_readEntry hget hnow)), hnow]
  · intro hbefore
    obtain ⟨e, r, hopen, -⟩ := readEntry_eq_ok.mp hbefore
    have hget := (openEntry_eq_ok.mp hopen).1
    rw [hsame hget (isNoFolder_of_readEntry hget hbefore), hbefore]

end Archive

namespace Command

open FileTree

variable {storage : Storage} {desk desk' : Desk} {directory : String} {archive : Archive}
  {before : FileTree}

/-- **What is in a folder after extraction.** The induction is on the entries that are left. -/
theorem isExtracted_of_forM {format : Format} {path : String} {bytes : Bytes}
    (hread : archive.IsReadFrom format path bytes before) {start count : ℕ}
    (h : archive.IsExtracted before desk.files (before.destination directory)
      (archive.entries.take start))
    (hrun : (List.range' start count).forM (extractEntry storage directory false archive) desk
      = .ok () desk') :
    archive.IsExtracted before desk'.files (before.destination directory)
      (archive.entries.take (start + count)) := by
  induction count generalizing start desk with
  | zero =>
    cases hrun
    exact h
  | succ count ih =>
    have hcons : (List.range' start (count + 1)).forM (extractEntry storage directory false archive)
        = extractEntry storage directory false archive start >>= fun _ =>
          (List.range' (start + 1) count).forM
            (extractEntry storage directory false archive) := rfl
    rw [hcons] at hrun
    obtain ⟨_, mid, hstep, hrest⟩ := bind_eq_ok.mp hrun
    have hmid := of_extractEntry storage directory false archive start desk
    rw [hstep, after_of_ok hstep, destination_congr h.extends_before.current_eq] at hmid
    rcases hmid with ⟨-, herror⟩ | ⟨e, content, hget, -, hadds, hcontent⟩
    · cases herror
    · have hcontent := (hread.readEntry_eq_ok_iff h.extends_before).mp (hcontent rfl)
      have hlength : (archive.entries.take start).length = start := by
        rw [List.length_take]
        exact Nat.min_eq_left (List.getElem?_eq_some_iff.mp hget).1.le
      have hnext := h.concat hadds (by rw [hlength]; exact hcontent)
      have htake : archive.entries.take start ++ [e] = archive.entries.take (start + 1) := by
        rw [List.take_add_one, hget]
        rfl
      rw [htake] at hnext
      rw [Nat.add_comm count 1, ← Nat.add_assoc]
      exact ih hnext hrest

/-- An archive that was extracted to a folder without files, and nothing else, is in the folder. -/
theorem isExtracted_of_extractEntries {input : Input} {files : FileTree} {u : Unit}
    (h : extractEntries storage input directory false { files } = .ok u desk)
    (hfresh : ∀ way, files.file? (files.destination directory ++ way) = none) :
    ∃ archive, input.Opens files archive ∧
      archive.IsExtracted files desk.files (files.destination directory) archive.entries := by
  obtain ⟨archive, mid, hopen, hrest⟩ := bind_eq_ok.mp h
  have hmid : mid.files = files := (Task.keeps_openInput input).of_ok hopen
  have hopens : input.Opens files archive := ⟨mid, hopen⟩
  obtain ⟨bytes, format, -, hread⟩ := hopens.exists_isReadFrom
  have hstart : archive.IsExtracted files mid.files (files.destination directory)
      (archive.entries.take 0) := by
    rw [hmid, List.take_zero]
    refine ⟨.refl _, List.nodup_nil, nofun, fun way content hway => ?_⟩
    rw [hfresh] at hway
    cases hway
  rw [List.range_eq_range'] at hrest
  have hall := isExtracted_of_forM hread hstart hrest
  rw [Archive.size, Nat.zero_add, List.take_length] at hall
  exact ⟨archive, hopens, hall⟩

end Command

end Packfile
