import Packfile.Proofs.ExtractedFolders

/-!
# Files that share a name

Repacking looks for the files of a folder by name, and the names that it compares have slashes
between the folders. A backslash in the name of a file becomes a slash as well, so that two files
can have the same name without being the same file: a file `a\b`, and a file `b` in a folder `a`. Of
such files the one that is found last is used, and the others are lost without a word. Which one is
found last is up to the system, and none of what follows depends on it.

Nothing else is lost. The files that are used have distinct names, an entry takes the file of its
name at most once, and what no entry takes is added behind. So the files come back from the edited
entries as they went in, in some order.

## What a file comes back from

`EditedEntry.file?` says which file an edited entry was made from, looking at nothing but the entry:
one that does not keep its content has that of a file, and the name of the entry is the name of the
file. Whether the entry was replaced or added makes no difference.

## Main definitions

* `Command.lastNamed` — of files that share a name the one that is found last
* `EditedEntry.file?` — the file that an edited entry was made from

## Main results

* `Command.perm_lastNamed` — the files that are used
* `Command.perm_files` — each of them makes one edited entry
* `Command.perm_files_iff` — no file is lost exactly when their names are distinct
-/

namespace Packfile

open Run

/-- The file that an edited entry was made from, if it was made from one. -/
def EditedEntry.file? (e : EditedEntry) : Option (String × Bytes) :=
  match e.content with
  | .kept => none
  | .replaced content => some (e.entry.slashedName, content)

namespace Command

variable {files found : Replacements} {entries : List Entry} {archive : Archive} {walk : Walk}
  {tree : FileTree} {directory : String}

/-! ### The files that are used -/

/-- Of files that share a name the last one, in the order of the files. -/
def lastNamed : Replacements → Replacements
  | [] => []
  | file :: files =>
    if file.1 ∈ files.map Prod.fst then lastNamed files else file :: lastNamed files

theorem mem_names_lastNamed {name : String} :
    name ∈ (lastNamed files).map Prod.fst ↔ name ∈ files.map Prod.fst := by
  induction files with
  | nil => rfl
  | cons file files ih =>
    rw [lastNamed, List.map_cons, List.mem_cons]
    split
    · next hmem =>
      rw [ih]
      exact ⟨.inr, fun h => h.elim (fun heq => heq ▸ hmem) id⟩
    · rw [List.map_cons, List.mem_cons, ih]

theorem nodup_lastNamed (files : Replacements) : ((lastNamed files).map Prod.fst).Nodup := by
  induction files with
  | nil => exact List.nodup_nil
  | cons file files ih =>
    rw [lastNamed]
    split
    · exact ih
    · next hmem =>
      rw [List.map_cons]
      exact List.nodup_cons.mpr ⟨fun h => hmem (mem_names_lastNamed.mp h), ih⟩

theorem sublist_lastNamed (files : Replacements) : (lastNamed files).Sublist files := by
  induction files with
  | nil => exact .slnil
  | cons file files ih =>
    rw [lastNamed]
    split
    · exact ih.cons _
    · exact ih.cons_cons _

/-- Files of distinct names are all used. -/
theorem lastNamed_eq_self (h : (files.map Prod.fst).Nodup) : lastNamed files = files := by
  induction files with
  | nil => rfl
  | cons file files ih =>
    rw [List.map_cons, List.nodup_cons] at h
    rw [lastNamed, if_neg h.1, ih h.2]

/-- Each file takes the place of those of its name. What comes out are the last ones. -/
theorem foldl_put_eq (done found : Replacements) :
    found.foldl (fun (done : Replacements) (file : String × Bytes) =>
      done.filter (fun other => other.1 != file.1) ++ [file]) done
      = (done.filter fun other => other.1 ∉ found.map Prod.fst) ++ lastNamed found := by
  induction found generalizing done with
  | nil => simp [lastNamed]
  | cons file found ih =>
    rw [List.foldl_cons, ih, List.filter_append, List.filter_filter, lastNamed, List.append_assoc]
    congr 1
    · refine List.filter_congr fun other _ => ?_
      rw [List.map_cons, Bool.eq_iff_iff, Bool.and_eq_true, decide_eq_true_iff, decide_eq_true_iff,
        bne_iff_ne, List.mem_cons, not_or, and_comm]
    · by_cases hmem : file.1 ∈ found.map Prod.fst <;> simp [hmem]

/-- **The files that are used** are those of their names that are found last. -/
theorem perm_lastNamed (walk : Walk) (tree : FileTree) (directory : String) :
    (replacements walk tree directory).Perm (lastNamed (walkedFor walk tree directory)) := by
  rw [replacements, walkedFor]
  cases tree.place directory with
  | error problem => exact .refl _
  | ok place =>
    refine (List.mergeSort_perm _ _).trans ?_
    rw [foldl_put_eq, List.filter_nil, List.nil_append]

/-! ### The edited entries that they make -/

/-- A file is taken off from files of distinct names. -/
theorem perm_of_lookup {name : String} {content : Bytes} (hdistinct : (files.map Prod.fst).Nodup)
    (h : files.lookup name = some content) :
    files.Perm ((name, content) :: files.filter fun file => file.1 != name) := by
  induction files with
  | nil => cases h
  | cons file files ih =>
    obtain ⟨hnew, hrest⟩ := List.nodup_cons.mp hdistinct
    obtain ⟨other, found⟩ := file
    by_cases hname : other = name
    · subst hname
      rw [List.lookup_cons_self, Option.some.injEq] at h
      have hkept : files.filter (fun file => file.1 != other) = files := by
        rw [List.filter_eq_self]
        intro file hfile
        have hmem : file.1 ∈ files.map Prod.fst := List.mem_map_of_mem hfile
        exact bne_iff_ne.mpr fun heq => hnew (heq ▸ hmem)
      rw [List.filter_cons_of_neg (by simp), hkept, h]
    · rw [List.lookup_cons, beq_false_of_ne (Ne.symm hname)] at h
      rw [List.filter_cons_of_pos (by simpa using hname)]
      exact ((ih hrest h).cons _).trans (.swap _ _ _)

/-- What the entries do not take of the files is left, and nothing is taken twice. -/
theorem perm_replaceEntries (hdistinct : (files.map Prod.fst).Nodup) (entries : List Entry) :
    ((replaceEntries entries files).1.filterMap EditedEntry.file?
      ++ (replaceEntries entries files).2).Perm files := by
  induction entries generalizing files with
  | nil => exact .refl _
  | cons e rest ih =>
    cases hlookup : files.lookup e.slashedName with
    | none =>
      rw [replaceEntries_cons_of_none hlookup]
      exact ih hdistinct
    | some content =>
      rw [replaceEntries_cons_of_some hlookup]
      have hsub : ((files.filter fun file => file.1 != e.slashedName).map Prod.fst).Sublist
          (files.map Prod.fst) := List.filter_sublist.map _
      exact ((ih (hsub.nodup hdistinct)).cons _).trans (perm_of_lookup hdistinct hlookup).symm

/-- An entry that is added was made from its file. -/
theorem file?_addedEntry (separator : Char)
    (hseparator : separator = '/' ∨ separator = EntryName.separator) {name : String}
    (hname : EntryName.separator ∉ name.toList) (content : Bytes) :
    (addedEntry separator name content).file? = some (name, content) := by
  have hback : ∀ c ∈ name.toList,
      (if (if c = '/' then separator else c) = EntryName.separator then '/'
        else if c = '/' then separator else c) = c := by
    intro c hc
    have hne : c ≠ EntryName.separator := fun heq => hname (heq ▸ hc)
    by_cases hslash : c = '/'
    · rcases hseparator with rfl | rfl <;> simp [hslash]
    · simp [hslash, hne]
  have hslashed : EntryName.slashed (name.map fun c => if c = '/' then separator else c) = name := by
    rw [← String.toList_inj, EntryName.slashed, String.toList_map, String.toList_map, List.map_map]
    exact (List.map_congr_left hback).trans (List.map_id _)
  exact congrArg (fun found => some (found, content)) hslashed

theorem separatorOf_eq (archive : Archive) :
    separatorOf archive = '/' ∨ separatorOf archive = EntryName.separator := by
  rw [separatorOf]
  split
  · exact .inr rfl
  · exact .inl rfl

/-- **Each file that is used makes one edited entry**, and no edited entry is made from anything
else. -/
theorem perm_files (archive : Archive) (hdistinct : (files.map Prod.fst).Nodup)
    (hslashed : ∀ file ∈ files, EntryName.separator ∉ file.1.toList) :
    ((editedEntries archive files).filterMap EditedEntry.file?).Perm files := by
  have hadded : ∀ left : Replacements, (∀ file ∈ left, file ∈ files) →
      (left.map fun file => addedEntry (separatorOf archive) file.1 file.2).filterMap
        EditedEntry.file? = left := by
    intro left hleft
    rw [List.filterMap_map]
    refine (List.filterMap_congr fun file hfile => ?_).trans List.filterMap_some
    exact file?_addedEntry _ (separatorOf_eq archive) (hslashed file (hleft file hfile)) file.2
  rw [editedEntries_eq, List.filterMap_append,
    hadded _ fun file hfile => (List.mem_filter.mp hfile).1, ← left_replaceEntries]
  exact perm_replaceEntries hdistinct archive.entries

/-! ### When files share a name -/

theorem separator_not_mem_of_mem_filesFor {file : String × Bytes}
    (h : file ∈ filesFor tree directory) : EntryName.separator ∉ file.1.toList := by
  rw [filesFor] at h
  cases hplace : tree.place directory with
  | error problem =>
    rw [hplace] at h
    cases h
  | ok place =>
    rw [hplace] at h
    obtain ⟨below, -, rfl⟩ := List.mem_map.mp h
    exact fun hmem => (EntryName.mem_toList_slashed hmem).1 rfl

/-- Files whose names hold no backslash have distinct names. -/
theorem nodup_filesFor (hwell : tree.IsWellFormed) {place : Place}
    (hplace : tree.place directory = .ok place)
    (hnames : ∀ file ∈ tree.filesBelow place, ∀ name ∈ file.1,
      (name ≠ "" ∧ name ≠ "." ∧ '/' ∉ name.toList) ∧ EntryName.separator ∉ name.toList) :
    ((filesFor tree directory).map Prod.fst).Nodup := by
  have hway : ∀ file ∈ tree.filesBelow place,
      Path.names (EntryName.slashed ("/".intercalate file.1)) = file.1 := by
    intro file hfile
    have hplain : EntryName.separator ∉ ("/".intercalate file.1).toList := by
      intro hmem
      rcases Path.mem_toList_intercalate hmem with hslash | ⟨name, hname, hc⟩
      · exact absurd hslash (by decide)
      · exact (hnames file hfile name hname).2 hc
    rw [EntryName.slashed_of_not_mem hplain]
    exact Path.names_intercalate fun name hname => (hnames file hfile name hname).1
  have hbelow := FileTree.nodup_filesBelow hwell place
  rw [List.Nodup, List.pairwise_map] at hbelow
  rw [filesFor, hplace]
  dsimp only
  rw [List.Nodup, List.map_map, List.pairwise_map]
  refine hbelow.imp_of_mem fun {a b} ha hb hne heq => hne ?_
  rw [← hway a ha, ← hway b hb]
  exact congrArg Path.names heq

/-- **Which files repacking hands on**: of files that share a name the one that is found last, once
each, in whatever order they are found. So no file is lost exactly when their names are distinct,
and for that it is enough that no name in the folder holds a backslash. -/
theorem perm_files_iff (walk : Walk) (archive : Archive) (tree : FileTree) (directory : String) :
    ((editedEntries archive (replacements walk tree directory)).filterMap EditedEntry.file?).Perm
        (lastNamed (walkedFor walk tree directory)) ∧
      (((editedEntries archive (replacements walk tree directory)).filterMap EditedEntry.file?).Perm
          (filesFor tree directory) ↔ ((filesFor tree directory).map Prod.fst).Nodup) ∧
      (tree.IsWellFormed → ∀ place, tree.place directory = .ok place →
        (∀ file ∈ tree.filesBelow place, ∀ name ∈ file.1,
          (name ≠ "" ∧ name ≠ "." ∧ '/' ∉ name.toList) ∧ EntryName.separator ∉ name.toList) →
        ((editedEntries archive (replacements walk tree directory)).filterMap
          EditedEntry.file?).Perm (filesFor tree directory)) := by
  have hlast := perm_lastNamed walk tree directory
  have hwalked := perm_walkedFor walk tree directory
  have hdistinct : ((replacements walk tree directory).map Prod.fst).Nodup :=
    (hlast.map Prod.fst).nodup_iff.mpr (nodup_lastNamed _)
  have hslashed : ∀ file ∈ replacements walk tree directory,
      EntryName.separator ∉ file.1.toList := fun file hfile =>
    separator_not_mem_of_mem_filesFor
      (hwalked.mem_iff.mp ((sublist_lastNamed _).subset (hlast.mem_iff.mp hfile)))
  have hused := (perm_files archive hdistinct hslashed).trans hlast
  have hiff : ((editedEntries archive (replacements walk tree directory)).filterMap
      EditedEntry.file?).Perm (filesFor tree directory) ↔
        ((filesFor tree directory).map Prod.fst).Nodup := by
    constructor
    · intro hall
      exact ((hall.symm.trans hused).map Prod.fst).nodup_iff.mpr (nodup_lastNamed _)
    · intro hnames
      rw [lastNamed_eq_self ((hwalked.map Prod.fst).nodup_iff.mpr hnames)] at hused
      exact hused.trans hwalked
  exact ⟨hused, hiff, fun hwell place hplace hnames =>
    hiff.mpr (nodup_filesFor hwell hplace hnames)⟩

/-- Two files whose names hold no backslash are both handed on, one for an entry of its name. -/
theorem perm_files_iff_shelf : shelf.IsWellFormed ∧ shelf.place "d" = .ok ["d"] ∧
    ((filesFor shelf "d").map Prod.fst).Nodup ∧
      ((editedEntries shelved (replacements .ascending shelf "d")).filterMap
        EditedEntry.file?).Perm [("a", [0x3F]), ("c", [0x2A])] := by
  have hwell : shelf.IsWellFormed := ⟨by decide, by decide⟩
  have hnames : ∀ file ∈ shelf.filesBelow ["d"], ∀ name ∈ file.1,
      (name ≠ "" ∧ name ≠ "." ∧ '/' ∉ name.toList) ∧ EntryName.separator ∉ name.toList := by
    rw [filesBelow_shelf]
    decide
  obtain ⟨-, hiff, henough⟩ := perm_files_iff .ascending shelved shelf "d"
  have hall := henough hwell ["d"] place_shelf hnames
  have hdistinct := hiff.mp hall
  rw [filesFor_shelf] at hall
  exact ⟨hwell, place_shelf, hdistinct, hall⟩

/-- A folder with a file `b` in a folder `a`, and beside that a file `a\b`. -/
def crossed : FileTree where
  nodes := [
    (["d"], .folder),
    (["d", "a"], .folder),
    (["d", "a", "b"], .file 0 [0x68]),
    (["d", "a\\b"], .file 1 [0x68])]

/-- An archive without entries. -/
def bare : Archive where
  format := "xarc"
  stream := .ofBytes [0x58, 0x41, 0x52, 0x43, 0, 0, 0, 0]
  entries := []

theorem filesFor_crossed : filesFor crossed "d" = [("a/b", [0x68]), ("a/b", [0x68])] := by
  decide +kernel

/-- Whichever of the two files is found last, one is used. -/
theorem replacements_crossed (walk : Walk) :
    replacements walk crossed "d" = [("a/b", [0x68])] := by
  have hlast := perm_lastNamed walk crossed "d"
  have hwalked := perm_walkedFor walk crossed "d"
  rw [filesFor_crossed] at hwalked
  have hboth : walkedFor walk crossed "d" = [("a/b", [0x68]), ("a/b", [0x68])] :=
    List.perm_replicate (n := 2).mp hwalked
  rw [hboth] at hlast
  exact List.perm_singleton.mp hlast

/-- **A file is lost**: the folder has two files, and one edited entry is made. -/
theorem loses_file_crossed :
    crossed.read "d/a/b" = .ok [0x68] ∧ crossed.read "d/a\\b" = .ok [0x68] ∧
      (filesFor crossed "d").length = 2 ∧
      (editedEntries bare (replacements .ascending crossed "d")).filterMap EditedEntry.file?
        = [("a/b", [0x68])] ∧
      (editedEntries bare (replacements .ascending crossed "d")).length = 1 := by
  refine ⟨by decide +kernel, by decide +kernel, by rw [filesFor_crossed]; rfl, ?_, ?_⟩
  · rw [replacements_crossed]
    decide +kernel
  · rw [replacements_crossed]
    rfl

end Command

end Packfile
