import Mathlib.Data.List.Nodup
import Mathlib.Data.String.Basic
import Packfile.Command.Repacking
import Packfile.Proofs.FileChanges

/-!
# Pairing entries with files

Repacking goes through the entries of an archive and takes from the files of a folder, by name, what
is to become of each entry. A file is taken once, so of several entries of one name the first gets
it. What is left is added behind.

Names are compared with slashes between the folders, whatever the archive puts there.

## What decides an entry

An entry is replaced if there is a file of its name and no entry of that name before it. This does
not mention what has been taken already, and it is what the pairing comes to
(`Command.getElem?_replaceEntries`): by the time an entry is looked at, exactly the files of the
names before it are gone.

## Main definitions

* `Entry.slashedName` — the name that an entry is compared by
* `Command.filesFor`, `walkedFor` — the files of a folder by name, and in the order of a walk
* `Command.editOf` — what becomes of an entry behind entries of given names
* `Archive.firstNamed?` — the first entry of a name

## Main results

* `Command.getElem?_replaceEntries` — what becomes of an entry
* `Command.getElem?_editedEntries_of_first`, `getElem?_editedEntries_of_not_first`,
  `getElem?_editedEntries_added` — the edited entries
* `Command.perm_replacements`, `pairwise_replacements` — files of distinct names are all used
-/

namespace Packfile

/-- The name of an entry with slashes between its folders. -/
def Entry.slashedName (e : Entry) : String := EntryName.slashed (e.name.getD "")

namespace Command

variable {entries : List Entry} {files found : Replacements} {e : Entry} {i k : ℕ}
  {name : String} {content : Bytes}

/-! ### Entries and files -/

/-- What becomes of an entry behind entries of the given names. -/
def editOf (files : Replacements) (before : List String) (e : Entry) : EditedEntry :=
  if e.slashedName ∈ before then .keep e
  else match files.lookup e.slashedName with
    | some content => .replace e content
    | none => .keep e

theorem entry_editOf (files : Replacements) (before : List String) (e : Entry) :
    (editOf files before e).entry = e := by
  rw [editOf]
  split
  · rfl
  · split <;> rfl

theorem replaceEntries_cons_of_some (h : files.lookup e.slashedName = some content)
    (rest : List Entry) :
    replaceEntries (e :: rest) files
      = (.replace e content ::
          (replaceEntries rest (files.filter fun file => file.1 != e.slashedName)).1,
        (replaceEntries rest (files.filter fun file => file.1 != e.slashedName)).2) := by
  rw [Entry.slashedName] at h ⊢
  rw [replaceEntries]
  dsimp only
  rw [h]

theorem replaceEntries_cons_of_none (h : files.lookup e.slashedName = none) (rest : List Entry) :
    replaceEntries (e :: rest) files
      = (.keep e :: (replaceEntries rest files).1, (replaceEntries rest files).2) := by
  rw [Entry.slashedName] at h
  rw [replaceEntries]
  dsimp only
  rw [h]

theorem length_replaceEntries (entries : List Entry) (files : Replacements) :
    (replaceEntries entries files).1.length = entries.length := by
  induction entries generalizing files with
  | nil => rfl
  | cons e rest ih =>
    cases h : files.lookup e.slashedName with
    | none => rw [replaceEntries_cons_of_none h, List.length_cons, ih, List.length_cons]
    | some content => rw [replaceEntries_cons_of_some h, List.length_cons, ih, List.length_cons]

/-- Whether an entry comes behind one more name, of which there is no file, is of no consequence. -/
theorem editOf_cons_of_none (h : files.lookup name = none) (before : List String) (e : Entry) :
    editOf files (name :: before) e = editOf files before e := by
  rw [editOf, editOf]
  by_cases hname : e.slashedName = name
  · rw [if_pos (hname ▸ List.mem_cons_self), hname, h]
    split <;> rfl
  · simp only [List.mem_cons, hname, false_or]

/-- Behind one more name the files of that name are gone. -/
theorem editOf_cons (files : Replacements) (before : List String) (e : Entry) :
    editOf files (name :: before) e
      = editOf (files.filter fun file => file.1 != name) before e := by
  have hlookup : (files.filter fun file => file.1 != name).lookup e.slashedName
      = if e.slashedName != name then files.lookup e.slashedName else none :=
    lookup_filter (· != name) _ files
  rw [editOf, editOf, hlookup]
  by_cases hname : e.slashedName = name
  · subst hname
    rw [if_pos List.mem_cons_self, if_neg (by simp : ¬ (e.slashedName != e.slashedName) = true)]
    split <;> rfl
  · rw [if_pos (bne_iff_ne.mpr hname)]
    simp only [List.mem_cons, hname, false_or]

/-- **What becomes of an entry** depends on the files and on the names before it. -/
theorem getElem?_replaceEntries (files : Replacements) (h : entries[i]? = some e) :
    (replaceEntries entries files).1[i]?
      = some (editOf files ((entries.take i).map Entry.slashedName) e) := by
  induction entries generalizing files i with
  | nil => cases h
  | cons first rest ih =>
    cases i with
    | zero =>
      obtain rfl : first = e := Option.some.inj h
      rw [List.take_zero, List.map_nil, editOf, if_neg List.not_mem_nil]
      cases hlookup : files.lookup first.slashedName with
      | none => rw [replaceEntries_cons_of_none hlookup, List.getElem?_cons_zero]
      | some content => rw [replaceEntries_cons_of_some hlookup, List.getElem?_cons_zero]
    | succ i =>
      rw [List.getElem?_cons_succ] at h
      rw [List.take_succ_cons, List.map_cons]
      cases hlookup : files.lookup first.slashedName with
      | none =>
        rw [replaceEntries_cons_of_none hlookup, editOf_cons_of_none hlookup]
        exact ih files h
      | some content =>
        rw [replaceEntries_cons_of_some hlookup, editOf_cons]
        exact ih _ h

/-- What is left are the files of no entry's name. -/
theorem left_replaceEntries (entries : List Entry) (files : Replacements) :
    (replaceEntries entries files).2
      = files.filter fun file => file.1 ∉ entries.map Entry.slashedName := by
  induction entries generalizing files with
  | nil => simp [replaceEntries]
  | cons e rest ih =>
    cases hlookup : files.lookup e.slashedName with
    | none =>
      rw [replaceEntries_cons_of_none hlookup, ih]
      refine List.filter_congr fun file hfile => ?_
      have hne : file.1 ≠ e.slashedName := by
        intro heq
        have hdiffer := List.lookup_eq_none_iff.mp hlookup file hfile
        exact absurd heq.symm (bne_iff_ne.mp hdiffer)
      simp only [List.map_cons, List.mem_cons, hne, false_or]
    | some content =>
      rw [replaceEntries_cons_of_some hlookup, ih, List.filter_filter]
      refine List.filter_congr fun file _ => ?_
      by_cases hname : file.1 = e.slashedName <;> simp [hname]

/-! ### The files of a folder -/

/-- The files of a folder, each under the way that leads to it from there, with slashes. -/
def filesFor (tree : FileTree) (directory : String) : Replacements :=
  match tree.place directory with
  | .error _ => []
  | .ok place => (tree.filesBelow place).map fun (rest, content) =>
      (EntryName.slashed ("/".intercalate rest), content)

/-- The files of a folder in the order in which they are found. -/
def walkedFor (walk : Walk) (tree : FileTree) (directory : String) : Replacements :=
  match tree.place directory with
  | .error _ => []
  | .ok place => (walk.visit tree place).map fun (rest, content) =>
      (EntryName.slashed ("/".intercalate rest), content)

theorem perm_walkedFor (walk : Walk) (tree : FileTree) (directory : String) :
    (walkedFor walk tree directory).Perm (filesFor tree directory) := by
  rw [walkedFor, filesFor]
  cases tree.place directory with
  | error problem => exact .refl _
  | ok place => exact (walk.perm tree place).map _

/-- Files of distinct names are all kept. -/
theorem foldl_put_of_nodup (done : Replacements) (h : ((done ++ found).map Prod.fst).Nodup) :
    found.foldl (fun (done : Replacements) (file : String × Bytes) =>
      done.filter (fun other => other.1 != file.1) ++ [file]) done = done ++ found := by
  induction found generalizing done with
  | nil => simp
  | cons file found ih =>
    have hkept : done.filter (fun other => other.1 != file.1) = done := by
      rw [List.filter_eq_self]
      intro other hother
      rw [List.map_append, List.nodup_append] at h
      exact bne_iff_ne.mpr (h.2.2 _ (List.mem_map_of_mem hother) _ (by simp))
    rw [List.foldl_cons, hkept, ih]
    · simp
    · simpa using h

variable {walk : Walk} {tree : FileTree} {directory : String}

theorem replacements_eq (h : ((filesFor tree directory).map Prod.fst).Nodup) :
    replacements walk tree directory
      = (walkedFor walk tree directory).mergeSort fun a b => decide (a.1 ≤ b.1) := by
  have h : ((walkedFor walk tree directory).map Prod.fst).Nodup :=
    ((perm_walkedFor walk tree directory).map Prod.fst).nodup_iff.mpr h
  rw [replacements]
  rw [walkedFor] at h ⊢
  cases hplace : tree.place directory with
  | error problem => exact List.mergeSort_nil.symm
  | ok place =>
    rw [hplace] at h
    exact congrArg (List.mergeSort · _) (foldl_put_of_nodup [] h)

/-- The files of a folder, if their names are distinct, are all used. -/
theorem perm_replacements (walk : Walk) (h : ((filesFor tree directory).map Prod.fst).Nodup) :
    (replacements walk tree directory).Perm (filesFor tree directory) := by
  rw [replacements_eq h]
  exact (List.mergeSort_perm _ _).trans (perm_walkedFor walk tree directory)

/-- The files of a folder are used in the order of their names. -/
theorem pairwise_replacements (walk : Walk)
    (h : ((filesFor tree directory).map Prod.fst).Nodup) :
    (replacements walk tree directory).Pairwise fun a b => a.1 < b.1 := by
  have hsorted : (replacements walk tree directory).Pairwise fun a b => a.1 ≤ b.1 := by
    rw [replacements_eq h]
    refine (List.pairwise_mergeSort (fun a b c => ?_) (fun a b => ?_) _).imp of_decide_eq_true
    · simpa using String.le_trans
    · simpa using String.le_total a.1 b.1
  have hdistinct : (replacements walk tree directory).Pairwise fun a b => a.1 ≠ b.1 := by
    have hnodup := ((perm_replacements walk h).map Prod.fst).nodup_iff.mpr h
    rwa [List.Nodup, List.pairwise_map] at hnodup
  exact hsorted.imp₂ (fun a b hle hne => lt_of_le_of_ne hle hne) hdistinct

/-! ### The edited entries -/

variable {archive : Archive}

theorem editedEntries_eq (archive : Archive) (files : Replacements) :
    editedEntries archive files = (replaceEntries archive.entries files).1 ++
      (files.filter fun file => file.1 ∉ archive.entries.map Entry.slashedName).map
        fun file => addedEntry (separatorOf archive) file.1 file.2 := by
  rw [← left_replaceEntries]
  rfl

/-- The entries of the archive come first, in their order. -/
theorem getElem?_editedEntries_own (files : Replacements) (h : archive.entries[i]? = some e) :
    (editedEntries archive files)[i]?
      = some (editOf files ((archive.entries.take i).map Entry.slashedName) e) := by
  have hi : i < (replaceEntries archive.entries files).1.length := by
    rw [length_replaceEntries]
    exact (List.getElem?_eq_some_iff.mp h).1
  rw [editedEntries_eq, List.getElem?_append_left hi, getElem?_replaceEntries files h]

/-- The files of no entry's name come behind them, in their order. -/
theorem getElem?_editedEntries_added (archive : Archive) (files : Replacements) (k : ℕ) :
    (editedEntries archive files)[archive.size + k]?
      = (files.filter fun file => file.1 ∉ archive.entries.map Entry.slashedName)[k]?.map
        fun file => addedEntry (separatorOf archive) file.1 file.2 := by
  have hlength := length_replaceEntries archive.entries files
  rw [editedEntries_eq, List.getElem?_append_right (by rw [hlength]; exact Nat.le_add_right _ _),
    hlength, Archive.size, Nat.add_sub_cancel_left, List.getElem?_map]

theorem length_editedEntries (archive : Archive) (files : Replacements) :
    (editedEntries archive files).length = archive.size +
      (files.filter fun file => file.1 ∉ archive.entries.map Entry.slashedName).length := by
  rw [editedEntries_eq, List.length_append, length_replaceEntries, List.length_map, Archive.size]

/-- Every edited entry is one of the archive, or is made from a file. -/
theorem of_mem_editedEntries {edit : EditedEntry} (h : edit ∈ editedEntries archive files) :
    edit.entry ∈ archive.entries ∨
      ∃ file ∈ files, edit = addedEntry (separatorOf archive) file.1 file.2 := by
  rw [editedEntries_eq, List.mem_append] at h
  rcases h with hown | hadded
  · left
    obtain ⟨i, hi, hget⟩ := List.getElem_of_mem hown
    rw [length_replaceEntries] at hi
    have hsame := getElem?_replaceEntries files (List.getElem?_eq_getElem hi)
    rw [List.getElem?_eq_getElem (by rwa [length_replaceEntries]), hget, Option.some.injEq] at hsame
    rw [hsame, entry_editOf]
    exact List.getElem_mem hi
  · right
    obtain ⟨file, hfile, rfl⟩ := List.mem_map.mp hadded
    exact ⟨file, (List.mem_filter.mp hfile).1, rfl⟩

end Command

/-! ### First entries of a name -/

/-- The index of the first entry of a name, with slashes in both. -/
def Archive.firstNamed? (a : Archive) (name : String) : Option ℕ :=
  a.entries.findIdx? fun e => e.slashedName == name

section

variable {a : Archive} {files : Replacements} {e : Entry} {i : ℕ} {name : String} {content : Bytes}

theorem Archive.firstNamed?_eq_some : a.firstNamed? name = some i ↔
    ∃ e, a.entries[i]? = some e ∧ e.slashedName = name ∧
      name ∉ (a.entries.take i).map Entry.slashedName := by
  rw [firstNamed?, List.findIdx?_eq_some_iff_getElem]
  constructor
  · rintro ⟨hi, hname, hbefore⟩
    refine ⟨_, List.getElem?_eq_getElem hi, beq_iff_eq.mp hname, fun hmem => ?_⟩
    obtain ⟨e, he, hsame⟩ := List.mem_map.mp hmem
    obtain ⟨j, hj, rfl⟩ := List.mem_take_iff_getElem.mp he
    exact hbefore j (by omega) (beq_iff_eq.mpr hsame)
  · rintro ⟨e, he, rfl, hbefore⟩
    obtain ⟨hi, rfl⟩ := List.getElem?_eq_some_iff.mp he
    refine ⟨hi, beq_self_eq_true _, fun j hj hsame => hbefore ?_⟩
    have hmem : a.entries[j] ∈ a.entries.take i :=
      List.mem_take_iff_getElem.mpr ⟨j, by omega, rfl⟩
    exact List.mem_map.mpr ⟨_, hmem, beq_iff_eq.mp hsame⟩

theorem Archive.firstNamed?_eq_none : a.firstNamed? name = none ↔
    name ∉ a.entries.map Entry.slashedName := by
  rw [firstNamed?, List.findIdx?_eq_none_iff]
  simp

/-- The first entry of a file's name gets the content of the file. -/
theorem Command.getElem?_editedEntries_of_first (hdistinct : (files.map Prod.fst).Nodup)
    (hfirst : a.firstNamed? name = some i) (hfile : (name, content) ∈ files) :
    ∃ e, a.entries[i]? = some e ∧ (editedEntries a files)[i]? = some (.replace e content) := by
  obtain ⟨e, he, rfl, hbefore⟩ := Archive.firstNamed?_eq_some.mp hfirst
  refine ⟨e, he, ?_⟩
  rw [getElem?_editedEntries_own files he, editOf, if_neg hbefore,
    (lookup_eq_some_iff_of_nodup hdistinct).mpr hfile]

/-- An entry that is not the first one of a file's name is kept. -/
theorem Command.getElem?_editedEntries_of_not_first (hdistinct : (files.map Prod.fst).Nodup)
    (he : a.entries[i]? = some e) (hother : ∀ file ∈ files, a.firstNamed? file.1 ≠ some i) :
    (editedEntries a files)[i]? = some (.keep e) := by
  rw [getElem?_editedEntries_own files he, editOf]
  split
  · rfl
  · next hbefore =>
    split
    · next content hlookup =>
      have hfile := (lookup_eq_some_iff_of_nodup hdistinct).mp hlookup
      exact absurd (Archive.firstNamed?_eq_some.mpr ⟨e, he, rfl, hbefore⟩) (hother _ hfile)
    · rfl

end

end Packfile
