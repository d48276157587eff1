import Packfile.Proofs.FolderTrees

/-!
# Names with another extension

A type code stands for an extension, and a name is given that extension in the place of its own. A
name is a path, though, and the dot that starts the extension is looked for in the whole of it. What
is replaced belongs to the file as long as the file has an extension of its own.

## What decides it

`EntryName.HasExtension` says that a dot stands behind the first character of a name. A dot at the
very start does not count: such a name keeps all of itself and gets the extension behind it. The
test for that looks at the whole path as well, and there the start is the start of the topmost
folder. So a file goes wrong in two ways.

* It has no dot at all, and its folder has an extension. Then the extension of the folder is
  replaced, and the file goes with it.
* Its only dot is its first character. Then what stands behind this dot is replaced, where on its
  own the name would have been kept.

In all other cases the folder stays as it is, and the file is treated as if it stood alone.

## Main definitions

* `EntryName.HasExtension` — names with an extension to replace

## Main results

* `EntryName.stem_join_iff` — when the stem of a path is that of its file
* `EntryName.substituteExtension_join_iff` — when an extension is replaced in the file
-/

namespace Packfile.EntryName

variable {name folder file front extension : String} {code : ℕ} {table : List (ℕ × String)}

/-- A dot stands behind the first character. What follows the last one is the extension. -/
def HasExtension (name : String) : Prop := '.' ∈ name.toList.tail

instance (name : String) : Decidable (HasExtension name) :=
  inferInstanceAs (Decidable ('.' ∈ name.toList.tail))

/-! ### Stems -/

theorem stem_append (hfront : front ≠ "") (hextension : '.' ∉ extension.toList) :
    stem (front ++ "." ++ extension) = front := by
  have htext : (front ++ "." ++ extension).toList = front.toList ++ '.' :: extension.toList := by
    rw [String.toList_append, String.toList_append, List.append_assoc]
    rfl
  have hne : front.toList.isEmpty = false := by
    rw [List.isEmpty_eq_false_iff, ne_eq, String.toList_eq_nil_iff]
    exact hfront
  rw [stem, htext, Text.splitLast?_append _ hextension]
  dsimp only
  rw [hne, if_neg Bool.false_ne_true, String.ofList_toList]

/-- A name with a dot is cut at the last one. -/
theorem exists_eq_append (h : '.' ∈ name.toList) :
    ∃ front extension : String, name = front ++ "." ++ extension ∧ '.' ∉ extension.toList := by
  obtain ⟨back, front, hreverse, hback⟩ := List.eq_append_cons_of_mem (List.mem_reverse.mpr h)
  refine ⟨.ofList front.reverse, .ofList back.reverse, ?_, ?_⟩
  · rw [← String.toList_inj, ← List.reverse_reverse name.toList, hreverse]
    simp
  · rw [String.toList_ofList]
    exact mt List.mem_reverse.mp hback

/-- A name has an extension if it is cut behind its first character. -/
theorem hasExtension_append (hextension : '.' ∉ extension.toList) :
    HasExtension (front ++ "." ++ extension) ↔ front ≠ "" := by
  rw [HasExtension, String.toList_append, String.toList_append, List.append_assoc]
  cases hfront : front.toList with
  | nil =>
    rw [String.toList_eq_nil_iff.mp hfront]
    exact iff_of_false hextension fun h => h rfl
  | cons c rest =>
    have hne : front ≠ "" := by
      rintro rfl
      cases hfront
    refine iff_of_true ?_ hne
    show '.' ∈ rest ++ (".".toList ++ extension.toList)
    simp

theorem stem_of_not_hasExtension (h : ¬ HasExtension name) : stem name = name := by
  by_cases hdot : '.' ∈ name.toList
  · obtain ⟨front, extension, rfl, hextension⟩ := exists_eq_append hdot
    obtain rfl : front = "" := not_not.mp fun hne => h ((hasExtension_append hextension).mpr hne)
    have htext : ("" ++ "." ++ extension).toList = [] ++ '.' :: extension.toList := by simp
    rw [stem, htext, Text.splitLast?_append _ hextension]
    rfl
  · rw [stem, Text.splitLast?_of_not_mem hdot]

theorem stem_ne_empty (h : name ≠ "") : stem name ≠ "" := by
  by_cases hname : HasExtension name
  · obtain ⟨front, extension, rfl, hextension⟩ := exists_eq_append (List.mem_of_mem_tail hname)
    have hfront := (hasExtension_append hextension).mp hname
    rw [stem_append hfront hextension]
    exact hfront
  · rw [stem_of_not_hasExtension hname]
    exact h

theorem length_stem_le (name : String) : (stem name).length ≤ name.length := by
  by_cases hname : HasExtension name
  · obtain ⟨front, extension, rfl, hextension⟩ := exists_eq_append (List.mem_of_mem_tail hname)
    rw [stem_append ((hasExtension_append hextension).mp hname) hextension, String.length_append,
      String.length_append]
    omega
  · rw [stem_of_not_hasExtension hname]

/-! ### Stems of paths -/

theorem join_pair (hfolder : folder ≠ "") (hfile : file ≠ "") :
    join [folder, file] = folder ++ "\\" ++ file := by
  have hne : ∀ name : String, name ≠ "" → name.isEmpty = false :=
    fun name h => String.isEmpty_eq_false_iff.mpr h
  rw [join_eq_backslashed, backslashed, List.filter_cons_of_pos (by simp [hne folder hfolder]),
    List.filter_cons_of_pos (by simp [hne file hfile])]
  simp

theorem join_of_empty (file : String) : join ["", file] = file := join_singleton file

/-- A file with an extension is cut there, in whatever folder it is. -/
theorem stem_path_of_hasExtension (h : HasExtension file) (folder : String) :
    stem (folder ++ "\\" ++ file) = folder ++ "\\" ++ stem file := by
  obtain ⟨front, extension, rfl, hextension⟩ := exists_eq_append (List.mem_of_mem_tail h)
  have hpath : folder ++ "\\" ++ (front ++ "." ++ extension)
      = folder ++ "\\" ++ front ++ "." ++ extension := by
    simp only [String.append_assoc]
  rw [hpath, stem_append (by simp) hextension,
    stem_append ((hasExtension_append hextension).mp h) hextension]

/-- A file whose only dot is its first character is lost up to that dot. -/
theorem stem_path_of_dot (hdot : '.' ∈ file.toList) (h : ¬ HasExtension file) (folder : String) :
    stem (folder ++ "\\" ++ file) = folder ++ "\\" := by
  obtain ⟨front, extension, rfl, hextension⟩ := exists_eq_append hdot
  obtain rfl : front = "" := not_not.mp fun hne => h ((hasExtension_append hextension).mpr hne)
  have hpath : folder ++ "\\" ++ ("" ++ "." ++ extension) = folder ++ "\\" ++ "." ++ extension := by
    simp only [String.append_assoc, String.empty_append]
  rw [hpath, stem_append (by simp) hextension]

/-- A file without a dot is lost, with the extension of its folder. -/
theorem stem_path_of_folder (hdot : '.' ∉ file.toList) (h : HasExtension folder) :
    stem (folder ++ "\\" ++ file) = stem folder := by
  obtain ⟨front, extension, rfl, hextension⟩ := exists_eq_append (List.mem_of_mem_tail h)
  have hfront := (hasExtension_append hextension).mp h
  have hrest : '.' ∉ (extension ++ "\\" ++ file).toList := by
    simp only [String.toList_append, List.mem_append, not_or]
    exact ⟨⟨hextension, by decide⟩, hdot⟩
  have hpath : front ++ "." ++ extension ++ "\\" ++ file
      = front ++ "." ++ (extension ++ "\\" ++ file) := by
    simp only [String.append_assoc]
  rw [hpath, stem_append hfront hrest, stem_append hfront hextension]

/-- A path without any extension is its own stem. -/
theorem stem_path_of_not_hasExtension (hfolder : folder ≠ "") (hdot : '.' ∉ file.toList)
    (h : ¬ HasExtension folder) : stem (folder ++ "\\" ++ file) = folder ++ "\\" ++ file := by
  refine stem_of_not_hasExtension fun hpath => h ?_
  rw [HasExtension, String.toList_append, String.toList_append, List.append_assoc,
    List.tail_append_of_ne_nil (mt String.toList_eq_nil_iff.mp hfolder)] at hpath
  rcases List.mem_append.mp hpath with hin | hin
  · exact hin
  · rcases List.mem_append.mp hin with hsep | hin
    · exact absurd hsep (by decide)
    · exact absurd hin hdot

/-- **When the stem of a path is that of its file.** Either the file has an extension, or there is
none in the path and no dot in the file. -/
theorem stem_join_iff (hfolder : folder ≠ "") (hfile : file ≠ "") :
    stem (folder ++ "\\" ++ file) = folder ++ "\\" ++ stem file ↔
      HasExtension file ∨ '.' ∉ file.toList ∧ ¬ HasExtension folder := by
  by_cases hextension : HasExtension file
  · exact iff_of_true (stem_path_of_hasExtension hextension folder) (.inl hextension)
  have hself := stem_of_not_hasExtension hextension
  by_cases hdot : '.' ∈ file.toList
  · rw [stem_path_of_dot hdot hextension, hself]
    refine iff_of_false (fun heq => hfile ?_) (by simp [hextension, hdot])
    exact String.append_eq_left_iff.mp heq.symm
  · by_cases hhas : HasExtension folder
    · rw [stem_path_of_folder hdot hhas, hself]
      refine iff_of_false (fun heq => ?_) (by simp [hextension, hhas])
      have hlength := congrArg String.length heq
      have hle := length_stem_le folder
      simp only [String.length_append] at hlength
      have hone : "\\".length = 1 := rfl
      omega
    · rw [stem_path_of_not_hasExtension hfolder hdot hhas, hself]
      exact iff_of_true rfl (.inr ⟨hdot, hhas⟩)

/-! ### Extensions -/

theorem withExtension_append (front name extension : String) :
    withExtension (front ++ name) extension = front ++ withExtension name extension := by
  rw [withExtension, withExtension]
  split
  · rfl
  · simp only [String.append_assoc]

theorem withExtension_inj : withExtension front extension = withExtension name extension ↔
    front = name := by
  rw [withExtension, withExtension]
  split
  · exact Iff.rfl
  · rw [String.append_left_inj, String.append_left_inj]

theorem substituteExtension_of_none (h : table.lookup code = none) (name : String) :
    substituteExtension name code table = name := by
  rw [substituteExtension, h]

theorem substituteExtension_of_some (h : table.lookup code = some extension) (name : String) :
    substituteExtension name code table = withExtension (stem name) extension := by
  rw [substituteExtension, h]

/-- **When an extension is replaced in the file alone.** Nothing is replaced without an extension in
the table, and without a folder there is only the file. Otherwise the file has to have an extension,
or the path none and the file no dot. Where this fails, the extension of the folder is replaced and
takes the file along, or a file that starts with its only dot loses what stands behind it. -/
theorem substituteExtension_join_iff (folder : String) (hfile : file ≠ "") (code : ℕ)
    (table : List (ℕ × String)) :
    (substituteExtension (join [folder, file]) code table
        = join [folder, substituteExtension file code table] ↔
      table.lookup code = none ∨ folder = "" ∨ HasExtension file ∨
        '.' ∉ file.toList ∧ ¬ HasExtension folder) ∧
    ∀ extension, table.lookup code = some extension → folder ≠ "" →
      ('.' ∉ file.toList → HasExtension folder →
        substituteExtension (join [folder, file]) code table
          = withExtension (stem folder) extension) ∧
      ('.' ∈ file.toList → ¬ HasExtension file →
        substituteExtension (join [folder, file]) code table
          = withExtension (folder ++ "\\") extension) := by
  constructor
  · cases hlookup : table.lookup code with
    | none =>
      simp only [substituteExtension_of_none hlookup, true_or]
    | some extension =>
      by_cases hfolder : folder = ""
      · subst hfolder
        simp only [join_of_empty, true_or, or_true]
      have hresult : withExtension (stem file) extension ≠ "" := by
        rw [withExtension]
        split
        · exact stem_ne_empty hfile
        · simp
      rw [substituteExtension_of_some hlookup, substituteExtension_of_some hlookup,
        join_pair hfolder hfile, join_pair hfolder hresult, ← withExtension_append,
        withExtension_inj, stem_join_iff hfolder hfile]
      simp only [reduceCtorEq, hfolder, false_or]
  · intro extension hlookup hfolder
    rw [substituteExtension_of_some hlookup, join_pair hfolder hfile]
    refine ⟨fun hdot hhas => ?_, fun hdot hextension => ?_⟩
    · rw [stem_path_of_folder hdot hhas]
    · rw [stem_path_of_dot hdot hextension]

/-- The dot in the name of the topmost folder does no harm to a file with an extension. -/
theorem substituteExtension_join_iff_maps : "sky.bin" ≠ "" ∧
    substituteExtension (join ["v1.2\\maps", "sky.bin"]) 2 [(1, "wav"), (2, "dds")]
      = "v1.2\\maps\\sky.dds" := by
  have hfile : "sky.bin" ≠ "" := by decide
  obtain ⟨hiff, -⟩ :=
    substituteExtension_join_iff "v1.2\\maps" hfile 2 [(1, "wav"), (2, "dds")]
  refine ⟨hfile, ?_⟩
  rw [hiff.mpr (.inr (.inr (.inl (by decide))))]
  decide +kernel

/-- **A folder is lost with its file**: the file has no extension, and the name of the folder has a
dot. -/
theorem loses_file_dotted :
    substituteExtension (join ["a.b", "c"]) 1 [(1, "x")] = "a.x" ∧
      join ["a.b", substituteExtension "c" 1 [(1, "x")]] = "a.b\\c.x" ∧
      substituteExtension (join ["a.b", "c"]) 1 [(1, "x")]
        ≠ join ["a.b", substituteExtension "c" 1 [(1, "x")]] := by
  decide +kernel

/-- A file whose only dot is its first character is another one inside a folder. -/
example : substituteExtension ".c" 1 [(1, "x")] = ".c.x" ∧
    substituteExtension (join ["a", ".c"]) 1 [(1, "x")] = "a\\.x" := by
  decide +kernel

end Packfile.EntryName
