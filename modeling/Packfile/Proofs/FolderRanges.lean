import Packfile.Proofs.FolderTrees

/-!
# Folders that claim runs of a file table

The folders of such a list are applied in turn, and each puts its path in front of the names in its
run. When the runs do not meet, a file is renamed once at most, so what the whole list does to a
name can be said at once: the names of the folders from the top down to the one that claims the file
stand in front of it.

## Main definitions

* `FolderRange.claims` — whether a file is in the run of a folder
* `FolderRange.chain` — the folders on the way to a folder, from the top
* `FolderRange.way` — those on the way to a file
* `FolderRange.AreIn` — folders with parents before them and runs that lie in a table and do not
  meet
* `FolderRange.FitIn`, `FolderRange.AreApart` — the same in two parts, since folders whose runs meet
  are applied as well

## Main results

* `FolderRange.applyAll_of_areIn` — what such folders make of the names
* `FolderRange.of_applyAll` — folders that are applied have parents before them and runs in the
  table
* `FolderRange.applyAll_exact` — which folders are applied, and what then stands in front of a name
-/

namespace Packfile.FolderRange

variable {folders done rest : List FolderRange} {folder : FolderRange} {names marked : List String}
  {path : String} {index first stop : ℕ}

/-! ### What the names should be -/

/-- Whether the file at an index is in the run of a folder. -/
def claims (index : ℕ) (folder : FolderRange) : Bool :=
  decide (folder.first ≤ index ∧ index < folder.first + folder.count)

/-- The names of the folders on the way to the one at an index, from the top. -/
def chain (folders : List FolderRange) (index : ℕ) : List String :=
  match folders[index]? with
  | none => []
  | some folder =>
    match folder.parent with
    | none => [folder.name]
    | some parent =>
      if parent < index then chain folders parent ++ [folder.name] else [folder.name]
termination_by index

theorem chain_of_top (hfolder : folders[index]? = some folder) (hparent : folder.parent = none) :
    chain folders index = [folder.name] := by
  rw [chain, hfolder]
  simp only [hparent]

theorem chain_of_parent {parent : ℕ} (hfolder : folders[index]? = some folder)
    (hparent : folder.parent = some parent) (hlt : parent < index) :
    chain folders index = chain folders parent ++ [folder.name] := by
  rw [chain, hfolder]
  simp only [hparent, if_pos hlt]

/-- The names of the folders on the way to the file at an index, from the top, when only some of the
folders claim files. -/
def wayBy (folders claiming : List FolderRange) (index : ℕ) : List String :=
  match claiming.findIdx? (claims index) with
  | none => []
  | some place => chain folders place

/-- The names of the folders on the way to the file at an index, from the top. -/
def way (folders : List FolderRange) (index : ℕ) : List String := wayBy folders folders index

/-- Every folder comes behind its parent, and the runs lie in a table of `count` files and do not
meet. -/
structure AreIn (folders : List FolderRange) (count : ℕ) : Prop where
  parent_lt : ∀ (place : ℕ) (folder : FolderRange) (parent : ℕ), folders[place]? = some folder →
    folder.parent = some parent → parent < place
  stop_le : ∀ folder ∈ folders, folder.first + folder.count ≤ count
  disjoint : folders.Pairwise fun f g => ∀ index, claims index f = true → claims index g = false

/-! ### What one folder does -/

/-- Putting a path in front of the names in a run leaves the others alone. -/
theorem mark_of_le (hstart : first ≤ stop) (hstop : stop ≤ names.length) :
    mark path first stop names = .ok (names.mapIdx fun i name =>
      if first ≤ i ∧ i < stop then EntryName.join [path, name] else name) := by
  have hfront : (names.take first).length = first := by
    rw [List.length_take]
    omega
  have hrun : (((names.drop first).take (stop - first)).map
      fun name => EntryName.join [path, name]).length = stop - first := by
    rw [List.length_map, List.length_take, List.length_drop]
    omega
  rw [mark, Checked.slice_of_le hstart hstop]
  show Except.ok _ = Except.ok _
  congr 1
  apply List.ext_getElem?
  intro i
  rw [List.append_assoc, List.getElem?_mapIdx, List.getElem?_append, hfront, List.getElem?_append,
    hrun]
  by_cases hbefore : i < first
  · rw [if_pos hbefore, List.getElem?_take_of_lt hbefore]
    simp [Nat.not_le.mpr hbefore]
  · rw [if_neg hbefore]
    by_cases hinside : i < stop
    · rw [if_pos (by omega), List.getElem?_map, List.getElem?_take_of_lt (by omega),
        List.getElem?_drop, show first + (i - first) = i by omega]
      simp [Nat.not_lt.mp hbefore, hinside]
    · rw [if_neg (by omega), List.getElem?_drop,
        show stop + (i - first - (stop - first)) = i by omega]
      simp [hinside]

theorem length_of_mark (h : mark path first stop names = .ok marked) :
    marked.length = names.length := by
  rw [mark, Checked.slice] at h
  split_ifs at h with hrange
  · cases h
    simp only [List.length_append, List.length_map, List.length_take, List.length_drop]
    omega
  · cases h

/-- The path of a folder, once the paths of those before it are known. -/
theorem path_of_chain {paths : List String}
    (hparent : ∀ parent, folder.parent = some parent → parent < index)
    (hfolder : folders[index]? = some folder)
    (hpaths : ∀ place < index, paths[place]? = some (EntryName.join (chain folders place))) :
    folder.path paths index = .ok (EntryName.join (chain folders index)) := by
  rw [FolderRange.path]
  cases hcase : folder.parent with
  | none => rw [chain_of_top hfolder hcase, EntryName.join_singleton]
  | some parent =>
    have hlt := hparent parent hcase
    dsimp only
    rw [chain_of_parent hfolder hcase hlt, if_pos hlt,
      Checked.item_of_getElem? (hpaths parent hlt), ← EntryName.join_concat]
    rfl

/-! ### What all folders do -/

/-- The names when some folders are applied. -/
def named (folders done : List FolderRange) (names : List String) : List String :=
  names.mapIdx fun index name => EntryName.join (wayBy folders done index ++ [name])

/-- One more folder claims the files in its run, which none has claimed before. -/
theorem wayBy_concat (folders : List FolderRange)
    (hdisjoint : claims index folder = true → done.findIdx? (claims index) = none) :
    wayBy folders (done ++ [folder]) index
      = if claims index folder then chain folders done.length else wayBy folders done index := by
  rw [wayBy, List.findIdx?_append]
  cases hclaims : claims index folder with
  | true => simp [hdisjoint hclaims, hclaims]
  | false => simp [hclaims, wayBy]

/-- Applying one more folder to the names. -/
theorem mark_named (hdisjoint : ∀ f ∈ done, ∀ index, claims index f = true →
      claims index folder = false)
    (hstop : folder.first + folder.count ≤ names.length) :
    mark (EntryName.join (chain folders done.length)) folder.first (folder.first + folder.count)
      (named folders done names) = .ok (named folders (done ++ [folder]) names) := by
  rw [mark_of_le (Nat.le_add_right _ _) (by rwa [named, List.length_mapIdx]), named, named,
    List.mapIdx_mapIdx]
  congr 2
  funext i name
  have hfree : claims i folder = true → done.findIdx? (claims i) = none := by
    intro hclaims
    rw [List.findIdx?_eq_none_iff]
    intro f hf
    cases hcase : claims i f with
    | false => rfl
    | true =>
      rw [hdisjoint f hf i hcase] at hclaims
      cases hclaims
  rw [wayBy_concat folders hfree]
  by_cases hclaims : folder.first ≤ i ∧ i < folder.first + folder.count
  · have hbefore : wayBy folders done i = [] := by
      rw [wayBy, hfree (decide_eq_true hclaims)]
    rw [Function.comp_apply, if_pos hclaims, hbefore, List.nil_append, EntryName.join_singleton,
      claims, if_pos (decide_eq_true hclaims), ← EntryName.join_concat]
  · rw [Function.comp_apply, if_neg hclaims, claims, if_neg (by simpa using hclaims)]

theorem applyFrom_of_areIn {paths : List String} (h : AreIn folders names.length)
    (hmax : names.length ≤ Word.max) (hfolders : folders = done ++ rest)
    (hlength : paths.length = done.length)
    (hpaths : ∀ place < done.length, paths[place]? = some (EntryName.join (chain folders place))) :
    applyFrom paths rest (named folders done names) = (named folders folders names, none) := by
  induction rest generalizing done paths with
  | nil => rw [hfolders, List.append_nil, applyFrom]
  | cons folder rest ih =>
    have hget : folders[done.length]? = some folder := by
      rw [hfolders, List.getElem?_append_right (Nat.le_refl _), Nat.sub_self]
      rfl
    have hmem : folder ∈ folders := List.mem_of_getElem? hget
    have hpath : folder.path paths paths.length
        = .ok (EntryName.join (chain folders done.length)) := by
      rw [hlength]
      exact path_of_chain (fun parent => h.parent_lt _ _ parent hget) hget hpaths
    have hstop := h.stop_le folder hmem
    have hdisjoint : ∀ f ∈ done, ∀ index, claims index f = true → claims index folder = false := by
      have hpairwise := h.disjoint
      rw [hfolders, List.pairwise_append] at hpairwise
      exact fun f hf => hpairwise.2.2 f hf folder List.mem_cons_self
    have hsum : Word.satAdd folder.first folder.count = folder.first + folder.count :=
      Word.satAdd_of_le (Nat.le_trans hstop hmax)
    have hlengthNamed : (named folders done names).length = names.length := List.length_mapIdx
    rw [applyFrom, hpath]
    dsimp only
    rw [hsum, if_neg (by omega), mark_named hdisjoint hstop]
    have hnext : folders = done ++ [folder] ++ rest := by
      rw [List.append_assoc]
      exact hfolders
    refine ih hnext (by simp [hlength]) ?_
    intro place hplace
    rw [List.length_append, List.length_singleton] at hplace
    rcases Nat.lt_succ_iff_lt_or_eq.mp hplace with hlt | rfl
    · rw [List.getElem?_append_left (by omega)]
      exact hpaths place hlt
    · rw [List.getElem?_append_right (by omega), hlength, Nat.sub_self]
      rfl

theorem named_nil (folders : List FolderRange) (names : List String) :
    named folders [] names = names := by
  apply List.ext_getElem?
  intro i
  rw [named, List.getElem?_mapIdx]
  cases names[i]? with
  | none => rfl
  | some name => exact congrArg some (EntryName.join_singleton name)

/-- **What folders make of the names**: each is put behind the folders on the way to it. -/
theorem applyAll_of_areIn (h : AreIn folders names.length) (hmax : names.length ≤ Word.max) :
    applyAll folders names
      = (names.mapIdx fun index name => EntryName.backslashed (way folders index ++ [name]),
        none) := by
  have hnone : ∀ place < ([] : List FolderRange).length,
      ([] : List String)[place]? = some (EntryName.join (chain folders place)) :=
    fun place hplace => absurd hplace (Nat.not_lt_zero _)
  have hall := applyFrom_of_areIn h hmax (List.nil_append folders).symm rfl hnone
  rw [named_nil] at hall
  simp only [named, EntryName.join_eq_backslashed] at hall
  exact hall

/-! ### What is known of folders that were applied -/

/-- A folder that is applied has a path and a run in the table, and those behind it are applied. -/
theorem of_applyFrom_cons {paths : List String}
    (h : applyFrom paths (folder :: rest) names = (marked, none)) :
    ∃ path next, folder.path paths paths.length = .ok path ∧
      Word.satAdd folder.first folder.count ≤ names.length ∧ next.length = names.length ∧
      applyFrom (paths ++ [path]) rest next = (marked, none) := by
  rw [applyFrom] at h
  cases hpath : folder.path paths paths.length with
  | error e =>
    rw [hpath] at h
    cases h
  | ok path =>
    simp only [hpath] at h
    split_ifs at h with hstop
    · cases h
    · cases hmark : mark path folder.first (Word.satAdd folder.first folder.count) names with
      | error e =>
        rw [hmark] at h
        cases h
      | ok next =>
        simp only [hmark] at h
        exact ⟨path, next, rfl, Nat.not_lt.mp hstop, length_of_mark hmark, h⟩

/-- A folder with a path lies in one before it, or in none. -/
theorem parent_lt_of_path {paths : List String} {parent : ℕ}
    (h : folder.path paths index = .ok path) (hparent : folder.parent = some parent) :
    parent < index := by
  rw [FolderRange.path, hparent] at h
  dsimp only at h
  split_ifs at h with hlt
  exact hlt

theorem of_applyFrom {paths : List String} (h : applyFrom paths folders names = (marked, none)) :
    marked.length = names.length ∧ ∀ (place : ℕ) (folder : FolderRange),
      folders[place]? = some folder →
        (∀ parent, folder.parent = some parent → parent < paths.length + place) ∧
          Word.satAdd folder.first folder.count ≤ names.length := by
  induction folders generalizing paths names with
  | nil =>
    cases h
    exact ⟨rfl, fun place folder hget => by simp at hget⟩
  | cons folder folders ih =>
    obtain ⟨path, next, hpath, hstop, hlength, hrest⟩ := of_applyFrom_cons h
    obtain ⟨hmarked, hall⟩ := ih hrest
    refine ⟨hmarked.trans hlength, fun place f hget => ?_⟩
    cases place with
    | zero =>
      cases hget
      exact ⟨fun parent => parent_lt_of_path hpath, hstop⟩
    | succ place =>
      obtain ⟨hparent, hle⟩ := hall place f hget
      rw [List.length_append, List.length_singleton] at hparent
      refine ⟨fun parent hcase => ?_, by rwa [← hlength]⟩
      have := hparent parent hcase
      omega

/-- **Folders that are applied** come behind their parents, and their runs lie in the table. -/
theorem of_applyAll (h : applyAll folders names = (marked, none)) :
    marked.length = names.length ∧ ∀ (place : ℕ) (folder : FolderRange),
      folders[place]? = some folder →
        (∀ parent, folder.parent = some parent → parent < place) ∧
          Word.satAdd folder.first folder.count ≤ names.length := by
  obtain ⟨hlength, hall⟩ := of_applyFrom h
  refine ⟨hlength, fun place folder hget => ?_⟩
  obtain ⟨hparent, hle⟩ := hall place folder hget
  exact ⟨fun parent hcase => by simpa using hparent parent hcase, hle⟩

/-! ### Which folders are applied -/

/-- Every folder comes behind its parent, and its run lies in a table of `count` files. The runs may
meet. -/
def FitIn (folders : List FolderRange) (count : ℕ) : Prop :=
  ∀ (place : ℕ) (folder : FolderRange), folders[place]? = some folder →
    (∀ parent, folder.parent = some parent → parent < place) ∧ folder.first + folder.count ≤ count

/-- A folder whose parent comes before it has a path. -/
theorem exists_path {paths : List String}
    (h : ∀ parent, folder.parent = some parent → parent < paths.length) :
    ∃ path, folder.path paths paths.length = .ok path := by
  rw [FolderRange.path]
  cases hcase : folder.parent with
  | none => exact ⟨folder.name, rfl⟩
  | some parent =>
    have hlt := h parent hcase
    dsimp only
    rw [if_pos hlt, Checked.item_of_getElem? (List.getElem?_eq_getElem hlt)]
    exact ⟨_, rfl⟩

/-- Folders are applied one after the other as long as each has a parent before it and a run in the
table. The induction is on the folders; none of them changes how many names there are. -/
theorem exists_applyFrom {paths : List String}
    (h : ∀ (place : ℕ) (folder : FolderRange), folders[place]? = some folder →
      (∀ parent, folder.parent = some parent → parent < paths.length + place) ∧
        folder.first + folder.count ≤ names.length)
    (hmax : names.length ≤ Word.max) :
    ∃ marked, applyFrom paths folders names = (marked, none) := by
  induction folders generalizing paths names with
  | nil => exact ⟨names, rfl⟩
  | cons folder folders ih =>
    obtain ⟨hparent, hstop⟩ := h 0 folder rfl
    obtain ⟨path, hpath⟩ := exists_path hparent
    have hsum : Word.satAdd folder.first folder.count = folder.first + folder.count :=
      Word.satAdd_of_le (Nat.le_trans hstop hmax)
    rw [applyFrom, hpath]
    dsimp only
    rw [hsum, if_neg (Nat.not_lt.mpr hstop), mark_of_le (Nat.le_add_right _ _) hstop]
    refine ih (fun place f hget => ?_) (by rwa [List.length_mapIdx])
    obtain ⟨hbefore, hle⟩ := h (place + 1) f hget
    rw [List.length_append, List.length_singleton, List.length_mapIdx]
    exact ⟨fun parent hcase => by have := hbefore parent hcase; omega, hle⟩

/-- Folders are applied exactly if each comes behind its parent and claims files of the table. -/
theorem applyAll_eq_none_iff (hsize : names.length < Word.max) :
    (applyAll folders names).2 = none ↔ FitIn folders names.length := by
  constructor
  · intro h place folder hget
    obtain ⟨hparent, hle⟩ := (of_applyAll (Prod.ext rfl h)).2 place folder hget
    exact ⟨hparent, (Word.le_iff_satAdd_le hsize).mp hle⟩
  · intro h
    have hfirst : ∀ (place : ℕ) (folder : FolderRange), folders[place]? = some folder →
        (∀ parent, folder.parent = some parent → parent < ([] : List String).length + place) ∧
          folder.first + folder.count ≤ names.length := by
      simpa only [FitIn, List.length_nil, Nat.zero_add] using h
    obtain ⟨marked, hmarked⟩ := exists_applyFrom hfirst hsize.le
    rw [applyAll, hmarked]

/-! ### What stands in front of a name -/

/-- Folders whose runs do not meet. -/
def AreApart (folders : List FolderRange) : Prop :=
  folders.Pairwise fun f g => ∀ index, claims index f = true → claims index g = false

theorem FitIn.areIn {count : ℕ} (h : FitIn folders count) (hapart : AreApart folders) :
    AreIn folders count where
  parent_lt place folder parent hget hparent := (h place folder hget).1 parent hparent
  stop_le folder hmem := by
    obtain ⟨place, hget⟩ := List.getElem?_of_mem hmem
    exact (h place folder hget).2
  disjoint := hapart

/-- The folder that claims a file is the first that does, because no other claims it. -/
theorem findIdx?_claims {place : ℕ} (hapart : AreApart folders)
    (hfolder : folders[place]? = some folder) (hclaims : claims index folder = true) :
    folders.findIdx? (claims index) = some place := by
  obtain ⟨hplace, rfl⟩ := List.getElem?_eq_some_iff.mp hfolder
  refine List.findIdx?_eq_some_iff_getElem.mpr ⟨hplace, hclaims, fun earlier hlt => ?_⟩
  intro hearlier
  have := List.pairwise_iff_getElem.mp hapart earlier place (by omega) hplace hlt index hearlier
  rw [hclaims] at this
  cases this

/-- The way to a file in the run of a folder is the way to the folder. -/
theorem way_of_claims {place : ℕ} (hapart : AreApart folders)
    (hfolder : folders[place]? = some folder) (hclaims : claims index folder = true) :
    way folders index = chain folders place := by
  rw [way, wayBy, findIdx?_claims hapart hfolder hclaims]

/-- No way leads to a file that no folder claims. -/
theorem way_of_unclaimed (h : ∀ folder ∈ folders, claims index folder = false) :
    way folders index = [] := by
  rw [way, wayBy, List.findIdx?_eq_none_iff.mpr h]

/-- **Putting folders in front of names is exact.** The folders are applied if and only if each
comes behind its parent and its run, added up without a limit, ends within the table. If then the
runs do not meet, a name in the run of a folder stands behind the names of the folders from the top
down to that one, and a name in no run is what it was. A folder without a name adds nothing, and
neither does a file without one. A list of names is never as long as the largest word. -/
theorem applyAll_exact (folders : List FolderRange) {names : List String}
    (hsize : names.length < Word.max) :
    ((applyAll folders names).2 = none ↔ FitIn folders names.length) ∧
      ((applyAll folders names).2 = none → AreApart folders →
        (applyAll folders names).1.length = names.length ∧
          ∀ (index : ℕ) (old : String), names[index]? = some old →
            (∀ (place : ℕ) (folder : FolderRange), folders[place]? = some folder →
              claims index folder = true → (applyAll folders names).1[index]?
                = some (EntryName.backslashed (chain folders place ++ [old]))) ∧
            ((∀ folder ∈ folders, claims index folder = false) →
              (applyAll folders names).1[index]? = some old)) := by
  refine ⟨applyAll_eq_none_iff hsize, fun hok hapart => ?_⟩
  have hareIn := ((applyAll_eq_none_iff hsize).mp hok).areIn hapart
  rw [applyAll_of_areIn hareIn hsize.le]
  refine ⟨List.length_mapIdx, fun index old hold => ⟨?_, fun hfree => ?_⟩⟩
  · intro place folder hfolder hclaims
    rw [List.getElem?_mapIdx, hold, Option.map_some, way_of_claims hapart hfolder hclaims]
  · rw [List.getElem?_mapIdx, hold, Option.map_some, way_of_unclaimed hfree, List.nil_append,
      ← EntryName.join_eq_backslashed, EntryName.join_singleton]

/-- Three folders inside each other, the one in the middle without a name, each of which claims one
of four files. The folder in the middle leaves no mark on a name, and the last file lies in none. -/
theorem applyAll_exact_nested :
    let folders : List FolderRange :=
      [⟨"top", none, 2, 1⟩, ⟨"", some 0, 0, 1⟩, ⟨"deep", some 1, 1, 1⟩]
    let applied := applyAll folders ["a", "b", "c", "d"]
    applied.2 = none ∧ applied.1[0]? = some "top\\a" ∧ applied.1[1]? = some "top\\deep\\b" ∧
      applied.1[2]? = some "top\\c" ∧ applied.1[3]? = some "d" := by
  intro folders applied
  have htop : chain folders 0 = ["top"] := by
    rw [chain_of_top (show folders[0]? = some ⟨"top", none, 2, 1⟩ from rfl) rfl]
  have hmiddle : chain folders 1 = ["top", ""] := by
    rw [chain_of_parent (show folders[1]? = some ⟨"", some 0, 0, 1⟩ from rfl) rfl
      Nat.zero_lt_one, htop]
    rfl
  have hdeep : chain folders 2 = ["top", "", "deep"] := by
    rw [chain_of_parent (show folders[2]? = some ⟨"deep", some 1, 1, 1⟩ from rfl) rfl
      Nat.one_lt_two, hmiddle]
    rfl
  have hapart : AreApart folders := by
    simp only [AreApart, folders, claims]
    grind
  have hsize : ["a", "b", "c", "d"].length < Word.max := by decide
  have hok : applied.2 = none := rfl
  obtain ⟨-, hall⟩ := (applyAll_exact folders hsize).2 hok hapart
  refine ⟨hok, ?_, ?_, ?_, ?_⟩
  · rw [(hall 0 "a" rfl).1 1 _ rfl rfl, hmiddle]
    decide
  · rw [(hall 1 "b" rfl).1 2 _ rfl rfl, hdeep]
    decide
  · rw [(hall 2 "c" rfl).1 0 _ rfl rfl, htop]
    decide
  · exact (hall 3 "d" rfl).2 (by decide)

end Packfile.FolderRange
