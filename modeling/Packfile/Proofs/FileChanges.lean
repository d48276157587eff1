import Packfile.Host
import Packfile.Proofs.Runs

/-!
# What a change to the files leaves alone

A file tree is read through what is at each place. Every change to it is described in these terms:
where it puts something, and that it leaves the rest as it was.

## Files with more than one name

Writing into a file changes what is read at every place that is a name of it (`FileTree.Linked`),
and at no other. A new file has a number of its own, and so one name.

## Growing

Creating folders only adds folders, and only where there was nothing. A tree that has grown in this
way has the files that it had. Where a path leads depends on the folders alone, so it leads to the
same place in every tree that has kept its folders.

## Main definitions

* `FileTree.file?` — the content of the file at a place
* `FileTree.Linked` — two places are names of one file
* `FileTree.Grows` — a tree and the same tree with more folders
* `FileTree.KeepsFolders` — a tree and one that has its folders

## Main results

* `FileTree.file?_fill`, `at?_fill_of_not_linked`, `linked_fill_iff` — writing into a file
* `FileTree.grows_createFolders` — creating folders leaves the files alone
* `FileTree.KeepsFolders.place_eq` — paths lead where they led
-/

namespace Packfile

/-- Looking for a key among the pairs whose keys pass a test. -/
theorem lookup_filter {α β : Type} [BEq α] [LawfulBEq α] (p : α → Bool) (key : α)
    (pairs : List (α × β)) :
    (pairs.filter fun pair => p pair.1).lookup key = if p key then pairs.lookup key else none := by
  induction pairs with
  | nil => simp
  | cons pair pairs ih =>
    obtain ⟨other, value⟩ := pair
    rw [List.filter_cons]
    by_cases hkey : key = other
    · subst hkey
      cases hp : p key <;> simp [hp, ih]
    · have hbeq : (key == other) = false := beq_false_of_ne hkey
      cases hp : p other <;> simp [ih, List.lookup_cons, hbeq]

/-- Looking for a key among pairs of which the values were changed. -/
theorem lookup_map_value {α β γ : Type} [BEq α] (f : β → γ) (key : α) (pairs : List (α × β)) :
    (pairs.map fun pair => (pair.1, f pair.2)).lookup key = (pairs.lookup key).map f := by
  induction pairs with
  | nil => rfl
  | cons pair pairs ih =>
    rw [List.map_cons, List.lookup_cons, List.lookup_cons, ih]
    cases key == pair.1 <;> rfl

/-- What is found under a key is one of the pairs. -/
theorem mem_of_lookup {α β : Type} [BEq α] [LawfulBEq α] {pairs : List (α × β)} {key : α}
    {value : β} (h : pairs.lookup key = some value) : (key, value) ∈ pairs := by
  obtain ⟨before, behind, rfl, -⟩ := List.lookup_eq_some_iff.mp h
  exact List.mem_append_right _ List.mem_cons_self

/-- Among pairs of distinct keys each is found by its key. -/
theorem lookup_eq_some_iff_of_nodup {α β : Type} [BEq α] [LawfulBEq α] {pairs : List (α × β)}
    {key : α} {value : β} (h : (pairs.map Prod.fst).Nodup) :
    pairs.lookup key = some value ↔ (key, value) ∈ pairs := by
  refine ⟨mem_of_lookup, fun hmem => ?_⟩
  obtain ⟨before, behind, rfl⟩ := List.append_of_mem hmem
  refine List.lookup_eq_some_iff.mpr ⟨before, behind, rfl, fun other hother => ?_⟩
  rw [List.map_append, List.nodup_append] at h
  exact bne_iff_ne.mpr
    (h.2.2 _ (List.mem_map_of_mem hother) _ (List.mem_map_of_mem List.mem_cons_self)).symm

namespace FileTree

open Run

variable {t u v : FileTree} {place other third start found source target : Place} {node : Node}
  {path : String} {number : ℕ} {content old : Bytes} {names : List String}

/-- The content of the file at a place, if there is a file. -/
def file? (t : FileTree) (place : Place) : Option Bytes :=
  match t.at? place with
  | some (.file _ content) => some content
  | _ => none

/-- The number of the file at a place, if there is a file. -/
def number? (t : FileTree) (place : Place) : Option ℕ :=
  match t.at? place with
  | some (.file number _) => some number
  | _ => none

/-- Two places are names of one file. -/
def Linked (t : FileTree) (place other : Place) : Prop :=
  ∃ number, t.number? place = some number ∧ t.number? other = some number

theorem file?_eq_some : t.file? place = some content ↔
    ∃ number, t.at? place = some (.file number content) := by
  rw [file?]
  split
  · next number found hat => simp [hat]
  · next hat => simpa using fun number => hat number content

theorem number?_eq_some : t.number? place = some number ↔
    ∃ content, t.at? place = some (.file number content) := by
  rw [number?]
  split
  · next found content hat => simp [hat]
  · next hat => simpa using hat number

theorem file?_congr (h : u.at? place = t.at? place) : u.file? place = t.file? place := by
  rw [file?, file?, h]

theorem number?_congr (h : u.at? place = t.at? place) : u.number? place = t.number? place := by
  rw [number?, number?, h]

theorem file?_of_at? (h : t.at? place = some (.file number content)) :
    t.file? place = some content :=
  file?_eq_some.mpr ⟨number, h⟩

theorem number?_of_at? (h : t.at? place = some (.file number content)) :
    t.number? place = some number :=
  number?_eq_some.mpr ⟨content, h⟩

theorem isSome_file?_iff : (t.file? place).isSome ↔ (t.number? place).isSome := by
  rw [file?, number?]
  split <;> rfl

theorem Linked.symm (h : t.Linked place other) : t.Linked other place := by
  obtain ⟨number, hplace, hother⟩ := h
  exact ⟨number, hother, hplace⟩

theorem linked_iff (h : t.number? place = some number) :
    t.Linked place other ↔ t.number? other = some number := by
  constructor
  · rintro ⟨number', hplace, hother⟩
    rw [h, Option.some.injEq] at hplace
    rw [hother, hplace]
  · exact fun hother => ⟨number, h, hother⟩

/-! ### Changing what is at a place -/

theorem ne_nil_of_at? (h : t.at? place ≠ some .folder) : place ≠ [] := by
  rintro rfl
  exact h rfl

/-- A place holds what was put there, and every other one holds what it held. -/
theorem at?_put (hplace : place ≠ []) (node : Node) :
    (t.put place node).at? other = if other = place then some node else t.at? other := by
  have hkept : (t.nodes.filter fun entry => entry.1 != place).lookup other
      = if other != place then t.nodes.lookup other else none :=
    lookup_filter (· != place) other t.nodes
  rw [at?, put, List.lookup_append, hkept]
  by_cases hother : other = place
  · subst hother
    simp [hplace]
  · have hlast : List.lookup other [(place, node)] = none := by
      simp [List.lookup_cons, beq_false_of_ne hother]
    rw [if_neg hother, if_pos (bne_iff_ne.mpr hother), hlast, Option.or_none, at?]

/-- A place that was cleared holds nothing, and every other one holds what it held. -/
theorem at?_remove (hplace : place ≠ []) :
    (t.remove place).at? other = if other = place then none else t.at? other := by
  have hkept : (t.nodes.filter fun entry => entry.1 != place).lookup other
      = if other != place then t.nodes.lookup other else none :=
    lookup_filter (· != place) other t.nodes
  rw [at?, remove, hkept]
  by_cases hother : other = place
  · subst hother
    simp [hplace]
  · rw [if_neg hother, if_pos (bne_iff_ne.mpr hother), at?]

theorem at?_rewrite : (t.rewrite number content).at? other
    = (t.at? other).map (Node.rewritten number content) := by
  rw [at?, at?, rewrite, lookup_map_value (Node.rewritten number content)]
  split <;> rfl

/-- What was moved is where it was moved to and no longer where it was. -/
theorem at?_move (hsource : t.at? source = some (.file number content))
    (htarget : t.at? target ≠ some .folder) (other : Place) : (t.move source target).at? other
      = if other = target then some (.file number content)
        else if other = source then none else t.at? other := by
  have hnil : source ≠ [] := ne_nil_of_at? (by rw [hsource]; simp)
  rw [move, hsource]
  dsimp only
  by_cases hsame : source = target
  · subst hsame
    rw [if_pos rfl]
    split
    · next hother => rw [hother, hsource]
    · rfl
  · rw [if_neg hsame, at?_put (ne_nil_of_at? htarget), at?_remove hnil]

/-- A file is one of the nodes. -/
theorem mem_nodes_of_at? (h : t.at? place = some (.file number content)) :
    (place, Node.file number content) ∈ t.nodes := by
  rw [at?] at h
  split at h
  · cases h
  · exact mem_of_lookup h

/-- The number of a new file is that of no other. -/
theorem lt_fresh (h : t.number? place = some number) : number < t.fresh := by
  obtain ⟨content, hat⟩ := number?_eq_some.mp h
  have hle : ∀ entry ∈ t.nodes, entry.2.beyond ≤ t.fresh := by
    rw [fresh]
    induction t.nodes with
    | nil => exact fun entry hentry => absurd hentry List.not_mem_nil
    | cons first nodes ih =>
      intro entry hentry
      rw [List.foldr_cons]
      rcases List.mem_cons.mp hentry with rfl | hentry
      · exact Nat.le_max_left _ _
      · exact Nat.le_trans (ih entry hentry) (Nat.le_max_right _ _)
  exact hle _ (mem_nodes_of_at? hat)

/-! ### Writing into a file -/

/-- What is at each place after a file was written. A file that was there keeps its number. -/
theorem at?_fill (hat : t.at? place ≠ some .folder) (content : Bytes) :
    (∃ number old, t.at? place = some (.file number old) ∧
      ∀ other, (t.fill place content).at? other
        = (t.at? other).map (Node.rewritten number content)) ∨
    t.at? place = none ∧ ∀ other, (t.fill place content).at? other
      = if other = place then some (.file t.fresh content) else t.at? other := by
  rw [fill]
  cases h : t.at? place with
  | none => exact .inr ⟨rfl, fun other => at?_put (ne_nil_of_at? hat) _⟩
  | some node =>
    cases node with
    | folder => exact absurd h hat
    | file number old => exact .inl ⟨number, old, rfl, fun other => at?_rewrite⟩

theorem fill_of_at?_eq_none (h : t.at? place = none) (content : Bytes) :
    t.fill place content = t.addFile place content := by
  rw [fill, h]

theorem current_fill (place : Place) (content : Bytes) :
    (t.fill place content).current = t.current := by
  rw [fill]
  split <;> rfl

/-- A file that was there keeps its number, and a new one gets a number of its own. -/
theorem number?_fill (hat : t.at? place ≠ some .folder) (content : Bytes) (other : Place) :
    (t.fill place content).number? other
      = if other = place ∧ t.at? place = none then some t.fresh else t.number? other := by
  obtain ⟨number, old, hplace, hfill⟩ | ⟨hplace, hfill⟩ := at?_fill hat content
  · rw [hplace, if_neg (by simp), number?, number?, hfill]
    cases t.at? other with
    | none => rfl
    | some node => cases node <;> rfl
  · simp only [hplace, and_true]
    rw [number?, hfill]
    by_cases hother : other = place
    · rw [if_pos hother, if_pos hother]
    · rw [if_neg hother, if_neg hother, number?]

/-- All names of a file that was written have its content. -/
theorem file?_fill (hat : t.at? place ≠ some .folder) (content : Bytes)
    (h : other = place ∨ t.Linked place other) :
    (t.fill place content).file? other = some content := by
  obtain ⟨number, old, hplace, hfill⟩ | ⟨hplace, hfill⟩ := at?_fill hat content
  · have hother : t.number? other = some number := by
      obtain rfl | hlinked := h
      · exact number?_of_at? hplace
      · exact (linked_iff (number?_of_at? hplace)).mp hlinked
    obtain ⟨content', hother⟩ := number?_eq_some.mp hother
    refine file?_eq_some.mpr ⟨number, ?_⟩
    rw [hfill, hother, Option.map_some, Node.rewritten, if_pos rfl]
  · obtain rfl | ⟨number, hnumber, -⟩ := h
    · exact file?_of_at? ((hfill other).trans (if_pos rfl))
    · rw [number?, hplace] at hnumber
      cases hnumber

/-- Other files are left alone. -/
theorem at?_fill_of_not_linked (hat : t.at? place ≠ some .folder) (content : Bytes)
    (hne : other ≠ place) (hlinked : ¬ t.Linked place other) :
    (t.fill place content).at? other = t.at? other := by
  obtain ⟨number, old, hplace, hfill⟩ | ⟨-, hfill⟩ := at?_fill hat content
  · rw [hfill]
    rw [linked_iff (number?_of_at? hplace)] at hlinked
    cases hother : t.at? other with
    | none => rfl
    | some node =>
      cases node with
      | folder => rfl
      | file number' content' =>
        have hnumber : number' ≠ number := by
          rintro rfl
          exact hlinked (number?_of_at? hother)
        rw [Option.map_some, Node.rewritten, if_neg hnumber]
  · rw [hfill, if_neg hne]

/-- No file gets another name, and none loses one. -/
theorem linked_fill_iff (hat : t.at? place ≠ some .folder) (content : Bytes) :
    (t.fill place content).Linked other third ↔
      other = place ∧ third = place ∨ t.Linked other third := by
  simp only [Linked, number?_fill hat]
  cases hplace : t.at? place with
  | some node =>
    -- there is a file, so that every number is as it was
    cases node with
    | folder => exact absurd hplace hat
    | file number old =>
      simp only [reduceCtorEq, and_false, if_false]
      refine ⟨.inr, ?_⟩
      rintro (⟨rfl, rfl⟩ | h)
      · exact ⟨number, number?_of_at? hplace, number?_of_at? hplace⟩
      · exact h
  | none =>
    have hnone : t.number? place = none := by rw [number?, hplace]
    have hnew {p : Place} : t.number? p ≠ some t.fresh := fun h => Nat.lt_irrefl _ (lt_fresh h)
    simp only [and_true]
    by_cases hother : other = place
    · by_cases hthird : third = place
      · simp [hother, hthird]
      · simp [hother, hthird, hnone, hnew]
    · by_cases hthird : third = place
      · simp [hother, hthird, hnone, hnew]
      · simp [hother, hthird]

/-! ### Growing -/

/-- The second tree is the first one with folders added where there was nothing. -/
structure Grows (t u : FileTree) : Prop where
  /-- Relative paths start from the same place. -/
  current_eq : u.current = t.current
  /-- What was there is there, and what is new is a folder. -/
  at?_eq : ∀ place, u.at? place = t.at? place ∨
    t.at? place = none ∧ u.at? place = some .folder

theorem Grows.refl (t : FileTree) : Grows t t := ⟨rfl, fun _ => .inl rfl⟩

theorem Grows.trans (h : Grows t u) (h' : Grows u v) : Grows t v := by
  refine ⟨h'.current_eq.trans h.current_eq, fun place => ?_⟩
  rcases h'.at?_eq place with hv | ⟨hu, hv⟩
  · rw [hv]
    exact h.at?_eq place
  · rcases h.at?_eq place with hsame | ⟨-, hfolder⟩
    · exact .inr ⟨hsame ▸ hu, hv⟩
    · rw [hu] at hfolder
      cases hfolder

/-- A tree that has grown has the same files. -/
theorem Grows.file?_eq (h : Grows t u) (place : Place) : u.file? place = t.file? place := by
  rw [file?, file?]
  rcases h.at?_eq place with hsame | ⟨hnone, hfolder⟩
  · rw [hsame]
  · rw [hnone, hfolder]

theorem Grows.number?_eq (h : Grows t u) (place : Place) : u.number? place = t.number? place := by
  rw [number?, number?]
  rcases h.at?_eq place with hsame | ⟨hnone, hfolder⟩
  · rw [hsame]
  · rw [hnone, hfolder]

/-- A tree that has grown has the same names for them. -/
theorem Grows.linked_iff (h : Grows t u) : u.Linked place other ↔ t.Linked place other := by
  rw [Linked, Linked, h.number?_eq, h.number?_eq]

/-- Where there is nothing, there was nothing. -/
theorem Grows.at?_eq_none (h : Grows t u) (hnone : u.at? place = none) : t.at? place = none := by
  rcases h.at?_eq place with hsame | ⟨hbefore, -⟩
  · rw [← hsame, hnone]
  · exact hbefore

theorem grows_put_folder (h : t.at? place = none) : Grows t (t.put place .folder) := by
  have hplace : place ≠ [] := ne_nil_of_at? (by rw [h]; exact nofun)
  refine ⟨rfl, fun other => ?_⟩
  rw [at?_put hplace]
  split
  · next hother => exact .inr ⟨hother ▸ h, rfl⟩
  · exact .inl rfl

theorem grows_of_createAlong {t : FileTree} {start : Place} {names : List String}
    (h : t.createAlong start names = .ok u) :
    Grows t u := by
  induction names generalizing t start with
  | nil =>
    cases h
    exact .refl _
  | cons name names ih =>
    rw [createAlong] at h
    split at h
    · next hnone => exact (grows_put_folder hnone).trans (ih h)
    · exact ih h
    · cases h

/-- Folders are created along some parts of a path, or nothing is done. -/
theorem after_createFolders (storage : Storage) (path : String) (t : FileTree) :
    after (storage.createFolders path) t = t ∨
      ∃ names, t.createAlong t.current names = .ok (after (storage.createFolders path) t) := by
  rw [after, Storage.createFolders]
  cases storage.folderRefusal t path with
  | none =>
    dsimp only
    cases hcreated : t.createFolders path with
    | ok u => exact .inr ⟨_, hcreated⟩
    | error problem => exact .inl rfl
  | some refusal =>
    dsimp only
    cases hcreated : t.createSome refusal.1 path with
    | ok u => exact .inr ⟨_, hcreated⟩
    | error problem => exact .inl rfl

/-- Creating folders leaves the files alone, in success and in failure. -/
theorem grows_createFolders (storage : Storage) (path : String) (t : FileTree) :
    Grows t (after (storage.createFolders path) t) := by
  rcases after_createFolders storage path t with hsame | ⟨names, hcreated⟩
  · rw [hsame]
    exact .refl _
  · exact grows_of_createAlong hcreated

/-! ### Where paths lead -/

/-- The second tree has the folders of the first. -/
structure KeepsFolders (t u : FileTree) : Prop where
  /-- Relative paths start from the same place. -/
  current_eq : u.current = t.current
  /-- Where there was a folder there is one. -/
  at?_eq : ∀ place, t.at? place = some .folder → u.at? place = some .folder

theorem KeepsFolders.enter_eq (h : KeepsFolders t u) (henter : t.enter start names = .ok found) :
    u.enter start names = .ok found := by
  induction names generalizing start with
  | nil => exact henter
  | cons name names ih =>
    rw [enter] at henter ⊢
    split at henter
    · cases henter
    · cases henter
    · next hfolder =>
      rw [h.at?_eq _ hfolder]
      exact ih henter

/-- A path leads one step beyond the folder that its front leads to. -/
theorem place_eq_ok : t.place path = .ok place ↔ ∃ front last folder,
    Path.components path = front ++ [last] ∧ t.enter t.current front = .ok folder ∧
      place = step folder last := by
  rw [FileTree.place]
  constructor
  · intro h
    split at h
    · cases h
    · next last front heq =>
      obtain ⟨folder, hfolder, hplace⟩ := except_bind_eq_ok.mp h
      refine ⟨front.reverse, last, folder, ?_, hfolder, except_pure_eq_ok.mp hplace⟩
      rw [← List.reverse_reverse (Path.components path), heq, List.reverse_cons]
  · rintro ⟨front, last, folder, hcomponents, hfolder, rfl⟩
    have hreverse : (Path.components path).reverse = last :: front.reverse := by
      rw [hcomponents, List.reverse_append]
      rfl
    rw [hreverse]
    refine except_bind_eq_ok.mpr ⟨folder, ?_, rfl⟩
    rw [List.reverse_reverse]
    exact hfolder

/-- A path still leads where it led. -/
theorem KeepsFolders.place_eq (h : KeepsFolders t u) (hplace : t.place path = .ok place) :
    u.place path = .ok place := by
  obtain ⟨front, last, folder, hcomponents, hfolder, rfl⟩ := place_eq_ok.mp hplace
  refine place_eq_ok.mpr ⟨front, last, folder, hcomponents, ?_, rfl⟩
  rw [h.current_eq]
  exact h.enter_eq hfolder

theorem keepsFolders_fill (hat : t.at? place ≠ some .folder) (content : Bytes) :
    KeepsFolders t (t.fill place content) := by
  refine ⟨current_fill _ _, fun other hother => ?_⟩
  obtain ⟨number, old, -, hfill⟩ | ⟨-, hfill⟩ := at?_fill hat content
  · rw [hfill, hother]
    rfl
  · have hne : other ≠ place := by
      rintro rfl
      exact hat hother
    rw [hfill, if_neg hne, hother]

theorem current_move (source target : Place) : (t.move source target).current = t.current := by
  rw [move]
  split
  · rfl
  · split <;> rfl

theorem keepsFolders_move (hsource : t.at? source = some (.file number content))
    (htarget : t.at? target ≠ some .folder) : KeepsFolders t (t.move source target) := by
  refine ⟨current_move _ _, fun other hother => ?_⟩
  have hne : other ≠ source := by
    rintro rfl
    rw [hsource] at hother
    cases hother
  have hne' : other ≠ target := by
    rintro rfl
    exact htarget hother
  rw [at?_move hsource htarget other, if_neg hne', if_neg hne, hother]

/-- A path that does not say that it means a folder is read where it leads to a file. -/
theorem read_eq_ok : t.read path = .ok content ↔
    ∃ place, t.place path = .ok place ∧ t.file? place = some content ∧
      meansFolder path = false := by
  rw [read, except_bind_eq_ok]
  refine exists_congr fun place => and_congr_right fun _ => ?_
  rw [file?]
  cases t.at? place with
  | none => simp [except_throw_eq_ok]
  | some node =>
    cases node with
    | folder => simp [except_throw_eq_ok]
    | file number found =>
      cases meansFolder path with
      | true => simp [except_throw_eq_ok]
      | false => simpa [except_pure_eq_ok] using eq_comm

/-- What is there has a length, which is that of its content if it is a file. -/
theorem length_eq_ok {length : ℕ} : t.length path = .ok length ↔ ∃ place, t.place path = .ok place ∧
    (t.at? place = some .folder ∧ length = t.folderLength ∨
      meansFolder path = false ∧ ∃ content, t.file? place = some content ∧
        length = content.length) := by
  rw [FileTree.length, except_bind_eq_ok]
  refine exists_congr fun place => and_congr_right fun _ => ?_
  rw [file?]
  cases t.at? place with
  | none => simp [except_throw_eq_ok]
  | some node =>
    cases node with
    | folder => simp [except_pure_eq_ok]
    | file number content =>
      cases meansFolder path with
      | true => simp [except_throw_eq_ok]
      | false => simp [except_pure_eq_ok]

theorem length_of_read (h : t.read path = .ok content) : t.length path = .ok content.length := by
  obtain ⟨place, hplace, hfile, hmeans⟩ := read_eq_ok.mp h
  exact length_eq_ok.mpr ⟨place, hplace, .inr ⟨hmeans, content, hfile, rfl⟩⟩

/-- A path leads to a folder. -/
def LeadsToFolder (t : FileTree) (path : String) : Prop :=
  ∃ place, t.place path = .ok place ∧ t.at? place = some .folder

/-- It still does, if the folders are kept. -/
theorem KeepsFolders.leadsToFolder (h : KeepsFolders t u) (hfolder : t.LeadsToFolder path) :
    u.LeadsToFolder path := by
  obtain ⟨place, hplace, hat⟩ := hfolder
  exact ⟨place, h.place_eq hplace, h.at?_eq place hat⟩

/-- A folder cannot be read. -/
theorem LeadsToFolder.read_eq (h : t.LeadsToFolder path) : t.read path = .error .isDirectory := by
  obtain ⟨place, hplace, hat⟩ := h
  rw [read, hplace]
  simp only [bind, Except.bind, hat]
  rfl

/-- What has a length and is not a folder can be read. -/
theorem read_of_length {length : ℕ} (h : t.length path = .ok length) :
    t.LeadsToFolder path ∨ ∃ content, t.read path = .ok content ∧ length = content.length := by
  obtain ⟨place, hplace, ⟨hfolder, -⟩ | ⟨hmeans, content, hfile, hlength⟩⟩ := length_eq_ok.mp h
  · exact .inl ⟨place, hplace, hfolder⟩
  · exact .inr ⟨content, read_eq_ok.mpr ⟨place, hplace, hfile, hmeans⟩, hlength⟩

/-- What has a length is there. -/
theorem exists?_of_length {length : ℕ} (h : t.length path = .ok length) :
    t.exists? path = true := by
  obtain ⟨place, hplace, hfound⟩ := length_eq_ok.mp h
  rw [exists?, hplace]
  dsimp only
  rcases hfound with ⟨hfolder, -⟩ | ⟨hmeans, content, hfile, -⟩
  · rw [hfolder]
  · obtain ⟨number, hat⟩ := file?_eq_some.mp hfile
    rw [hat, hmeans]
    rfl

/-- A file can be moved to where its path leads, if that is not a folder and does not say that it
means one. -/
theorem targetPlace_eq_ok : t.targetPlace path = .ok place ↔
    t.place path = .ok place ∧ t.at? place ≠ some .folder ∧ meansFolder path = false := by
  rw [targetPlace, except_bind_eq_ok]
  trans ∃ found, t.place path = .ok found ∧
    found = place ∧ t.at? found ≠ some .folder ∧ meansFolder path = false
  · refine exists_congr fun found => and_congr_right fun _ => ?_
    rw [meansFolder]
    cases endsInDots path with
    | true => simp [except_bind_eq_ok, except_throw_eq_ok]
    | false =>
      cases endsInSlash path with
      | true => simp [except_bind_eq_ok, except_throw_eq_ok]
      | false =>
        cases t.at? found with
        | none => simpa [except_pure_eq_ok] using eq_comm
        | some node =>
          cases node with
          | folder => simp [except_throw_eq_ok]
          | file number old => simpa [except_pure_eq_ok] using eq_comm
  · constructor
    · rintro ⟨found, hplace, rfl, hrest⟩
      exact ⟨hplace, hrest⟩
    · rintro ⟨hplace, hrest⟩
      exact ⟨place, hplace, rfl, hrest⟩

/-! ### Creating files by path -/

/-- The place of a new file is where its path leads, which must not mean a folder. -/
theorem newPlace_eq_ok {there : ResourceProblem} : t.newPlace path there = .ok place ↔
    t.place path = .ok place ∧ meansFolder path = false := by
  rw [newPlace, meansFolder]
  cases endsInDots path with
  | true => simp [except_bind_eq_ok, except_throw_eq_ok]
  | false =>
    cases endsInSlash path with
    | true =>
      constructor
      · intro h
        obtain ⟨found, -, hthrow⟩ := except_bind_eq_ok.mp h
        cases hthrow
      · rintro ⟨-, hfalse⟩
        cases hfalse
    | false =>
      constructor
      · intro h
        obtain ⟨found, hfound, hplace⟩ := except_bind_eq_ok.mp h
        exact ⟨by rw [hfound, ← except_pure_eq_ok.mp hplace], rfl⟩
      · rintro ⟨h, -⟩
        exact except_bind_eq_ok.mpr ⟨place, h, rfl⟩

theorem createFile_eq_ok : t.createFile path = .ok u ↔
    ∃ place, t.place path = .ok place ∧ meansFolder path = false ∧ t.at? place = none ∧
      u = t.addFile place [] := by
  rw [createFile, except_bind_eq_ok]
  refine exists_congr fun place => ?_
  rw [newPlace_eq_ok, and_assoc]
  refine and_congr_right fun _ => and_congr_right fun _ => ?_
  cases t.at? place with
  | none => simp [except_pure_eq_ok]
  | some node => simp [except_throw_eq_ok]

theorem writeFile_eq_ok : t.writeFile path content = .ok u ↔
    ∃ place, t.place path = .ok place ∧ meansFolder path = false ∧ t.at? place ≠ some .folder ∧
      u = t.fill place content := by
  rw [writeFile, except_bind_eq_ok]
  refine exists_congr fun place => ?_
  rw [newPlace_eq_ok, and_assoc]
  refine and_congr_right fun _ => and_congr_right fun _ => ?_
  cases t.at? place with
  | none => simp [except_pure_eq_ok]
  | some node =>
    cases node with
    | folder => simp [except_throw_eq_ok]
    | file number found => simp [except_pure_eq_ok]

end FileTree

end Packfile
