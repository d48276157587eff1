import Packfile.Proofs.FolderTrees

/-!
# Trees that are unfolded

The folders of a directory refer to each other by place, and nothing keeps them from referring to
one place twice, or in a circle. What they describe is the tree that comes of unfolding them from
the root. A walk goes through this tree depth first and in the order of the nodes, and it stops at
the first obstacle that it meets.

## The tree without a walk

`unfolded` lists what is met on the way, folders and files, down to some level. It knows neither of
limits nor of folders that were seen before, so a directory that goes round in a circle is unfolded
as often as there are levels. `Visit.obstacle?` says what is in the way at one step, from the steps
before it: the folder is too deep, it was there before, it cannot be read, or there are too many
files. The walk is shown to give the files of the list if none of its steps is in the way, and the
error of the first one that is otherwise. How far the tree is unfolded is of no consequence beyond
the levels that are allowed, since a folder below these is an obstacle whatever is in it.

## Main definitions

* `Visit`, `unfolded` — the tree, depth first
* `Visit.obstacle?`, `Visit.IsClear` — what is in the way at a step, and that nothing is
* `TreeWalk.Answers`, `TreeWalk.IsLog` — readers of folders, and those that keep a record

## Main results

* `Visit.isClear_concat_iff` — a way that is clear so far
* `Walks.goes_walkFolder` — a folder is walked through as it is unfolded
* `Walks.walkTree_unfolds` — the files of the tree or the first obstacle, and no folder read twice
-/

namespace Packfile

open Run Reading

/-- The error of something that is one more than a limit. -/
def Error.beyond (what : String) (limit : ℕ) : Error :=
  match Checked.sum limit 1 with
  | .ok value => .exceeds what value limit
  | .error e => e

theorem Error.beyond_of_lt {limit : ℕ} (what : String) (h : limit < Word.max) :
    beyond what limit = .exceeds what (limit + 1) limit := by
  rw [beyond, Checked.sum_of_le h]

/-! ### The tree -/

/-- A step through a tree. -/
inductive Visit where
  /-- A folder, so many levels below the root, with the place of its nodes. -/
  | folder (depth place : ℕ)
  /-- A file, with the names on the way to it. -/
  | file (names : List String) (entry : Entry)
  deriving Repr

section

variable (folders : ℕ → Except Error (List TreeNode))

/-- The tree below a folder, depth first in the order of the nodes. The folders on the last level
are listed, and not looked into. -/
def unfolded : (levels depth : ℕ) → (names : List String) → (place : ℕ) → List Visit
  | 0, depth, _, place => [.folder depth place]
  | levels + 1, depth, names, place =>
    .folder depth place ::
      match folders place with
      | .error _ => []
      | .ok nodes => nodes.flatMap fun
        | .file name entry => [.file (names ++ [name]) entry]
        | .folder name below => unfolded levels (depth + 1) (names ++ [name]) below

/-- What a node is unfolded to. -/
def unfoldedNode (levels depth : ℕ) (names : List String) : TreeNode → List Visit
  | .file name entry => [.file (names ++ [name]) entry]
  | .folder name below => unfolded folders levels depth (names ++ [name]) below

variable {folders}

theorem unfolded_of_ok {nodes : List TreeNode} {place : ℕ} (h : folders place = .ok nodes)
    (levels depth : ℕ) (names : List String) :
    unfolded folders (levels + 1) depth names place
      = .folder depth place :: nodes.flatMap (unfoldedNode folders levels (depth + 1) names) := by
  have hnode : (fun node => match node with
      | .file name entry => [.file (names ++ [name]) entry]
      | .folder name below => unfolded folders levels (depth + 1) (names ++ [name]) below)
        = unfoldedNode folders levels (depth + 1) names := by
    funext node
    cases node <;> rfl
  rw [unfolded, h, ← hnode]

theorem unfolded_of_error {e : Error} {place : ℕ} (h : folders place = .error e)
    (levels depth : ℕ) (names : List String) :
    unfolded folders (levels + 1) depth names place = [.folder depth place] := by
  rw [unfolded, h]

/-- A folder is met before everything in it. -/
theorem exists_unfolded_eq (folders : ℕ → Except Error (List TreeNode)) (levels depth : ℕ)
    (names : List String) (place : ℕ) :
    ∃ inside, unfolded folders levels depth names place = .folder depth place :: inside := by
  cases levels with
  | zero => exact ⟨[], rfl⟩
  | succ levels => exact ⟨_, rfl⟩

end

/-! ### Obstacles -/

namespace Visit

/-- The place of a folder. -/
def place? : Visit → Option ℕ
  | folder _ place => some place
  | file _ _ => none

/-- The file, under the names on the way that are not empty. -/
def entry? : Visit → Option Entry
  | folder _ _ => none
  | file names entry => some (entry.rename (EntryName.backslashed names))

/-- The places of the folders. -/
def places (visits : List Visit) : List ℕ := visits.filterMap place?

/-- The files. -/
def files (visits : List Visit) : List Entry := visits.filterMap entry?

section

variable (folders : ℕ → Except Error (List TreeNode)) (maxDepth maxEntries : ℕ)

/-- What is in the way at a step, behind others. -/
def obstacle? (before : List Visit) : Visit → Option Error
  | folder depth place =>
    if maxDepth < depth then some (.beyond "folder depth" maxDepth)
    else if place ∈ places before then some (.cycle place)
    else match folders place with
      | .error e => some e
      | .ok _ => none
  | file _ _ =>
    if maxEntries ≤ (files before).length then some (.beyond "entry count" maxEntries) else none

/-- Nothing is in the way. -/
structure IsClear (visits : List Visit) : Prop where
  /-- No place is met twice. -/
  once : (places visits).Nodup
  /-- No folder is too deep. -/
  depth_le : ∀ depth place, folder depth place ∈ visits → depth ≤ maxDepth
  /-- Every folder can be read. -/
  readable : ∀ depth place, folder depth place ∈ visits → ∃ nodes, folders place = .ok nodes
  /-- There are not too many files. -/
  files_le : (files visits).length ≤ maxEntries

variable {folders maxDepth maxEntries}

theorem places_append (a b : List Visit) : places (a ++ b) = places a ++ places b :=
  List.filterMap_append

theorem files_append (a b : List Visit) : files (a ++ b) = files a ++ files b :=
  List.filterMap_append

theorem places_concat_folder (before : List Visit) (depth place : ℕ) :
    places (before ++ [folder depth place]) = places before ++ [place] := by
  rw [places_append]
  rfl

theorem places_concat_file (before : List Visit) (names : List String) (e : Entry) :
    places (before ++ [file names e]) = places before := by
  rw [places_append]
  exact List.append_nil _

theorem files_concat_folder (before : List Visit) (depth place : ℕ) :
    files (before ++ [folder depth place]) = files before := by
  rw [files_append]
  exact List.append_nil _

theorem files_concat_file (before : List Visit) (names : List String) (e : Entry) :
    files (before ++ [file names e])
      = files before ++ [e.rename (EntryName.backslashed names)] := by
  rw [files_append]
  rfl

theorem nodup_concat {places : List ℕ} {place : ℕ} (h : places.Nodup) (hplace : place ∉ places) :
    (places ++ [place]).Nodup := by
  rw [List.nodup_append]
  refine ⟨h, List.pairwise_singleton _ _, fun a ha b hb heq => hplace ?_⟩
  cases List.mem_singleton.mp hb
  exact heq ▸ ha

theorem obstacle?_folder_eq_none {before : List Visit} {depth place : ℕ} :
    obstacle? folders maxDepth maxEntries before (folder depth place) = none ↔
      depth ≤ maxDepth ∧ place ∉ places before ∧ ∃ nodes, folders place = .ok nodes := by
  rw [obstacle?]
  by_cases hdepth : maxDepth < depth
  · simp [hdepth]
  · by_cases hplace : place ∈ places before
    · simp [hdepth, hplace]
    · have hle : depth ≤ maxDepth := Nat.not_lt.mp hdepth
      cases folders place <;> simp [hdepth, hplace, hle]

theorem obstacle?_file_eq_none {before : List Visit} {names : List String} {e : Entry} :
    obstacle? folders maxDepth maxEntries before (file names e) = none ↔
      (files before).length < maxEntries := by
  rw [obstacle?]
  by_cases hroom : maxEntries ≤ (files before).length
  · simp [hroom]
  · simp [hroom, Nat.lt_of_not_le hroom]

theorem isClear_nil : IsClear folders maxDepth maxEntries [] where
  once := List.nodup_nil
  depth_le _ _ h := absurd h List.not_mem_nil
  readable _ _ h := absurd h List.not_mem_nil
  files_le := Nat.zero_le _

/-- The front of a way that is clear is clear. -/
theorem IsClear.front {a b : List Visit} (h : IsClear folders maxDepth maxEntries (a ++ b)) :
    IsClear folders maxDepth maxEntries a where
  once := by
    have honce := h.once
    rw [places_append] at honce
    exact (List.nodup_append.mp honce).1
  depth_le depth place hmem := h.depth_le depth place (List.mem_append_left _ hmem)
  readable depth place hmem := h.readable depth place (List.mem_append_left _ hmem)
  files_le := by
    have hfiles := h.files_le
    rw [files_append, List.length_append] at hfiles
    omega

/-- A way is clear up to a step if it is clear up to the one before and nothing is in the way at
it. -/
theorem isClear_concat_iff {before : List Visit} {visit : Visit} :
    IsClear folders maxDepth maxEntries (before ++ [visit]) ↔
      IsClear folders maxDepth maxEntries before ∧
        obstacle? folders maxDepth maxEntries before visit = none := by
  constructor
  · intro h
    have hlast : visit ∈ before ++ [visit] := by simp
    refine ⟨h.front, ?_⟩
    cases visit with
    | folder depth place =>
      have honce := h.once
      rw [places_concat_folder] at honce
      refine obstacle?_folder_eq_none.mpr ⟨h.depth_le _ _ hlast, fun hmem => ?_,
        h.readable _ _ hlast⟩
      exact (List.nodup_append.mp honce).2.2 _ hmem _ List.mem_cons_self rfl
    | file names e =>
      have hfiles := h.files_le
      rw [files_concat_file, List.length_append] at hfiles
      exact obstacle?_file_eq_none.mpr hfiles
  · rintro ⟨h, hnone⟩
    cases visit with
    | folder depth place =>
      obtain ⟨hdepth, hplace, hreadable⟩ := obstacle?_folder_eq_none.mp hnone
      refine ⟨?_, fun depth' place' hmem => ?_, fun depth' place' hmem => ?_, ?_⟩
      · rw [places_concat_folder]
        exact nodup_concat h.once hplace
      · rcases List.mem_append.mp hmem with hmem | hmem
        · exact h.depth_le _ _ hmem
        · cases List.mem_singleton.mp hmem
          exact hdepth
      · rcases List.mem_append.mp hmem with hmem | hmem
        · exact h.readable _ _ hmem
        · cases List.mem_singleton.mp hmem
          exact hreadable
      · rw [files_concat_folder]
        exact h.files_le
    | file names e =>
      have hroom := obstacle?_file_eq_none.mp hnone
      refine ⟨?_, fun depth place hmem => ?_, fun depth place hmem => ?_, ?_⟩
      · rw [places_concat_file]
        exact h.once
      · rcases List.mem_append.mp hmem with hmem | hmem
        · exact h.depth_le _ _ hmem
        · cases List.mem_singleton.mp hmem
      · rcases List.mem_append.mp hmem with hmem | hmem
        · exact h.readable _ _ hmem
        · cases List.mem_singleton.mp hmem
      · rw [files_concat_file, List.length_append]
        exact hroom

/-! ### The first obstacle -/

variable (folders maxDepth maxEntries) in
/-- The way is clear up to a step, and there is something in the way at it. -/
def IsStopped (visits : List Visit) (e : Error) : Prop :=
  ∃ before visit behind, visits = before ++ visit :: behind ∧
    IsClear folders maxDepth maxEntries before ∧
    obstacle? folders maxDepth maxEntries before visit = some e

variable {visits : List Visit} {e e' : Error}

/-- A way does not go past an obstacle. -/
theorem not_isClear_of_obstacle {before behind : List Visit} {visit : Visit}
    (h : obstacle? folders maxDepth maxEntries before visit = some e) :
    ¬ IsClear folders maxDepth maxEntries (before ++ visit :: behind) := by
  intro hclear
  rw [List.append_cons] at hclear
  have hnone := (isClear_concat_iff.mp hclear.front).2
  rw [h] at hnone
  cases hnone

theorem IsStopped.not_isClear (h : IsStopped folders maxDepth maxEntries visits e) :
    ¬ IsClear folders maxDepth maxEntries visits := by
  obtain ⟨before, visit, behind, rfl, -, hsome⟩ := h
  exact not_isClear_of_obstacle hsome

/-- There is only one step at which a way stops being clear. -/
theorem IsStopped.unique (h : IsStopped folders maxDepth maxEntries visits e)
    (h' : IsStopped folders maxDepth maxEntries visits e') : e = e' := by
  obtain ⟨before, visit, behind, rfl, hclear, hsome⟩ := h
  obtain ⟨before', visit', behind', heq, hclear', hsome'⟩ := h'
  -- were one of the steps behind the other, the way would not be clear up to it
  rcases List.append_eq_append_iff.mp heq with ⟨between, rfl, hrest⟩ | ⟨between, rfl, hrest⟩
  · cases between with
    | nil =>
      cases hrest
      rw [List.append_nil, hsome] at hsome'
      exact Option.some.inj hsome'
    | cons first between =>
      cases hrest
      exact absurd hclear' (not_isClear_of_obstacle hsome)
  · cases between with
    | nil =>
      cases hrest
      rw [List.append_nil, hsome'] at hsome
      exact (Option.some.inj hsome).symm
    | cons first between =>
      cases hrest
      exact absurd hclear (not_isClear_of_obstacle hsome')

end

end Visit

/-! ### Readers of folders -/

namespace TreeWalk

/-- What a reader of folders answers depends on the place alone. It may do to the session what it
likes, but for what the caller allows. -/
structure Answers (folders : ℕ → Except Error (List TreeNode))
    (read : ℕ → Decode (List TreeNode)) : Prop where
  outcome_eq : ∀ place x, ((read place).outcome x).1 = folders place
  options_eq : ∀ place x, (after (read place) x).context.options = x.context.options

/-- The log of a session has a line for each folder that was read, and none for what the walk
reports. -/
structure IsLog {β : Type} (read : ℕ → Decode (List TreeNode)) (line : ℕ → β)
    (log : Session → List β) : Prop where
  log_read : ∀ place x, log (after (read place) x) = log x ++ [line place]
  log_progress : ∀ index offset x, log (after (Decode.progress index offset) x) = log x

variable {folders : ℕ → Except Error (List TreeNode)} {read : ℕ → Decode (List TreeNode)}
  {place : ℕ} {e : Error} {nodes : List TreeNode}

theorem Answers.of_ok (h : Answers folders read) (hnodes : folders place = .ok nodes)
    (x : Session) : read place x = .ok nodes (after (read place) x) := by
  have houtcome := h.outcome_eq place x
  rw [Decode.outcome, hnodes] at houtcome
  cases hread : read place x with
  | ok found y =>
    rw [hread] at houtcome
    cases houtcome
    rw [after_of_ok hread]
  | error e y =>
    rw [hread] at houtcome
    cases houtcome

theorem Answers.of_error (h : Answers folders read) (he : folders place = .error e)
    (x : Session) : read place x = .error e (after (read place) x) := by
  have houtcome := h.outcome_eq place x
  rw [Decode.outcome, he] at houtcome
  cases hread : read place x with
  | ok found y =>
    rw [hread] at houtcome
    cases houtcome
  | error e' y =>
    rw [hread] at houtcome
    cases houtcome
    rw [after, hread]

/-- What is said of the folders that were read and of the session behind them holds again behind
another one, and the reports of the walk do not touch it. -/
structure Traces (read : ℕ → Decode (List TreeNode)) (T : List ℕ → Session → Prop) : Prop where
  behind_read : ∀ reads place x, T reads x → T (reads ++ [place]) (after (read place) x)
  behind_progress : ∀ reads index offset x, T reads x →
    T reads (after (Decode.progress index offset) x)

theorem IsLog.traces {β : Type} {line : ℕ → β} {log : Session → List β} (h : IsLog read line log)
    (x : Session) : Traces read fun reads y => log y = log x ++ reads.map line where
  behind_read reads place y hy := by
    rw [h.log_read, hy, List.map_append, List.append_assoc]
    rfl
  behind_progress reads index offset y hy := by
    rw [h.log_progress]
    exact hy

/-- Where a walk stands behind the first steps of a way. -/
structure Stands (T : List ℕ → Session → Prop) (limit : ℕ) (seen : List Visit) (walk : TreeWalk)
    (x : Session) : Prop where
  mem_visited : ∀ place, place ∈ walk.visited ↔ place ∈ Visit.places seen
  found_eq : walk.found.toList = Visit.files seen
  trace : T (Visit.places seen) x
  limit_eq : x.context.options.maxEntries = limit

theorem Stands.size_eq {T : List ℕ → Session → Prop} {limit : ℕ} {seen : List Visit}
    {walk : TreeWalk} {x : Session} (h : Stands T limit seen walk x) :
    walk.found.size = (Visit.files seen).length := by
  rw [← h.found_eq, Array.length_toList]

/-- What becomes of a walk that goes on with further steps: it stands behind them, or it has been
stopped at one of them, and no folder was read twice. -/
inductive Goes (folders : ℕ → Except Error (List TreeNode)) (maxDepth limit : ℕ)
    (T : List ℕ → Session → Prop) (seen visits : List Visit) :
    EStateM.Result Error Session TreeWalk → Prop where
  | on {walk : TreeWalk} {y : Session}
    (clear : Visit.IsClear folders maxDepth limit (seen ++ visits))
    (stands : Stands T limit (seen ++ visits) walk y) :
    Goes folders maxDepth limit T seen visits (.ok walk y)
  | nowhere {before behind : List Visit} {visit : Visit} {e : Error} {y : Session} {reads : List ℕ}
    (split : visits = before ++ visit :: behind)
    (clear : Visit.IsClear folders maxDepth limit (seen ++ before))
    (obstacle : Visit.obstacle? folders maxDepth limit (seen ++ before) visit = some e)
    (once : reads.Nodup) (trace : T reads y) :
    Goes folders maxDepth limit T seen visits (.error e y)

namespace Goes

variable {maxDepth limit : ℕ} {T : List ℕ → Session → Prop} {seen a b : List Visit}
  {walk : TreeWalk} {x y : Session}

/-- One way behind the other. -/
theorem bind {body : Decode TreeWalk} {f : TreeWalk → Decode TreeWalk}
    (h : Goes folders maxDepth limit T seen a (body x))
    (hf : ∀ walk y, Visit.IsClear folders maxDepth limit (seen ++ a) →
      Stands T limit (seen ++ a) walk y → Goes folders maxDepth limit T (seen ++ a) b (f walk y)) :
    Goes folders maxDepth limit T seen (a ++ b) ((body >>= f) x) := by
  cases hbody : body x with
  | ok walk y =>
    rw [bind_of_ok hbody]
    rw [hbody] at h
    cases h with
    | on hclear hstands =>
      cases hrest : f walk y with
      | ok walk' z =>
        have hgoes := hf walk y hclear hstands
        rw [hrest] at hgoes
        cases hgoes with
        | on hclear' hstands' =>
          rw [List.append_assoc] at hclear' hstands'
          exact .on hclear' hstands'
      | error e z =>
        have hgoes := hf walk y hclear hstands
        rw [hrest] at hgoes
        cases hgoes with
        | nowhere hsplit hclear' hobstacle honce htrace =>
          rw [List.append_assoc] at hclear' hobstacle
          rw [hsplit, ← List.append_assoc]
          exact .nowhere rfl hclear' hobstacle honce htrace
  | error e y =>
    rw [bind_of_error hbody]
    rw [hbody] at h
    cases h with
    | nowhere hsplit hclear hobstacle honce htrace =>
      rw [hsplit, List.append_assoc]
      exact .nowhere rfl hclear hobstacle honce htrace

/-- A step that was taken is counted among those that were seen. -/
theorem behind {visit : Visit} {r : EStateM.Result Error Session TreeWalk}
    (h : Goes folders maxDepth limit T (seen ++ [visit]) a r) :
    Goes folders maxDepth limit T seen (visit :: a) r := by
  cases h with
  | on hclear hstands =>
    rw [← List.append_cons] at hclear hstands
    exact .on hclear hstands
  | nowhere hsplit hclear hobstacle honce htrace =>
    rw [← List.append_cons] at hclear hobstacle
    rw [hsplit, ← List.cons_append]
    exact .nowhere rfl hclear hobstacle honce htrace

/-- A way through several nodes goes through one after the other. -/
theorem foldlM {α : Type} {f : TreeWalk → α → Decode TreeWalk} {way : α → List Visit}
    {nodes : List α}
    (hf : ∀ node ∈ nodes, ∀ seen walk x, Visit.IsClear folders maxDepth limit seen →
      Stands T limit seen walk x →
        Goes folders maxDepth limit T seen (way node) (f walk node x))
    (hclear : Visit.IsClear folders maxDepth limit seen) (hstands : Stands T limit seen walk x) :
    Goes folders maxDepth limit T seen (nodes.flatMap way) (nodes.foldlM f walk x) := by
  induction nodes generalizing seen walk x with
  | nil =>
    rw [← List.append_nil seen] at hclear hstands
    exact .on hclear hstands
  | cons node nodes ih =>
    rw [List.foldlM_cons, List.flatMap_cons]
    refine (hf node List.mem_cons_self seen walk x hclear hstands).bind fun walk y => ?_
    exact ih fun node hmem => hf node (List.mem_cons_of_mem _ hmem)

end Goes

end TreeWalk

/-! ### The walk -/

namespace Walks

open TreeWalk

variable {folders : ℕ → Except Error (List TreeNode)} {read : ℕ → Decode (List TreeNode)}
  {T : List ℕ → Session → Prop} {maxDepth limit : ℕ} {seen : List Visit} {names : List String}
  {walk : TreeWalk} {x : Session}

theorem sum_of_not_le {n : ℕ} (h : ¬ n + 1 ≤ Word.max) : Checked.sum n 1 = .error .overflow := by
  rw [Checked.sum, Word.add?, if_neg h]
  rfl

/-- Where a number is one more than a word can hold, its error is that of the sum. -/
theorem bind_sum_of_error {α : Type} {n : ℕ} {e : Error} (h : Checked.sum n 1 = .error e)
    (f : ℕ → Decode α) (x : Session) :
    ((liftM (Checked.sum n 1) : Decode ℕ) >>= f) x = .error e x := by
  rw [h]
  rfl

theorem checkRoom_of_full (h : x.context.options.maxEntries = limit) :
    Decode.checkRoom limit x = .error (.beyond "entry count" limit) x := by
  rw [Decode.checkRoom, bind_of_ok (options_eq_ok.mpr ⟨rfl, rfl⟩), h, if_pos le_rfl, Error.beyond]
  cases hsum : Checked.sum limit 1 <;> rfl

/-- Where something is in the way at the very first step, nothing is behind it. -/
theorem goes_nowhere {first : Visit} {inside : List Visit} {reads : List ℕ} {e : Error}
    (hclear : Visit.IsClear folders maxDepth limit seen)
    (hobstacle : Visit.obstacle? folders maxDepth limit seen first = some e) (honce : reads.Nodup)
    (htrace : T reads x) :
    Goes folders maxDepth limit T seen (first :: inside) (.error e x) := by
  have hsplit : first :: inside = [] ++ first :: inside := rfl
  refine .nowhere hsplit ?_ ?_ honce htrace
  · rwa [List.append_nil]
  · rwa [List.append_nil]

/-- A file is taken up, or there are too many of them. -/
theorem goes_addFile (htraces : Traces read T) {e : Entry} (hname : e.name = none) (name : String)
    (hclear : Visit.IsClear folders maxDepth limit seen) (hstands : Stands T limit seen walk x) :
    Goes folders maxDepth limit T seen [.file (names ++ [name]) e]
      (Decode.addFile (EntryName.join names) name e walk x) := by
  have hsize := hstands.size_eq
  have hlimit := hstands.limit_eq
  by_cases hroom : (Visit.files seen).length < limit
  · have hadd : Decode.addFile (EntryName.join names) name e walk x = _ :=
      addFile_eq_ok.mpr ⟨by omega, hname, rfl, rfl⟩
    rw [hadd]
    refine .on (Visit.isClear_concat_iff.mpr ⟨hclear, Visit.obstacle?_file_eq_none.mpr hroom⟩) ?_
    refine ⟨fun place => ?_, ?_, ?_, hlimit⟩
    · rw [Visit.places_concat_file]
      exact hstands.mem_visited place
    · rw [Visit.files_concat_file, Array.toList_push, hstands.found_eq, EntryName.join_concat,
        EntryName.join_eq_backslashed]
    · rw [Visit.places_concat_file]
      exact htraces.behind_progress _ _ _ _ hstands.trace
  · have hfull : walk.found.size = limit := by
      have := hclear.files_le
      omega
    have hadd : Decode.addFile (EntryName.join names) name e walk x
        = .error (.beyond "entry count" limit) x := by
      rw [Decode.addFile, hfull]
      exact bind_of_error (checkRoom_of_full hlimit)
    rw [hadd]
    refine goes_nowhere hclear ?_ hclear.once hstands.trace
    rw [Visit.obstacle?, if_pos (by omega)]

section

variable {levels depth place : ℕ} {path : String}

theorem walkFolder_of_seen (h : place ∈ walk.visited) :
    Decode.walkFolder read maxDepth (levels + 1) depth path place walk x
      = .error (.cycle place) x := by
  rw [walkFolder_succ]
  simp only [List.contains_iff_mem.mpr h, if_true]
  rfl

theorem walkFolder_of_new (h : place ∉ walk.visited) :
    Decode.walkFolder read maxDepth (levels + 1) depth path place walk x
      = (read place >>= fun nodes => nodes.foldlM (visit read maxDepth levels depth path)
          { walk with visited := place :: walk.visited }) x := by
  rw [walkFolder_succ]
  simp only [List.contains_iff_mem, h, if_false]

end

/-- A walk that has read a folder stands behind it. -/
theorem stands_behind_folder (hanswers : Answers folders read) (htraces : Traces read T)
    (hstands : Stands T limit seen walk x) (depth place : ℕ) :
    Stands T limit (seen ++ [.folder depth place])
      { walk with visited := place :: walk.visited } (after (read place) x) where
  mem_visited other := by
    rw [Visit.places_concat_folder, List.mem_cons, List.mem_append, List.mem_singleton,
      hstands.mem_visited]
    exact or_comm
  found_eq := by
    rw [Visit.files_concat_folder]
    exact hstands.found_eq
  trace := by
    rw [Visit.places_concat_folder]
    exact htraces.behind_read _ _ _ hstands.trace
  limit_eq := by
    rw [hanswers.options_eq]
    exact hstands.limit_eq

section

variable (hanswers : Answers folders read) (htraces : Traces read T)
  (hunnamed : ∀ place nodes name e, folders place = .ok nodes → TreeNode.file name e ∈ nodes →
    e.name = none)
  (hmax : maxDepth ≤ Word.max)
include hanswers htraces hunnamed hmax

/-- **A folder is walked through as it is unfolded.** The induction is on the levels that the walk
has left; the tree may be unfolded further than that, because the folders below are too deep. -/
theorem goes_walkFolder {levels further depth place : ℕ} (hdepth : depth + levels = maxDepth + 1)
    (hfurther : levels ≤ further) (hword : depth ≤ Word.max)
    (hclear : Visit.IsClear folders maxDepth limit seen) (hstands : Stands T limit seen walk x) :
    Goes folders maxDepth limit T seen (unfolded folders further depth names place)
      (Decode.walkFolder read maxDepth levels depth (EntryName.join names) place walk x) := by
  induction levels generalizing further depth place names seen walk x with
  | zero =>
    obtain ⟨inside, hinside⟩ := exists_unfolded_eq folders further depth names place
    have hdeep : depth = maxDepth + 1 := hdepth
    have herror : Error.beyond "folder depth" maxDepth = .exceeds "folder depth" depth maxDepth := by
      rw [Error.beyond_of_lt _ (by omega), hdeep]
    rw [hinside]
    refine goes_nowhere hclear ?_ hclear.once hstands.trace
    rw [Visit.obstacle?, if_pos (by omega), herror]
  | succ levels ih =>
    obtain ⟨further, rfl⟩ : ∃ n, further = n + 1 := ⟨further - 1, by omega⟩
    have hallowed : depth ≤ maxDepth := by omega
    by_cases hseen : place ∈ Visit.places seen
    · rw [walkFolder_of_seen ((hstands.mem_visited place).mpr hseen), unfolded]
      refine goes_nowhere hclear ?_ hclear.once hstands.trace
      rw [Visit.obstacle?, if_neg (Nat.not_lt.mpr hallowed), if_pos hseen]
    have hentered := stands_behind_folder hanswers htraces hstands depth place
    rw [walkFolder_of_new fun hmem => hseen ((hstands.mem_visited place).mp hmem)]
    cases hnodes : folders place with
    | error e =>
      rw [unfolded_of_error hnodes, bind_of_error (hanswers.of_error hnodes x)]
      refine goes_nowhere hclear ?_ (Visit.nodup_concat hclear.once hseen)
        (htraces.behind_read _ _ _ hstands.trace)
      rw [Visit.obstacle?, if_neg (Nat.not_lt.mpr hallowed), if_neg hseen, hnodes]
    | ok nodes =>
      have hnone : Visit.obstacle? folders maxDepth limit seen (.folder depth place) = none :=
        Visit.obstacle?_folder_eq_none.mpr ⟨hallowed, hseen, nodes, hnodes⟩
      rw [unfolded_of_ok hnodes, bind_of_ok (hanswers.of_ok hnodes x)]
      refine Goes.behind (Goes.foldlM (fun node hnode seen walk x hclear hstands => ?_)
        (Visit.isClear_concat_iff.mpr ⟨hclear, hnone⟩) hentered)
      cases node with
      | file name e =>
        exact goes_addFile htraces (hunnamed place nodes name e hnodes hnode) name hclear hstands
      | folder name below =>
        by_cases hnext : depth + 1 ≤ Word.max
        · have hsum : (liftM (Checked.sum depth 1) : Decode ℕ) x = .ok (depth + 1) x :=
            liftExcept_decode_eq_ok.mpr ⟨Checked.sum_of_le hnext, rfl⟩
          rw [visit, bind_of_ok hsum, EntryName.join_concat]
          exact ih (by omega) (by omega) hnext hclear hstands
        · -- then even the greatest limit is the depth itself
          obtain rfl : maxDepth = depth := by omega
          obtain ⟨inside, hinside⟩ :=
            exists_unfolded_eq folders further (maxDepth + 1) (names ++ [name]) below
          have hsum := sum_of_not_le hnext
          rw [visit, bind_sum_of_error hsum, unfoldedNode, hinside]
          refine goes_nowhere hclear ?_ hclear.once hstands.trace
          rw [Visit.obstacle?, if_pos (Nat.lt_succ_self _), Error.beyond, hsum]

/-- A whole walk has found the files of the tree, or it has met the first obstacle. -/
theorem walkTree_ends (rootName : String) (root : ℕ) {levels : ℕ} {visits : List Visit}
    (hlevels : maxDepth < levels) (hvisits : visits = unfolded folders levels 0 [rootName] root)
    (hlimit : x.context.options.maxEntries = limit) (htrace : T [] x) :
    ∃ reads, reads.Nodup ∧ T reads (after (Decode.walkTree rootName root maxDepth read) x) ∧
      ((Visit.IsClear folders maxDepth limit visits ∧
          ∃ y, Decode.walkTree rootName root maxDepth read x = .ok (Visit.files visits) y) ∨
        ∃ e, Visit.IsStopped folders maxDepth limit visits e ∧
          ∃ y, Decode.walkTree rootName root maxDepth read x = .error e y) := by
  have hstart : Stands T limit [] ({} : TreeWalk) x := ⟨fun _ => Iff.rfl, rfl, htrace, hlimit⟩
  have hgoes : Goes folders maxDepth limit T [] (unfolded folders levels 0 [rootName] root)
      (Decode.walkFolder read maxDepth (maxDepth + 1) 0 (EntryName.join [rootName]) root {} x) :=
    goes_walkFolder hanswers htraces hunnamed hmax (Nat.zero_add (maxDepth + 1)) hlevels
      (Nat.zero_le _) Visit.isClear_nil hstart
  rw [EntryName.join_singleton, ← hvisits] at hgoes
  rw [Decode.walkTree]
  cases hwalk : Decode.walkFolder read maxDepth (maxDepth + 1) 0 rootName root {} x with
  | ok walk y =>
    rw [hwalk] at hgoes
    cases hgoes with
    | on hclear hstands =>
      rw [after_bind_of_ok hwalk, bind_of_ok hwalk]
      refine ⟨Visit.places visits, hclear.once, hstands.trace, .inl ⟨hclear, y, ?_⟩⟩
      rw [hstands.found_eq]
      rfl
  | error e y =>
    rw [hwalk] at hgoes
    cases hgoes with
    | nowhere hsplit hclear hobstacle honce htrace =>
      rw [after_bind_of_error hwalk, after, hwalk, bind_of_error hwalk]
      exact ⟨_, honce, htrace, .inr ⟨e, ⟨_, _, _, hsplit, hclear, hobstacle⟩, y, rfl⟩⟩

end

/-- **A walk goes through the unfolded tree.** Its answer is the files of the tree, depth first,
exactly if nothing is in the way to any of them, and otherwise the error of the first thing that is.
A log of the reads shows that no folder is read twice, whatever the walk ends with. -/
theorem walkTree_unfolds (hanswers : Answers folders read)
    (hunnamed : ∀ place nodes name e, folders place = .ok nodes → TreeNode.file name e ∈ nodes →
      e.name = none)
    (hmax : maxDepth ≤ Word.max) {levels : ℕ} (hlevels : maxDepth < levels) (rootName : String)
    (root : ℕ) (x : Session) :
    (∀ entries, (∃ y, Decode.walkTree rootName root maxDepth read x = .ok entries y) ↔
        Visit.IsClear folders maxDepth x.context.options.maxEntries
            (unfolded folders levels 0 [rootName] root) ∧
          entries = Visit.files (unfolded folders levels 0 [rootName] root)) ∧
      (∀ e, (∃ y, Decode.walkTree rootName root maxDepth read x = .error e y) ↔
        Visit.IsStopped folders maxDepth x.context.options.maxEntries
          (unfolded folders levels 0 [rootName] root) e) ∧
      ∀ (β : Type) (line : ℕ → β) (log : Session → List β), IsLog read line log →
        ∃ reads : List ℕ, reads.Nodup ∧
          log (after (Decode.walkTree rootName root maxDepth read) x)
            = log x ++ reads.map line := by
  generalize hvisits : unfolded folders levels 0 [rootName] root = visits
  have hnothing : Traces read fun _ _ => True :=
    ⟨fun _ _ _ _ => trivial, fun _ _ _ _ _ => trivial⟩
  obtain ⟨-, -, -, hends⟩ := walkTree_ends hanswers hnothing hunnamed hmax rootName root (x := x)
    hlevels hvisits.symm rfl trivial
  refine ⟨fun entries => ?_, fun e => ?_, fun β line log hlog => ?_⟩
  · rcases hends with ⟨hclear, y, hok⟩ | ⟨e, hstopped, y, herror⟩
    · rw [hok]
      constructor
      · rintro ⟨_, h⟩
        cases h
        exact ⟨hclear, rfl⟩
      · rintro ⟨-, rfl⟩
        exact ⟨y, rfl⟩
    · rw [herror]
      constructor
      · rintro ⟨_, h⟩
        cases h
      · rintro ⟨hclear, -⟩
        exact (hstopped.not_isClear hclear).elim
  · rcases hends with ⟨hclear, y, hok⟩ | ⟨e', hstopped, y, herror⟩
    · rw [hok]
      constructor
      · rintro ⟨_, h⟩
        cases h
      · intro h
        exact (h.not_isClear hclear).elim
    · rw [herror]
      constructor
      · rintro ⟨_, h⟩
        cases h
        exact hstopped
      · intro h
        exact ⟨y, by rw [h.unique hstopped]⟩
  · obtain ⟨reads, honce, htrace, -⟩ := walkTree_ends hanswers (hlog.traces x) hunnamed hmax
      rootName root hlevels hvisits.symm rfl (List.append_nil _).symm
    exact ⟨reads, honce, htrace⟩

/-- A folder with a file and another folder in it, and a folder that lies in itself. -/
def roundabout : ℕ → Except Error (List TreeNode)
  | 0 => .ok [.file "a" { source := .memory 9, offset := 3 }, .folder "" 1]
  | 1 => .ok [.file "b" { source := .memory 9, offset := 5 }]
  | 2 => .ok [.folder "c" 2]
  | _ => .error (.custom "no folder")

/-- A reader that says which folder it reads. -/
def roundaboutReader (place : ℕ) : Decode (List TreeNode) := do
  Decode.warn (toString place)
  roundabout place

theorem after_report (r : Report) (x : Session) :
    after (Decode.report r) x = { x with reports := x.reports.push r } := rfl

theorem roundaboutReader_apply (place : ℕ) (x : Session) : roundaboutReader place x =
    (match roundabout place with
      | .ok nodes => .ok nodes (after (Decode.warn (toString place)) x)
      | .error e => .error e (after (Decode.warn (toString place)) x)) := by
  rw [roundaboutReader]
  cases roundabout place <;> rfl

theorem after_roundaboutReader (place : ℕ) (x : Session) :
    after (roundaboutReader place) x = after (Decode.warn (toString place)) x := by
  rw [after, roundaboutReader_apply]
  cases roundabout place <;> rfl

theorem answers_roundaboutReader : Answers roundabout roundaboutReader where
  outcome_eq place x := by
    rw [Decode.outcome, roundaboutReader_apply]
    cases roundabout place <;> rfl
  options_eq place x := by
    rw [after_roundaboutReader]
    rfl

theorem isLog_roundaboutReader :
    IsLog roundaboutReader toString fun x => x.warnings.toList where
  log_read place x := by
    rw [after_roundaboutReader, Decode.warn, after_report]
    simp [Session.warnings]
  log_progress index offset x := by
    rw [Decode.progress, after_report]
    simp [Session.warnings]

theorem unnamed_roundabout (place : ℕ) (nodes : List TreeNode) (name : String) (e : Entry)
    (h : roundabout place = .ok nodes) (hmem : TreeNode.file name e ∈ nodes) : e.name = none := by
  match place with
  | 0 | 1 | 2 =>
    cases h
    simp only [List.mem_cons] at hmem
    grind
  | _ + 3 => cases h

theorem walkTree_unfolds_roundabout :
    Visit.IsClear roundabout 4 1048576 (unfolded roundabout 5 0 ["dir"] 0) ∧
      Visit.IsStopped roundabout 4 1048576 (unfolded roundabout 5 0 ["dir"] 2) (.cycle 2) ∧
      ∃ reads : List ℕ, reads.Nodup ∧
        (after (Decode.walkTree "dir" 2 4 roundaboutReader)
          { stream := .ofBytes [] }).warnings.toList = reads.map toString := by
  have hdepth : 4 ≤ Word.max := by decide
  have hlevels : 4 < 5 := by decide
  have hunfolds := fun root => walkTree_unfolds answers_roundaboutReader unnamed_roundabout
    hdepth hlevels "dir" root { stream := .ofBytes [] }
  exact ⟨(((hunfolds 0).1 _).mp ⟨_, rfl⟩).1, ((hunfolds 2).2.1 _).mp ⟨_, rfl⟩,
    (hunfolds 2).2.2 String toString _ isLog_roundaboutReader⟩

end Walks

end Packfile
