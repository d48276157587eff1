import Packfile.Proofs.Walks

/-!
# Trees of folders

A walk over a tree goes down into a folder as soon as it meets it, and the folders it has been to
decide whether it may. Two descriptions of such a walk are given, one for trees that somebody has
built and one for whatever a reader of folders yields.

## A tree that is there

`Forest` is what a folder holds: nodes one behind the other, each folder among them with its own
forest inside. Where the tables of all folders are at places of their own, a walk finds the files in
the order in which the forest has them, each under the names on the way to it.

## A tree that nobody vouches for

`Below` says which tables a way of indices leads to, for a reader that yields `children place` at a
place. If a walk ends without an error, it has been to every table that can be reached, and to each
on one way only. That the ways are finite is not assumed: it follows, because their length is
bounded by the levels that the walk allows.

## Main definitions

* `EntryName.backslashed` — the names on a way that are not empty, with backslashes between them
* `Forest`, `FileAt` — a tree and its files, by `Forest.tables`, `Forest.files`, `Forest.levels`
* `Below`, `Explored` — the tables below a table, and what a finished walk knows of them

## Main results

* `EntryName.join_eq_backslashed` — the joined path, said at once
* `Walks.walkTree_of_forest` — the files of a forest are found
* `Walks.explored_of_walkTree` — a walk that ends well has been everywhere, and nowhere twice
-/

namespace Packfile

open Run Reading

/-! ### Names on a way -/

namespace EntryName

/-- The names that are not empty, with backslashes between them. -/
def backslashed (names : List String) : String :=
  "\\".intercalate (names.filter fun name => !name.isEmpty)

theorem append_of_ne {path name : String} (hpath : path.isEmpty = false)
    (hname : name.isEmpty = false) : append path name = path ++ "\\" ++ name := by
  simp [append, hpath, hname, separator, String.push_eq_append]

theorem foldl_append_eq (path : String) (names : List String) :
    names.foldl append path = backslashed (path :: names) := by
  induction names generalizing path with
  | nil =>
    cases hpath : path.isEmpty with
    | false => simp [backslashed, hpath]
    | true => simp [backslashed, String.isEmpty_iff.mp hpath]
  | cons name names ih =>
    rw [List.foldl_cons, ih]
    cases hname : name.isEmpty with
    | true => simp [append, backslashed, hname, List.filter_cons]
    | false =>
      cases hpath : path.isEmpty with
      | true => simp [append, backslashed, hname, hpath]
      | false =>
        have hboth : (path ++ "\\" ++ name).isEmpty = false := by
          simp [String.isEmpty_eq_false_iff, String.append_eq_empty_iff]
        simp only [append_of_ne hpath hname, backslashed, List.filter_cons, hboth, hpath, hname,
          Bool.not_false, if_true]
        rw [String.intercalate_cons_append, String.intercalate_cons_cons]

/-- A path that is joined from names is what stands between backslashes. -/
theorem join_eq_backslashed (names : List String) : join names = backslashed names := by
  rw [join, foldl_append_eq]
  rfl

theorem join_concat (names : List String) (name : String) :
    join [join names, name] = join (names ++ [name]) := by
  have hfirst : append "" (join names) = join names := by
    rw [append]
    split
    · next h => exact (String.isEmpty_iff.mp h).symm
    · rfl
  rw [join, List.foldl_cons, hfirst, join, join, List.foldl_concat]
  rfl

theorem join_singleton (name : String) : join [name] = name := by
  rw [join, List.foldl_cons, append]
  split
  · next h => exact (String.isEmpty_iff.mp h).symm
  · rfl

end EntryName

/-! ### A tree that is there -/

/-- The nodes of a folder, one behind the other. A file says where its data are, and a folder where
its own table of nodes is and what the nodes in it are. -/
inductive Forest where
  | nil
  | file (name : String) (offset length : ℕ) (rest : Forest)
  | folder (name : String) (table : ℕ) (inside rest : Forest)
  deriving DecidableEq, Repr

/-- A file of a tree: the names on the way to it, its own the last of them, and its data. -/
structure FileAt where
  names : List String
  offset : ℕ
  length : ℕ
  deriving DecidableEq, Repr

/-- The entry of a file, under the path through all names on the way that are not empty. -/
def FileAt.entry (source : Location) (file : FileAt) : Entry :=
  { source
    name := some (EntryName.backslashed file.names)
    offset := file.offset
    stored := file.length }

namespace Forest

/-- The nodes themselves, as a table lists them. -/
def nodes (source : Location) : Forest → List TreeNode
  | nil => []
  | file name offset length rest =>
    .file name { source, offset, stored := length } :: rest.nodes source
  | folder name table _ rest => .folder name table :: rest.nodes source

/-- How many nodes there are, those inside the folders not counted. -/
def count : Forest → ℕ
  | nil => 0
  | file _ _ _ rest => rest.count + 1
  | folder _ _ _ rest => rest.count + 1

/-- The tables of all folders, those inside a folder right behind it. -/
def tables : Forest → List (ℕ × Forest)
  | nil => []
  | file _ _ _ rest => rest.tables
  | folder _ table inside rest => (table, inside) :: (inside.tables ++ rest.tables)

/-- The files, depth first. The names are those of the folders around the forest. -/
def files : List String → Forest → List FileAt
  | _, nil => []
  | names, file name offset length rest => ⟨names ++ [name], offset, length⟩ :: files names rest
  | names, folder name _ inside rest => files (names ++ [name]) inside ++ files names rest

/-- How many levels of folders there are. -/
def levels : Forest → ℕ
  | nil => 0
  | file _ _ _ rest => rest.levels
  | folder _ _ inside rest => max (inside.levels + 1) rest.levels

/-- The tables inside a folder are tables of the tree. -/
theorem mem_tables_of_mem {forest : Forest} {table below : ℕ × Forest} (h : table ∈ forest.tables)
    (hbelow : below ∈ table.2.tables) : below ∈ forest.tables := by
  induction forest with
  | nil => exact absurd h List.not_mem_nil
  | file _ _ _ rest ih => exact ih h
  | folder name place inside rest ihinside ihrest =>
    simp only [tables, List.mem_cons, List.mem_append] at h ⊢
    rcases h with rfl | h | h
    · exact .inr (.inl hbelow)
    · exact .inr (.inl (ihinside h))
    · exact .inr (.inr (ihrest h))

end Forest

/-- What a walk has found besides, when it comes from one state to another through a forest. -/
structure TreeWalk.Takes (source : Location) (names : List String) (forest : Forest)
    (walk walk' : TreeWalk) : Prop where
  visited : walk'.visited = (forest.tables.map Prod.fst).reverse ++ walk.visited
  found : walk'.found.toList = walk.found.toList ++ (forest.files names).map (FileAt.entry source)

namespace TreeWalk.Takes

variable {source : Location} {names : List String} {name : String} {inside rest : Forest}
  {walk mid walk' : TreeWalk}

/-- A file is taken up, and then what is behind it. -/
theorem file {offset length : ℕ} (hvisited : mid.visited = walk.visited)
    (hfound : mid.found.toList
      = walk.found.toList ++ [FileAt.entry source ⟨names ++ [name], offset, length⟩])
    (hrest : Takes source names rest mid walk') :
    Takes source names (.file name offset length rest) walk walk' where
  visited := by rw [hrest.visited, hvisited, Forest.tables]
  found := by
    rw [hrest.found, hfound, Forest.files, List.append_assoc]
    rfl

/-- A table is entered, what is inside is taken up, and then what is behind the folder. -/
theorem folder {table : ℕ}
    (hinside : Takes source (names ++ [name]) inside
      { walk with visited := table :: walk.visited } mid)
    (hrest : Takes source names rest mid walk') :
    Takes source names (.folder name table inside rest) walk walk' where
  visited := by
    rw [hrest.visited, hinside.visited]
    simp [Forest.tables]
  found := by
    rw [hrest.found, hinside.found]
    simp [Forest.files]

theorem size_eq (h : Takes source names inside walk walk') :
    walk'.found.size = walk.found.size + (inside.files names).length := by
  have := congrArg List.length h.found
  simpa using this

end TreeWalk.Takes

namespace Walks

variable {i : (Bytes × ByteOrder × Option ℕ) × Options × FileTree} {source : Location}
  {readFolder : ℕ → Decode (List TreeNode)} {maxDepth levels depth offset : ℕ}
  {walk walk' : TreeWalk} {x y : Session}

/-- What a walk does with a node of the folder at a path. -/
def visit (readFolder : ℕ → Decode (List TreeNode)) (maxDepth levels depth : ℕ) (path : String)
    (walk : TreeWalk) : TreeNode → Decode TreeWalk
  | .file name entry => Decode.addFile path name entry walk
  | .folder name offset => do
    let below ← Checked.sum depth 1
    Decode.walkFolder readFolder maxDepth levels below (EntryName.join [path, name]) offset walk

theorem walkFolder_succ {path : String} :
    Decode.walkFolder readFolder maxDepth (levels + 1) depth path offset walk = (do
      if walk.visited.contains offset then throw (.cycle offset)
      let nodes ← readFolder offset
      nodes.foldlM (visit readFolder maxDepth levels depth path)
        { walk with visited := offset :: walk.visited }) := by
  have hvisit : visit readFolder maxDepth levels depth path = (fun walk node =>
      match node with
      | .file name entry => Decode.addFile path name entry walk
      | .folder name offset => do
        let below ← Checked.sum depth 1
        Decode.walkFolder readFolder maxDepth levels below (EntryName.join [path, name]) offset
          walk) := by
    funext walk node
    cases node <;> rfl
  rw [hvisit]
  rfl

theorem walkFolder_eq_ok {path : String} :
    Decode.walkFolder readFolder maxDepth (levels + 1) depth path offset walk x = .ok walk' y ↔
      offset ∉ walk.visited ∧ ∃ nodes z, readFolder offset x = .ok nodes z ∧
        nodes.foldlM (visit readFolder maxDepth levels depth path)
          { walk with visited := offset :: walk.visited } z = .ok walk' y := by
  rw [walkFolder_succ, guard_eq_ok, List.contains_iff_mem]
  exact and_congr_right fun _ => bind_eq_ok

theorem visit_folder_eq_ok {path name : String} (hdepth : depth < Word.max) :
    visit readFolder maxDepth levels depth path walk (.folder name offset) x = .ok walk' y ↔
      Decode.walkFolder readFolder maxDepth levels (depth + 1) (EntryName.join [path, name]) offset
        walk x = .ok walk' y := by
  have hsum : Checked.sum depth 1 = .ok (depth + 1) := Checked.sum_of_le hdepth
  simp only [visit, bind_eq_ok, liftExcept_decode_eq_ok, hsum, Except.ok.injEq]
  constructor
  · rintro ⟨_, _, ⟨rfl, rfl⟩, h⟩
    exact h
  · intro h
    exact ⟨_, _, ⟨rfl, rfl⟩, h⟩

theorem addFile_eq_ok {path name : String} {e : Entry} :
    Decode.addFile path name e walk x = .ok walk' y ↔
      walk.found.size < x.context.options.maxEntries ∧ e.name = none ∧
        walk' = { walk with found := walk.found.push (e.rename (EntryName.join [path, name])) } ∧
        y = { x with reports := x.reports.push (.progress walk.found.size e.offset) } := by
  simp only [Decode.addFile, Decode.progress, bind_eq_ok, checkRoom_eq_ok, ofReader_eq_ok,
    ofExcept_eq_ok, Entry.assignName_eq_ok, report_eq_ok, pure_eq_ok]
  constructor
  · rintro ⟨_, _, ⟨hroom, rfl⟩, _, _, ⟨_, ⟨⟨hname, rfl⟩, rfl⟩, rfl⟩, _, _, rfl, rfl, rfl⟩
    exact ⟨hroom, hname, rfl, rfl⟩
  · rintro ⟨hroom, hname, rfl, rfl⟩
    exact ⟨(), _, ⟨hroom, rfl⟩, _, _, ⟨_, ⟨⟨hname, rfl⟩, rfl⟩, rfl⟩, (), _, rfl, rfl, rfl⟩

/-- A reader of folders yields the nodes of a table where it is. -/
def Yields (i : (Bytes × ByteOrder × Option ℕ) × Options × FileTree) (source : Location)
    (readFolder : ℕ → Decode (List TreeNode)) (table : ℕ × Forest) : Prop :=
  ∀ x, x.input = i → ∃ y, readFolder table.1 x = .ok (table.2.nodes source) y ∧ y.input = i

/-- A file is taken up under the path that leads to it. -/
theorem exists_visit_file (names : List String) (name : String) (offset length : ℕ)
    (hroom : walk.found.size < x.context.options.maxEntries) :
    ∃ mid y, visit readFolder maxDepth levels depth (EntryName.join names) walk
        (.file name { source, offset, stored := length }) x = .ok mid y ∧
      y.input = x.input ∧ mid.visited = walk.visited ∧ mid.found.toList
        = walk.found.toList ++ [FileAt.entry source ⟨names ++ [name], offset, length⟩] := by
  refine ⟨_, _, addFile_eq_ok.mpr ⟨hroom, rfl, rfl, rfl⟩, rfl, rfl, ?_⟩
  rw [EntryName.join_concat, EntryName.join_eq_backslashed, Array.toList_push]
  rfl

/-- **A walk through the nodes of a folder** takes up its forest. The induction is on the forest:
what is inside a folder is walked through before the nodes behind it. -/
theorem exists_foldlM_visit {forest : Forest} {names : List String}
    (hread : ∀ table ∈ forest.tables, Yields i source readFolder table)
    (hlevels : forest.levels ≤ levels) (hdepth : depth + levels ≤ Word.max)
    (hnew : (forest.tables.map Prod.fst ++ walk.visited).Nodup)
    (hroom : walk.found.size + (forest.files names).length ≤ i.2.1.maxEntries)
    (hx : x.input = i) :
    ∃ walk' y, (forest.nodes source).foldlM
        (visit readFolder maxDepth levels depth (EntryName.join names)) walk x = .ok walk' y ∧
      y.input = i ∧ walk.Takes source names forest walk' := by
  induction forest generalizing levels depth names walk x with
  | nil => exact ⟨walk, x, rfl, hx, rfl, by simp [Forest.files]⟩
  | file name offset length rest ih =>
    rw [Forest.files, List.length_cons] at hroom
    have hmax : x.context.options.maxEntries = i.2.1.maxEntries := by
      rw [← hx]
      rfl
    obtain ⟨mid, z, hvisit, hz, hvisited, hfound⟩ := exists_visit_file names name offset length
      (show walk.found.size < x.context.options.maxEntries by omega)
    have hsize : mid.found.size = walk.found.size + 1 := by
      simpa using congrArg List.length hfound
    have hroom : mid.found.size + (rest.files names).length ≤ i.2.1.maxEntries := by omega
    rw [Forest.tables, ← hvisited] at hnew
    obtain ⟨walk', y, hrest, hy, htakes⟩ := ih hread hlevels hdepth hnew hroom (hz.trans hx)
    refine ⟨walk', y, ?_, hy, .file hvisited hfound htakes⟩
    rw [Forest.nodes, List.foldlM_cons, bind_of_ok hvisit]
    exact hrest
  | folder name table inside rest ihinside ihrest =>
    rw [Forest.levels] at hlevels
    rw [Forest.files, List.length_append] at hroom
    rw [Forest.tables, List.forall_mem_cons] at hread
    obtain ⟨below, rfl⟩ : ∃ below, levels = below + 1 := ⟨levels - 1, by omega⟩
    have hdeeper : depth + 1 + below ≤ Word.max := by omega
    -- behind the folder its own table and those inside it have been visited
    have hleft : (rest.tables.map Prod.fst
        ++ ((inside.tables.map Prod.fst).reverse ++ table :: walk.visited)).Nodup := by
      refine (List.Perm.nodup_iff (List.perm_iff_count.mpr fun t => ?_)).mp hnew
      simp only [Forest.tables, List.map_cons, List.map_append, List.count_append, List.count_cons,
        List.count_reverse]
      omega
    let entered : TreeWalk := { walk with visited := table :: walk.visited }
    have hentered : (inside.tables.map Prod.fst ++ entered.visited).Nodup :=
      ((List.reverse_perm _).append_right _).nodup_iff.mp (List.nodup_append.mp hleft).2.1
    have hfresh : table ∉ walk.visited :=
      (List.nodup_cons.mp (List.nodup_append.mp hentered).2.1).1
    obtain ⟨z, hz, hzi⟩ := hread.1 x hx
    have hroomInside : entered.found.size + (inside.files (names ++ [name])).length
        ≤ i.2.1.maxEntries := by
      show walk.found.size + _ ≤ _
      omega
    obtain ⟨mid, v, hinside, hv, htakes⟩ := ihinside
      (fun t ht => hread.2 t (List.mem_append_left _ ht)) (by omega) hdeeper hentered hroomInside hzi
    have hmid : (rest.tables.map Prod.fst ++ mid.visited).Nodup := by
      rw [htakes.visited]
      exact hleft
    have hroomRest : mid.found.size + (rest.files names).length ≤ i.2.1.maxEntries := by
      rw [htakes.size_eq]
      show walk.found.size + _ + _ ≤ _
      omega
    obtain ⟨walk', y, hrest, hy, htakes'⟩ := ihrest
      (fun t ht => hread.2 t (List.mem_append_right _ ht)) (by omega) hdepth hmid hroomRest hv
    refine ⟨walk', y, ?_, hy, .folder htakes htakes'⟩
    rw [Forest.nodes, List.foldlM_cons]
    refine bind_eq_ok.mpr ⟨mid, v, (visit_folder_eq_ok (by omega)).mpr ?_, hrest⟩
    rw [EntryName.join_concat]
    exact walkFolder_eq_ok.mpr ⟨hfresh, _, z, hz, hinside⟩

/-- **The files of a tree are found**, depth first, when every folder has a table of its own. -/
theorem walkTree_of_forest {forest : Forest} {name : String} {root : ℕ}
    (hread : ∀ table ∈ (root, forest) :: forest.tables, Yields i source readFolder table)
    (hlevels : forest.levels ≤ maxDepth) (hdepth : maxDepth ≤ Word.max)
    (hnew : (((root, forest) :: forest.tables).map Prod.fst).Nodup)
    (hroom : (forest.files [name]).length ≤ i.2.1.maxEntries) (hx : x.input = i) :
    ∃ y, Decode.walkTree name root maxDepth readFolder x
        = .ok ((forest.files [name]).map (FileAt.entry source)) y ∧ y.input = i := by
  rw [List.forall_mem_cons] at hread
  rw [List.map_cons, List.nodup_cons] at hnew
  let entered : TreeWalk := { visited := [root] }
  have hentered : (forest.tables.map Prod.fst ++ entered.visited).Nodup :=
    (List.perm_append_singleton _ _).nodup_iff.mpr (List.nodup_cons.mpr hnew)
  have hroom : entered.found.size + (forest.files [name]).length ≤ i.2.1.maxEntries := by
    show 0 + _ ≤ _
    omega
  obtain ⟨z, hz, hzi⟩ := hread.1 x hx
  have hdepth : 0 + maxDepth ≤ Word.max := by omega
  obtain ⟨walk, y, hwalk, hy, htakes⟩ :=
    exists_foldlM_visit hread.2 hlevels hdepth hentered hroom hzi
  rw [EntryName.join_singleton] at hwalk
  refine ⟨y, ?_, hy⟩
  simp only [Decode.walkTree, bind_eq_ok, pure_eq_ok]
  refine ⟨walk, y, walkFolder_eq_ok.mpr ⟨List.not_mem_nil, _, z, hz, hwalk⟩, ?_, rfl⟩
  rw [htakes.found]
  rfl

end Walks

/-! ### A tree that nobody vouches for -/

section

variable {children : ℕ → List TreeNode} {Good : ℕ → Prop} {levels : ℕ}
  {before mid after : List ℕ}

/-- A way of indices leads from a table down to another: each index is that of a folder in the table
reached so far. -/
inductive Below (children : ℕ → List TreeNode) : ℕ → List ℕ → ℕ → Prop where
  | here (table : ℕ) : Below children table [] table
  | inside {table index below place : ℕ} {name : String} {way : List ℕ} :
    (children table)[index]? = some (.folder name below) → Below children below way place →
    Below children table (index :: way) place

/-- A way goes on to a folder in the table that it leads to. -/
theorem Below.snoc {table place below index : ℕ} {way : List ℕ} {name : String}
    (h : Below children table way place)
    (hnode : (children place)[index]? = some (.folder name below)) :
    Below children table (way ++ [index]) below := by
  induction h with
  | here => exact .inside hnode (.here _)
  | inside hfirst _ ih => exact .inside hfirst (ih hnode)

/-- The same from a list of nodes, of which the first index on the way chooses one. -/
def BelowNodes (children : ℕ → List TreeNode) (nodes : List TreeNode) (way : List ℕ) (place : ℕ) :
    Prop :=
  ∃ index name below rest, way = index :: rest ∧ nodes[index]? = some (.folder name below) ∧
    Below children below rest place

/-- What is known when a walk has come to its end: each place that a way leads to is good, it was
new to the walk and is visited now, the way is within the levels, and no other way leads there. -/
structure Explored (leads : List ℕ → ℕ → Prop) (Good : ℕ → Prop) (levels : ℕ)
    (before after : List ℕ) : Prop where
  grows : before ⊆ after
  inside : ∀ way place, leads way place →
    way.length < levels ∧ Good place ∧ place ∉ before ∧ place ∈ after
  once : ∀ way way' place, leads way place → leads way' place → way = way'

theorem below_iff {table place : ℕ} {way : List ℕ} : Below children table way place ↔
    (way = [] ∧ place = table) ∨ BelowNodes children (children table) way place := by
  constructor
  · intro h
    cases h with
    | here => exact .inl ⟨rfl, rfl⟩
    | inside hnode hbelow => exact .inr ⟨_, _, _, _, rfl, hnode, hbelow⟩
  · rintro (⟨rfl, rfl⟩ | ⟨_, _, _, _, rfl, hnode, hbelow⟩)
    · exact .here _
    · exact .inside hnode hbelow

theorem belowNodes_cons_iff {node : TreeNode} {nodes : List TreeNode} {place : ℕ} {way : List ℕ} :
    BelowNodes children (node :: nodes) way place ↔
      (∃ name below rest, way = 0 :: rest ∧ node = .folder name below ∧
        Below children below rest place) ∨
      ∃ index rest, way = (index + 1) :: rest ∧
        BelowNodes children nodes (index :: rest) place := by
  constructor
  · rintro ⟨index, name, below, rest, rfl, hnode, hbelow⟩
    cases index with
    | zero =>
      rw [List.getElem?_cons_zero, Option.some.injEq] at hnode
      exact .inl ⟨name, below, rest, rfl, hnode, hbelow⟩
    | succ index => exact .inr ⟨index, rest, rfl, index, name, below, rest, rfl, hnode, hbelow⟩
  · rintro (⟨name, below, rest, rfl, rfl, hbelow⟩ | ⟨index, rest, rfl, _, name, below, _, heq, hnode,
      hbelow⟩)
    · exact ⟨0, name, below, rest, rfl, rfl, hbelow⟩
    · cases heq
      exact ⟨index + 1, name, below, rest, rfl, hnode, hbelow⟩

namespace Explored

/-- Fewer ways are explored as well. -/
theorem of_imp {leads leads' : List ℕ → ℕ → Prop} (h : Explored leads Good levels before after)
    (himp : ∀ way place, leads' way place → leads way place) :
    Explored leads' Good levels before after where
  grows := h.grows
  inside := fun way place hway => h.inside way place (himp way place hway)
  once := fun way way' place hway hway' =>
    h.once way way' place (himp way place hway) (himp way' place hway')

theorem nil (visited : List ℕ) : Explored (BelowNodes children []) Good levels visited visited where
  grows := List.Subset.refl _
  inside := by
    rintro _ _ ⟨_, _, _, _, -, hnode, -⟩
    cases hnode
  once := by
    rintro _ _ _ ⟨_, _, _, _, -, hnode, -⟩
    cases hnode

/-- No way leads into a file. -/
theorem file {name : String} {e : Entry} {nodes : List TreeNode}
    (h : Explored (BelowNodes children nodes) Good levels before after) :
    Explored (BelowNodes children (.file name e :: nodes)) Good levels before after where
  grows := h.grows
  inside := by
    intro way place hway
    rcases belowNodes_cons_iff.mp hway with ⟨_, _, _, -, hnode, -⟩ | ⟨index, rest, rfl, hbelow⟩
    · cases hnode
    · exact h.inside (index :: rest) place hbelow
  once := by
    intro way way' place hway hway'
    rcases belowNodes_cons_iff.mp hway with ⟨_, _, _, -, hnode, -⟩ | ⟨index, rest, rfl, hbelow⟩
    · cases hnode
    rcases belowNodes_cons_iff.mp hway' with ⟨_, _, _, -, hnode, -⟩ | ⟨index', rest', rfl, hbelow'⟩
    · cases hnode
    cases h.once _ _ _ hbelow hbelow'
    rfl

/-- What is inside a folder was visited before what is behind it, so no way leads to both. -/
theorem folder {name : String} {below : ℕ} {nodes : List TreeNode}
    (hinside : Explored (Below children below) Good levels before mid)
    (hrest : Explored (BelowNodes children nodes) Good (levels + 1) mid after) :
    Explored (BelowNodes children (.folder name below :: nodes)) Good (levels + 1) before after where
  grows := List.Subset.trans hinside.grows hrest.grows
  inside := by
    intro way place hway
    rcases belowNodes_cons_iff.mp hway with ⟨_, _, rest, rfl, hnode, hbelow⟩ | ⟨_, _, rfl, hbelow⟩
    · cases hnode
      obtain ⟨hlength, hgood, hnew, hseen⟩ := hinside.inside _ _ hbelow
      exact ⟨Nat.succ_lt_succ hlength, hgood, hnew, hrest.grows hseen⟩
    · obtain ⟨hlength, hgood, hnew, hseen⟩ := hrest.inside _ _ hbelow
      exact ⟨hlength, hgood, fun hmem => hnew (hinside.grows hmem), hseen⟩
  once := by
    intro way way' place hway hway'
    rcases belowNodes_cons_iff.mp hway with ⟨_, _, rest, rfl, hnode, hbelow⟩ | ⟨_, _, rfl, hbelow⟩ <;>
      rcases belowNodes_cons_iff.mp hway' with
        ⟨_, _, rest', rfl, hnode', hbelow'⟩ | ⟨_, _, rfl, hbelow'⟩
    · cases hnode
      cases hnode'
      rw [hinside.once _ _ _ hbelow hbelow']
    · cases hnode
      exact absurd (hinside.inside _ _ hbelow).2.2.2 (hrest.inside _ _ hbelow').2.2.1
    · cases hnode'
      exact absurd (hinside.inside _ _ hbelow').2.2.2 (hrest.inside _ _ hbelow).2.2.1
    · cases hrest.once _ _ _ hbelow hbelow'
      rfl

/-- The table itself is entered first. -/
theorem table {table : ℕ} (hnew : table ∉ before) (hgood : Good table)
    (h : Explored (BelowNodes children (children table)) Good (levels + 1) (table :: before) after) :
    Explored (Below children table) Good (levels + 1) before after where
  grows := fun _ hmem => h.grows (List.mem_cons_of_mem _ hmem)
  inside := by
    intro way place hway
    rcases below_iff.mp hway with ⟨rfl, rfl⟩ | hbelow
    · exact ⟨Nat.succ_pos _, hgood, hnew, h.grows List.mem_cons_self⟩
    · obtain ⟨hlength, hgood, hnew, hseen⟩ := h.inside _ _ hbelow
      exact ⟨hlength, hgood, fun hmem => hnew (List.mem_cons_of_mem _ hmem), hseen⟩
  once := by
    intro way way' place hway hway'
    rcases below_iff.mp hway with ⟨rfl, rfl⟩ | hbelow <;>
      rcases below_iff.mp hway' with ⟨rfl, heq⟩ | hbelow'
    · rfl
    · exact absurd List.mem_cons_self (h.inside _ _ hbelow').2.2.1
    · cases heq
      exact absurd List.mem_cons_self (h.inside _ _ hbelow).2.2.1
    · exact h.once _ _ _ hbelow hbelow'

end Explored

end

namespace Walks

variable {i : (Bytes × ByteOrder × Option ℕ) × Options × FileTree} {children : ℕ → List TreeNode}
  {Good : ℕ → Prop} {readFolder : ℕ → Decode (List TreeNode)} {maxDepth levels depth table : ℕ}
  {path : String} {walk walk' : TreeWalk} {x y : Session}

/-- **A walk that ends without an error has explored its folder.** The induction is on the levels
that are left; inside the folder it is on the nodes, each of which starts from what the ones before
it have visited. -/
theorem explored_of_walkFolder
    (hread : ∀ table, Ensures Session.input i (fun nodes => nodes = children table ∧ Good table)
      (readFolder table))
    (hdepth : depth + levels ≤ Word.max) (hx : x.input = i)
    (h : Decode.walkFolder readFolder maxDepth levels depth path table walk x = .ok walk' y) :
    y.input = i ∧ Explored (Below children table) Good levels walk.visited walk'.visited := by
  induction levels generalizing depth path table walk walk' x y with
  | zero => exact (throw_eq_ok.mp h).elim
  | succ levels ih =>
    obtain ⟨hnew, nodes, z, hz, hfold⟩ := walkFolder_eq_ok.mp h
    obtain ⟨hzi, hnodes, hgood⟩ := (hread table).of_ok hx hz
    suffices hall : y.input = i ∧
        Explored (BelowNodes children nodes) Good (levels + 1) (table :: walk.visited)
          walk'.visited by
      rw [hnodes] at hall
      exact ⟨hall.1, hall.2.table hnew hgood⟩
    clear hz hnodes hnew h
    revert hfold
    generalize hentered : ({ walk with visited := table :: walk.visited } : TreeWalk) = entered
    have hvisited : table :: walk.visited = entered.visited := by rw [← hentered]
    rw [hvisited]
    clear hentered hvisited
    intro hfold
    induction nodes generalizing entered z with
    | nil =>
      obtain ⟨rfl, rfl⟩ := pure_eq_ok.mp hfold
      exact ⟨hzi, .nil _⟩
    | cons node nodes ihnodes =>
      rw [List.foldlM_cons] at hfold
      obtain ⟨mid, v, hvisit, hrest⟩ := bind_eq_ok.mp hfold
      cases node with
      | file name e =>
        obtain ⟨-, -, rfl, hkept⟩ := addFile_eq_ok.mp hvisit
        have hv : v.input = i := by
          rw [hkept]
          exact hzi
        obtain ⟨hy, hexplored⟩ := ihnodes _ hv _ hrest
        exact ⟨hy, hexplored.file⟩
      | folder name below =>
        obtain ⟨hv, hinside⟩ := ih (by omega) hzi ((visit_folder_eq_ok (by omega)).mp hvisit)
        obtain ⟨hy, hexplored⟩ := ihnodes _ hv _ hrest
        exact ⟨hy, hinside.folder hexplored⟩

/-- The same of a whole walk, which has `maxDepth` levels below the root to go. -/
theorem explored_of_walkTree {root : ℕ} {entries : List Entry}
    (hread : ∀ table, Ensures Session.input i (fun nodes => nodes = children table ∧ Good table)
      (readFolder table))
    (hdepth : maxDepth < Word.max) (hx : x.input = i)
    (h : Decode.walkTree path root maxDepth readFolder x = .ok entries y) :
    ∃ visited, Explored (Below children root) Good (maxDepth + 1) [] visited := by
  simp only [Decode.walkTree, bind_eq_ok] at h
  obtain ⟨walk, z, hwalk, -⟩ := h
  exact ⟨_, (explored_of_walkFolder hread (by omega) hx hwalk).2⟩

end Walks

end Packfile
