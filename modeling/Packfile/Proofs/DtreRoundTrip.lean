import Packfile.Format.Dtre
import Packfile.Proofs.Fields
import Packfile.Proofs.FolderTrees
import Packfile.Proofs.Listings

/-!
# DTRE archives, laid out and read

An archive of this format is a tree of folders whose tables may be anywhere in the stream. A tree
that is laid out is read as its files, depth first in the order of the tables. A stream in which
something is wrong on the way of the walk is not read at all.

## On the way

A stream refers to places that need not hold what they should, so nothing says beforehand which of
its bytes are tables. `Reached` says it: the table of the root is reached, and from a table that is
reached so are those of the folders in it. A defect is a defect of something reached, and the walk
comes to everything that is reached unless an error stops it before.

## Main definitions

* `Dtre.Tree`, `Dtre.Tree.IsIn` — a tree, and that it is laid out in a stream
* `Dtre.Reached`, `Dtre.Defect` — the tables on the way, and what may be wrong with them

## Main results

* `Dtre.readDirectory_of_isIn` — a tree that is laid out is read
* `Dtre.not_defect_of_readDirectory` — a stream that is read has no defect
* `Dtre.readDirectory_inverts_layout` — both
-/

namespace Packfile.Dtre

open Run Reading

variable {source : Location} {order : ByteOrder} {s t : Stream} {x y : Session} {rest : Bytes}
  {bytes : Bytes} {name : String} {forest : Forest}

/-! ### The layout -/

/-- The start of a node, up to the end of its name. -/
def headBytes (kind : ℕ) (name : String) : Bytes :=
  UInt8.ofNat kind :: UInt8.ofNat (Utf8.encode name).length :: Utf8.encode name

/-- The root node: a folder with the place of its table. -/
def rootBytes (order : ByteOrder) (name : String) (table : ℕ) : Bytes :=
  headBytes folderKind name ++ order.encode 4 table

/-- The nodes of a table. -/
def nodeBytes (order : ByteOrder) : Forest → Bytes
  | .nil => []
  | .file name offset length rest =>
    headBytes fileKind name ++ (order.encode 4 offset ++ (order.encode 4 length
      ++ nodeBytes order rest))
  | .folder name table _ rest =>
    headBytes folderKind name ++ (order.encode 4 table ++ nodeBytes order rest)

/-- A table: how many nodes there are, and the nodes. -/
def tableBytes (order : ByteOrder) (forest : Forest) : Bytes :=
  order.encode 4 forest.count ++ nodeBytes order forest

/-- A name that a node has room for. -/
structure IsName (name : String) : Prop where
  plain : Utf8.IsPlain name
  length_le : (Utf8.encode name).length ≤ 255

/-- All names have room, and the data of all files lie within a length. -/
def Fits (length : ℕ) : Forest → Prop
  | .nil => True
  | .file name offset size rest => IsName name ∧ offset + size ≤ length ∧ Fits length rest
  | .folder name _ inside rest => IsName name ∧ Fits length inside ∧ Fits length rest

/-- A tree with the place of its root node and the places of its tables. -/
structure Tree where
  root : ℕ
  name : String
  table : ℕ
  inside : Forest
  deriving DecidableEq, Repr

/-- All tables, that of the root first. -/
def Tree.tables (tree : Tree) : List (ℕ × Forest) := (tree.table, tree.inside) :: tree.inside.tables

/-- All files, depth first. -/
def Tree.files (tree : Tree) : List FileAt := tree.inside.files [tree.name]

/-- The tree is laid out in a stream of less than 4 GiB on storage that does not fail. The tables
have places of their own; what else is in the stream, and in which order, is left open. -/
structure Tree.IsIn (tree : Tree) (s : Stream) : Prop where
  healthy : s.failAt = none
  length_lt : s.length < 2 ^ 32
  header : magic ++ s.order.encode 4 tree.root <+: s.bytes
  root : rootBytes s.order tree.name tree.table <+: s.bytes.drop tree.root
  tables : ∀ table ∈ tree.tables, tableBytes s.order table.2 <+: s.bytes.drop table.1
  distinct : (tree.tables.map Prod.fst).Nodup
  isName : IsName tree.name
  fits : Fits s.length tree.inside
  levels_le : tree.inside.levels ≤ maxDepth

/-- The caller allows as many entries as there are files, and as there are nodes in any table. -/
structure Tree.IsAllowed (tree : Tree) (options : Options) : Prop where
  files_le : tree.files.length ≤ options.maxEntries
  count_le : ∀ table ∈ tree.tables, table.2.count ≤ options.maxEntries

/-! ### A tree that is laid out is read -/

/-- What is read of a node behind its name. -/
def readBody (source : Location) (kind : ℕ) (name : String) : Reader TreeNode := do
  if kind = fileKind then
    let offset ← Reader.u32
    let length ← Reader.u32
    Reader.checkRange "entry" offset length
    return .file name { source, offset, stored := length }
  else if kind = folderKind then
    return .folder name (← Reader.u32)
  else throw (.odd (.nodeKind kind))

/-- What is read in front of the walk: the root node. -/
def readRoot (source : Location) : Reader TreeNode := do
  Reader.skip magic.length
  let root ← Reader.u32
  Reader.checkRange "root node" root minNodeSize
  Reader.seek root
  readNode source

theorem decode_eq (source : Location) : decode source = (do
    match ← readRoot source with
    | .file _ _ => throw (.odd .rootNotFolder)
    | .folder name table => Decode.walkTree name table maxDepth (readFolder source)) := by
  simp only [readRoot, liftReader_bind, bind_assoc]
  rfl

theorem readNode_of_ahead (source : Location) {kind : ℕ} (hkind : kind < 256) (hname : IsName name)
    (h : s.ahead = headBytes kind name ++ rest) :
    readNode source s = readBody source kind name (s.advance (headBytes kind name).length) ∧
      (s.advance (headBytes kind name).length).ahead = rest := by
  have hlength : (UInt8.ofNat (Utf8.encode name).length).toNat = (Utf8.encode name).length := by
    rw [UInt8.toNat_ofNat']
    have := hname.length_le
    omega
  have hsecond : (s.advance 1).ahead
      = UInt8.ofNat (Utf8.encode name).length :: (Utf8.encode name ++ rest) := by
    rw [Stream.ahead_advance, h]
    rfl
  have hthird : ((s.advance 1).advance 1).ahead = Utf8.encode name ++ rest := by
    rw [Stream.ahead_advance, hsecond]
    rfl
  have hadvance : ((s.advance 1).advance 1).advance (Utf8.encode name).length
      = s.advance (headBytes kind name).length := by
    rw [Stream.advance_advance, Stream.advance_advance, headBytes, List.length_cons,
      List.length_cons]
    congr 1
    omega
  have hfirst := u8_of_cons h
  have hnext := u8_of_cons hsecond
  have hlast := fixedString_of_append hname.plain hthird
  rw [UInt8.toNat_ofNat', Nat.mod_eq_of_lt hkind] at hfirst
  rw [hlength] at hnext
  rw [hadvance] at hlast
  constructor
  · rw [readNode, bind_of_ok hfirst, bind_of_ok hnext, bind_of_ok hlast]
    rfl
  · rw [Stream.ahead_advance, h, List.drop_left]

theorem readNode_file (source : Location) {offset length : ℕ} (hname : IsName name)
    (hrange : offset + length ≤ s.length) (hlt : s.length < 2 ^ 32)
    (h : s.ahead = headBytes fileKind name
      ++ (s.order.encode 4 offset ++ (s.order.encode 4 length ++ rest))) :
    ∃ t, readNode source s = .ok (.file name { source, offset, stored := length }) t ∧
      t.source = s.source ∧ t.ahead = rest := by
  have hmax := Word.max_eq
  obtain ⟨hnode, hbody⟩ := readNode_of_ahead source (by decide) hname h
  have hoffset := u32_of_append (by omega) hbody
  have hmid := ahead_of_word hbody
  have hlength := u32_of_append (by omega) hmid
  have hchecked : Reader.checkRange "entry" offset length
      (((s.advance (headBytes fileKind name).length).advance 4).advance 4) = .ok () _ :=
    checkRange_eq_ok.mpr ⟨hrange, by omega, rfl⟩
  refine ⟨_, ?_, ?_, ahead_of_word hmid⟩
  · rw [hnode, readBody, if_pos rfl, bind_of_ok hoffset, bind_of_ok hlength, bind_of_ok hchecked]
    rfl
  · rfl

theorem readNode_folder (source : Location) {table : ℕ} (hname : IsName name)
    (htable : table < 2 ^ 32)
    (h : s.ahead = headBytes folderKind name ++ (s.order.encode 4 table ++ rest)) :
    ∃ t, readNode source s = .ok (.folder name table) t ∧ t.source = s.source ∧ t.ahead = rest := by
  obtain ⟨hnode, hbody⟩ := readNode_of_ahead source (by decide) hname h
  refine ⟨_, ?_, ?_, ahead_of_word hbody⟩
  · rw [hnode, readBody, if_neg (by decide), if_pos rfl, bind_of_ok (u32_of_append htable hbody)]
    rfl
  · rfl

/-- The nodes of a table are read. The induction is on the forest along the table, and not into the
folders. -/
theorem readNodes_of_ahead (source : Location) (found : Array TreeNode)
    (hfits : Fits s.length forest) (hlt : s.length < 2 ^ 32)
    (htables : ∀ table ∈ forest.tables, table.1 < 2 ^ 32)
    (h : s.ahead = nodeBytes s.order forest ++ rest) :
    ∃ t, readNodes source forest.count found s
        = .ok (found ++ (forest.nodes source).toArray) t ∧ t.source = s.source := by
  induction forest generalizing s found with
  | nil =>
    refine ⟨s, ?_, rfl⟩
    rw [Forest.nodes, Array.append_empty]
    rfl
  | file name offset length next ih =>
    obtain ⟨hname, hrange, hfits⟩ := hfits
    simp only [nodeBytes, List.append_assoc] at h
    obtain ⟨u, hu, hsource, hahead⟩ := readNode_file source hname hrange hlt h
    rw [← Stream.order_of_source hsource] at hahead
    rw [← Stream.length_of_source hsource] at hfits hlt
    obtain ⟨t, ht, hts⟩ := ih (found.push _) hfits hlt htables hahead
    refine ⟨t, ?_, hts.trans hsource⟩
    rw [Forest.count, readNodes, bind_of_ok hu, ht, Forest.nodes]
    simp
  | folder name table inside next _ ih =>
    obtain ⟨hname, -, hfits⟩ := hfits
    rw [Forest.tables, List.forall_mem_cons] at htables
    simp only [nodeBytes, List.append_assoc] at h
    obtain ⟨u, hu, hsource, hahead⟩ := readNode_folder source hname htables.1 h
    rw [← Stream.order_of_source hsource] at hahead
    rw [← Stream.length_of_source hsource] at hfits hlt
    obtain ⟨t, ht, hts⟩ := ih (found.push _) hfits hlt
      (fun t ht => htables.2 t (List.mem_append_right _ ht)) hahead
    refine ⟨t, ?_, hts.trans hsource⟩
    rw [Forest.count, readNodes, bind_of_ok hu, ht, Forest.nodes]
    simp

/-- A node takes at least as many bytes as the smallest one. -/
theorem mul_count_le (order : ByteOrder) (forest : Forest) :
    forest.count * minNodeSize ≤ (nodeBytes order forest).length := by
  induction forest with
  | nil => simp [Forest.count]
  | file name offset length next ih =>
    simp only [Forest.count, nodeBytes, headBytes, minNodeSize, List.length_append,
      List.length_cons, ByteOrder.length_encode] at ih ⊢
    omega
  | folder name table inside next _ ih =>
    simp only [Forest.count, nodeBytes, headBytes, minNodeSize, List.length_append,
      List.length_cons, ByteOrder.length_encode] at ih ⊢
    omega

/-- Tables are in front of the end of their stream. -/
theorem lt_of_isPrefix {place : ℕ} (h : tableBytes order forest <+: bytes.drop place) :
    place + 4 + forest.count * minNodeSize ≤ bytes.length := by
  have hlength := h.length_le
  have hcount := mul_count_le order forest
  rw [tableBytes, List.length_append, ByteOrder.length_encode, List.length_drop] at hlength
  omega

/-- A table that is laid out is read, wherever the stream was left. -/
theorem exists_readFolder (source : Location) {table : ℕ} (hhealthy : x.stream.failAt = none)
    (hlt : x.stream.length < 2 ^ 32)
    (hbytes : tableBytes x.stream.order forest <+: x.stream.bytes.drop table)
    (hfits : Fits x.stream.length forest) (htables : ∀ t ∈ forest.tables, t.1 < 2 ^ 32)
    (hcount : forest.count ≤ x.context.options.maxEntries) :
    ∃ y, readFolder source table x = .ok (forest.nodes source) y ∧ y.input = x.input := by
  have hmax := Word.max_eq
  have hplace : table + 4 + forest.count * minNodeSize ≤ x.stream.length := lt_of_isPrefix hbytes
  obtain ⟨rest, hrest⟩ := hbytes
  let s : Stream := { x.stream with position := table }
  have hahead : s.ahead = s.order.encode 4 forest.count ++ (nodeBytes s.order forest ++ rest) := by
    rw [← List.append_assoc]
    exact (Stream.ahead_goto hhealthy table).trans hrest.symm
  have hseek : Reader.seek table x.stream = .ok () s := seek_eq_ok.mpr ⟨by omega, rfl⟩
  have hdeclared : Reader.u32 s = .ok forest.count (s.advance 4) :=
    u32_of_append (by rw [minNodeSize] at hplace; omega) hahead
  have hbehind : (s.advance 4).ahead = nodeBytes (s.advance 4).order forest ++ rest :=
    ahead_of_word hahead
  have hinside : Fits (s.advance 4).length forest := hfits
  obtain ⟨t, ht, hsource⟩ := readNodes_of_ahead source #[] hinside hlt htables hbehind
  rw [Array.empty_append] at ht
  have hroom : Word.satMul forest.count minNodeSize ≤ (s.advance 4).remaining := by
    show min _ _ ≤ x.stream.length - (table + 4)
    omega
  refine ⟨{ x with stream := t }, ?_, ?_⟩
  · simp only [readFolder, bind_eq_ok, liftReader_eq_ok, remaining_eq_ok, checkCount_eq_ok,
      pure_eq_ok]
    exact ⟨(), _, ⟨s, hseek, rfl⟩, _, _, ⟨_, hdeclared, rfl⟩, _, _, ⟨_, ⟨rfl, rfl⟩, rfl⟩, _, _,
      ⟨hcount, hroom, rfl, rfl⟩, _, _, ⟨t, ht, rfl⟩, rfl, rfl⟩
  · exact Session.input_of_source x hsource

theorem Fits.of_mem_tables {length : ℕ} (h : Fits length forest) {table : ℕ × Forest}
    (htable : table ∈ forest.tables) : Fits length table.2 := by
  induction forest with
  | nil => exact absurd htable List.not_mem_nil
  | file _ _ _ next ih => exact ih h.2.2 htable
  | folder _ place inside next ihinside ihnext =>
    simp only [Forest.tables, List.mem_cons, List.mem_append] at htable
    rcases htable with rfl | htable | htable
    · exact h.2.1
    · exact ihinside h.2.1 htable
    · exact ihnext h.2.2 htable

theorem Fits.le_of_mem_files {length : ℕ} (h : Fits length forest) {names : List String}
    {file : FileAt} (hfile : file ∈ forest.files names) : file.offset + file.length ≤ length := by
  induction forest generalizing names with
  | nil => exact absurd hfile List.not_mem_nil
  | file _ _ _ next ih =>
    rcases List.mem_cons.mp hfile with rfl | hfile
    · exact h.2.1
    · exact ih h.2.2 hfile
  | folder _ _ inside next ihinside ihnext =>
    rcases List.mem_append.mp hfile with hfile | hfile
    · exact ihinside h.2.1 hfile
    · exact ihnext h.2.2 hfile

namespace Tree.IsIn

variable {tree : Tree}

/-- Where the stream was left does not matter. -/
theorem of_source (h : tree.IsIn s) (hst : t.source = s.source) : tree.IsIn t := by
  obtain ⟨bytes, position, order, failAt⟩ := s
  obtain ⟨_, _, _, _⟩ := t
  cases hst
  exact ⟨h.healthy, h.length_lt, h.header, h.root, h.tables, h.distinct, h.isName, h.fits,
    h.levels_le⟩

theorem table_lt (h : tree.IsIn s) {table : ℕ × Forest} (htable : table ∈ tree.tables) :
    table.1 < 2 ^ 32 := by
  have hplace : table.1 + 4 + _ ≤ s.length := lt_of_isPrefix (h.tables table htable)
  have hlt := h.length_lt
  omega

theorem root_le (h : tree.IsIn s) : tree.root + minNodeSize ≤ s.length := by
  have hlength := h.root.length_le
  rw [rootBytes, headBytes, List.length_append, List.length_cons, List.length_cons,
    ByteOrder.length_encode, List.length_drop] at hlength
  show _ ≤ s.bytes.length
  rw [minNodeSize]
  omega

/-- Every table of the tree is read in every session over the stream. -/
theorem yields (h : tree.IsIn x.stream) (hallowed : tree.IsAllowed x.context.options)
    (source : Location) {table : ℕ × Forest} (htable : table ∈ tree.tables) :
    Walks.Yields x.input source (readFolder source) table := by
  intro z hz
  have hin := h.of_source (Session.source_of_input hz)
  have hoptions : z.context.options = x.context.options := congrArg (fun input => input.2.1) hz
  rw [← hoptions] at hallowed
  have hfits : Fits z.stream.length table.2 ∧ ∀ t ∈ table.2.tables, t ∈ tree.tables := by
    rcases List.mem_cons.mp htable with rfl | hmem
    · exact ⟨hin.fits, fun t ht => List.mem_cons_of_mem _ ht⟩
    · exact ⟨hin.fits.of_mem_tables hmem,
        fun t ht => List.mem_cons_of_mem _ (Forest.mem_tables_of_mem hmem ht)⟩
  obtain ⟨y, hy, hkept⟩ := exists_readFolder source hin.healthy hin.length_lt
    (hin.tables table htable) hfits.1 (fun t ht => hin.table_lt (hfits.2 t ht))
    (hallowed.count_le table htable)
  exact ⟨y, hy, hkept.trans hz⟩

end Tree.IsIn

/-- The root node is read, from the place that the header refers to. -/
theorem exists_readRoot {tree : Tree} (source : Location) (h : tree.IsIn s)
    (hstart : s.position = 0) :
    ∃ t, readRoot source s = .ok (.folder tree.name tree.table) t ∧ t.source = s.source := by
  have hmax := Word.max_eq
  have hlt := h.length_lt
  have hrootLe := h.root_le
  obtain ⟨rest, hheader⟩ := h.header
  obtain ⟨behind, hroot⟩ := h.root
  have hlong : 8 ≤ s.length := by
    rw [Stream.length, ← hheader]
    simp only [List.length_append, ByteOrder.length_encode]
    exact Nat.le_add_right 8 _
  let u : Stream := { s with position := magic.length }
  have hskip : Reader.skip magic.length s = .ok () u :=
    (skip_start_eq_ok hstart (by decide)).mpr ⟨Nat.le_trans (by decide) hlong, rfl⟩
  have hplace : u.ahead = u.order.encode 4 tree.root ++ rest := by
    refine (Stream.ahead_goto h.healthy magic.length).trans ?_
    rw [← hheader, List.append_assoc, List.drop_left]
  have hword := u32_of_append (by omega) hplace
  let r : Stream := { s with position := tree.root }
  have hchecked : Reader.checkRange "root node" tree.root minNodeSize (u.advance 4)
      = .ok () (u.advance 4) := checkRange_eq_ok.mpr ⟨hrootLe, by omega, rfl⟩
  have hseek : Reader.seek tree.root (u.advance 4) = .ok () r :=
    seek_eq_ok.mpr ⟨Nat.le_trans (Nat.le_add_right _ _) hrootLe, rfl⟩
  have hnode : r.ahead = headBytes folderKind tree.name
      ++ (r.order.encode 4 tree.table ++ behind) := by
    rw [← List.append_assoc]
    exact (Stream.ahead_goto h.healthy tree.root).trans hroot.symm
  obtain ⟨t, ht, hsource, -⟩ :=
    readNode_folder source h.isName (h.table_lt List.mem_cons_self) hnode
  refine ⟨t, ?_, hsource⟩
  rw [readRoot, bind_of_ok hskip, bind_of_ok hword, bind_of_ok hchecked, bind_of_ok hseek, ht]

/-- The decoder finds the files of a tree that is laid out. -/
theorem exists_decode {tree : Tree} (source : Location) (h : tree.IsIn x.stream)
    (hstart : x.stream.position = 0) (hallowed : tree.IsAllowed x.context.options) :
    ∃ y, decode source x = .ok (tree.files.map (FileAt.entry source)) y ∧ y.input = x.input := by
  obtain ⟨t, ht, hsource⟩ := exists_readRoot source h hstart
  have hinput := Session.input_of_source x hsource
  obtain ⟨y, hy, hkept⟩ := Walks.walkTree_of_forest (fun table => h.yields hallowed source)
    h.levels_le (by decide) h.distinct hallowed.files_le hinput
  refine ⟨y, ?_, hkept⟩
  rw [decode_eq, bind_of_ok (liftReader_eq_ok.mpr ⟨t, ht, rfl⟩)]
  exact hy

/-- **A tree that is laid out is read**: its files in the order of the tables, under the names on
the way that are not empty, each with its own data. -/
theorem readDirectory_of_isIn {tree : Tree} (h : tree.IsIn x.stream)
    (hallowed : tree.IsAllowed x.context.options) (hsource : source.length = x.stream.length)
    (hsort : x.context.options.sortByOffset = false) :
    ∃ y, format.readDirectory source x = .ok (tree.files.map (FileAt.entry source)) y := by
  have hin : tree.IsIn x.started.stream := h.of_source rfl
  obtain ⟨y, hdecode, hkept⟩ := exists_decode source hin rfl hallowed
  refine ⟨y, Format.readDirectory_of_decode hdecode hkept hsort ?_⟩
  intro e he
  obtain ⟨file, hfile, rfl⟩ := List.mem_map.mp he
  rw [show (file.entry source).source = source from rfl, hsource]
  exact h.fits.le_of_mem_files hfile

/-! ### What is on the way

The places here are those that the bytes refer to, whether or not they lie in the stream. -/

section

variable (order bytes)

/-- The kind of the node at a place. -/
def kindAt (place : ℕ) : ℕ := ByteOrder.little.field 1 bytes place

/-- Where the fields of a node start that stand behind its name. -/
def bodyAt (place : ℕ) : ℕ := place + 2 + ByteOrder.little.field 1 bytes (place + 1)

/-- Where the node at a place ends. -/
def endAt (place : ℕ) : ℕ := bodyAt bytes place + if kindAt bytes place = fileKind then 8 else 4

/-- Where the node at an index starts, and so where those before it end, counted from a place. -/
def placeFrom (place : ℕ) : ℕ → ℕ
  | 0 => place
  | index + 1 => placeFrom (endAt bytes place) index

/-- How many nodes the table at a place has. -/
def countAt (table : ℕ) : ℕ := order.field 4 bytes table

/-- Where the node at an index of a table is. -/
def nodePlace (table index : ℕ) : ℕ := placeFrom bytes (table + 4) index

/-- Where the root node is. -/
def rootPlace : ℕ := order.field 4 bytes magic.length

/-- The first field behind the name of the node at a place: where the data of a file start, or where
the table of a folder is. -/
def targetAt (place : ℕ) : ℕ := order.field 4 bytes (bodyAt bytes place)

/-- How long the data of the file at a place are. -/
def lengthAt (place : ℕ) : ℕ := order.field 4 bytes (bodyAt bytes place + 4)

/-- The tables that are on the way of a walk, with the indices of the folders that lead there. -/
inductive Reached : List ℕ → ℕ → Prop where
  | root : Reached [] (targetAt order bytes (rootPlace order bytes))
  | inside {way : List ℕ} {table index : ℕ} :
    Reached way table → index < countAt order bytes table →
    kindAt bytes (nodePlace bytes table index) = folderKind →
    Reached (way ++ [index]) (targetAt order bytes (nodePlace bytes table index))

/-- What may be wrong on the way. -/
inductive Defect : Prop where
  /-- The root is not a folder. -/
  | root (h : kindAt bytes (rootPlace order bytes) ≠ folderKind)
  /-- A table is reached twice. -/
  | twice {way way' : List ℕ} {table : ℕ} (h : Reached order bytes way table)
    (h' : Reached order bytes way' table) (hne : way ≠ way')
  /-- A folder is too far below the root. -/
  | deep {way : List ℕ} {table : ℕ} (h : Reached order bytes way table)
    (hdeep : maxDepth < way.length)
  /-- A table does not end in the stream. -/
  | table {way : List ℕ} {table : ℕ} (h : Reached order bytes way table)
    (hend : bytes.length < nodePlace bytes table (countAt order bytes table))
  /-- A node is of no known kind. -/
  | kind {way : List ℕ} {table index : ℕ} (h : Reached order bytes way table)
    (hindex : index < countAt order bytes table)
    (hkind : kindAt bytes (nodePlace bytes table index) ∉ [fileKind, folderKind])
  /-- The data of a file do not end in the stream. -/
  | data {way : List ℕ} {table index : ℕ} (h : Reached order bytes way table)
    (hindex : index < countAt order bytes table)
    (hkind : kindAt bytes (nodePlace bytes table index) = fileKind)
    (hend : bytes.length < targetAt order bytes (nodePlace bytes table index)
      + lengthAt order bytes (nodePlace bytes table index))

end

/-! ### A stream that is read has no defect -/

/-- The node at a place, as it is read if it can be. -/
def nodeAt (source : Location) (order : ByteOrder) (bytes : Bytes) (place : ℕ) : TreeNode :=
  let name := Utf8.decode (Reader.beforeZero
    ((bytes.drop (place + 2)).take (ByteOrder.little.field 1 bytes (place + 1))))
  if kindAt bytes place = fileKind then
    .file name
      { source, offset := targetAt order bytes place, stored := lengthAt order bytes place }
  else .folder name (targetAt order bytes place)

/-- The nodes from a place on. -/
def nodesFrom (source : Location) (order : ByteOrder) (bytes : Bytes) : ℕ → ℕ → List TreeNode
  | 0, _ => []
  | count + 1, place =>
    nodeAt source order bytes place :: nodesFrom source order bytes count (endAt bytes place)

/-- The nodes of the table at a place. -/
def childrenAt (source : Location) (order : ByteOrder) (bytes : Bytes) (table : ℕ) :
    List TreeNode :=
  nodesFrom source order bytes (countAt order bytes table) (table + 4)

/-- The node at a place is of a known kind, and a file has its data in the stream. -/
structure IsNode (order : ByteOrder) (bytes : Bytes) (place : ℕ) : Prop where
  kind : kindAt bytes place ∈ [fileKind, folderKind]
  data_le : kindAt bytes place = fileKind →
    targetAt order bytes place + lengthAt order bytes place ≤ bytes.length

/-- The table at a place ends in the stream, and its nodes are nodes. -/
structure IsTable (order : ByteOrder) (bytes : Bytes) (table : ℕ) : Prop where
  end_le : nodePlace bytes table (countAt order bytes table) ≤ bytes.length
  isNode : ∀ index < countAt order bytes table, IsNode order bytes (nodePlace bytes table index)

/-- A node that was read is the one at its place. -/
theorem of_readNode {node : TreeNode} (h : readNode source s = .ok node t) :
    node = nodeAt source s.order s.bytes s.position ∧ IsNode s.order s.bytes s.position ∧
      t = { s with position := endAt s.bytes s.position } ∧
        endAt s.bytes s.position ≤ s.length := by
  simp only [readNode, bind_eq_ok] at h
  obtain ⟨kind, _, hkind, size, _, hsize, name, _, hname, h⟩ := h
  obtain ⟨-, rfl, rfl⟩ := of_u8 hkind
  obtain ⟨hle, rfl, rfl⟩ := of_u8 hsize
  obtain ⟨hend, rfl, rfl⟩ := of_fixedString (fun _ => hle) hname
  split_ifs at h with hfile hfolder
  · simp only [bind_eq_ok, checkRange_eq_ok, pure_eq_ok] at h
    obtain ⟨offset, _, hoffset, length, _, hlength, _, _, ⟨hrange, -, rfl⟩, rfl, rfl⟩ := h
    obtain ⟨-, rfl, rfl⟩ := of_u32 hoffset
    obtain ⟨hlast, rfl, rfl⟩ := of_u32 hlength
    have hfile : kindAt s.bytes s.position = fileKind := hfile
    refine ⟨?_, ⟨by rw [hfile]; decide, fun _ => hrange⟩, ?_, ?_⟩
    · rw [nodeAt, if_pos hfile]
      rfl
    · rw [endAt, if_pos hfile]
      rfl
    · rw [endAt, if_pos hfile]
      exact hlast
  · simp only [bind_eq_ok, pure_eq_ok] at h
    obtain ⟨offset, _, hoffset, rfl, rfl⟩ := h
    obtain ⟨hlast, rfl, rfl⟩ := of_u32 hoffset
    have hfile : kindAt s.bytes s.position ≠ fileKind := hfile
    have hfolder : kindAt s.bytes s.position = folderKind := hfolder
    refine ⟨?_, ⟨by rw [hfolder]; decide, fun h => absurd h hfile⟩, ?_, ?_⟩
    · rw [nodeAt, if_neg hfile]
      rfl
    · rw [endAt, if_neg hfile]
      rfl
    · rw [endAt, if_neg hfile]
      exact hlast
  · exact (throw_eq_ok.mp h).elim

/-- Nodes that were read are the ones at their places, one behind the other. -/
theorem of_readNodes {count : ℕ} {found nodes : Array TreeNode} (hposition : s.position ≤ s.length)
    (h : readNodes source count found s = .ok nodes t) :
    nodes.toList = found.toList ++ nodesFrom source s.order s.bytes count s.position ∧
      placeFrom s.bytes s.position count ≤ s.length ∧
      ∀ index < count, IsNode s.order s.bytes (placeFrom s.bytes s.position index) := by
  induction count generalizing s found with
  | zero =>
    obtain ⟨rfl, rfl⟩ := pure_eq_ok.mp h
    exact ⟨by simp [nodesFrom], hposition, fun _ hindex => absurd hindex (Nat.not_lt_zero _)⟩
  | succ count ih =>
    rw [readNodes] at h
    obtain ⟨node, u, hnode, hrest⟩ := bind_eq_ok.mp h
    obtain ⟨rfl, hisNode, rfl, hend⟩ := of_readNode hnode
    obtain ⟨hnodes, hlast, hall⟩ := ih hend hrest
    refine ⟨?_, hlast, fun index hindex => ?_⟩
    · rw [hnodes, Array.toList_push, List.append_assoc]
      rfl
    · cases index with
      | zero => exact hisNode
      | succ index => exact hall index (by omega)

theorem getElem?_nodesFrom {count place index : ℕ} (h : index < count) :
    (nodesFrom source order bytes count place)[index]?
      = some (nodeAt source order bytes (placeFrom bytes place index)) := by
  induction count generalizing place index with
  | zero => exact absurd h (Nat.not_lt_zero _)
  | succ count ih =>
    cases index with
    | zero => rfl
    | succ index =>
      rw [nodesFrom, List.getElem?_cons_succ, ih (by omega)]
      rfl

theorem keeps_readNode (source : Location) : Keeps Stream.source (readNode source) :=
  keeps_u8.bind fun _ => keeps_u8.bind fun _ => (keeps_fixedString _).bind fun _ =>
    Keeps.ite (keeps_u32.bind fun _ => keeps_u32.bind fun _ => (keeps_checkRange _ _ _).bind
      fun _ => keeps_pure _) (Keeps.ite (keeps_u32.bind fun _ => keeps_pure _) (keeps_throw _))

theorem keeps_readNodes (source : Location) (count : ℕ) (found : Array TreeNode) :
    Keeps Stream.source (readNodes source count found) := by
  induction count generalizing found with
  | zero => exact keeps_pure _
  | succ count ih => exact (keeps_readNode source).bind fun node => ih (found.push node)

/-- A table that was read is a table, and its nodes are those at its place. -/
theorem of_readFolder {table : ℕ} {nodes : List TreeNode}
    (h : readFolder source table x = .ok nodes y) :
    nodes = childrenAt source x.stream.order x.stream.bytes table ∧
      IsTable x.stream.order x.stream.bytes table := by
  simp only [readFolder, bind_eq_ok, liftReader_eq_ok, seek_eq_ok, remaining_eq_ok,
    checkCount_eq_ok, pure_eq_ok] at h
  obtain ⟨_, _, ⟨_, ⟨hplace, rfl⟩, rfl⟩, declared, _, ⟨_, hdeclared, rfl⟩, _, _,
    ⟨_, ⟨rfl, rfl⟩, rfl⟩, _, _, ⟨-, -, rfl, rfl⟩, found, _, ⟨t, hfound, rfl⟩, rfl, -⟩ := h
  obtain ⟨hstart, rfl, rfl⟩ := of_u32 hdeclared
  obtain ⟨hnodes, hend, hall⟩ := of_readNodes hstart hfound
  exact ⟨hnodes, hend, hall⟩

theorem ensures_readFolder (source : Location) (table : ℕ) :
    Ensures Session.input x.input
      (fun nodes => nodes = childrenAt source x.stream.order x.stream.bytes table ∧
        IsTable x.stream.order x.stream.bytes table)
      (readFolder source table) := by
  have hkeeps : Keeps Session.input (readFolder source table) :=
    (keeps_liftReader (keeps_seek _)).bind fun _ => (keeps_liftReader keeps_u32).bind fun _ =>
      (keeps_liftReader keeps_remaining).bind fun _ => (keeps_checkCount _ _ _).bind fun _ =>
        (keeps_liftReader (keeps_readNodes _ _ _)).bind fun _ => keeps_pure _
  intro z hz
  refine ⟨(hkeeps z).trans hz, fun nodes y h => ?_⟩
  have hsource : z.stream.source = x.stream.source := Session.source_of_input hz
  have horder : z.stream.order = x.stream.order := Stream.order_of_source hsource
  have hbytes : z.stream.bytes = x.stream.bytes := Stream.bytes_of_source hsource
  rw [← horder, ← hbytes]
  exact of_readFolder h

theorem exists_nodeAt_folder (source : Location) (order : ByteOrder) {place : ℕ}
    (h : kindAt bytes place = folderKind) :
    ∃ name, nodeAt source order bytes place = .folder name (targetAt order bytes place) := by
  have hfile : kindAt bytes place ≠ fileKind := by
    rw [h]
    decide
  exact ⟨_, by rw [nodeAt, if_neg hfile]⟩

/-- What is on the way is below the table of the root. -/
theorem below_of_reached (source : Location) {way : List ℕ} {table : ℕ}
    (h : Reached order bytes way table) :
    Below (childrenAt source order bytes) (targetAt order bytes (rootPlace order bytes)) way
      table := by
  induction h with
  | root => exact .here _
  | inside _ hindex hkind ih =>
    obtain ⟨name, hname⟩ := exists_nodeAt_folder source order hkind
    exact ih.snoc ((getElem?_nodesFrom hindex).trans (congrArg some hname))

/-- The root node that was read is the one that the header refers to. -/
theorem of_readRoot {node : TreeNode} (hstart : s.position = 0)
    (h : readRoot source s = .ok node t) :
    node = nodeAt source s.order s.bytes (rootPlace s.order s.bytes) ∧
      IsNode s.order s.bytes (rootPlace s.order s.bytes) ∧ t.source = s.source := by
  simp only [readRoot, bind_eq_ok, skip_start_eq_ok (k := magic.length) hstart (by decide),
    checkRange_eq_ok, seek_eq_ok] at h
  obtain ⟨_, _, ⟨-, rfl⟩, root, _, hroot, _, _, ⟨-, -, rfl⟩, _, _, ⟨-, rfl⟩, hnode⟩ := h
  obtain ⟨-, rfl, rfl⟩ := of_u32 hroot
  obtain ⟨rfl, hisNode, rfl, -⟩ := of_readNode hnode
  exact ⟨rfl, hisNode, rfl⟩

/-- A stream whose decoding ends well has a folder at its root, and the walk has explored it. -/
theorem explored_of_decode {entries : List Entry} (hstart : x.stream.position = 0)
    (h : decode source x = .ok entries y) :
    kindAt x.stream.bytes (rootPlace x.stream.order x.stream.bytes) = folderKind ∧
      ∃ visited, Explored (Reached x.stream.order x.stream.bytes)
        (IsTable x.stream.order x.stream.bytes) (maxDepth + 1) [] visited := by
  rw [decode_eq] at h
  obtain ⟨node, z, hz, h⟩ := bind_eq_ok.mp h
  obtain ⟨t, ht, rfl⟩ := liftReader_eq_ok.mp hz
  obtain ⟨rfl, hisNode, hsource⟩ := of_readRoot hstart ht
  have hkind := hisNode.kind
  simp only [List.mem_cons, List.not_mem_nil, or_false] at hkind
  rcases hkind with hfile | hfolder
  · rw [nodeAt, if_pos hfile] at h
    exact (throw_eq_ok.mp h).elim
  · obtain ⟨name, hname⟩ := exists_nodeAt_folder source x.stream.order hfolder
    rw [hname] at h
    have hinput := Session.input_of_source x hsource
    obtain ⟨visited, hexplored⟩ :=
      Walks.explored_of_walkTree (ensures_readFolder source) (by decide) hinput h
    exact ⟨hfolder, visited, hexplored.of_imp fun _ _ => below_of_reached source⟩

/-- **A stream that is read has no defect.** -/
theorem not_defect_of_readDirectory {entries : List Entry}
    (h : format.readDirectory source x = .ok entries y) :
    ¬ Defect x.stream.order x.stream.bytes := by
  obtain ⟨found, hdecode, -⟩ := Format.readDirectory_eq_ok.mp h
  obtain ⟨hroot, visited, hexplored⟩ := explored_of_decode rfl hdecode
  have htable : ∀ {way table}, Reached x.stream.order x.stream.bytes way table →
      way.length < maxDepth + 1 ∧ IsTable x.stream.order x.stream.bytes table := fun h =>
    ⟨(hexplored.inside _ _ h).1, (hexplored.inside _ _ h).2.1⟩
  intro hdefect
  cases hdefect with
  | root hkind => exact hkind hroot
  | twice hway hway' hne => exact hne (hexplored.once _ _ _ hway hway')
  | deep hway hdeep => exact absurd (htable hway).1 (by omega)
  | table hway hend => exact absurd (htable hway).2.end_le (Nat.not_le.mpr hend)
  | kind hway hindex hkind => exact hkind ((htable hway).2.isNode _ hindex).kind
  | data hway hindex hkind hend =>
    exact absurd (((htable hway).2.isNode _ hindex).data_le hkind) (Nat.not_le.mpr hend)

/-! ### Both directions -/

/-- **Reading inverts the layout.** A tree that is laid out is read as its files, depth first in the
order of the tables, each named by the names on the way to it with backslashes between them, and
each with its own data. If anything on the way is wrong, reading ends with an error. -/
theorem readDirectory_inverts_layout :
    (∀ {tree : Tree} {source : Location} {x : Session}, tree.IsIn x.stream →
      tree.IsAllowed x.context.options → source.length = x.stream.length →
      x.context.options.sortByOffset = false →
      ∃ y, format.readDirectory source x = .ok (tree.files.map (FileAt.entry source)) y) ∧
    ∀ {source : Location} {x : Session}, Defect x.stream.order x.stream.bytes →
      ∃ e y, format.readDirectory source x = .error e y := by
  constructor
  · intro tree source x h hallowed hsource hsort
    exact readDirectory_of_isIn h hallowed hsource hsort
  · intro source x hdefect
    exact exists_error_of_ne_ok fun entries y h => not_defect_of_readDirectory h hdefect

/-- An archive of a file and of a folder without a name, whose table is at a given place, with
another file in front of the data. -/
def nested (table : UInt8) : Bytes :=
  magic ++ [8, 0, 0, 0] ++ [1, 1, 0x72, 15, 0, 0, 0] ++
    [2, 0, 0, 0] ++ [0, 1, 0x61, 51, 0, 0, 0, 1, 0, 0, 0] ++ [1, 0, table, 0, 0, 0] ++
    [1, 0, 0, 0] ++ [0, 1, 0x62, 52, 0, 0, 0, 1, 0, 0, 0] ++ [0x78, 0x79]

/-- The tree of that archive. -/
def nestedTree : Tree :=
  ⟨8, "r", 15, .file "a" 51 1 (.folder "" 36 (.file "b" 52 1 .nil) .nil)⟩

theorem isIn_nested : nestedTree.IsIn (.ofBytes (nested 36)) where
  healthy := rfl
  length_lt := by decide
  header := by decide
  root := by decide
  tables := by decide
  distinct := by decide
  isName := ⟨by decide, by decide⟩
  fits := ⟨⟨by decide, by decide⟩, by decide, ⟨by decide, by decide⟩,
    ⟨⟨by decide, by decide⟩, by decide, trivial⟩, trivial⟩
  levels_le := by decide

/-- The archive is read, and with the folder's table in the place of the root's it is not. -/
theorem readDirectory_inverts_layout_nested :
    (∃ y, format.readDirectory (.memory 53) { stream := .ofBytes (nested 36) } = .ok
      [{ source := .memory 53, name := some "r\\a", offset := 51, stored := 1 },
        { source := .memory 53, name := some "r\\b", offset := 52, stored := 1 }] y) ∧
    ∃ e y, format.readDirectory (.memory 53) { stream := .ofBytes (nested 15) } = .error e y := by
  have hallowed : nestedTree.IsAllowed {} := ⟨by decide, by decide⟩
  have hfirst : Reached .little (nested 15) [] 15 := .root
  have hsecond : Reached .little (nested 15) ([] ++ [1]) 15 :=
    .inside hfirst (by decide) (by decide)
  have hlength : (Location.memory 53).length = (Stream.ofBytes (nested 36)).length := rfl
  obtain ⟨y, hy⟩ := readDirectory_inverts_layout.1 (x := { stream := .ofBytes (nested 36) })
    isIn_nested hallowed hlength rfl
  exact ⟨⟨y, hy⟩, readDirectory_inverts_layout.2 (.twice hfirst hsecond (by decide))⟩

end Packfile.Dtre
