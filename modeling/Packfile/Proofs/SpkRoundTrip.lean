import Packfile.Format.Spk
import Packfile.Proofs.BlockRoundTrip
import Packfile.Proofs.Decoders
import Packfile.Proofs.Fields
import Packfile.Proofs.FileChanges
import Packfile.Proofs.FolderRanges
import Packfile.Proofs.Likeness

/-!
# SPK archives, laid out over several files and read

The directory of an archive has folders and file records, the data are in the parts next to it, and
the names are in a table that the caller provides. An archive that is laid out is read as its file
records in their order: each under the names of the folders on the way to it, with its data in the
part that the record names. A directory that names what is not there, or that contradicts itself, is
not read at all.

## Numbers of parts

The records count the parts from 0, and so do the paths of the parts. The entries count from 1,
since 0 stands for the directory.

## Main definitions

* `Spk.File`, `Spk.Layout` — a file, and an archive
* `Spk.Layout.IsIn` — the directory is in a stream, and the data are in the parts
* `Spk.Defect` — what may be wrong with a directory and its parts

## Main results

* `Spk.readDirectory_of_isIn`, `Spk.readEntry_of_isIn` — what is laid out is read
* `Spk.not_defect_of_readDirectory` — a directory that is read has no defect
* `Spk.readDirectory_inverts_parts` — both
-/

namespace Packfile.Spk

open Run Reading

variable {source : Location} {order : ByteOrder} {s t : Stream} {x y : Session} {rest : Bytes}
  {compressors : Compressors} {directory : String}

/-! ### The layout -/

/-- A file: what its record says, the block that is stored for it, and its content. -/
structure File where
  hash : ℕ
  part : ℕ
  flags : ℕ
  offset : ℕ
  block : Bytes
  content : Bytes
  deriving DecidableEq, Repr

/-- The record of a file. -/
def File.record (f : File) : FileRecord :=
  ⟨f.hash, f.part, f.flags, f.offset, f.block.length, f.content.length⟩

/-- The bytes of a file's record. -/
def File.bytes (order : ByteOrder) (f : File) : Bytes :=
  order.encode 4 f.hash ++ (order.encode 2 f.part ++ (order.encode 2 f.flags
    ++ (order.encode 4 f.offset ++ (order.encode 4 f.block.length
      ++ order.encode 4 f.content.length))))

/-- What stands for the parent of a folder at the top. -/
def noParent : ℕ := 0xFFFFFFFF

/-- The bytes of a folder. -/
def folderBytes (order : ByteOrder) (folder : FolderRange) : Bytes :=
  Names.padded nameSize folder.name ++ (order.encode 4 (folder.parent.getD noParent)
    ++ (order.encode 4 folder.first ++ order.encode 4 folder.count))

/-- An archive: its folders, its files, and the contents of its parts. -/
structure Layout where
  folders : List FolderRange
  files : List File
  parts : List Bytes
  deriving DecidableEq, Repr

/-- The directory of an archive. -/
def Layout.bytes (layout : Layout) (order : ByteOrder) : Bytes :=
  magic ++ (order.encode 2 layout.parts.length ++ (order.encode 2 layout.folders.length
    ++ (order.encode 4 layout.files.length ++ (layout.folders.flatMap (folderBytes order)
      ++ layout.files.flatMap (File.bytes order)))))

/-- Where the part with a number is found. -/
def Layout.location (layout : Layout) (directory : String) (number : ℕ) : Location :=
  { part := number + 1, path := some (partPath number directory)
    length := (layout.parts.getD number []).length }

/-- The entry of a file record under its whole name. -/
def Layout.entryOf (layout : Layout) (directory : String) (file : FileRecord) (name : String) :
    Entry :=
  file.entry (layout.location directory file.part) name

/-- The whole name of the file at an index: the folders on the way to it, from the top, and the name
that the table has for its hash, or the hash. -/
def Layout.nameOf (layout : Layout) (table : NameTable) (index hash : ℕ) : String :=
  EntryName.backslashed (FolderRange.way layout.folders index
    ++ [(table.lookup32? hash).getD (Hex.padded 8 hash ++ ".dat")])

/-- The entries of an archive, in the order of its file records. -/
def Layout.entries (layout : Layout) (directory : String) (table : NameTable) : List Entry :=
  layout.files.mapIdx fun index f =>
    layout.entryOf directory f.record (layout.nameOf table index f.hash)

/-- A file has known flags and numbers that fit into its record; and the block that these flags make
of its content is in the part that it names. -/
structure File.IsIn (f : File) (compressors : Compressors) (parts : List Bytes) : Prop where
  hash_lt : f.hash < 2 ^ 32
  flags_lt : f.flags < 2
  offset_lt : f.offset < 2 ^ 32
  stored_lt : f.block.length < 2 ^ 32
  decoded_lt : f.content.length < 2 ^ 32
  encode_eq : (codecOf f.flags).encode f.content compressors = .ok f.block
  stored : ∃ part, parts[f.part]? = some part ∧ f.block <+: part.drop f.offset ∧
    f.offset + f.block.length ≤ part.length

/-- The directory is laid out in a stream, on storage that does not fail, and the data of its files
are in the parts. -/
structure Layout.IsIn (layout : Layout) (compressors : Compressors) (s : Stream) : Prop where
  healthy : s.failAt = none
  parts_lt : layout.parts.length < 2 ^ 16
  folders_lt : layout.folders.length < 2 ^ 16
  files_lt : layout.files.length < 2 ^ 32
  bytes : layout.bytes s.order <+: s.bytes
  folders : FolderRange.AreIn layout.folders layout.files.length
  plain : ∀ folder ∈ layout.folders, Utf8.IsPlain folder.name
  names_le : ∀ folder ∈ layout.folders, (Utf8.encode folder.name).length ≤ nameSize
  files : ∀ f ∈ layout.files, f.IsIn compressors layout.parts

/-- The parts of an archive are among the files, next to its directory. -/
def Layout.HasParts (layout : Layout) (tree : FileTree) (directory : String) : Prop :=
  ∀ (number : ℕ) (part : Bytes), layout.parts[number]? = some part →
    tree.read (partPath number directory) = .ok part

/-! ### The directory is read -/

/-- A folder has a name and numbers that fit into its bytes. -/
structure FitsFolder (folder : FolderRange) : Prop where
  plain : Utf8.IsPlain folder.name
  name_le : (Utf8.encode folder.name).length ≤ nameSize
  parent_lt : ∀ parent, folder.parent = some parent → parent < 2 ^ 16
  first_lt : folder.first < 2 ^ 32
  count_lt : folder.count < 2 ^ 32

theorem length_folderBytes {folder : FolderRange} (h : FitsFolder folder) :
    (folderBytes order folder).length = folderSize := by
  simp only [folderBytes, List.length_append, Names.length_padded h.name_le,
    ByteOrder.length_encode]
  rfl

theorem length_fileBytes (f : File) : (f.bytes order).length = fileSize := by
  simp only [File.bytes, List.length_append, ByteOrder.length_encode]
  rfl

/-- A folder is read, at whatever index. -/
theorem readFolder_of_ahead {folder : FolderRange} (hfits : FitsFolder folder) (index : ℕ)
    (h : s.ahead = folderBytes s.order folder ++ rest) :
    readFolder index s = .ok folder (s.advance folderSize) := by
  simp only [folderBytes, List.append_assoc] at h
  have h₀ := ahead_of_padded hfits.name_le h
  have h₁ := ahead_of_word h₀
  have h₂ := ahead_of_word h₁
  have hparent : folder.parent.getD noParent < 2 ^ 32 := by
    cases hcase : folder.parent with
    | none => decide
    | some parent => exact Nat.lt_trans (hfits.parent_lt parent hcase) (by decide)
  rw [readFolder, bind_of_ok (fixedString_of_padded hfits.plain hfits.name_le h),
    bind_of_ok (u32_of_append hparent h₀)]
  -- the parent, read as a signed number, is the one that was meant
  obtain ⟨hsign, hmeant⟩ : ¬ signed32 (folder.parent.getD noParent) < -1 ∧
      (if signed32 (folder.parent.getD noParent) = -1 then none
        else some (signed32 (folder.parent.getD noParent)).toNat) = folder.parent := by
    cases hcase : folder.parent with
    | none => exact ⟨by decide, by decide⟩
    | some parent =>
      have hlt := hfits.parent_lt parent hcase
      have hsigned : signed32 parent = parent := by
        rw [signed32, if_pos (by omega)]
      rw [Option.getD_some, hsigned]
      exact ⟨by omega, by rw [if_neg (by omega), Int.toNat_natCast]⟩
  refine guard_eq_ok.mpr ⟨hsign, ?_⟩
  dsimp only
  rw [bind_of_ok (u32_of_append hfits.first_lt h₁), bind_of_ok (u32_of_append hfits.count_lt h₂),
    hmeant]
  rfl

theorem File.IsIn.part_lt {f : File} {parts : List Bytes} (h : f.IsIn compressors parts) :
    f.part < parts.length := by
  obtain ⟨part, hpart, -⟩ := h.stored
  exact (List.getElem?_eq_some_iff.mp hpart).1

/-- A file record is read. -/
theorem readFile_of_ahead {f : File} {parts : List Bytes} (hin : f.IsIn compressors parts)
    (hparts : parts.length < 2 ^ 16) (h : s.ahead = f.bytes s.order ++ rest) :
    readFile parts.length s = .ok f.record (s.advance fileSize) := by
  simp only [File.bytes, List.append_assoc] at h
  have h₁ := ahead_of_word h
  have h₂ := ahead_of_word h₁
  have h₃ := ahead_of_word h₂
  have h₄ := ahead_of_word h₃
  have h₅ := ahead_of_word h₄
  have hpart := hin.part_lt
  have hflags : f.flags < 2 ^ 16 := Nat.lt_trans hin.flags_lt (by decide)
  have hknown : ¬ (!isKnown f.flags) = true := by
    simpa [isKnown] using hin.flags_lt
  rw [readFile, bind_of_ok (u32_of_append hin.hash_lt h),
    bind_of_ok (u16_of_append (Nat.lt_trans hpart hparts) h₁),
    bind_of_ok (u16_of_append hflags h₂), bind_of_ok (u32_of_append hin.offset_lt h₃),
    bind_of_ok (u32_of_append hin.stored_lt h₄), bind_of_ok (u32_of_append hin.decoded_lt h₅)]
  refine guard_eq_ok.mpr ⟨Nat.not_le.mpr hpart, guard_eq_ok.mpr ⟨hknown, ?_⟩⟩
  rfl

/-! ### The parts are found -/

theorem Layout.length_location {layout : Layout} {number : ℕ} {part : Bytes}
    (h : layout.parts[number]? = some part) :
    (layout.location directory number).length = part.length := by
  rw [Layout.location, List.getD_eq_getElem?_getD, h]
  rfl

theorem openParts_of_hasParts {layout : Layout} {tree : FileTree}
    (h : layout.HasParts tree directory) (hparts : layout.parts.length < 2 ^ 16) :
    openParts tree directory layout.parts.length 0
      = .ok ((List.range layout.parts.length).map (layout.location directory)) := by
  have hfrom : ∀ count index, index + count = layout.parts.length →
      openParts tree directory count index
        = .ok ((List.range' index count).map (layout.location directory)) := by
    intro count
    induction count with
    | zero => exact fun index _ => rfl
    | succ count ih =>
      intro index hindex
      have hget : layout.parts[index]? = some layout.parts[index] :=
        List.getElem?_eq_getElem (by omega)
      have hnumber : index + 1 ≤ Word.max16 := by
        rw [Word.max16]
        omega
      have hlocation : layout.location directory index
          = { part := index + 1, path := some (partPath index directory)
              length := layout.parts[index].length } := by
        rw [Layout.location, List.getD_eq_getElem?_getD, hget]
        rfl
      rw [List.range'_succ, List.map_cons, hlocation]
      exact openParts_succ_eq_ok.mpr ⟨_, _, FileTree.length_of_read (h index _ hget), hnumber,
        ih (index + 1) (by omega), rfl⟩
  rw [hfrom _ 0 (Nat.zero_add _), List.range_eq_range']

/-! ### The entries are made -/

/-- The entry of a file that is laid out. -/
theorem toEntry_of_isIn {layout : Layout} {f : File} (h : f.IsIn compressors layout.parts)
    (directory name : String) :
    toEntry ((List.range layout.parts.length).map (layout.location directory)) f.record name
      = .ok (layout.entryOf directory f.record name) := by
  obtain ⟨part, hpart, -, hstop⟩ := h.stored
  have hlocation : ((List.range layout.parts.length).map (layout.location directory))[f.part]?
      = some (layout.location directory f.part) := by
    rw [List.getElem?_map, List.getElem?_range h.part_lt]
    rfl
  refine toEntry_eq_ok.mpr ⟨_, hlocation, ?_, fun hzlib => ?_, rfl⟩
  · rw [Layout.length_location hpart]
    exact Nat.le_trans (Nat.min_le_left _ _) hstop
  · -- what is stored is the content itself
    have hencode := h.encode_eq
    rw [codecOf, show hasZlib f.flags = false from hzlib] at hencode
    exact congrArg List.length (Except.ok.inj hencode)

theorem listEntries_of_forall {parts : List Location} {pairs : List (FileRecord × String)}
    (entry : FileRecord → String → Entry)
    (h : ∀ p ∈ pairs, toEntry parts p.1 p.2 = .ok (entry p.1 p.2)) :
    listEntries parts pairs = .ok (pairs.map fun p => entry p.1 p.2) := by
  induction pairs with
  | nil => rfl
  | cons p pairs ih =>
    rw [listEntries, h p List.mem_cons_self, ih fun q hq => h q (List.mem_cons_of_mem _ hq)]
    rfl

/-- The entries of all files, under the names that the folders make. -/
theorem listEntries_of_isIn {layout : Layout} (h : layout.IsIn compressors s)
    (directory : String) (table : NameTable) :
    listEntries ((List.range layout.parts.length).map (layout.location directory))
      ((layout.files.map File.record).zip
        (((layout.files.map File.record).map fun file => fileName table file.hash).mapIdx
          fun index name => EntryName.backslashed (FolderRange.way layout.folders index ++ [name])))
      = .ok (layout.entries directory table) := by
  rw [listEntries_of_forall (layout.entryOf directory)]
  · congr 1
    apply List.ext_getElem?
    intro index
    rw [Layout.entries, List.getElem?_mapIdx, List.getElem?_map, List.zip, List.getElem?_zipWith]
    simp only [List.getElem?_mapIdx, List.getElem?_map]
    cases layout.files[index]? <;> rfl
  · intro p hp
    obtain ⟨f, hf, hrecord⟩ := List.mem_map.mp (List.of_mem_zip hp).1
    rw [← hrecord]
    exact toEntry_of_isIn (h.files f hf) directory p.2

/-- The names that are asked for are those of the session. -/
theorem exists_namesFor (records : List FileRecord) (x : Session) :
    ∃ table y, namesFor records x = .ok table y ∧ y.input = x.input ∧
      (records.map fun file => fileName table file.hash)
        = records.map fun file => fileName x.nameTable file.hash := by
  cases records with
  | nil => exact ⟨.empty, x, rfl, rfl, rfl⟩
  | cons file records =>
    obtain ⟨y, hy, hstream, henvironment, -⟩ := names_eq x
    refine ⟨x.nameTable, y, hy, ?_, rfl⟩
    simp only [Session.environment, Prod.mk.injEq] at henvironment
    rw [Session.input, Session.input, hstream, henvironment.1, henvironment.2.1]

namespace Layout.IsIn

variable {layout : Layout}

theorem fitsFolder (h : layout.IsIn compressors s) {folder : FolderRange}
    (hfolder : folder ∈ layout.folders) : FitsFolder folder := by
  obtain ⟨place, hget⟩ := List.mem_iff_getElem?.mp hfolder
  have hplace : place < layout.folders.length := (List.getElem?_eq_some_iff.mp hget).1
  have hstop := h.folders.stop_le folder hfolder
  have hfolders := h.folders_lt
  have hfiles := h.files_lt
  refine ⟨h.plain folder hfolder, h.names_le folder hfolder, fun parent hparent => ?_, by omega,
    by omega⟩
  have := h.folders.parent_lt place folder parent hget hparent
  omega

theorem length_folders (h : layout.IsIn compressors s) :
    (layout.folders.flatMap (folderBytes order)).length = folderSize * layout.folders.length :=
  Tables.length_flatMap_of_mem fun _ hfolder => length_folderBytes (h.fitsFolder hfolder)

/-- The folders are read. -/
theorem exists_readFolders (h : layout.IsIn compressors x.stream)
    (hahead : x.stream.ahead = layout.folders.flatMap (folderBytes x.stream.order) ++ rest) :
    ∃ y, Decode.readTable ⟨layout.folders.length⟩
        (fun index => return .entry (← Decode.ofReader (readFolder index))) x
        = .ok layout.folders y ∧
      y.stream = x.stream.advance (folderSize * layout.folders.length) ∧ y.quiet = x.quiet ∧
        y.context = x.context := by
  have hbody : ∀ folder ∈ layout.folders, ∀ (index : ℕ) (s : Stream) (rest : Bytes),
      s.source = x.stream.source → s.ahead = folderBytes x.stream.order folder ++ rest →
        readFolder index s = .ok (id folder)
          (s.advance (folderBytes x.stream.order folder).length) := by
    intro folder hfolder index s rest hs hahead
    rw [length_folderBytes (h.fitsFolder hfolder)]
    rw [← Stream.order_of_source hs] at hahead
    exact readFolder_of_ahead (h.fitsFolder hfolder) index hahead
  obtain ⟨y, hy, hkept⟩ := Tables.readEntries_of_ahead _ id readFolder hbody hahead
  rw [List.map_id] at hy
  rw [h.length_folders] at hkept
  exact ⟨y, hy, hkept⟩

/-- The file records are read. -/
theorem exists_readFiles (h : layout.IsIn compressors x.stream)
    (hahead : x.stream.ahead = layout.files.flatMap (File.bytes x.stream.order) ++ rest) :
    ∃ y, Decode.readTable ⟨layout.files.length⟩
        (fun _ => return .entry (← Decode.ofReader (readFile layout.parts.length))) x
        = .ok (layout.files.map File.record) y ∧ y.quiet = x.quiet ∧ y.context = x.context := by
  have hbody : ∀ f ∈ layout.files, ∀ (index : ℕ) (s : Stream) (rest : Bytes),
      s.source = x.stream.source → s.ahead = f.bytes x.stream.order ++ rest →
        readFile layout.parts.length s
          = .ok f.record (s.advance (f.bytes x.stream.order).length) := by
    intro f hf index s rest hs hahead
    rw [length_fileBytes]
    rw [← Stream.order_of_source hs] at hahead
    exact readFile_of_ahead (h.files f hf) h.parts_lt hahead
  obtain ⟨y, hy, -, hkept⟩ := Tables.readEntries_of_ahead _ File.record
    (fun _ => readFile layout.parts.length) hbody hahead
  exact ⟨y, hy, hkept⟩

theorem of_source (h : layout.IsIn compressors s) (hst : t.source = s.source) :
    layout.IsIn compressors t := by
  refine { h with healthy := (Stream.failAt_of_source hst).trans h.healthy, bytes := ?_ }
  rw [Stream.order_of_source hst, Stream.bytes_of_source hst]
  exact h.bytes

/-- The header and the tables end in the stream. -/
theorem length_le (h : layout.IsIn compressors s) :
    headerSize + folderSize * layout.folders.length + fileSize * layout.files.length
      ≤ s.length := by
  have hfiles : (layout.files.flatMap (File.bytes s.order)).length
      = fileSize * layout.files.length :=
    Tables.length_flatMap_of_mem fun f _ => length_fileBytes f
  have hlong := h.bytes.length_le
  simp only [Layout.bytes, List.length_append, ByteOrder.length_encode, h.length_folders,
    hfiles] at hlong
  have hmagic : magic.length = 4 := rfl
  rw [headerSize, Stream.length]
  omega

/-- The header is read, and the tables are behind it. -/
theorem header_eq_ok (h : layout.IsIn compressors s) (hstart : s.position = 0) :
    Reader.skip magic.length s = .ok () { s with position := 4 } ∧
      Reader.u16 { s with position := 4 } = .ok layout.parts.length { s with position := 6 } ∧
      Reader.u16 { s with position := 6 } = .ok layout.folders.length { s with position := 8 } ∧
      Reader.u32 { s with position := 8 } = .ok layout.files.length { s with position := 12 } ∧
      ∃ rest, Stream.ahead { s with position := 12 } = layout.folders.flatMap (folderBytes s.order)
        ++ (layout.files.flatMap (File.bytes s.order) ++ rest) := by
  have hlong := h.length_le
  obtain ⟨rest, hbytes⟩ := h.bytes
  simp only [Layout.bytes, List.append_assoc] at hbytes
  let place (position : ℕ) : Stream := { s with position }
  have h₀ : (place 4).ahead = s.bytes.drop magic.length := Stream.ahead_goto h.healthy 4
  rw [← hbytes, List.drop_left] at h₀
  have h₁ := ahead_of_word h₀
  have h₂ := ahead_of_word h₁
  have h₃ := ahead_of_word h₂
  refine ⟨(skip_start_eq_ok hstart (by decide)).mpr ⟨?_, rfl⟩, u16_of_append h.parts_lt h₀,
    u16_of_append h.folders_lt h₁, u32_of_append h.files_lt h₂, rest, h₃⟩
  have hmagic : magic.length = 4 := rfl
  rw [headerSize] at hlong
  omega

/-- The files get their names: the table is that of the session, and the folders are applied. -/
theorem exists_names (h : layout.IsIn compressors s) (x : Session) :
    ∃ table y, namesFor (layout.files.map File.record) x = .ok table y ∧ y.input = x.input ∧
      FolderRange.applyAll layout.folders
          ((layout.files.map File.record).map fun file => fileName table file.hash)
        = (((layout.files.map File.record).map fun file => fileName x.nameTable file.hash).mapIdx
            fun index name => EntryName.backslashed (FolderRange.way layout.folders index ++ [name]),
          none) := by
  obtain ⟨table, y, hnames, hinput, htable⟩ := exists_namesFor (layout.files.map File.record) x
  refine ⟨table, y, hnames, hinput, ?_⟩
  have hcount : ((layout.files.map File.record).map fun file =>
      fileName x.nameTable file.hash).length = layout.files.length := by
    rw [List.length_map, List.length_map]
  have hareIn := h.folders
  have hfiles := h.files_lt
  have hmax := Word.max_eq
  rw [← hcount] at hareIn
  rw [htable]
  exact FolderRange.applyAll_of_areIn hareIn (by omega)

end Layout.IsIn

/-- The decoder finds the files of a directory that is laid out. -/
theorem exists_decode {layout : Layout} (h : layout.IsIn compressors x.stream)
    (hpath : source.path = some directory) (hparts : layout.HasParts x.files directory)
    (hstart : x.stream.position = 0)
    (hfolders : layout.folders.length ≤ x.context.options.maxEntries)
    (hfiles : layout.files.length ≤ x.context.options.maxEntries) :
    ∃ y, decode source x = .ok (layout.entries directory x.nameTable) y ∧ y.input = x.input := by
  have hlong := h.length_le
  obtain ⟨hskip, hpartCount, hfolderCount, hfileCount, rest, hahead⟩ := h.header_eq_ok hstart
  let place (position : ℕ) : Stream := { x.stream with position }
  -- the two tables
  have hcheckedFolders : Decode.checkCount layout.folders.length folderSize (place 12).remaining
      { x with stream := place 12 }
        = .ok ⟨layout.folders.length⟩ { x with stream := place 12 } := by
    refine checkCount_of_le hfolders ?_
    show folderSize * layout.folders.length ≤ x.stream.length - headerSize
    omega
  have hplace : layout.IsIn compressors (place 12) := h.of_source rfl
  obtain ⟨y, hreadFolders, hstream, hyquiet, hycontext⟩ :=
    hplace.exists_readFolders (x := { x with stream := place 12 }) hahead
  have hyinput : y.input = x.input := Session.input_of_quiet hyquiet
  have hyin : layout.IsIn compressors y.stream := h.of_source (Session.source_of_input hyinput)
  have hcheckedFiles : Decode.checkCount layout.files.length fileSize y.stream.remaining y
      = .ok ⟨layout.files.length⟩ y := by
    refine checkCount_of_le (by rwa [hycontext]) ?_
    rw [hstream]
    show fileSize * layout.files.length
      ≤ x.stream.length - (headerSize + folderSize * layout.folders.length)
    omega
  have hyahead : y.stream.ahead = layout.files.flatMap (File.bytes y.stream.order) ++ rest := by
    rw [Stream.order_of_source (Session.source_of_input hyinput), hstream, Stream.ahead_advance]
    exact (congrArg (List.drop _) hahead).trans (List.drop_left' h.length_folders)
  obtain ⟨z, hreadFiles, hzquiet, hzcontext⟩ := hyin.exists_readFiles hyahead
  have hzinput : z.input = x.input := (Session.input_of_quiet hzquiet).trans hyinput
  have hzfiles : z.files = x.files := congrArg (fun input => input.2.2) hzinput
  have hsame : z.nameTable = x.nameTable := by
    rw [Session.nameTable, Session.nameTable, hzcontext, hycontext, hzfiles]
  obtain ⟨table, w, hnames, hwinput, happlied⟩ := h.exists_names z
  rw [hsame] at happlied
  refine ⟨w, ?_, hwinput.trans hzinput⟩
  rw [decode, hpath]
  dsimp only
  rw [bind_of_ok (liftReader_eq_ok.mpr ⟨_, hskip, rfl⟩),
    bind_of_ok (liftReader_eq_ok.mpr ⟨_, hpartCount, rfl⟩),
    bind_of_ok (liftReader_eq_ok.mpr ⟨_, hfolderCount, rfl⟩),
    bind_of_ok (liftReader_eq_ok.mpr ⟨_, hfileCount, rfl⟩),
    bind_of_ok (liftReader_eq_ok.mpr ⟨_, remaining_eq_ok.mpr ⟨rfl, rfl⟩, rfl⟩),
    bind_of_ok hcheckedFolders, bind_of_ok hreadFolders,
    bind_of_ok (liftReader_eq_ok.mpr ⟨_, remaining_eq_ok.mpr ⟨rfl, rfl⟩, rfl⟩),
    bind_of_ok hcheckedFiles, bind_of_ok hreadFiles,
    bind_of_ok (files_eq_ok.mpr ⟨rfl, rfl⟩), hzfiles, openParts_of_hasParts hparts h.parts_lt,
    bind_of_ok (ofReader_eq_ok.mpr ⟨_, ofExcept_eq_ok.mpr ⟨rfl, rfl⟩, rfl⟩), bind_of_ok hnames,
    happlied]
  dsimp only
  rw [listEntries_of_isIn h]
  exact ofReader_eq_ok.mpr ⟨_, ofExcept_eq_ok.mpr ⟨rfl, rfl⟩, rfl⟩

/-- What is at an index of the entries. -/
theorem Layout.getElem?_entries {layout : Layout} {table : NameTable} {index : ℕ} :
    (layout.entries directory table)[index]? = layout.files[index]?.map fun f =>
      layout.entryOf directory f.record (layout.nameOf table index f.hash) :=
  List.getElem?_mapIdx

/-- **A directory that is laid out is read**: an entry for each file record, in their order. -/
theorem readDirectory_of_isIn {layout : Layout} (h : layout.IsIn compressors x.stream)
    (hpath : source.path = some directory) (hparts : layout.HasParts x.files directory)
    (hfolders : layout.folders.length ≤ x.context.options.maxEntries)
    (hfiles : layout.files.length ≤ x.context.options.maxEntries)
    (hsort : x.context.options.sortByOffset = false) :
    ∃ y, format.readDirectory source x = .ok (layout.entries directory x.nameTable) y := by
  have hin : layout.IsIn compressors x.started.stream := h.of_source rfl
  obtain ⟨y, hdecode, hinput⟩ := exists_decode hin hpath hparts rfl hfolders hfiles
  refine ⟨y, Format.readDirectory_of_decode hdecode hinput hsort ?_⟩
  intro e he
  obtain ⟨index, hget⟩ := List.mem_iff_getElem?.mp he
  rw [Layout.getElem?_entries] at hget
  obtain ⟨f, hf, rfl⟩ := Option.map_eq_some_iff.mp hget
  obtain ⟨part, hpart, -, hstop⟩ := (h.files f (List.mem_of_getElem? hf)).stored
  show f.offset + f.block.length ≤ (layout.location directory f.part).length
  rwa [Layout.length_location hpart]

/-- The data of a file that is laid out are read as its content. -/
theorem readEntry_of_isIn {layout : Layout} {f : File} {name : String} {a : Archive}
    {tree : FileTree} {index : ℕ} (h : f.IsIn compressors layout.parts)
    (hcompress : compressors.Invert) (hparts : layout.HasParts tree directory)
    (hget : a.entries[index]? = some (layout.entryOf directory f.record name)) :
    (a.readEntry tree index).1 = .ok f.content := by
  have hmax := Word.max_eq
  have hoffset := h.offset_lt
  have hlength := h.stored_lt
  obtain ⟨part, hpart, hblock, hstop⟩ := h.stored
  have hfit : (layout.entryOf directory f.record name).FitsIn part :=
    ⟨hstop, by show f.offset + f.block.length ≤ _; omega⟩
  have hstored : (layout.entryOf directory f.record name).storedIn part = f.block :=
    (List.prefix_iff_eq_take.mp hblock).symm
  rw [Archive.readEntry_eq hget (.other rfl _ rfl (hparts _ _ hpart)) hfit]
  exact Entry.contentIn_of_undo hstored rfl (Codec.undo_encode hcompress h.encode_eq)

/-! ### What is wrong with a directory

The fields are those that the bytes have at their places, whether or not the places are there. -/

section

variable (order : ByteOrder) (bytes : Bytes)

/-- How many parts the header announces. -/
def partCountAt : ℕ := order.field 2 bytes 4

/-- How many folders the header announces. -/
def folderCountAt : ℕ := order.field 2 bytes 6

/-- How many files the header announces. -/
def fileCountAt : ℕ := order.field 4 bytes 8

/-- Where the folder at an index starts. -/
def folderPlace (index : ℕ) : ℕ := headerSize + folderSize * index

/-- Where the file record at an index starts. -/
def filePlace (index : ℕ) : ℕ := folderPlace (folderCountAt order bytes) + fileSize * index

/-- The field of 4 bytes at a place of the folder at an index. -/
def folderField (index place : ℕ) : ℕ := order.field 4 bytes (folderPlace index + place)

/-- The part that the file record at an index names. -/
def partAt (index : ℕ) : ℕ := order.field 2 bytes (filePlace order bytes index + 4)

/-- The flags of the file record at an index. -/
def flagsAt (index : ℕ) : ℕ := order.field 2 bytes (filePlace order bytes index + 6)

/-- The field of 4 bytes at a place of the file record at an index. -/
def fileField (index place : ℕ) : ℕ := order.field 4 bytes (filePlace order bytes index + place)

/-- What may be wrong with a directory, and with the parts next to it. -/
inductive Defect (tree : FileTree) (directory : String) : Prop where
  /-- A file is in a part that the header does not announce. -/
  | part {index : ℕ} (hindex : index < fileCountAt order bytes)
    (h : partCountAt order bytes ≤ partAt order bytes index)
  /-- A part is missing. -/
  | missing {number : ℕ} (hnumber : number < partCountAt order bytes)
    (h : tree.exists? (partPath number directory) = false)
  /-- A folder is neither at the top nor in one before it. -/
  | parent {index : ℕ} (hindex : index < folderCountAt order bytes)
    (hparent : folderField order bytes index 32 ≠ noParent)
    (h : index ≤ folderField order bytes index 32)
  /-- The files of a folder are not all in the table. -/
  | run {index : ℕ} (hindex : index < folderCountAt order bytes)
    (h : fileCountAt order bytes
      < folderField order bytes index 36 + folderField order bytes index 40)
  /-- A file has a flag that is not known. -/
  | flags {index bit : ℕ} (hindex : index < fileCountAt order bytes) (hbit : 1 ≤ bit)
    (h : (flagsAt order bytes index).testBit bit = true)
  /-- The content is not as long as what is stored, and there is no compression. -/
  | lengths {index : ℕ} (hindex : index < fileCountAt order bytes)
    (hzlib : (flagsAt order bytes index).testBit 0 = false)
    (h : fileField order bytes index 16 ≠ fileField order bytes index 12)
  /-- The data do not end in their part. -/
  | range {index : ℕ} {content : Bytes} (hindex : index < fileCountAt order bytes)
    (hread : tree.read (partPath (partAt order bytes index) directory) = .ok content)
    (h : content.length < fileField order bytes index 8 + fileField order bytes index 12)

end

/-! ### A directory that is read has no defect -/

/-- The folder at a place. -/
def folderAt (order : ByteOrder) (bytes : Bytes) (place : ℕ) : FolderRange where
  name := Utf8.decode (Reader.beforeZero ((bytes.drop place).take nameSize))
  parent :=
    let parent := signed32 (order.field 4 bytes (place + 32))
    if parent = -1 then none else some parent.toNat
  first := order.field 4 bytes (place + 36)
  count := order.field 4 bytes (place + 40)

/-- The file record at a place. -/
def fileAt (order : ByteOrder) (bytes : Bytes) (place : ℕ) : FileRecord where
  hash := order.field 4 bytes place
  part := order.field 2 bytes (place + 4)
  flags := order.field 2 bytes (place + 6)
  offset := order.field 4 bytes (place + 8)
  stored := order.field 4 bytes (place + 12)
  decoded := order.field 4 bytes (place + 16)

theorem of_readFolder {folder : FolderRange} {index : ℕ} (h : readFolder index s = .ok folder t) :
    folder = folderAt s.order s.bytes s.position ∧
      -1 ≤ signed32 (s.order.field 4 s.bytes (s.position + 32)) ∧ t = s.advance folderSize := by
  simp only [readFolder, bind_eq_ok] at h
  obtain ⟨name, _, hname, raw, _, hraw, h⟩ := h
  obtain ⟨-, rfl, rfl⟩ := of_fixedString (fun h => absurd h (by decide)) hname
  obtain ⟨-, rfl, rfl⟩ := of_u32 hraw
  obtain ⟨hsign, h⟩ := guard_eq_ok.mp h
  simp only [bind_eq_ok, pure_eq_ok] at h
  obtain ⟨first, _, hfirst, count, _, hcount, rfl, rfl⟩ := h
  obtain ⟨-, rfl, rfl⟩ := of_u32 hfirst
  obtain ⟨-, rfl, rfl⟩ := of_u32 hcount
  exact ⟨rfl, Int.not_lt.mp hsign, rfl⟩

theorem of_readFile {file : FileRecord} {parts : ℕ} (h : readFile parts s = .ok file t) :
    file = fileAt s.order s.bytes s.position ∧ file.part < parts ∧ file.flags < 2 ∧
      t = s.advance fileSize := by
  simp only [readFile, bind_eq_ok] at h
  obtain ⟨hash, _, hhash, part, _, hpart, flags, _, hflags, offset, _, hoffset, stored, _, hstored,
    decoded, _, hdecoded, h⟩ := h
  obtain ⟨-, rfl, rfl⟩ := of_u32 hhash
  obtain ⟨-, rfl, rfl⟩ := of_u16 hpart
  obtain ⟨-, rfl, rfl⟩ := of_u16 hflags
  obtain ⟨-, rfl, rfl⟩ := of_u32 hoffset
  obtain ⟨-, rfl, rfl⟩ := of_u32 hstored
  obtain ⟨-, rfl, rfl⟩ := of_u32 hdecoded
  obtain ⟨hbelow, h⟩ := guard_eq_ok.mp h
  obtain ⟨hknown, h⟩ := guard_eq_ok.mp h
  obtain ⟨rfl, rfl⟩ := pure_eq_ok.mp h
  rw [Bool.not_eq_true', Bool.not_eq_false] at hknown
  exact ⟨rfl, Nat.not_le.mp hbelow, of_decide_eq_true hknown, rfl⟩

/-- A folder that is in one before it says so in its field. -/
theorem field_lt_of_folderAt {bytes : Bytes} {place index : ℕ}
    (hsign : -1 ≤ signed32 (order.field 4 bytes (place + 32)))
    (hbefore : ∀ parent, (folderAt order bytes place).parent = some parent → parent < index)
    (hparent : order.field 4 bytes (place + 32) ≠ noParent) :
    order.field 4 bytes (place + 32) < index := by
  have hlt := order.field_lt 4 bytes (place + 32)
  have hno : noParent = 4294967295 := rfl
  rw [signed32] at hsign
  split_ifs at hsign with hsmall
  · refine hbefore _ ?_
    rw [folderAt]
    dsimp only
    rw [signed32, if_pos hsmall, if_neg (by omega), Int.toNat_natCast]
  · omega

/-- The part with a number, as it was found. -/
theorem getElem?_openParts {files : FileTree} {count index number : ℕ} {parts : List Location}
    (h : openParts files directory count index = .ok parts) (hnumber : number < count) :
    ∃ length, files.length (partPath (index + number) directory) = .ok length ∧
      parts[number]? = some { part := index + number + 1,
                              path := some (partPath (index + number) directory), length } := by
  induction count generalizing index number parts with
  | zero => exact absurd hnumber (Nat.not_lt_zero _)
  | succ count ih =>
    obtain ⟨length, rest, hlength, -, hrest, rfl⟩ := openParts_succ_eq_ok.mp h
    cases number with
    | zero => exact ⟨length, hlength, rfl⟩
    | succ number =>
      obtain ⟨length, hlength, hget⟩ := ih hrest (Nat.lt_of_succ_lt_succ hnumber)
      rw [Nat.succ_add_eq_add_succ] at hlength hget
      exact ⟨length, hlength, hget⟩

/-- The header, the tables and the parts agree with each other. -/
structure IsConsistent (order : ByteOrder) (bytes : Bytes) (tree : FileTree)
    (directory : String) : Prop where
  parts : ∀ number < partCountAt order bytes,
    ∃ length, tree.length (partPath number directory) = .ok length
  parent_lt : ∀ index < folderCountAt order bytes, folderField order bytes index 32 ≠ noParent →
    folderField order bytes index 32 < index
  stop_le : ∀ index < folderCountAt order bytes,
    folderField order bytes index 36 + folderField order bytes index 40 ≤ fileCountAt order bytes
  part_lt : ∀ index < fileCountAt order bytes, partAt order bytes index < partCountAt order bytes
  flags_lt : ∀ index < fileCountAt order bytes, flagsAt order bytes index < 2
  lengths_eq : ∀ index < fileCountAt order bytes, (flagsAt order bytes index).testBit 0 = false →
    fileField order bytes index 16 = fileField order bytes index 12
  data_le : ∀ index < fileCountAt order bytes, ∀ content,
    tree.read (partPath (partAt order bytes index) directory) = .ok content →
    fileField order bytes index 8 + fileField order bytes index 12 ≤ content.length

/-- The folders of a table that was read are those at their places. -/
theorem of_readFolders {count : ℕ} {folders : List FolderRange}
    (h : Decode.readTable ⟨count⟩
      (fun index => return .entry (← Decode.ofReader (readFolder index))) x = .ok folders y) :
    y.stream = x.stream.advance (folderSize * count) ∧ y.files = x.files ∧ folders.length = count ∧
      ∀ index < count,
        let place := x.stream.position + folderSize * index
        folders[index]? = some (folderAt x.stream.order x.stream.bytes place) ∧
          -1 ≤ signed32 (x.stream.order.field 4 x.stream.bytes (place + 32)) := by
  have hinput := (Tables.keeps_readEntries keeps_readFolder).of_ok h
  obtain ⟨hstream, hlength, hall⟩ :=
    Tables.of_readEntries (fun index s a t hread => (of_readFolder hread).2.2) h
  refine ⟨hstream, congrArg (fun input => input.2.2) hinput, hlength, fun index hindex => ?_⟩
  have hget := List.getElem?_eq_getElem (Nat.lt_of_lt_of_eq hindex hlength.symm)
  obtain ⟨t, hread⟩ := hall index _ hget
  obtain ⟨hfolder, hsign, -⟩ := of_readFolder hread
  exact ⟨hget.trans (congrArg some hfolder), hsign⟩

/-- The file records of a table that was read are those at their places. -/
theorem of_readFiles {count partCount : ℕ} {files : List FileRecord}
    (h : Decode.readTable ⟨count⟩
      (fun _ => return .entry (← Decode.ofReader (readFile partCount))) x = .ok files y) :
    y.files = x.files ∧ files.length = count ∧ ∀ index < count,
      let file := fileAt x.stream.order x.stream.bytes (x.stream.position + fileSize * index)
      files[index]? = some file ∧ file.part < partCount ∧ file.flags < 2 := by
  have hkeeps : Keeps Stream.source (readFile partCount) := fun s =>
    (ensures_readFile partCount s rfl).1
  have hinput := (Tables.keeps_readEntries fun _ => hkeeps).of_ok h
  obtain ⟨-, hlength, hall⟩ :=
    Tables.of_readEntries (fun index s a t hread => (of_readFile hread).2.2.2) h
  refine ⟨congrArg (fun input => input.2.2) hinput, hlength, fun index hindex => ?_⟩
  have hget := List.getElem?_eq_getElem (Nat.lt_of_lt_of_eq hindex hlength.symm)
  obtain ⟨t, hread⟩ := hall index _ hget
  obtain ⟨hfile, hpart, hflags, -⟩ := of_readFile hread
  rw [hfile] at hget hpart hflags
  exact ⟨hget, hpart, hflags⟩

/-- Folders, file records and parts of which entries are made are consistent. -/
theorem isConsistent_of_tables {bytes : Bytes} {tree : FileTree} {folders : List FolderRange}
    {files : List FileRecord} {parts : List Location} {names marked : List String}
    {entries : List Entry}
    (hfolder : ∀ index < folderCountAt order bytes,
      folders[index]? = some (folderAt order bytes (folderPlace index)) ∧
        -1 ≤ signed32 (folderField order bytes index 32))
    (hlength : files.length = fileCountAt order bytes)
    (hfile : ∀ index < fileCountAt order bytes,
      let file := fileAt order bytes (filePlace order bytes index)
      files[index]? = some file ∧ file.part < partCountAt order bytes ∧ file.flags < 2)
    (hparts : openParts tree directory (partCountAt order bytes) 0 = .ok parts)
    (hnames : names.length = files.length)
    (hmarked : FolderRange.applyAll folders names = (marked, none))
    (hentries : listEntries parts (files.zip marked) = .ok entries) :
    IsConsistent order bytes tree directory := by
  obtain ⟨hmarkedLength, hruns⟩ := FolderRange.of_applyAll hmarked
  -- a part is found under its number
  have hpart : ∀ number < partCountAt order bytes, ∃ part,
      tree.length (partPath number directory) = .ok part.length ∧ parts[number]? = some part := by
    intro number hnumber
    obtain ⟨length, hlength, hget⟩ := getElem?_openParts hparts hnumber
    rw [Nat.zero_add] at hlength hget
    exact ⟨_, hlength, hget⟩
  -- an entry is made of every file record
  have hentry : ∀ index < fileCountAt order bytes, ∃ name e,
      toEntry parts (fileAt order bytes (filePlace order bytes index)) name = .ok e := by
    intro index hindex
    have hname : marked[index]? = some marked[index] := List.getElem?_eq_getElem (by omega)
    have hpair : (files.zip marked)[index]?
        = some (fileAt order bytes (filePlace order bytes index), marked[index]) :=
      List.getElem?_zip_eq_some.mpr ⟨(hfile index hindex).1, hname⟩
    obtain ⟨e, -, he⟩ :=
      exists_of_forall₂ (of_listEntries hentries).flip (List.mem_of_getElem? hpair)
    exact ⟨_, e, he⟩
  refine ⟨?_, ?_, ?_, fun index hindex => (hfile index hindex).2.1,
    fun index hindex => (hfile index hindex).2.2, ?_, ?_⟩
  · intro number hnumber
    obtain ⟨part, hlength, -⟩ := hpart number hnumber
    exact ⟨part.length, hlength⟩
  · intro index hindex hparent
    obtain ⟨hget, hsign⟩ := hfolder index hindex
    exact field_lt_of_folderAt hsign (hruns index _ hget).1 hparent
  · intro index hindex
    have hstop := (hruns index _ (hfolder index hindex).1).2
    rw [hnames, hlength] at hstop
    exact Nat.le_trans (Nat.le_of_eq (order.satAdd_field bytes _ _).symm) hstop
  · intro index hindex hzlib
    obtain ⟨name, e, he⟩ := hentry index hindex
    obtain ⟨-, -, -, hlengths, -⟩ := toEntry_eq_ok.mp he
    exact hlengths hzlib
  · intro index hindex content hread
    obtain ⟨name, e, he⟩ := hentry index hindex
    obtain ⟨part, hpartLength, hget⟩ := hpart _ (hfile index hindex).2.1
    obtain ⟨_, hgot, hstop, -, -⟩ := toEntry_eq_ok.mp he
    cases hget.symm.trans hgot
    have hsame : content.length = part.length :=
      Except.ok.inj ((FileTree.length_of_read hread).symm.trans hpartLength)
    rw [hsame]
    exact Nat.le_trans (Nat.le_of_eq (order.satAdd_field bytes _ _).symm) hstop

/-- A directory that is decoded is consistent. -/
theorem isConsistent_of_decode {entries : List Entry} (hpath : source.path = some directory)
    (hstart : x.stream.position = 0) (h : decode source x = .ok entries y) :
    IsConsistent x.stream.order x.stream.bytes x.files directory := by
  rw [decode, hpath] at h
  simp only [bind_eq_ok] at h
  obtain ⟨_, _, hskip, partCount, _, hpartCount, folderCount, _, hfolderCount, fileCount, _,
    hfileCount, _, _, hroom, _, _, hcheckedFolders, folders, z, hfolders, _, _, hroomFiles, _, _,
    hcheckedFiles, files, w, hfiles, reachable, _, hreachable, parts, _, hparts, table, v, -,
    h⟩ := h
  -- the header
  obtain ⟨_, hmagic, rfl⟩ := liftReader_eq_ok.mp hskip
  obtain ⟨-, rfl⟩ := (skip_start_eq_ok (k := magic.length) hstart (by decide)).mp hmagic
  obtain ⟨_, hparts16, rfl⟩ := liftReader_eq_ok.mp hpartCount
  obtain ⟨-, rfl, rfl⟩ := of_u16 hparts16
  obtain ⟨_, hfolders16, rfl⟩ := liftReader_eq_ok.mp hfolderCount
  obtain ⟨-, rfl, rfl⟩ := of_u16 hfolders16
  obtain ⟨_, hfiles32, rfl⟩ := liftReader_eq_ok.mp hfileCount
  obtain ⟨-, rfl, rfl⟩ := of_u32 hfiles32
  -- the tables
  obtain ⟨rfl, rfl⟩ := liftRemaining_eq_ok.mp hroom
  obtain ⟨-, -, rfl, rfl⟩ := checkCount_eq_ok.mp hcheckedFolders
  obtain ⟨hstream, hsameFolders, hfolderLength, hfolder⟩ := of_readFolders hfolders
  obtain ⟨rfl, rfl⟩ := liftRemaining_eq_ok.mp hroomFiles
  obtain ⟨-, -, rfl, rfl⟩ := checkCount_eq_ok.mp hcheckedFiles
  obtain ⟨hsameFiles, hfileLength, hfile⟩ := of_readFiles hfiles
  obtain ⟨_, hopen, -⟩ := ofReader_eq_ok.mp hparts
  obtain ⟨hopen, -⟩ := ofExcept_eq_ok.mp hopen
  have hopen : openParts x.files directory (partCountAt x.stream.order x.stream.bytes) 0
      = .ok parts := by
    rw [(files_eq_ok.mp hreachable).1, hsameFiles, hsameFolders] at hopen
    exact hopen
  have hfolder : ∀ index < folderCountAt x.stream.order x.stream.bytes,
      folders[index]? = some (folderAt x.stream.order x.stream.bytes (folderPlace index)) ∧
        -1 ≤ signed32 (folderField x.stream.order x.stream.bytes index 32) := hfolder
  have hfile : ∀ index < fileCountAt x.stream.order x.stream.bytes,
      let file := fileAt x.stream.order x.stream.bytes
        (filePlace x.stream.order x.stream.bytes index)
      files[index]? = some file ∧ file.part < partCountAt x.stream.order x.stream.bytes ∧
        file.flags < 2 := by
    rw [hstream] at hfile
    exact hfile
  rcases happlied : FolderRange.applyAll folders
    (files.map fun file => fileName table file.hash) with ⟨marked, _ | e⟩
  · rw [happlied] at h
    obtain ⟨_, hentries, -⟩ := ofReader_eq_ok.mp h
    exact isConsistent_of_tables hfolder hfileLength hfile hopen (List.length_map _) happlied
      (ofExcept_eq_ok.mp hentries).1
  · rw [happlied] at h
    cases h

/-- **A directory that is read has no defect.** -/
theorem not_defect_of_readDirectory {entries : List Entry} (hpath : source.path = some directory)
    (h : format.readDirectory source x = .ok entries y) :
    ¬ Defect x.stream.order x.stream.bytes x.files directory := by
  obtain ⟨found, hdecode, -⟩ := Format.readDirectory_eq_ok.mp h
  have hall : IsConsistent x.stream.order x.stream.bytes x.files directory :=
    isConsistent_of_decode (x := x.started) hpath rfl hdecode
  intro hdefect
  cases hdefect with
  | part hindex hle => exact absurd (hall.part_lt _ hindex) (Nat.not_lt.mpr hle)
  | missing hnumber hmissing =>
    obtain ⟨length, hlength⟩ := hall.parts _ hnumber
    rw [FileTree.exists?_of_length hlength] at hmissing
    cases hmissing
  | parent hindex hparent hle =>
    exact absurd (hall.parent_lt _ hindex hparent) (Nat.not_lt.mpr hle)
  | run hindex hlt => exact absurd (hall.stop_le _ hindex) (Nat.not_le.mpr hlt)
  | flags hindex hbit hset =>
    rw [testBit_eq_false_of_le (hall.flags_lt _ hindex) hbit] at hset
    cases hset
  | lengths hindex hzlib hne => exact hne (hall.lengths_eq _ hindex hzlib)
  | range hindex hread hlt => exact absurd (hall.data_le _ hindex _ hread) (Nat.not_le.mpr hlt)

/-! ### Both directions -/

/-- **Reading inverts the layout, and nothing else is read.** A directory that is laid out next to
its parts is read as its file records, in their order, each under its whole name and in the part
that it names; and the data of each are read as its content. If the directory names what is not
there, or contradicts itself, reading ends with an error. -/
theorem readDirectory_inverts_parts :
    (∀ {layout : Layout} {compressors : Compressors} {directory : String} {source : Location}
      {x : Session}, layout.IsIn compressors x.stream → compressors.Invert →
      source.path = some directory → layout.HasParts x.files directory →
      layout.folders.length ≤ x.context.options.maxEntries →
      layout.files.length ≤ x.context.options.maxEntries →
      x.context.options.sortByOffset = false →
      ∃ y, format.readDirectory source x = .ok (layout.entries directory x.nameTable) y ∧
        ∀ (a : Archive) (tree : FileTree), a.entries = layout.entries directory x.nameTable →
          layout.HasParts tree directory → ∀ (index : ℕ) (f : File),
          layout.files[index]? = some f → (a.readEntry tree index).1 = .ok f.content) ∧
    ∀ {directory : String} {source : Location} {x : Session}, source.path = some directory →
      Defect x.stream.order x.stream.bytes x.files directory →
      ∃ e y, format.readDirectory source x = .error e y := by
  constructor
  · intro layout compressors directory source x h hcompress hpath hparts hfolders hfiles hsort
    obtain ⟨y, hy⟩ := readDirectory_of_isIn h hpath hparts hfolders hfiles hsort
    refine ⟨y, hy, fun a tree hentries htree index f hf => ?_⟩
    have hget : a.entries[index]? = some (layout.entryOf directory f.record
        (layout.nameOf x.nameTable index f.hash)) := by
      rw [hentries, Layout.getElem?_entries, hf]
      rfl
    exact readEntry_of_isIn (h.files f (List.mem_of_getElem? hf)) hcompress htree hget
  · intro directory source x hpath hdefect
    exact exists_error_of_ne_ok fun entries y h => not_defect_of_readDirectory hpath h hdefect

/-- Two files in two parts, one of them compressed, and each in a folder. -/
def nested : Layout where
  folders := [⟨"a", none, 0, 1⟩, ⟨"b", some 0, 1, 1⟩]
  files := [⟨7, 1, 0, 1, [0x68, 0x69], [0x68, 0x69]⟩,
    ⟨9, 0, 1, 0, Zlib.compress [0x68, 0x69], [0x68, 0x69]⟩]
  parts := [Zlib.compress [0x68, 0x69], [0, 0x68, 0x69]]

/-- The files of the archive, but for its directory: the names, and some of the parts. -/
def nestedFiles (count : ℕ) : FileTree where
  nodes := (["n"], .file 0 [0x30, 0x30, 0x30, 0x30, 0x30, 0x30, 0x30, 0x39, 0x3D, 0x63]) ::
    (nested.parts.mapIdx fun index part =>
      ([partPath index "x.spk"], Node.file (index + 1) part)).take count

/-- A session over the directory, with names for the hashes. -/
def nestedSession (count : ℕ) : Session where
  stream := .ofBytes (nested.bytes .little)
  context := { options := { nameTable := some "n" } }
  files := nestedFiles count

theorem isIn_nested : nested.IsIn {} (nestedSession 2).stream where
  healthy := rfl
  parts_lt := by decide
  folders_lt := by decide
  files_lt := by decide
  bytes := ⟨[], List.append_nil _⟩
  folders := by
    refine ⟨?_, by decide, ?_⟩
    · rintro (_ | _ | place) folder parent ⟨⟩ ⟨⟩
      exact Nat.one_pos
    · refine .cons ?_ (.cons (fun _ hg => absurd hg List.not_mem_nil) .nil)
      intro g hg index hclaims
      rw [List.mem_singleton.mp hg, FolderRange.claims]
      simp only [FolderRange.claims, decide_eq_true_eq, decide_eq_false_iff_not] at hclaims ⊢
      omega
  plain := by decide
  names_le := by decide
  files := by
    intro f hf
    rcases List.mem_cons.mp hf with rfl | hf
    · exact ⟨by decide, by decide, by decide, by decide, by decide, rfl, _, rfl, by decide,
        by decide⟩
    · rw [List.mem_singleton.mp hf]
      exact ⟨by decide, by decide, by decide, by decide +kernel, by decide, rfl, _, rfl,
        ⟨[], List.append_nil _⟩, Nat.le_of_eq (Nat.zero_add _)⟩

theorem hasParts_nested : nested.HasParts (nestedSession 2).files "x.spk" := by
  rintro (_ | _ | number) part ⟨⟩
  · decide +kernel
  · decide +kernel

/-- The names of its files are those of their folders, and then the name of the hash, if any. -/
theorem name_nested :
    (nested.entries "x.spk" (nestedSession 2).nameTable).map Entry.name
      = [some "a\\00000007.dat", some "a\\b\\c"] := by
  have htable : (nestedSession 2).nameTable = ⟨[("00000009", "c")]⟩ := by decide +kernel
  have htop : FolderRange.chain nested.folders 0 = ["a"] :=
    FolderRange.chain_of_top (show nested.folders[0]? = some ⟨"a", none, 0, 1⟩ from rfl) rfl
  have hinner : FolderRange.chain nested.folders 1 = ["a", "b"] := by
    have hget : nested.folders[1]? = some ⟨"b", some 0, 1, 1⟩ := rfl
    rw [FolderRange.chain_of_parent hget rfl Nat.one_pos, htop]
    rfl
  have hfirst : nested.nameOf ⟨[("00000009", "c")]⟩ 0 7 = "a\\00000007.dat" := by
    rw [Layout.nameOf, show FolderRange.way nested.folders 0 = _ from htop]
    decide +kernel
  have hsecond : nested.nameOf ⟨[("00000009", "c")]⟩ 1 9 = "a\\b\\c" := by
    rw [Layout.nameOf, show FolderRange.way nested.folders 1 = _ from hinner]
    decide +kernel
  rw [htable, ← hfirst, ← hsecond]
  rfl

/-- The archive is read as its two files, under their whole names. Without its second part it is not
read. -/
theorem readDirectory_inverts_parts_nested :
    (∃ y, format.readDirectory (.file "x.spk" 0) (nestedSession 2)
      = .ok (nested.entries "x.spk" (nestedSession 2).nameTable) y) ∧
    (nested.entries "x.spk" (nestedSession 2).nameTable).map Entry.name
      = [some "a\\00000007.dat", some "a\\b\\c"] ∧
    (∀ a : Archive, a.entries = nested.entries "x.spk" (nestedSession 2).nameTable →
      (a.readEntry (nestedFiles 2) 0).1 = .ok [0x68, 0x69] ∧
        (a.readEntry (nestedFiles 2) 1).1 = .ok [0x68, 0x69]) ∧
    ∃ e y, format.readDirectory (.file "x.spk" 0) (nestedSession 1) = .error e y := by
  have hpath : (Location.file "x.spk" 0).path = some "x.spk" := rfl
  obtain ⟨y, hy, hcontent⟩ := readDirectory_inverts_parts.1 isIn_nested Compressors.invert_default
    hpath hasParts_nested (by decide) (by decide) rfl
  have hannounced : 1 < partCountAt .little (nestedSession 1).stream.bytes := by decide +kernel
  have hmissing : (nestedFiles 1).exists? (partPath 1 "x.spk") = false := by decide +kernel
  have hdefect : Defect .little (nestedSession 1).stream.bytes (nestedFiles 1) "x.spk" :=
    .missing hannounced hmissing
  refine ⟨⟨y, hy⟩, name_nested, fun a ha => ?_, readDirectory_inverts_parts.2 hpath hdefect⟩
  have hread := hcontent a (nestedFiles 2) ha hasParts_nested
  exact ⟨hread 0 _ rfl, hread 1 _ rfl⟩

end Packfile.Spk
