import Packfile.Format.Tre
import Packfile.Proofs.Names
import Packfile.Proofs.Tables

/-!
# TRE archives as they are written

The writer is a state machine with four blocks that grow side by side, and a file that may be open.
`Plan.bytes` says without any state what comes out of it: the archive of a list of files, each
placed behind the data and the names of those before it.

## The invariant

`Plan.Holds` relates a writer to the files that it has ended and to the one that is open. Starting a
file, writing a piece and ending a file each keep it, and so does every run of such calls. In how
many pieces a content came does not matter: of a block it is said what it was given (`Tre.Filled`),
and not how.

A call for whose sizes and places 32 bits are not enough has failed, so that of a finished archive
all numbers are known to fit (`Plan.IsNarrow`). Nor has the count of the files gone on from zero:
each of them has a name with a zero behind it, and the names are not longer than 32 bits can say.

Only the size of a block of records that is not compressed is neither measured nor checked. It is
computed from the count, in 32 bits, and is wrong from 178956971 files on (`Plan.statedSize`). Of a
plan whose numbers are all right (`Plan.IsExact`) everything is read back.

## Main definitions

* `Tre.File`, `Tre.writeArchive` — files, and the calls that write them
* `Tre.Placed`, `Tre.place` — files with the places of their data and names
* `Tre.Filled` — a block that was given a content, in whatever pieces
* `Tre.Plan`, `Plan.bytes` — an archive as it is planned, and its bytes
* `Tre.Plan.IsNarrow`, `Plan.IsExact` — what is known of its numbers

## Main results

* `Tre.of_finishFile_of_some`, `Tre.of_finish` — what ends a file, and the archive
* `Tre.of_writeArchive` — what is written is the planned archive
-/

namespace Packfile.Tre

open Run

/-! ### Files and the calls that write them -/

/-- A file to be written. Its content may come in any number of pieces. -/
structure File where
  /-- What the file is called. -/
  name : String
  /-- How the file is compressed. -/
  compression : Compression
  /-- The pieces of its content. -/
  pieces : List Bytes

namespace File

/-- The content of a file. -/
def content (f : File) : Bytes := f.pieces.flatten

/-- The stored form of a file. -/
def stored (compress : Bytes → Bytes) (f : File) : Bytes :=
  Block.stored f.compression.isCompressed f.content compress

end File

/-- Writes pieces into the file that is open. -/
def writePieces : List Bytes → Write Unit
  | [] => return
  | piece :: pieces => do
    Writer.write piece
    writePieces pieces

/-- Starts a file and writes it. -/
def writeFile (f : File) : Write Unit := do
  Writer.startFile f.name f.compression
  writePieces f.pieces

/-- Writes files in turn. -/
def writeFiles : List File → Write Unit
  | [] => return
  | f :: files => do
    writeFile f
    writeFiles files

/-- Writes an archive of files. -/
def writeArchive (files : List File) : Write Bytes := do
  writeFiles files
  Writer.finish

/-! ### The archive as it is planned -/

/-- A file, where its data start, and where its name starts among the names. -/
structure Placed where
  file : File
  start : ℕ
  nameStart : ℕ

/-- Files one behind the other, the data of the first at `start` and its name at `nameStart`. -/
def place (compress : Bytes → Bytes) : (start nameStart : ℕ) → List File → List Placed
  | _, _, [] => []
  | start, nameStart, f :: files =>
    ⟨f, start, nameStart⟩ :: place compress (start + (f.stored compress).length)
      (nameStart + (Names.terminated f.name).length) files

/-- The record of a file. -/
def Placed.record (compress : Bytes → Bytes) (p : Placed) : Record where
  checksum := nameChecksum p.file.name
  uncompressed := p.file.content.length
  offset := p.start
  compression := p.file.compression
  compressed := (p.file.stored compress).length
  nameOffset := p.nameStart

/-- All fields of a record fit into 32 bits. -/
structure Record.IsNarrow (r : Record) : Prop where
  checksum_lt : r.checksum < 2 ^ 32
  uncompressed_lt : r.uncompressed < 2 ^ 32
  offset_lt : r.offset < 2 ^ 32
  compressed_lt : r.compressed < 2 ^ 32
  nameOffset_lt : r.nameOffset < 2 ^ 32

/-- All fields of a header fit into 32 bits. -/
structure Header.IsNarrow (h : Header) : Prop where
  records_lt : h.records < 2 ^ 32
  recordStart_lt : h.recordStart < 2 ^ 32
  recordCompressed_lt : h.recordCompressed < 2 ^ 32
  nameCompressed_lt : h.nameCompressed < 2 ^ 32
  nameUncompressed_lt : h.nameUncompressed < 2 ^ 32

/-- The blocks of a header start at 64-bit offsets. -/
theorem Header.IsNarrow.offsets_eq {h : Header} (hh : h.IsNarrow) :
    h.nameOffset = .ok h.nameStart ∧ h.hashOffset = .ok h.hashStart := by
  have hstart := hh.recordStart_lt
  have hrecords := hh.recordCompressed_lt
  have hnames := hh.nameCompressed_lt
  have hmax := Word.max_eq
  have hname : h.nameOffset = .ok h.nameStart := Checked.sum_of_le (by omega)
  have hhash : Checked.sum h.nameStart h.nameCompressed = .ok h.hashStart :=
    Checked.sum_of_le (by rw [Header.nameStart]; omega)
  refine ⟨hname, ?_⟩
  rw [Header.hashOffset, hname]
  exact hhash

/-- An archive as it is planned: its files, and how it is compressed. -/
structure Plan where
  /-- What compresses a block. -/
  compress : Bytes → Bytes
  /-- How the records are compressed. -/
  recordCompression : Compression
  /-- How the names are compressed. -/
  nameCompression : Compression
  /-- The files. -/
  files : List File

namespace Plan

/-- The stored data. -/
def data (p : Plan) : Bytes := p.files.flatMap (File.stored p.compress)

/-- The names, each ended by a zero. -/
def names (p : Plan) : Bytes := (p.files.map File.name).flatMap Names.terminated

/-- The digests of the stored data. -/
def hashes (p : Plan) : Bytes := p.files.flatMap fun f => Md5.digest (f.stored p.compress)

/-- The files with their places. -/
def placed (p : Plan) : List Placed := place p.compress headerSize 0 p.files

/-- The records of the files. -/
def records (p : Plan) : List Record := p.placed.map (Placed.record p.compress)

/-- The stored form of the records. -/
def recordBlock (p : Plan) : Bytes :=
  Block.stored p.recordCompression.isCompressed (p.records.flatMap Record.bytes) p.compress

/-- The stored form of the names. -/
def nameBlock (p : Plan) : Bytes :=
  Block.stored p.nameCompression.isCompressed p.names p.compress

/-- The size that the header gives the block of records. -/
def statedSize (p : Plan) : ℕ :=
  if p.recordCompression = .none then Word.wrapMul32 p.files.length recordSize
  else p.recordBlock.length

/-- The header. -/
def header (p : Plan) : Header where
  records := p.files.length
  recordStart := headerSize + p.data.length
  recordCompression := p.recordCompression
  recordCompressed := p.statedSize
  nameCompression := p.nameCompression
  nameCompressed := p.nameBlock.length
  nameUncompressed := p.names.length

/-- The archive. -/
def bytes (p : Plan) : Bytes :=
  p.header.bytes ++ p.data ++ p.recordBlock ++ p.nameBlock ++ p.hashes

/-- All numbers in the archive fit into 32 bits. -/
structure IsNarrow (p : Plan) : Prop where
  header : p.header.IsNarrow
  records : ∀ r ∈ p.records, r.IsNarrow

/-- All numbers fit, and the size of the block of records has not been computed beyond 32 bits. -/
structure IsExact (p : Plan) : Prop extends p.IsNarrow where
  fits : p.recordCompression = .none → p.files.length * recordSize < 2 ^ 32

/-- The plan with one more file. -/
def add (p : Plan) (f : File) : Plan := { p with files := p.files ++ [f] }

end Plan

section

variable {compress : Bytes → Bytes} {f : File} {files : List File} {start nameStart : ℕ}

theorem nameChecksum_lt (name : String) : nameChecksum name < 2 ^ 32 := UInt32.toNat_lt _

@[simp] theorem length_recordBytes (r : Record) : r.bytes.length = recordSize := by
  simp [Record.bytes, recordSize]

@[simp] theorem map_file_place (compress : Bytes → Bytes) (start nameStart : ℕ)
    (files : List File) : (place compress start nameStart files).map Placed.file = files := by
  induction files generalizing start nameStart with
  | nil => rfl
  | cons f files ih => rw [place, List.map_cons, ih]

@[simp] theorem length_place (compress : Bytes → Bytes) (start nameStart : ℕ) (files : List File) :
    (place compress start nameStart files).length = files.length := by
  rw [← List.length_map Placed.file, map_file_place]

/-- A file that is added is placed behind all others. -/
theorem place_concat (compress : Bytes → Bytes) (start nameStart : ℕ) (files : List File)
    (f : File) : place compress start nameStart (files ++ [f])
      = place compress start nameStart files
        ++ [⟨f, start + (files.flatMap (File.stored compress)).length,
          nameStart + ((files.map File.name).flatMap Names.terminated).length⟩] := by
  induction files generalizing start nameStart with
  | nil => rfl
  | cons f' files ih =>
    rw [List.cons_append, place, ih, place, List.flatMap_cons, List.map_cons, List.flatMap_cons,
      List.length_append, List.length_append, List.cons_append, Nat.add_assoc, Nat.add_assoc]

theorem map_nameStart_place (compress : Bytes → Bytes) (start nameStart : ℕ) (files : List File) :
    (place compress start nameStart files).map Placed.nameStart
      = Names.starts nameStart (files.map File.name) := by
  induction files generalizing start nameStart with
  | nil => rfl
  | cons f files ih => rw [place, List.map_cons, ih, List.map_cons, Names.starts]

theorem le_of_mem_place {p : Placed} (h : p ∈ place compress start nameStart files) :
    start ≤ p.start ∧ p.start + (p.file.stored compress).length
      ≤ start + (files.flatMap (File.stored compress)).length := by
  induction files generalizing start nameStart with
  | nil => exact absurd h List.not_mem_nil
  | cons f files ih =>
    rw [List.flatMap_cons, List.length_append]
    rcases List.mem_cons.mp h with rfl | hmem
    · dsimp only
      omega
    · have := ih hmem
      omega

theorem pairwise_place (compress : Bytes → Bytes) (start nameStart : ℕ) (files : List File) :
    (place compress start nameStart files).Pairwise fun p q => p.start ≤ q.start := by
  induction files generalizing start nameStart with
  | nil => exact .nil
  | cons f files ih =>
    refine .cons (fun q hq => ?_) (ih _ _)
    exact Nat.le_trans (Nat.le_add_right _ _) (le_of_mem_place hq).1

/-- The data of each file are found at their place. -/
theorem stored_of_mem_place {out rest : Bytes} {p : Placed}
    (h : out.drop start = files.flatMap (File.stored compress) ++ rest)
    (hp : p ∈ place compress start nameStart files) :
    (out.drop p.start).take (p.file.stored compress).length = p.file.stored compress := by
  induction files generalizing start nameStart with
  | nil => exact absurd hp List.not_mem_nil
  | cons f files ih =>
    rw [List.flatMap_cons, List.append_assoc] at h
    rcases List.mem_cons.mp hp with rfl | hmem
    · dsimp only
      rw [h, List.take_left]
    · refine ih ?_ hmem
      rw [← List.drop_drop, h, List.drop_left]

namespace Plan

variable {p : Plan} {f : File}

theorem data_add (p : Plan) (f : File) : (p.add f).data = p.data ++ f.stored p.compress := by
  simp [data, add]

theorem names_add (p : Plan) (f : File) : (p.add f).names = p.names ++ Names.terminated f.name := by
  simp [names, add]

theorem hashes_add (p : Plan) (f : File) :
    (p.add f).hashes = p.hashes ++ Md5.digest (f.stored p.compress) := by
  simp [hashes, add]

theorem records_add (p : Plan) (f : File) : (p.add f).records = p.records ++
    [Placed.record p.compress ⟨f, headerSize + p.data.length, p.names.length⟩] := by
  rw [records, placed, add, place_concat, List.map_append, Nat.zero_add]
  rfl

/-- There are no more files than bytes in their names. -/
theorem length_le_names (p : Plan) : p.files.length ≤ p.names.length := by
  rw [names]
  induction p.files with
  | nil => exact Nat.le_refl _
  | cons f files ih =>
    rw [List.map_cons, List.flatMap_cons, List.length_append, List.length_cons, Names.terminated,
      List.length_append, List.length_singleton]
    omega

theorem length_records (p : Plan) : p.records.length = p.files.length := by
  rw [records, List.length_map, placed, length_place]

theorem length_recordBlock (h : p.recordCompression = .none) :
    p.recordBlock.length = p.files.length * recordSize := by
  rw [recordBlock, h]
  show (p.records.flatMap Record.bytes).length = _
  rw [Tables.length_flatMap length_recordBytes, p.length_records, Nat.mul_comm]

/-- The size that the header of an exact plan gives the block of records is the one that it has. -/
theorem IsExact.statedSize_eq (hp : p.IsExact) : p.statedSize = p.recordBlock.length := by
  rw [statedSize]
  split
  · rename_i hnone
    rw [length_recordBlock hnone, Word.wrapMul32_of_le (Nat.le_of_lt_succ (hp.fits hnone))]
  · rfl

/-- The standard options do not allow so many files that the size of their records would not fit. -/
theorem IsNarrow.isExact (hp : p.IsNarrow) (hcount : p.files.length ≤ ({} : Options).maxEntries) :
    p.IsExact :=
  ⟨hp, fun _ => Nat.lt_of_le_of_lt (Nat.mul_le_mul_right _ hcount) (by decide)⟩

/-- The plan with the file that is open, if there is one. -/
def close (p : Plan) : Option File → Plan
  | none => p
  | some f => p.add f

end Plan

end

/-! ### What a block holds -/

/-- A block, compressed or not, was given a content. In how many pieces it came does not matter. -/
structure Filled (b : Block) (compression : Compression) (content : Bytes) : Prop where
  compressed_eq : b.compressed = compression.isCompressed
  content_eq : b.content = content

namespace Filled

variable {b : Block} {compression : Compression} {content : Bytes}

theorem new (compression : Compression) : Filled ⟨compression.isCompressed, []⟩ compression [] :=
  ⟨rfl, rfl⟩

theorem write (h : Filled b compression content) (data : Bytes) :
    Filled (b.write data) compression (content ++ data) :=
  ⟨h.compressed_eq, by rw [Block.content_write, h.content_eq]⟩

theorem size_eq (h : Filled b compression content) : b.size = content.length := by
  rw [Block.size_eq, h.content_eq]

theorem bytes_eq (h : Filled b compression content) (compress : Bytes → Bytes) :
    b.bytes compress = Block.stored compression.isCompressed content compress := by
  rw [Block.bytes, h.compressed_eq, h.content_eq]

end Filled

/-! ### The invariant of the writer -/

section

variable {p : Plan} {current : Option File} {f : File} {files : List File} {w w' : Writer}
  {content : Block} {u : Unit} {out : Bytes} {e : Error}

/-- The file that is open, and what the writer has noted of its record. -/
structure Plan.Opens (p : Plan) (f : File) (w : Writer) : Prop where
  current_eq : ∃ block, w.current = some block ∧ Filled block f.compression f.content
  checksum_eq : w.record.checksum = nameChecksum f.name
  compression_eq : w.record.compression = f.compression
  offset_eq : w.record.offset = headerSize + p.data.length
  offset_le : w.record.offset ≤ Word.max32
  nameOffset_eq : w.record.nameOffset = p.names.length
  nameOffset_le : w.record.nameOffset ≤ Word.max32

/-- The writer has ended the files of a plan, and may have one more open. -/
structure Plan.Holds (p : Plan) (current : Option File) (w : Writer) : Prop where
  compress_eq : w.compress = p.compress
  recordCompression_eq : w.recordCompression = p.recordCompression
  nameCompression_eq : w.nameCompression = p.nameCompression
  records_eq : w.records = (p.close current).files.length % (Word.max32 + 1)
  recordBlock : Filled w.recordBlock p.recordCompression (p.records.flatMap Record.bytes)
  dataBlock_eq : w.dataBlock = p.data
  nameBlock : Filled w.nameBlock p.nameCompression (p.close current).names
  hashBlock_eq : w.hashBlock = p.hashes
  narrow : ∀ r ∈ p.records, r.IsNarrow
  closed_of_none : current = none → w.current = none
  opens_of_some : ∀ f, current = some f → p.Opens f w

theorem holds_make (compress : Bytes → Bytes) (recordCompression nameCompression : Compression) :
    Plan.Holds ⟨compress, recordCompression, nameCompression, []⟩ none
      (Writer.make recordCompression nameCompression compress) where
  compress_eq := rfl
  recordCompression_eq := rfl
  nameCompression_eq := rfl
  records_eq := rfl
  recordBlock := .new _
  dataBlock_eq := rfl
  nameBlock := .new _
  hashBlock_eq := rfl
  narrow := fun r hr => absurd hr List.not_mem_nil
  closed_of_none := fun _ => rfl
  opens_of_some := fun f hf => by cases hf

theorem require_eq_ok {check : Except Error ℕ} {n : ℕ} :
    Writer.require check w = .ok n w' ↔ check = .ok n ∧ w' = w := by
  cases check <;> simp [Writer.require, eq_comm]

theorem require_eq_error {check : Except Error ℕ} :
    Writer.require check w = .error e w' ↔ check = .error e ∧ w' = w := by
  cases check <;> simp [Writer.require, eq_comm]

/-- Without an open file there is nothing to end. -/
theorem of_finishFile_of_none (hcurrent : w.current = none)
    (h : Writer.finishFile w = .ok u w') : w' = w := by
  simp only [Writer.finishFile, bind_eq_ok, get_eq_ok] at h
  obtain ⟨_, _, ⟨rfl, rfl⟩, h⟩ := h
  rw [hcurrent] at h
  exact (pure_eq_ok.mp h).2

/-- Ending a file fills in its record and lets the other three blocks grow. -/
theorem of_finishFile_of_some (hcurrent : w.current = some content)
    (h : Writer.finishFile w = .ok u w') :
    content.size ≤ Word.max32 ∧ (content.bytes w.compress).length ≤ Word.max32 ∧
      w' = { w with
        current := none
        record := { w.record with
          uncompressed := content.size
          compressed := (content.bytes w.compress).length }
        recordBlock := w.recordBlock.write (Record.bytes { w.record with
          uncompressed := content.size
          compressed := (content.bytes w.compress).length })
        hashBlock := w.hashBlock ++ Md5.digest (content.bytes w.compress)
        dataBlock := w.dataBlock ++ content.bytes w.compress } := by
  simp only [Writer.finishFile, bind_eq_ok, get_eq_ok] at h
  obtain ⟨_, _, ⟨rfl, rfl⟩, h⟩ := h
  rw [hcurrent] at h
  simp only [bind_eq_ok, set_eq_ok, require_eq_ok, Checked.narrow_eq_ok, modify_eq_ok] at h
  obtain ⟨_, _, rfl, _, _, ⟨⟨rfl, hsize⟩, rfl⟩, _, _, rfl, _, _, ⟨⟨rfl, hstored⟩, rfl⟩, _, _, rfl,
    rfl⟩ := h
  exact ⟨hsize, hstored, rfl⟩

/-- A content that has no record, because it or its stored form is too long. -/
def IsOversized (compress : Bytes → Bytes) (b : Block) : Prop :=
  Word.max32 < b.size ∨ Word.max32 < (b.bytes compress).length

/-- A file that cannot be ended is oversized, and is dropped. -/
theorem of_finishFile_eq_error (h : Writer.finishFile w = .error e w') :
    ∃ content record, w.current = some content ∧ IsOversized w.compress content ∧
      w' = { w with current := none, record } := by
  simp only [Writer.finishFile, bind_eq_error, get_eq_error, get_eq_ok, false_or] at h
  obtain ⟨_, w, ⟨rfl, rfl⟩, h⟩ := h
  cases hcurrent : w.current with
  | none =>
    rw [hcurrent] at h
    exact (pure_eq_error.mp h).elim
  | some content =>
    rw [hcurrent] at h
    simp only [bind_eq_error, set_eq_ok, set_eq_error, require_eq_ok, require_eq_error,
      Checked.narrow_eq_ok, Checked.narrow_eq_error, modify_eq_ok, modify_eq_error, false_or,
      and_false, exists_false, or_false] at h
    obtain ⟨_, _, rfl, ⟨⟨hsize, rfl⟩, rfl⟩ | ⟨_, _, ⟨⟨rfl, -⟩, rfl⟩, _, _, rfl,
      ⟨hstored, rfl⟩, rfl⟩⟩ := h
    · exact ⟨content, _, rfl, .inl hsize, rfl⟩
    · exact ⟨content, _, rfl, .inr hstored, rfl⟩

theorem not_isOversized_of_finishFile (hcurrent : w.current = some content)
    (h : Writer.finishFile w = .ok u w') : ¬ IsOversized w.compress content := by
  obtain ⟨hsize, hstored, -⟩ := of_finishFile_of_some hcurrent h
  rintro (hlarge | hlarge)
  · exact Nat.not_lt.mpr hsize hlarge
  · exact Nat.not_lt.mpr hstored hlarge

/-- Ending a file keeps the invariant. -/
theorem Plan.Holds.finishFile (hw : p.Holds current w) (h : Writer.finishFile w = .ok u w') :
    (p.close current).Holds none w' := by
  cases current with
  | none =>
    rw [of_finishFile_of_none (hw.closed_of_none rfl) h]
    exact hw
  | some f =>
    have hopen := hw.opens_of_some f rfl
    obtain ⟨block, hcurrent, hblock⟩ := hopen.current_eq
    obtain ⟨hsize, hstored, rfl⟩ := of_finishFile_of_some hcurrent h
    have hbytes : block.bytes w.compress = f.stored p.compress := by
      rw [hw.compress_eq, hblock.bytes_eq, File.stored]
    rw [hblock.size_eq] at hsize
    rw [hbytes] at hstored
    simp only [hblock.size_eq, hbytes]
    have hrecord : { w.record with
          uncompressed := f.content.length
          compressed := (f.stored p.compress).length : Record }
        = Placed.record p.compress ⟨f, headerSize + p.data.length, p.names.length⟩ := by
      rw [Placed.record, ← hopen.checksum_eq, ← hopen.offset_eq, ← hopen.compression_eq,
        ← hopen.nameOffset_eq]
    rw [hrecord]
    refine ⟨hw.compress_eq, hw.recordCompression_eq, hw.nameCompression_eq, hw.records_eq,
      ?_, ?_, hw.nameBlock, ?_, ?_, fun _ => rfl, fun f hf => by cases hf⟩
    · rw [Plan.close, Plan.records_add, List.flatMap_append, List.flatMap_singleton]
      exact hw.recordBlock.write _
    · rw [hw.dataBlock_eq, Plan.close, Plan.data_add]
    · rw [hw.hashBlock_eq, Plan.close, Plan.hashes_add]
    · intro r hr
      rw [Plan.close, Plan.records_add, List.mem_append, List.mem_singleton] at hr
      rcases hr with hr | rfl
      · exact hw.narrow r hr
      · have hoffset := hopen.offset_le
        have hnameOffset := hopen.nameOffset_le
        rw [hopen.offset_eq] at hoffset
        rw [hopen.nameOffset_eq] at hnameOffset
        exact ⟨nameChecksum_lt _, Nat.lt_succ_of_le hsize, Nat.lt_succ_of_le hoffset,
          Nat.lt_succ_of_le hstored, Nat.lt_succ_of_le hnameOffset⟩

/-- Starting a file counts it, opens it, and puts its name behind those before it. -/
theorem of_startFile {name : String} {compression : Compression}
    (h : Writer.startFile name compression w = .ok u w') :
    ∃ v, Writer.finishFile w = .ok () v ∧ headerSize + v.dataBlock.length ≤ Word.max32 ∧
      v.nameBlock.size ≤ Word.max32 ∧
      w' = { v with
        current := some { compressed := compression.isCompressed }
        records := Word.wrapAdd32 v.records 1
        record := { v.record with
          compression
          checksum := nameChecksum name
          offset := headerSize + v.dataBlock.length
          nameOffset := v.nameBlock.size }
        nameBlock := v.nameBlock.write (Utf8.encode name ++ [0]) } := by
  simp only [Writer.startFile, bind_eq_ok, modify_eq_ok, get_eq_ok, require_eq_ok,
    Checked.narrow_eq_ok] at h
  obtain ⟨_, v, hfinish, _, _, rfl, _, _, rfl, _, _, ⟨rfl, rfl⟩, _, _, ⟨⟨rfl, hdata⟩, rfl⟩, _, _,
    rfl, _, _, ⟨⟨rfl, hnames⟩, rfl⟩, rfl⟩ := h
  exact ⟨v, hfinish, hdata, hnames, rfl⟩

/-- A file that cannot be started either leaves the one before it in its way, or has no place for its
data or its name. In the second case it is open and counted all the same. -/
theorem of_startFile_eq_error {name : String} {compression : Compression}
    (h : Writer.startFile name compression w = .error e w') :
    Writer.finishFile w = .error e w' ∨ ∃ v record, Writer.finishFile w = .ok () v ∧
      (Word.max32 < headerSize + v.dataBlock.length ∨ Word.max32 < v.nameBlock.size) ∧
      w' = { v with
        current := some { compressed := compression.isCompressed }
        records := Word.wrapAdd32 v.records 1
        record } := by
  simp only [Writer.startFile, bind_eq_error, modify_eq_ok, modify_eq_error, get_eq_ok, get_eq_error,
    require_eq_ok, require_eq_error, Checked.narrow_eq_ok, Checked.narrow_eq_error, false_or,
    or_false, and_false, exists_false] at h
  obtain hfinish | ⟨_, v, hfinish, _, _, rfl, _, _, rfl, _, _, ⟨rfl, rfl⟩,
    ⟨⟨hdata, -⟩, rfl⟩ | ⟨_, _, ⟨⟨rfl, -⟩, rfl⟩, _, _, rfl, ⟨hnames, -⟩, rfl⟩⟩ := h
  · exact .inl hfinish
  · exact .inr ⟨v, _, hfinish, .inl hdata, rfl⟩
  · exact .inr ⟨v, _, hfinish, .inr hnames, rfl⟩

/-- Starting a file keeps the invariant. -/
theorem Plan.Holds.startFile {name : String} {compression : Compression}
    (hw : p.Holds current w) (h : Writer.startFile name compression w = .ok u w') :
    (p.close current).Holds (some ⟨name, compression, []⟩) w' := by
  obtain ⟨v, hfinish, hoffset, hnameOffset, rfl⟩ := of_startFile h
  have hv := hw.finishFile hfinish
  have hnames : v.nameBlock.size = (p.close current).names.length := hv.nameBlock.size_eq
  refine ⟨hv.compress_eq, hv.recordCompression_eq, hv.nameCompression_eq, ?_,
    hv.recordBlock, hv.dataBlock_eq, ?_, hv.hashBlock_eq, hv.narrow, ?_, ?_⟩
  · show Word.wrapAdd32 v.records 1 = (_ ++ [_]).length % (Word.max32 + 1)
    rw [hv.records_eq, List.length_append, List.length_singleton, Word.wrapAdd32, Nat.mod_add_mod]
    rfl
  · rw [Plan.close.eq_2, Plan.names_add]
    exact hv.nameBlock.write _
  · intro hf
    cases hf
  · rintro _ ⟨⟩
    exact ⟨⟨_, rfl, .new _⟩, rfl, rfl, by rw [← hv.dataBlock_eq], hoffset, hnames, hnameOffset⟩

/-- A piece that is written is added to the file that is open. -/
theorem write_of_some (data : Bytes) (h : w.current = some content) :
    Writer.write data w = .ok () { w with current := some (content.write data) } := by
  rw [Writer.write, bind_of_ok (get_eq_ok.mpr ⟨rfl, rfl⟩), h]
  rfl

/-- Writing a piece keeps the invariant. -/
theorem Plan.Holds.write {name : String} {compression : Compression} {pieces : List Bytes}
    {piece : Bytes} (hw : p.Holds (some ⟨name, compression, pieces⟩) w)
    (h : Writer.write piece w = .ok u w') :
    p.Holds (some ⟨name, compression, pieces ++ [piece]⟩) w' := by
  have hopen := hw.opens_of_some _ rfl
  obtain ⟨block, hcurrent, hblock⟩ := hopen.current_eq
  rw [write_of_some piece hcurrent] at h
  cases h
  refine ⟨hw.compress_eq, hw.recordCompression_eq, hw.nameCompression_eq, ?_, hw.recordBlock,
    hw.dataBlock_eq, ?_, hw.hashBlock_eq, hw.narrow, ?_, ?_⟩
  · dsimp only
    rw [hw.records_eq]
    simp [Plan.close, Plan.add]
  · have hnames := hw.nameBlock
    rw [Plan.close, Plan.names_add] at hnames ⊢
    exact hnames
  · intro hf
    cases hf
  · rintro _ ⟨⟩
    refine ⟨⟨_, rfl, ?_⟩, hopen.checksum_eq, hopen.compression_eq, hopen.offset_eq,
      hopen.offset_le, hopen.nameOffset_eq, hopen.nameOffset_le⟩
    have hcontent : (File.mk name compression (pieces ++ [piece])).content
        = (File.mk name compression pieces).content ++ piece := by
      simp [File.content]
    rw [hcontent]
    exact hblock.write piece

/-- The header that a writer without an open file puts in front of its blocks. The size of an
uncompressed block of records is not measured but computed from their number, in 32 bits. -/
def Writer.header (w : Writer) : Header where
  records := w.records
  recordStart := headerSize + w.dataBlock.length
  recordCompression := w.recordCompression
  recordCompressed :=
    if w.recordCompression = .none then Word.wrapMul32 w.records recordSize
    else (w.recordBlock.bytes w.compress).length
  nameCompression := w.nameCompression
  nameCompressed := (w.nameBlock.bytes w.compress).length
  nameUncompressed := w.nameBlock.size

/-- Finishing an archive ends the file that is open, and puts header and blocks together. All numbers
of the header fit, if that of the files does. -/
theorem of_finish (h : Writer.finish w = .ok out w') :
    Writer.finishFile w = .ok () w' ∧
      out = w'.header.bytes ++ w'.dataBlock ++ w'.recordBlock.bytes w'.compress
        ++ w'.nameBlock.bytes w'.compress ++ w'.hashBlock ∧
      headerSize + w'.dataBlock.length ≤ Word.max32 ∧ w'.nameBlock.size ≤ Word.max32 ∧
      (w'.records < 2 ^ 32 → w'.header.IsNarrow) := by
  simp only [Writer.finish, bind_eq_ok, get_eq_ok, require_eq_ok, Checked.narrow_eq_ok] at h
  obtain ⟨⟨⟩, _, hfinish, _, _, ⟨rfl, rfl⟩, _, v, ⟨⟨rfl, hstart⟩, rfl⟩, h⟩ := h
  -- the two ways to the stored size of the block of records meet in the header
  suffices hsizes : ∃ n, n = v.header.recordCompressed ∧ n < 2 ^ 32 ∧
      v.nameBlock.size ≤ Word.max32 ∧ (v.nameBlock.bytes v.compress).length ≤ Word.max32 ∧
      out = { v.header with recordCompressed := n }.bytes ++ v.dataBlock
        ++ v.recordBlock.bytes v.compress ++ v.nameBlock.bytes v.compress ++ v.hashBlock ∧
      w' = v by
    obtain ⟨_, rfl, hrecordsLt, hnamesLe, hnameBlockLe, hout, rfl⟩ := hsizes
    exact ⟨hfinish, hout, hstart, hnamesLe, fun hcount => ⟨hcount, Nat.lt_succ_of_le hstart,
      hrecordsLt, Nat.lt_succ_of_le hnameBlockLe, Nat.lt_succ_of_le hnamesLe⟩⟩
  by_cases hnone : v.recordCompression = .none
  · rw [if_pos hnone] at h
    simp only [bind_eq_ok, require_eq_ok, Checked.narrow_eq_ok, pure_eq_ok] at h
    obtain ⟨_, _, ⟨rfl, rfl⟩, _, _, ⟨⟨rfl, hnamesLe⟩, rfl⟩, _, _, ⟨⟨rfl, hnameBlockLe⟩, rfl⟩,
      hout, hw'⟩ := h
    exact ⟨_, by rw [Writer.header, if_pos hnone], Nat.lt_succ_of_le (Word.wrapMul32_le _ _),
      hnamesLe, hnameBlockLe, hout, hw'⟩
  · rw [if_neg hnone] at h
    simp only [bind_eq_ok, require_eq_ok, Checked.narrow_eq_ok, pure_eq_ok] at h
    obtain ⟨_, _, ⟨⟨rfl, hle⟩, rfl⟩, _, _, ⟨⟨rfl, hnamesLe⟩, rfl⟩, _, _, ⟨⟨rfl, hnameBlockLe⟩, rfl⟩,
      hout, hw'⟩ := h
    exact ⟨_, by rw [Writer.header, if_neg hnone], Nat.lt_succ_of_le hle, hnamesLe, hnameBlockLe,
      hout, hw'⟩

/-- An archive whose numbers fit is finished. -/
theorem exists_finish {v : Writer} (hfinish : Writer.finishFile w = .ok u v)
    (hdata : headerSize + v.dataBlock.length ≤ Word.max32)
    (hrecords : v.recordCompression ≠ .none →
      (v.recordBlock.bytes v.compress).length ≤ Word.max32)
    (hnames : v.nameBlock.size ≤ Word.max32)
    (hnameBlock : (v.nameBlock.bytes v.compress).length ≤ Word.max32) :
    ∃ out, Writer.finish w = .ok out v := by
  have hnarrow : ∀ {what : String} {n : ℕ}, n ≤ Word.max32 →
      Writer.require (Checked.narrow what n) v = .ok n v :=
    fun h => require_eq_ok.mpr ⟨Checked.narrow_eq_ok.mpr ⟨rfl, h⟩, rfl⟩
  rw [Writer.finish, bind_of_ok hfinish, bind_of_ok (get_eq_ok.mpr ⟨rfl, rfl⟩),
    bind_of_ok (hnarrow hdata)]
  by_cases hnone : v.recordCompression = .none
  · rw [if_pos hnone, bind_of_ok (pure_eq_ok.mpr ⟨rfl, rfl⟩)]
    exact ⟨_, (bind_of_ok (hnarrow hnames)).trans (bind_of_ok (hnarrow hnameBlock))⟩
  · rw [if_neg hnone, bind_of_ok (hnarrow (hrecords hnone))]
    exact ⟨_, (bind_of_ok (hnarrow hnames)).trans (bind_of_ok (hnarrow hnameBlock))⟩

/-! ### Runs of the writer -/

theorem Plan.Holds.writePieces {name : String} {compression : Compression}
    {before pieces : List Bytes} (hw : p.Holds (some ⟨name, compression, before⟩) w)
    (h : writePieces pieces w = .ok u w') :
    p.Holds (some ⟨name, compression, before ++ pieces⟩) w' := by
  induction pieces generalizing before w with
  | nil =>
    rw [Tre.writePieces, pure_eq_ok] at h
    rw [h.2, List.append_nil]
    exact hw
  | cons piece pieces ih =>
    simp only [Tre.writePieces, bind_eq_ok] at h
    obtain ⟨_, v, hpiece, h⟩ := h
    have := ih (hw.write hpiece) h
    rwa [List.append_assoc] at this

theorem Plan.Holds.writeFile (hw : p.Holds current w) (h : writeFile f w = .ok u w') :
    (p.close current).Holds (some f) w' := by
  simp only [Tre.writeFile, bind_eq_ok] at h
  obtain ⟨_, v, hstart, h⟩ := h
  exact (hw.startFile hstart).writePieces h

/-- A run of the writer ends with all its files in the plan, the last of them still open. -/
theorem Plan.Holds.writeFiles (hw : p.Holds current w) (h : writeFiles files w = .ok u w') :
    ∃ p' current', Plan.Holds p' current' w' ∧ p'.close current'
      = { p with files := (p.close current).files ++ files } := by
  induction files generalizing p current w with
  | nil =>
    rw [Tre.writeFiles, pure_eq_ok] at h
    rw [h.2, List.append_nil]
    refine ⟨p, current, hw, ?_⟩
    cases current <;> rfl
  | cons f files ih =>
    simp only [Tre.writeFiles, bind_eq_ok] at h
    obtain ⟨_, v, hfile, h⟩ := h
    obtain ⟨p', current', hw', hclose⟩ := ih (hw.writeFile hfile) h
    refine ⟨p', current', hw', hclose.trans ?_⟩
    cases current <;> simp [Plan.close, Plan.add]

/-- The writer ends with the bytes of its plan. -/
theorem Plan.Holds.finish (hw : p.Holds current w) (h : Writer.finish w = .ok out w') :
    out = (p.close current).bytes ∧ (p.close current).IsNarrow := by
  generalize hp' : p.close current = p'
  obtain ⟨hfinish, rfl, -, hnames, hnarrow⟩ := of_finish h
  have hv := hw.finishFile hfinish
  rw [hp'] at hv
  -- no more files than bytes of names, and these fit
  have hcount : p'.files.length < 2 ^ 32 := by
    rw [hv.nameBlock.size_eq] at hnames
    exact Nat.lt_of_le_of_lt p'.length_le_names (Nat.lt_succ_of_le hnames)
  have hrecords : w'.records = p'.files.length := hv.records_eq.trans (Nat.mod_eq_of_lt hcount)
  have hrecordBlock : w'.recordBlock.bytes w'.compress = p'.recordBlock := by
    rw [hv.recordBlock.bytes_eq, hv.compress_eq, Plan.recordBlock]
  have hnameBlock : w'.nameBlock.bytes w'.compress = p'.nameBlock := by
    rw [hv.nameBlock.bytes_eq, hv.compress_eq, Plan.close, Plan.nameBlock]
  have hheader : w'.header = p'.header := by
    rw [Plan.header, Plan.statedSize, Writer.header, hrecordBlock, hnameBlock, hv.nameBlock.size_eq,
      hrecords, hv.recordCompression_eq, hv.nameCompression_eq, hv.dataBlock_eq]
    rfl
  rw [hheader] at hnarrow ⊢
  refine ⟨?_, hnarrow (hrecords ▸ hcount), hv.narrow⟩
  rw [hrecordBlock, hnameBlock, hv.dataBlock_eq, hv.hashBlock_eq, Plan.bytes]

/-- **What is written is the planned archive**, and all its numbers fit. -/
theorem of_writeArchive {compress : Bytes → Bytes} {recordCompression nameCompression : Compression}
    (h : writeArchive files (Writer.make recordCompression nameCompression compress) = .ok out w) :
    out = (Plan.mk compress recordCompression nameCompression files).bytes ∧
      (Plan.mk compress recordCompression nameCompression files).IsNarrow := by
  simp only [writeArchive, bind_eq_ok] at h
  obtain ⟨_, v, hfiles, h⟩ := h
  obtain ⟨p, current, hv, hclose⟩ := (holds_make compress _ _).writeFiles hfiles
  have hfinish := hv.finish h
  rw [hclose] at hfinish
  exact hfinish

end

end Packfile.Tre
