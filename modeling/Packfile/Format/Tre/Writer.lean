import Packfile.Checked
import Packfile.Digest.Md5
import Packfile.Format.Tre.Layout

/-!
# Writing TRE archives

An archive is written file by file: a file is started, content is written into it, and starting the
next one, or finishing the archive, ends it. The blocks of data, records, names and digests grow
side by side and are put together at the end.

A call that fails leaves the writer usable. What it had done before it failed stays done, and a
caller that goes on gets an archive with just that in it.

## Main definitions

* `Tre.Writer`, `Tre.Write`
* `Tre.Writer.startFile`, `write`, `finish`
-/

namespace Packfile.Tre

/-- An archive that is being written. The files are counted in 32 bits, and the count goes on from
zero behind the last number. -/
structure Writer where
  /-- The records. -/
  recordBlock : Block
  /-- The stored data. -/
  dataBlock : Bytes := []
  /-- The names. -/
  nameBlock : Block
  /-- The digests of the stored data. -/
  hashBlock : Bytes := []
  /-- The content of the file that is being written. -/
  current : Option Block := none
  /-- How many files have been started. -/
  records : Nat := 0
  /-- How the records are compressed. -/
  recordCompression : Compression
  /-- How the names are compressed. -/
  nameCompression : Compression
  /-- The record of the file that is being written. -/
  record : Record := {}
  /-- What compresses a block. -/
  compress : Bytes → Bytes := Zlib.compress

/-- A call on a writer. -/
abbrev Write := EStateM Error Writer

namespace Writer

/-- An archive without files. -/
def make (recordCompression nameCompression : Compression)
    (compress : Bytes → Bytes := Zlib.compress) : Writer :=
  { recordBlock := { compressed := recordCompression.isCompressed }
    nameBlock := { compressed := nameCompression.isCompressed }
    recordCompression
    nameCompression
    compress }

/-- Whether a file is being written. -/
def isWriting (w : Writer) : Bool := w.current.isSome

/-- A check inside a call. -/
def require (check : Except Error Nat) : Write Nat := fun w =>
  match check with
  | .ok n => .ok n w
  | .error e => .error e w

/-- Ends the file that is being written, if there is one. -/
def finishFile : Write Unit := do
  let w ← get
  match w.current with
  | none => return
  | some content =>
    set { w with current := none }
    let uncompressed ← require (Checked.narrow "entry size" content.size)
    modify fun w => { w with record := { w.record with uncompressed } }
    let stored := content.bytes w.compress
    let compressed ← require (Checked.narrow "stored entry size" stored.length)
    modify fun w => { w with record := { w.record with compressed } }
    modify fun w => { w with
      recordBlock := w.recordBlock.write w.record.bytes
      hashBlock := w.hashBlock ++ Md5.digest stored
      dataBlock := w.dataBlock ++ stored }

/-- Starts a file, and ends the one before it. -/
def startFile (name : String) (compression : Compression) : Write Unit := do
  finishFile
  modify fun w => { w with current := some { compressed := compression.isCompressed } }
  modify fun w => { w with
    records := Word.wrapAdd32 w.records 1
    record := { w.record with compression, checksum := nameChecksum name } }
  let w ← get
  let offset ← require (Checked.narrow "data offset" (headerSize + w.dataBlock.length))
  modify fun w => { w with record := { w.record with offset } }
  let nameOffset ← require (Checked.narrow "name offset" w.nameBlock.size)
  modify fun w => { w with
    record := { w.record with nameOffset }
    nameBlock := w.nameBlock.write (Utf8.encode name ++ [0]) }

/-- Writes content into the file that is being written. -/
def write (data : Bytes) : Write Unit := do
  let w ← get
  match w.current with
  | none => throw (.read .noFileStarted)
  | some content => set { w with current := some (content.write data) }

/-- Ends the archive and gives its bytes. -/
def finish : Write Bytes := do
  finishFile
  let w ← get
  let recordStart ← require (Checked.narrow "record offset" (headerSize + w.dataBlock.length))
  let recordBlock := w.recordBlock.bytes w.compress
  let recordCompressed ←
    if w.recordCompression = .none then pure (Word.wrapMul32 w.records recordSize)
    else require (Checked.narrow "record block size" recordBlock.length)
  let nameUncompressed ← require (Checked.narrow "name block size" w.nameBlock.size)
  let nameBlock := w.nameBlock.bytes w.compress
  let nameCompressed ← require (Checked.narrow "stored name block size" nameBlock.length)
  let header : Header :=
    { records := w.records, recordStart, recordCompression := w.recordCompression,
      recordCompressed, nameCompression := w.nameCompression, nameCompressed, nameUncompressed }
  return header.bytes ++ w.dataBlock ++ recordBlock ++ nameBlock ++ w.hashBlock

end Writer

end Packfile.Tre
