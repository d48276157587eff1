import Packfile.Format
import Packfile.Format.Tre.Writer
import Packfile.Walk.Offsets
import Packfile.Walk.Records

/-!
# TRE archives

Archives with their directory behind the data: a block of records, a block of names, each of which
may be compressed as a whole, and a block of MD5 digests of the stored data, which may be missing.
Entries are compressed one by one. `Packfile.Format.Tre.Layout` has the layout.

## Main definitions

* `Tre.decode`, `Tre.encode`, `Tre.format`
-/

namespace Packfile.Tre

/-- The usual extension. -/
def extensions : List String := ["tre"]

/-- What is reported when a record does not hold the checksum of its name. -/
def checksumMismatch : String := "name checksum mismatch"

/-- What is reported when the digests are not all there. -/
def hashesMissing : String := "hash block missing or truncated"

/-- Rates a stream: extension, magic, and, once the magic is there, a header that makes sense. -/
def rate (source : Location) : Reader ScoreCard := do
  let card := ScoreCard.blank.extension source extensions
  let found ← Reader.leadingBytes magic.length
  let card := card.magic found magic
  if found != magic then return card
  Reader.seek 0
  let header ← Reader.treHeader
  let length ← Reader.length
  let card := card.sensible (headerSize ≤ header.recordStart)
  let card := card.sensible ((← Checked.product header.records recordSize) ≤ length)
  return card.sensible ((← header.hashOffset) ≤ length)

/-- The digests, when there is one for every record. -/
def readHashes (header : Header) : Decode (Option Bytes) := do
  let size ← Checked.product header.records hashSize
  let start ← header.hashOffset
  if Reader.inRange (← Reader.length) start size then
    Reader.seek start
    return some (← Reader.bytes size)
  else
    Decode.warn hashesMissing
    return none

/-- `size` bytes from `start` on of a byte string that is known to have them. -/
def part (bytes : Bytes) (start size : Nat) : Except Error Bytes := do
  Checked.slice bytes start (← Checked.sum start size)

/-- The entry of a record, without its digest. -/
def toEntry (source : Location) (record : Record) (name : String) : Entry :=
  { source
    name := some name
    offset := record.offset
    stored := record.compressed
    decoded := match record.compression with
      | .none => record.compressed
      | .zlib => record.uncompressed
    codec := record.compression.codec
    properties := [("crc", .int record.checksum)] }

/-- The entries of records from an index on. -/
def listEntries (source : Location) (hashes : Option Bytes) :
    (index : Nat) → List (Record × String) → Decode (List Entry)
  | _, [] => return []
  | index, (record, name) :: rest => do
    if nameChecksum name != record.checksum then Decode.warn checksumMismatch
    let entry := toEntry source record name
    let entry ← match hashes with
      | none => pure entry
      | some hashes => do
        let start ← Checked.product index hashSize
        let digest ← Decode.ofReader (Reader.ofExcept (part hashes start hashSize))
        pure (entry.withProperty "md5" (.bytes digest))
    return entry :: (← listEntries source hashes (index + 1) rest)

/-- Reads the entries of a directory whose header has passed its checks. -/
def readEntries (source : Location) (header : Header) (count : EntryCount) :
    Decode (List Entry) := do
  let recordBlock ← Reader.openDirectory header.recordStart header.recordCompressed
    (← Checked.product header.records recordSize) header.recordCompression.codec
  let (records, _) ← Decode.onStream recordBlock <|
    Decode.readTable count fun _ => return .entry (← Decode.ofReader Reader.treRecord)
  let nameBlock ← Reader.openDirectory (← header.nameOffset) header.nameCompressed
    header.nameUncompressed header.nameCompression.codec
  let (names, _) ← Decode.onStream nameBlock <|
    Decode.ofReader
      (Reader.namesFromBlob 0 header.nameUncompressed (records.map Record.nameOffset))
  let hashes ← readHashes header
  listEntries source hashes 0 (records.zip names)

/-- Reads a directory. -/
def decode (source : Location) : Decode (List Entry) := do
  let header ← Reader.treHeader
  let count ← Decode.checkCount header.records 1 header.nameUncompressed
  if header.recordCompression = .none then
    let _ ← Decode.checkCount header.records recordSize header.recordCompressed
  readEntries source header count

/-- Writes entries into an archive, one after the other. -/
def writeEntries : List EditedEntry → Writer → Reader Writer
  | [], w => return w
  | e :: rest, w => do
    let content ← e.contentBytes
    let name ← e.name
    let call : Write Unit := do
      Writer.startFile name (.ofCodec e.entry.codec)
      Writer.write content
    match call w with
    | .ok _ w => writeEntries rest w
    | .error error _ => throw error

/-- Writes an archive with the block compressions of the one that is open. -/
def encode (entries : List EditedEntry) (compress : Bytes → Bytes := Zlib.compress) :
    Reader Bytes := do
  Reader.seek 0
  let header ← Reader.treHeader
  let w ← writeEntries entries
    (Writer.make header.recordCompression header.nameCompression compress)
  match Writer.finish w with
  | .ok bytes _ => return bytes
  | .error error _ => throw error

/-- TRE archives. -/
def format : Format where
  id := "tre"
  description := "TRE archive, version 5"
  extensions := extensions
  rate := rate
  decode := decode
  encode := some encode

end Packfile.Tre
