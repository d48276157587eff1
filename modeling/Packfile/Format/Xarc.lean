import Packfile.Buffer
import Packfile.Format
import Packfile.Walk.Offsets
import Packfile.Walk.Records

/-!
# XARC archives

A table of records and a block of names in front of the data.

| Offset    | Field                           |
|-----------|---------------------------------|
| 0         | magic `XARC`                    |
| 4         | number of entries, 4 bytes      |
| 8         | records of 16 bytes             |
| 8 + 16 n  | names, each ended by a zero     |
| behind    | data                            |

A record holds four integers of 4 bytes: where the data start, how long they are, where the name
starts in the block of names, and a number of unknown meaning, which is kept as the property
`reserved`. Nothing is compressed. When an archive is written, the data of each entry start at a
multiple of four.

## Main definitions

* `Xarc.Record`, `Xarc.decode` — reading
* `Xarc.encode` — writing: names, data, and then the records that tell where they are
* `Xarc.format`
-/

namespace Packfile.Xarc

/-- The bytes at the start of an archive. -/
def magic : Bytes := [0x58, 0x41, 0x52, 0x43]

/-- The size of magic and count. -/
def headerSize : Nat := 8

/-- The size of a record. -/
def recordSize : Nat := 16

/-- Written data start at a multiple of this. -/
def alignment : Nat := 4

/-- The property that keeps the number of unknown meaning. -/
def reservedKey : String := "reserved"

/-- The usual extensions. -/
def extensions : List String := ["xarc", "xar"]

/-- A record of the table. -/
structure Record where
  offset : Nat
  length : Nat
  nameOffset : Nat
  reserved : Nat
  deriving DecidableEq, Repr

/-- Rates a stream: magic, extension, room for the table, and a first record that makes sense. -/
def rate (source : Location) : Reader ScoreCard := do
  let card := (ScoreCard.blank.magic (← Reader.leadingBytes 4) magic).extension source extensions
  let count ← Reader.u32
  let length ← Reader.length
  let blobStart ← Checked.sum headerSize (← Checked.product count recordSize)
  let card := card.sensible (blobStart ≤ length)
  if count = 0 || length < blobStart then return card
  let offset ← Reader.u32
  let size ← Reader.u32
  let card := card.sensible (blobStart ≤ offset && (← Checked.sum offset size) ≤ length)
  let nameOffset ← Reader.u32
  return card.sensible (nameOffset < (← Checked.difference length blobStart))

/-- Reads a record, whose data have to lie in the stream. -/
def readRecord : Reader Record := do
  let offset ← Reader.u32
  let length ← Reader.u32
  let nameOffset ← Reader.u32
  let reserved ← Reader.u32
  Reader.checkRange "entry" offset length
  return { offset, length, nameOffset, reserved }

/-- The entry of a record. -/
def toEntry (source : Location) (record : Record) (name : String) : Entry :=
  { source, name := some name, offset := record.offset, stored := record.length,
    properties := [(reservedKey, .int record.reserved)] }

/-- Reads a directory. -/
def decode (source : Location) : Decode (List Entry) := do
  Reader.skip magic.length
  let declared ← Reader.u32
  let count ← Decode.checkCount declared recordSize (← Reader.remaining)
  let records ← Decode.readTable count fun _ => return .entry (← Decode.ofReader readRecord)
  let blobStart ← Reader.offset
  let blobSize ← Checked.difference (← Reader.length) blobStart
  let names ← Reader.namesFromBlob blobStart blobSize (records.map Record.nameOffset)
  return records.zipWith (toEntry source) names

/-- The content of an entry as it is written. Stored bytes that are the content are copied. -/
def contentBytes (e : EditedEntry) : Reader Bytes :=
  match e.content with
  | .replaced bytes => return bytes
  | .kept =>
    if e.entry.codec.isIdentity && e.entry.source.isPrimary then
      Reader.preserve e.entry.offset e.entry.stored
    else e.contentBytes

/-- The block of names, the next one to start at `offset` in it, and where each name starts. -/
def nameBlock : (offset : Nat) → List EditedEntry → Except Error (Bytes × List Nat)
  | _, [] => .ok ([], [])
  | offset, e :: rest => do
    let start ← Checked.narrow "name offset" offset
    let name := Utf8.encode (← e.name) ++ [0]
    let (block, starts) ← nameBlock (offset + name.length) rest
    return (name ++ block, start :: starts)

/-- The data, the next to start at or behind `position`, and the place of each entry's data. -/
def dataBlock : (position : Nat) → List EditedEntry → Reader (Bytes × List (Nat × Nat))
  | _, [] => return ([], [])
  | position, e :: rest => do
    let padding := Buffer.padding position alignment
    let content ← contentBytes e
    let start := position + padding
    let (block, places) ← dataBlock (start + content.length) rest
    return (List.replicate padding 0 ++ content ++ block, (start, content.length) :: places)

/-- The number of unknown meaning that an entry carries. -/
def reserved (e : Entry) : Except Error Nat :=
  match e.properties.get? reservedKey with
  | some (.int value) =>
    Checked.narrow "reserved field" (if value < 0 then Word.max else value.toNat)
  | _ => .ok 0

/-- The bytes of a record. -/
def recordBytes (record : Record) : Bytes :=
  [record.offset, record.length, record.nameOffset, record.reserved].flatMap
    (ByteOrder.little.encode 4)

/-- The record of an entry. -/
def toRecord (e : EditedEntry) (nameOffset : Nat) (place : Nat × Nat) : Except Error Record := do
  let reserved ← reserved e.entry
  let offset ← Checked.narrow "data offset" place.1
  let length ← Checked.narrow "entry length" place.2
  return { offset, length, nameOffset, reserved }

/-- The bytes of all records. -/
def tableBytes : List EditedEntry → List Nat → List (Nat × Nat) → Except Error Bytes
  | e :: es, nameOffset :: nameOffsets, place :: places => do
    let record ← toRecord e nameOffset place
    return recordBytes record ++ (← tableBytes es nameOffsets places)
  | _, _, _ => .ok []

/-- Writes an archive. -/
def encode (entries : List EditedEntry) : Reader Bytes := do
  let count ← Checked.narrow "entry count" entries.length
  let blobStart := headerSize + recordSize * entries.length
  let (names, nameOffsets) ← nameBlock 0 entries
  let (data, places) ← dataBlock (blobStart + names.length) entries
  let table ← tableBytes entries nameOffsets places
  return magic ++ ByteOrder.little.encode 4 count ++ table ++ names ++ data

/-- XARC archives. -/
def format : Format where
  id := "xarc"
  description := "XARC flat table archive"
  extensions := extensions
  rate := rate
  decode := decode
  encode := some encode

end Packfile.Xarc
