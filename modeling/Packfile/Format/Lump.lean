import Packfile.Format
import Packfile.Walk.Records

/-!
# LUMP archives

Packed data in front of a directory without a count.

| Offset | Field                                  |
|--------|----------------------------------------|
| 0      | magic `LUMP`                           |
| 4      | where the directory starts, 4 bytes    |
| 8      | data, one entry behind the other       |
| behind | records of 16 bytes                    |

A record is a name in 12 bytes and a length. Offsets are not stored: data start at 8, and each
entry starts where the one before it ends. A record without name and length ends the directory; one
with a length and no name is a deleted entry, whose data are still there. Whatever comes behind the
end of the directory is ignored.

## Main definitions

* `Lump.decode`, `Lump.format`
-/

namespace Packfile.Lump

/-- The bytes at the start of an archive. -/
def magic : Bytes := [0x4C, 0x55, 0x4D, 0x50]

/-- Where the data start. -/
def dataStart : Nat := 8

/-- The size of a record. -/
def recordSize : Nat := 16

/-- The size of a name. -/
def nameSize : Nat := 12

/-- The usual extensions. -/
def extensions : List String := ["lump", "lmp"]

/-- Whether a directory can start at an offset of a stream of `length` bytes. -/
def isDirectory (directory length : Nat) : Bool := dataStart ≤ directory && directory ≤ length

/-- Rates a stream: magic, extension, and a directory that lies in it. -/
def rate (source : Location) : Reader ScoreCard := do
  let card := (ScoreCard.blank.magic (← Reader.leadingBytes 4) magic).extension source extensions
  let directory ← Reader.u32
  return card.sensible (isDirectory directory (← Reader.length))

/-- Reads a record whose data start at `next`. Gives what it means, and where the next data
start. -/
def readRecord (source : Location) (directory next : Nat) :
    Reader (RecordAction Entry × Nat) := do
  let name ← Reader.fixedString nameSize
  let length ← Reader.u32
  if name.isEmpty && length = 0 then return (.finish, next)
  let stop ← Checked.sum next length
  if directory < stop then throw (.exceeds "entry end" stop directory)
  if name.isEmpty then return (.skip, stop)
  return (.entry { source, name := some name, offset := next, stored := length }, stop)

/-- Reads a directory. -/
def decode (source : Location) : Decode (List Entry) := do
  Reader.skip magic.length
  let directory ← Reader.u32
  let length ← Reader.length
  if !isDirectory directory length then throw (.exceeds "directory offset" directory length)
  Reader.seek directory
  Decode.readUntil length recordSize dataStart fun next _ =>
    Decode.ofReader (readRecord source directory next)

/-- LUMP archives. -/
def format : Format where
  id := "lump"
  description := "LUMP packed archive"
  extensions := extensions
  rate := rate
  decode := decode

end Packfile.Lump
