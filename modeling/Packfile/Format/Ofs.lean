import Packfile.Format
import Packfile.Listing.Hints
import Packfile.Listing.Lengths
import Packfile.Listing.Naming
import Packfile.Walk.Offsets

/-!
# Offset lists

Archives without a header: the stream begins with the offsets of its entries, 4 bytes each, and one
more for the end of the last entry. The first offset points behind the table, so it also tells how
long the table is. There are no names; entries are called by their index, with an extension that
their content suggests.

## Main definitions

* `Ofs.isConsistent` — whether a stream can be such a list, which stands in for a magic
* `Ofs.decode`, `Ofs.encode`, `Ofs.format`
-/

namespace Packfile.Ofs

/-- The size of an offset. -/
def offsetSize : Nat := 4

/-- The usual extension. -/
def extensions : List String := ["ofs"]

/-- The extension of entries that suggest none. -/
def defaultExtension : String := "bin"

/-- What is reported when the stream goes on behind the last entry. -/
def trailingBytes : String := "ignoring trailing bytes after last entry"

/-- Reads `count` offsets that do not decrease. Gives the last one, or nothing at the first that is
less than the one before it. -/
def lastOfRising : (count previous : Nat) → Reader (Option Nat)
  | 0, previous => return some previous
  | count + 1, previous => do
    let offset ← Reader.u32
    if offset < previous then return none
    lastOfRising count offset

/-- Whether the stream starts with a table of rising offsets that ends at the end of the stream. -/
def isConsistent : Reader Bool := do
  Reader.seek 0
  let first ← Reader.u32
  let length ← Reader.length
  if first < offsetSize || first % offsetSize != 0 || length < first then return false
  let last? ← lastOfRising (first / offsetSize - 1) first
  return last? == some length

/-- Rates a stream: extension, and a consistent table. -/
def rate (source : Location) : Reader ScoreCard := do
  let card := ScoreCard.blank.extension source extensions
  return card.check (← isConsistent) ScoreCard.magicWeight

/-- The entries at given offsets, each reported from an index on. -/
def listEntries (source : Location) : (index : Nat) → List (Nat × Nat) → Decode (List Entry)
  | _, [] => return []
  | index, (offset, length) :: rest => do
    Decode.progress index offset
    let entries ← listEntries source (index + 1) rest
    return { source, offset, stored := length } :: entries

/-- Reads a directory. -/
def decode (source : Location) : Decode (List Entry) := do
  let first ← Reader.u32
  if first < offsetSize || first % offsetSize != 0 then throw (.odd (.offsetTableSize first))
  let length ← Reader.length
  let count ← Decode.checkCount (first / offsetSize) offsetSize length
  Reader.seek 0
  let offsets ← Reader.offsetTable count 4 .little 1
  let stop := offsets.getLastD 0
  let starts := offsets.dropLast
  if length < stop then throw (.exceeds "end offset" stop length)
  if stop < length then Decode.warn trailingBytes
  let lengths ← Decode.ofReader (Reader.ofExcept (Listing.lengths starts stop))
  let entries ← listEntries source 0 (starts.zip lengths)
  let hinted ← Listing.sniffHints entries
  let entries ← Decode.ofReader (Reader.ofExcept (Listing.orFail hinted))
  return Listing.generate defaultExtension entries

/-- The contents of entries, one after the other. -/
def contents : List EditedEntry → Reader (List Bytes)
  | [] => return []
  | e :: rest => do
    let content ← e.contentBytes
    return content :: (← contents rest)

/-- Where contents start that are laid out from a position on, and where the last one ends. -/
def starts : (position : Nat) → List Bytes → List Nat
  | position, [] => [position]
  | position, content :: rest => position :: starts (position + content.length) rest

/-- The bytes of a table of offsets. -/
def tableBytes : List Nat → Except Error Bytes
  | [] => .ok []
  | offset :: rest => do
    let offset ← Checked.narrow "entry offset" offset
    return ByteOrder.little.encode offsetSize offset ++ (← tableBytes rest)

/-- Writes an archive. -/
def encode (entries : List EditedEntry) : Reader Bytes := do
  let contents ← contents entries
  let table ← tableBytes (starts (offsetSize * (entries.length + 1)) contents)
  return table ++ contents.flatten

/-- Offset lists. -/
def format : Format where
  id := "ofs"
  description := "headerless offset list"
  extensions := extensions
  rate := rate
  decode := decode
  encode := some encode

end Packfile.Ofs
