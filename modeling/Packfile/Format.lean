import Packfile.Edit
import Packfile.Listing.Order
import Packfile.Score
import Packfile.Session

/-!
# Formats

A `Format` says how archives of one kind are recognized, read and, for some, written. Reading a
directory always goes through `Format.readDirectory`, which starts every decode from the same
state: no palettes, the stream at its start; and lets no entry out that does not lie in its part.

## Main definitions

* `Format`
* `Format.score`, `Format.readDirectory`
-/

namespace Packfile

/-- A kind of archive. -/
structure Format where
  /-- A short identifier. -/
  id : String
  /-- A few words for people. -/
  description : String
  /-- The usual extensions, in lower case. -/
  extensions : List String
  /-- How a stream is rated. -/
  rate : Location → Reader ScoreCard
  /-- How a directory is read. The stream stands at its start. -/
  decode : Location → Decode (List Entry)
  /-- How an archive is written, over the stream of the archive that is open. -/
  encode : Option (List EditedEntry → Reader Bytes) := none

namespace Format

/-- The confidence that a stream is in the format. -/
def score (format : Format) (source : Location) : Reader Confidence :=
  Reader.score (format.rate source)

/-- Reads the directory of a stream. -/
def readDirectory (format : Format) (source : Location) : Decode (List Entry) := do
  Decode.clearPalettes
  Reader.seek 0
  let entries ← format.decode source
  let options ← Decode.options
  Decode.ofReader (Reader.ofExcept (Listing.finish options.sortByOffset entries))

end Format

end Packfile
