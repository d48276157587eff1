import Packfile.Listing.Update
import Packfile.Signature

/-!
# What entries show of themselves

Where a directory does not say what an entry holds, its first bytes may: they may be the header of
compressed data, or the signature of a kind of content.

## Main definitions

* `Listing.sniffCodec` — compressed entries that are not declared to be
* `Listing.sniffHints` — extensions suggested by content
-/

namespace Packfile.Listing

/-- Attaches a decompression when an entry without a codec starts like a zlib stream. Says whether
it did. -/
def sniffCodec (entry : Entry) (decoded : Nat) : Reader (Entry × Bool) := do
  if !entry.codec.isIdentity || entry.stored < 2 then return (entry, false)
  Reader.seek entry.offset
  let header ← Reader.bytes 2
  if Zlib.looksLike header then return (entry.withCodec [.zlib] decoded, true)
  return (entry, false)

/-- Suggests an extension for an entry that has no suggestion and no codec. -/
def sniffHint (entry : Entry) : Reader Entry := do
  if entry.hint.isSome || !entry.codec.isIdentity then return entry
  let width := min entry.stored Signature.reach
  if width = 0 || !Reader.inRange (← Reader.length) entry.offset width then return entry
  Reader.seek entry.offset
  let header ← Reader.bytes width
  match Signature.extensionOf? header with
  | some extension => return entry.withHint extension
  | none => return entry

/-- Suggests extensions for all entries. -/
def sniffHints (entries : List Entry) : Reader (List Entry × Option Error) :=
  updateEach sniffHint entries

end Packfile.Listing
