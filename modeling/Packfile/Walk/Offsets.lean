import Packfile.Checked
import Packfile.Codec.Content
import Packfile.Walk.Count

/-!
# Offset tables and blobs of names

Two parts that directories are made of: a table of nothing but offsets, possibly counted in units
of several bytes, and a block of zero-terminated names that records point into.

## Main definitions

* `Reader.offsetTable` — a table of scaled offsets
* `Reader.namesFromBlob` — the names at the given places of a block
* `Reader.openDirectory` — a directory that is deciphered or inflated before it is read
-/

namespace Packfile.Reader

/-- An offset in units of `scale` bytes. -/
def scaled (raw scale : Nat) : Except Error Nat :=
  match Word.mul? raw scale with
  | some offset => .ok offset
  | none => .error (.exceeds "scaled offset" raw (Word.max / max scale 1))

/-- `count` offsets of `width` bytes in units of `scale` bytes. -/
def offsetsFrom (width : Nat) (order : ByteOrder) (scale : Nat) : Nat → Array Nat → Reader (Array Nat)
  | 0, found => return found
  | count + 1, found => do
    let raw ← uint width order
    let offset ← ofExcept (scaled raw scale)
    offsetsFrom width order scale count (found.push offset)

/-- A table of offsets of `width` bytes in units of `scale` bytes. -/
def offsetTable (count : EntryCount) (width : Nat) (order : ByteOrder) (scale : Nat) :
    Reader (List Nat) :=
  return (← offsetsFrom width order scale count.value #[]).toList

/-- The name at a place of a block: up to the first zero, and never beyond the block. -/
def nameInBlob (start size relative : Nat) : Reader String := do
  if size ≤ relative then throw (.exceeds "name offset" relative size)
  seek (← Checked.sum start relative)
  terminatedString (some (← Checked.difference size relative))

/-- The names at the given places of a block. -/
def namesFromBlob (start size : Nat) (offsets : List Nat) : Reader (List String) := do
  checkRange "name table" start size
  offsets.mapM (nameInBlob start size)

/-- A stream over a directory that is stored under a codec. It has the declared length exactly. -/
def openDirectory (start stored decoded : Nat) (codec : Codec) : Reader Stream := do
  let block ← decodeBlock start stored decoded codec
  if block.length != decoded then
    throw (.exceeds "decoded directory length" block.length decoded)
  return { bytes := block, order := (← order) }

end Packfile.Reader
