import Packfile.Listing.Update

/-!
# Lengths that a directory does not state

Some directories state only where entries start. Their lengths follow from the next start, or are
written at the start of the entries themselves.

## Main definitions

* `Listing.lengths` — distances to the next offset
* `Listing.scanLengths` — lengths read from the entries
-/

namespace Packfile.Listing

/-- The length of an entry that ends where the next one starts. -/
def gap (offset next : Nat) : Except Error Nat :=
  match Word.sub? next offset with
  | some length => .ok length
  | none => .error (.exceeds "entry offset" offset next)

/-- The lengths of entries at the given offsets, each up to the next and the last up to `stop`. -/
def lengths : (offsets : List Nat) → (stop : Nat) → Except Error (List Nat)
  | [], _ => .ok []
  | offset :: rest, stop => do
    let length ← gap offset (rest.headD stop)
    return length :: (← lengths rest stop)

/-- Where an entry states its own length. -/
structure LengthField where
  /-- The distance of the field from the start of the entry. -/
  position : Nat
  /-- The width of the field. -/
  width : Nat
  /-- The byte order of the field. -/
  order : ByteOrder
  /-- How many bytes of the entry the stated length leaves out. -/
  excluded : Nat
  deriving DecidableEq, Repr

/-- Reads the length that an entry states. -/
def scanLength (field : LengthField) (entry : Entry) : Reader Entry := do
  let start := Word.satAdd entry.offset field.position
  Reader.checkRange "length field" start field.width
  Reader.seek start
  let stated ← Reader.uint field.width field.order
  let most ← Checked.difference Word.max field.excluded
  match Word.add? stated field.excluded with
  | some length => return entry.withStored length
  | none => throw (.exceeds "embedded length" stated most)

/-- Reads the lengths that entries state. -/
def scanLengths (field : LengthField) (entries : List Entry) :
    Reader (List Entry × Option Error) :=
  updateEach (scanLength field) entries

end Packfile.Listing
