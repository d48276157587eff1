import Packfile.Entry

/-!
# Order and bounds of a listing

Every decoded directory ends here: its entries are put in the order of their data if that is
wanted, and each is held against the length of the part it lies in.

## Main definitions

* `Listing.sort` — by part and offset, otherwise in the order of decoding
* `Listing.validate` — every entry lies in its part
-/

namespace Packfile.Listing

/-- Whether an entry's data do not come after another's. -/
def precedes (a b : Entry) : Bool :=
  decide (a.source.part < b.source.part) ||
    (a.source.part == b.source.part && decide (a.offset ≤ b.offset))

/-- The entries by part and offset. Entries that agree in both keep their order. -/
def sort (entries : List Entry) : List Entry := entries.mergeSort precedes

/-- Fails unless an entry lies in its part. -/
def checkBounds (entry : Entry) : Except Error Unit :=
  let length := entry.source.length
  if length < entry.offset then .error (.exceeds "entry offset" entry.offset length)
  else if length < entry.stop then .error (.exceeds "entry end" entry.stop length)
  else .ok ()

/-- Fails for the first entry that does not lie in its part. -/
def validate : List Entry → Except Error Unit
  | [] => .ok ()
  | entry :: rest =>
    match checkBounds entry with
    | .error e => .error e
    | .ok () => validate rest

/-- The entries in the order that is wanted. -/
def arrange (sorted : Bool) (entries : List Entry) : List Entry :=
  if sorted then sort entries else entries

/-- The entries in the order that is wanted, if all of them lie in their parts. -/
def finish (sorted : Bool) (entries : List Entry) : Except Error (List Entry) :=
  match validate (arrange sorted entries) with
  | .error e => .error e
  | .ok () => .ok (arrange sorted entries)

end Packfile.Listing
