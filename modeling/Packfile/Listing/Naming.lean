import Packfile.Entry
import Packfile.EntryName

/-!
# Names for entries without one

An entry that its directory does not name is called by its index. When that name is taken, by
another entry or by an earlier generated one and up to the case of letters, the index gets a
number behind it, the least that makes the name free.

## Main definitions

* `Listing.candidate` — the names that are tried, in order
* `Listing.generate` — names for all entries without one
-/

namespace Packfile.Listing

/-- The `attempt`-th name that is tried for the entry at an index. Attempts are counted in 31 bits.
A free name is found after fewer attempts than there are entries, so that the count is exact in a
list of up to `2 ^ 31` of them. -/
def candidate (index : Nat) (extension : String) (attempt : Nat) : String :=
  EntryName.withExtension
    (if attempt = 0 then toString index else toString index ++ "_" ++ toString attempt) extension

/-- The first candidate from `attempt` on that is not taken. Among one more candidates than there
are taken names one is free. -/
def freeName (taken : List String) (index : Nat) (extension : String) : Nat → Nat → String
  | 0, attempt => candidate index extension attempt
  | rounds + 1, attempt =>
    let name := candidate index extension attempt
    if taken.contains (Text.lowerAscii name) then
      freeName taken index extension rounds (attempt + 1)
    else name

/-- Names the entries without a name, from an index on. `taken` holds the names that are in use, in
lower case. -/
def generateFrom (defaultExtension : String) : List String → Nat → List Entry → List Entry
  | _, _, [] => []
  | taken, index, entry :: rest =>
    match entry.name with
    | some _ => entry :: generateFrom defaultExtension taken (index + 1) rest
    | none =>
      let extension := entry.hint.getD defaultExtension
      let name := freeName taken index extension taken.length 0
      entry.rename name ::
        generateFrom defaultExtension (Text.lowerAscii name :: taken) (index + 1) rest

/-- Names the entries without a name. The extension is the one that the content suggests, or a
default. -/
def generate (defaultExtension : String) (entries : List Entry) : List Entry :=
  let taken := entries.filterMap fun entry => entry.name.map Text.lowerAscii
  generateFrom defaultExtension taken 0 entries

end Packfile.Listing
