import Packfile.Command.Desk
import Packfile.Inspect
import Packfile.Text.Coloured

/-!
# Listing entries

The command `list` prints the entries of an archive, as a table or in their JSON form.
-/

namespace Packfile.Command

/-- The columns of the table, but for the name: a number and three more. -/
def columns (index offset stored size : String) : String :=
  " ".intercalate [Text.padLeft 6 index, Text.padLeft 10 offset, Text.padLeft 10 stored,
    Text.padLeft 10 size]

/-- The first line of the table. -/
def heading : String := columns "index" "offset" "stored" "size" ++ " name"

/-- What is said of an entry behind its name. -/
def remarks (e : Entry) : List String :=
  let part := if e.source.part = 0 then [] else [Coloured.dimmed s!"[part {e.source.part}]"]
  let codec :=
    if e.codec.isIdentity then []
    else [Coloured.cyan ("+".intercalate (e.codec.map fun t => t.outline.line))]
  let properties :=
    if e.properties.isEmpty then []
    else [Coloured.dimmed (" ".intercalate (e.properties.map fun (key, value) =>
      key ++ "=" ++ value.render))]
  part ++ codec ++ properties

/-- The line of an entry. -/
def row (index : Nat) (e : Entry) : String :=
  " ".intercalate (columns (toString index) ("0x" ++ Hex.ofNat e.offset) (toString e.stored)
    (toString e.decoded) :: e.name.getD "?" :: remarks e)

/-- Lists the entries of an archive. -/
def listEntries (input : Input) (json : Bool) : Task Unit := do
  let archive ← Task.openInput input
  if json then Task.print (Json.array (archive.entries.map Entry.toJson)).render
  else
    Task.print heading
    (archive.entries.mapIdx row).forM Task.print

end Packfile.Command
