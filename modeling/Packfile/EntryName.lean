import Packfile.Text.Blank

/-!
# Names of entries

An entry's name is a path inside its archive, with backslashes between the folders. The functions
here build such names and repair the ones that an archive stores in a shortened or decorated form.
-/

namespace Packfile.EntryName

/-- What separates the folders in a name. -/
def separator : Char := '\\'

/-- Continues a path with a part. Empty parts leave no trace. -/
def append (path part : String) : String :=
  if part.isEmpty then path
  else if path.isEmpty then part
  else path.push separator ++ part

/-- The path through all parts that are not empty. -/
def join (parts : List String) : String := parts.foldl append ""

/-- A name made of a stem and an extension. No extension means no dot. -/
def withExtension (stem extension : String) : String :=
  if extension.isEmpty then stem else stem ++ "." ++ extension

/-- The name without the first of the given fronts that it starts with. -/
def dropFirstFront (fronts : List String) (name : String) : String :=
  match fronts.findSome? fun front => Text.dropFront? front.toList name.toList with
  | some rest => String.ofList rest
  | none => name

/-- The name without the first of the given backs that it ends with. -/
def dropFirstBack (backs : List String) (name : String) : String :=
  match backs.findSome? fun back => Text.dropBack? back.toList name.toList with
  | some rest => String.ofList rest
  | none => name

/-- The name without the first front and then the first back that fit. -/
def stripAffixes (name : String) (fronts backs : List String) : String :=
  dropFirstBack backs (dropFirstFront fronts name)

/-- The name up to its last dot, unless that leaves nothing. -/
def stem (name : String) : String :=
  match Text.splitLast? '.' name.toList with
  | some (front, _) => if front.isEmpty then name else String.ofList front
  | none => name

/-- The name with the extension that a table has for a type code. A code that the table does not
have leaves the name alone. -/
def substituteExtension (name : String) (code : Nat) (table : List (Nat × String)) : String :=
  match table.lookup code with
  | none => name
  | some extension => withExtension (stem name) extension

end Packfile.EntryName
