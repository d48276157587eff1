import Packfile.Text.Blank

/-!
# Paths

Paths are texts whose parts are separated by slashes. Empty parts and inner `.` parts mean nothing,
a leading slash makes a path absolute, and `..` is a part like any other until a file tree is asked.

## Main definitions

* `Path.components` — the parts that mean something
* `Path.fileName?`, `stem?`, `extension?` — the last part and its two halves
* `Path.withExtension` — the path with another extension
* `Path.parent?`, `Path.join`
-/

namespace Packfile.Path

/-- The meaningful parts of a path: a leading `/` for an absolute one, a leading `.`, and the
names. -/
def components (path : String) : List String :=
  let pieces := (Text.pieces '/' path.toList).map String.ofList
  let names := (pieces.drop 1).filter fun name => name != "" && name != "."
  match pieces with
  | [] => []
  | "" :: _ => if path.isEmpty then [] else "/" :: names
  | first :: _ => first :: names

/-- The last part, if it is a name. -/
def fileName? (path : String) : Option String :=
  match (components path).getLast? with
  | none => none
  | some name => if name == "/" || name == "." || name == ".." then none else some name

/-- A name before and after its last dot. A name without a dot, or with no dot but the first
character, has no second half. -/
def splitName (name : String) : String × Option String :=
  match Text.splitLast? '.' name.toList with
  | some (stem, extension) =>
    if stem.isEmpty then (name, none) else (String.ofList stem, some (String.ofList extension))
  | none => (name, none)

/-- The last part without its extension. -/
def stem? (path : String) : Option String := (fileName? path).map fun name => (splitName name).1

/-- The extension of the last part. -/
def extension? (path : String) : Option String :=
  (fileName? path).bind fun name => (splitName name).2

/-- A path without the slashes and the `.` parts at its end. -/
def trimEnd (reversed : List Char) : List Char :=
  match reversed with
  | '/' :: rest => trimEnd rest
  | '.' :: '/' :: rest => trimEnd ('/' :: rest)
  | chars => chars

/-- A path with the extension of its last part replaced, or added. Without a name to extend, the
path stays as it is. An old extension is taken off up to its dot before the new one is set; if that
leaves the part `..`, which is no name, it is left at that. -/
def withExtension (path extension : String) : String :=
  match fileName? path with
  | none => path
  | some name =>
    let (stem, _) := splitName name
    let trimmed := trimEnd path.toList.reverse
    let front := String.ofList (trimmed.drop name.length).reverse
    if stem == "." && trimmed.length == path.length then front ++ ".."
    else front ++ stem ++ (if extension.isEmpty then "" else "." ++ extension)

/-- A path continued by another one. An absolute one replaces it. -/
def join (path other : String) : String :=
  if other.startsWith "/" then other
  else if path.isEmpty || path.endsWith "/" then path ++ other
  else path ++ "/" ++ other

/-- The path without its last part; `none` for a root and for the empty path. -/
def parent? (path : String) : Option String :=
  let reversed := trimEnd path.toList.reverse
  match reversed with
  | [] => none
  | _ =>
    let front := reversed.dropWhile (· != '/')
    let trimmed := trimEnd front
    if trimmed.isEmpty && !front.isEmpty then some "/" else some (String.ofList trimmed.reverse)

end Packfile.Path
