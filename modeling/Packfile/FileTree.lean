import Packfile.Error
import Packfile.Bytes
import Packfile.Path

/-!
# File trees

The files and folders that a command can see, as a value. Commands are functions from trees to
trees, so what they change, and what they leave alone, are statements about two values.

A tree lists its files and folders under their places, a place being the names on the way there
from the root. Paths lead from the current folder, absolute ones from the root. The operations fail
where, and as, those of a file system fail.

A file has a number, and may be at more than one place: these are all names of one file, and what is
written into it under one of them is read under the others. Each place repeats the content. That the
names of a file agree on it to begin with is not asked for, since nothing here depends on it. A
folder is at one place only, and there are no links that lead to another path.

## Main definitions

* `FileTree.place` — the place that a path leads to
* `FileTree.read`, `length`, `exists?`, `filesBelow` — looking
* `FileTree.fill`, `addFile`, `remove`, `move` — changing what is at a place
* `FileTree.createFolders`, `createFile`, `writeFile` — the same by path
-/

namespace Packfile

/-- What can be at a place. -/
inductive Node where
  /-- A file with its number and its content. -/
  | file (number : Nat) (content : Bytes)
  /-- A folder. -/
  | folder
  deriving DecidableEq, Repr

/-- The least number that is greater than the one of a node. -/
def Node.beyond : Node → Nat
  | file number _ => number + 1
  | folder => 0

/-- A node after the file of a number was written over. -/
def Node.rewritten (written : Nat) (content : Bytes) : Node → Node
  | file number old => file number (if number = written then content else old)
  | folder => folder

/-- The names on the way from the root. -/
abbrev Place := List String

/-- Files and folders by place. The root is always there. -/
structure FileTree where
  /-- Everything in the tree but the root, at most once for each place. -/
  nodes : List (Place × Node)
  /-- The folder that relative paths start from. -/
  current : Place := []
  /-- What is given as the length of a folder. -/
  folderLength : Nat := 4096
  deriving DecidableEq, Repr, Inhabited

namespace FileTree

/-- The tree without files. -/
def empty : FileTree := { nodes := [] }

/-- What is at a place. -/
def at? (t : FileTree) (place : Place) : Option Node :=
  if place = [] then some .folder else t.nodes.lookup place

/-- Puts something at a place. -/
def put (t : FileTree) (place : Place) (node : Node) : FileTree :=
  { t with nodes := t.nodes.filter (fun entry => entry.1 != place) ++ [(place, node)] }

/-- A number that no file has. -/
def fresh (t : FileTree) : Nat := t.nodes.foldr (fun entry least => max entry.2.beyond least) 0

/-- Puts a new file at a place. -/
def addFile (t : FileTree) (place : Place) (content : Bytes) : FileTree :=
  t.put place (.file t.fresh content)

/-- Writes over a file, wherever it is. -/
def rewrite (t : FileTree) (written : Nat) (content : Bytes) : FileTree :=
  { t with nodes := t.nodes.map fun entry => (entry.1, entry.2.rewritten written content) }

/-- Writes the file at a place, new or not. -/
def fill (t : FileTree) (place : Place) (content : Bytes) : FileTree :=
  match t.at? place with
  | some (.file number _) => t.rewrite number content
  | _ => t.addFile place content

/-- Takes away what is at a place. -/
def remove (t : FileTree) (place : Place) : FileTree :=
  { t with nodes := t.nodes.filter fun entry => entry.1 != place }

/-- Moves what is at one place to another, over what is there. -/
def move (t : FileTree) (source target : Place) : FileTree :=
  match t.at? source with
  | none => t
  | some node => if source = target then t else (t.remove source).put target node

/-- The place one component further on. -/
def step (place : Place) (name : String) : Place :=
  if name == "." then place
  else if name == "/" then []
  else if name == ".." then place.dropLast
  else place ++ [name]

/-- Follows components, each of which has to be a folder. -/
def enter (t : FileTree) : Place → List String → Except ResourceProblem Place
  | place, [] => .ok place
  | place, name :: names =>
    let next := step place name
    match t.at? next with
    | none => .error .notFound
    | some (.file _ _) => .error .notDirectory
    | some .folder => enter t next names

/-- Whether a path ends with a slash. Only a folder can be meant then. -/
def endsInSlash (path : String) : Bool := path.endsWith "/"

/-- Whether the last part of a path is `.` or `..`. Only a folder that is there can be meant
then. -/
def endsInDots (path : String) : Bool :=
  let last := ((path.toList.reverse.dropWhile (· == '/')).takeWhile (· != '/')).reverse
  last == ['.'] || last == ['.', '.']

/-- Whether a path says by its end that it means a folder. -/
def meansFolder (path : String) : Bool := endsInSlash path || endsInDots path

/-- The place that a path leads to. Everything on the way has to be there; the place itself need
not. -/
def place (t : FileTree) (path : String) : Except ResourceProblem Place :=
  match (Path.components path).reverse with
  | [] => .error .notFound
  | last :: front => do
    let folder ← t.enter t.current front.reverse
    return step folder last

/-- The content of a file. -/
def read (t : FileTree) (path : String) : Except ResourceProblem Bytes := do
  match t.at? (← t.place path) with
  | none => throw .notFound
  | some .folder => throw .isDirectory
  | some (.file _ content) => if meansFolder path then throw .notDirectory else return content

/-- The length of what is at the end of a path, without a look into it. -/
def length (t : FileTree) (path : String) : Except ResourceProblem Nat := do
  match t.at? (← t.place path) with
  | none => throw .notFound
  | some .folder => return t.folderLength
  | some (.file _ content) =>
    if meansFolder path then throw .notDirectory else return content.length

/-- Whether there is anything at the end of a path. -/
def exists? (t : FileTree) (path : String) : Bool :=
  match t.place path with
  | .error _ => false
  | .ok place =>
    match t.at? place with
    | none => false
    | some .folder => true
    | some (.file _ _) => !meansFolder path

/-- Whether one place lies at or below another, and how it goes on from there. -/
def below? : (above place : Place) → Option Place
  | [], rest => some rest
  | _ :: _, [] => none
  | a :: above, b :: place => if a = b then below? above place else none

/-- The file at a node, with the rest of the way to it, if it is at or below a place. -/
def foundBelow (above : Place) (entry : Place × Node) : Option (Place × Bytes) :=
  match entry.2, below? above entry.1 with
  | .file _ content, some rest => some (rest, content)
  | _, _ => none

/-- The files at or below a place, with the rest of the way to them. -/
def filesBelow (t : FileTree) (above : Place) : List (Place × Bytes) :=
  t.nodes.filterMap (foundBelow above)

/-- The files at or below a path, under the paths that lead to them from there. -/
def filesUnder (t : FileTree) (path : String) : List (String × Bytes) :=
  match t.place path with
  | .error _ => []
  | .ok place =>
    (t.filesBelow place).map fun (rest, content) => (rest.foldl Path.join path, content)

/-- Creates the folders that are missing on the way along components. -/
def createAlong (t : FileTree) : Place → List String → Except ResourceProblem FileTree
  | _, [] => .ok t
  | place, name :: names =>
    let next := step place name
    match t.at? next with
    | none => createAlong (t.put next .folder) next names
    | some .folder => createAlong t next names
    | some (.file _ _) => .error (if names.isEmpty then .alreadyExists else .notDirectory)

/-- Creates a folder and all that lead to it, as far as they are missing. -/
def createFolders (t : FileTree) (path : String) : Except ResourceProblem FileTree :=
  t.createAlong t.current (Path.components path)

/-- The place of a file that is to be created. A path that ends in dots can only lead to a folder
that is there, and `there` is said of it; a path that ends in a slash cannot be that of a file. -/
def newPlace (t : FileTree) (path : String) (there : ResourceProblem) :
    Except ResourceProblem Place := do
  if endsInDots path then
    let _ ← t.enter t.current (Path.components path)
    throw there
  let place ← t.place path
  if endsInSlash path then throw .isDirectory
  return place

/-- Creates an empty file where there is nothing. -/
def createFile (t : FileTree) (path : String) : Except ResourceProblem FileTree := do
  let place ← t.newPlace path .alreadyExists
  match t.at? place with
  | some _ => throw .alreadyExists
  | none => return t.addFile place []

/-- Writes a file, new or not. -/
def writeFile (t : FileTree) (path : String) (content : Bytes) :
    Except ResourceProblem FileTree := do
  let place ← t.newPlace path .isDirectory
  match t.at? place with
  | some .folder => throw .isDirectory
  | _ => return t.fill place content

/-- Writes a file after creating the folders on the way to it. -/
def install (t : FileTree) (path : String) (content : Bytes) :
    Except ResourceProblem FileTree := do
  let t ← match Path.parent? path with
    | none => pure t
    | some folder => t.createFolders folder
  t.writeFile path content

/-- The place that a file can be moved to by a path, over any file that is there. -/
def targetPlace (t : FileTree) (path : String) : Except ResourceProblem Place := do
  let place ← t.place path
  if endsInDots path then throw .busy
  if endsInSlash path then throw .notDirectory
  match t.at? place with
  | some .folder => throw .isDirectory
  | _ => return place

end FileTree

end Packfile
