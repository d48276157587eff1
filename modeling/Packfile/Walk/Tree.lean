import Packfile.EntryName
import Packfile.Walk.Records

/-!
# Walks over folders

Directories that nest come in two shapes. In a tree, a folder refers to the place of its own table
of nodes, and the walk goes down before it goes on. In a list of folder ranges, all files are in
one table and each folder claims a run of it.

## Cycles

A damaged tree may refer to one table twice, or nest without end. A table is never read a second
time, and folders deeper than a limit are refused, so a walk always ends.

## Main definitions

* `Decode.walkTree` — the files of a tree, depth first
* `FolderRange.applyAll` — the names of files in folder ranges
-/

namespace Packfile

/-- A node of a folder. -/
inductive TreeNode where
  /-- A file, not named yet. -/
  | file (name : String) (entry : Entry)
  /-- A folder with the place of its nodes. -/
  | folder (name : String) (offset : Nat)
  deriving Repr

/-- What a walk over a tree has seen. -/
structure TreeWalk where
  /-- The places of the folders that were read. -/
  visited : List Nat := []
  /-- The files found. -/
  found : Array Entry := #[]

namespace Decode

/-- Takes up a file under the path of its folder. -/
def addFile (path name : String) (entry : Entry) (walk : TreeWalk) : Decode TreeWalk := do
  checkRoom walk.found.size
  let entry ← ofReader (Reader.ofExcept (entry.assignName (EntryName.join [path, name])))
  progress walk.found.size entry.offset
  return { walk with found := walk.found.push entry }

/-- Walks over a folder `depth` levels below the root, and all below it. `levels` says how many
levels of folders are allowed from here on, this one included. -/
def walkFolder (readFolder : Nat → Decode (List TreeNode)) (maxDepth : Nat) :
    (levels depth : Nat) → (path : String) → (offset : Nat) → TreeWalk → Decode TreeWalk
  | 0, depth, _, _, _ => throw (.exceeds "folder depth" depth maxDepth)
  | levels + 1, depth, path, offset, walk => do
    if walk.visited.contains offset then throw (.cycle offset)
    let nodes ← readFolder offset
    nodes.foldlM
      (fun walk node =>
        match node with
        | .file name entry => addFile path name entry walk
        | .folder name offset => do
          let below ← Checked.sum depth 1
          walkFolder readFolder maxDepth levels below (EntryName.join [path, name]) offset walk)
      { walk with visited := offset :: walk.visited }

/-- The files of a tree, depth first in the order of the nodes, each under the path that leads to
it. Folders may lie at most `maxDepth` levels below the root. -/
def walkTree (rootName : String) (root maxDepth : Nat)
    (readFolder : Nat → Decode (List TreeNode)) : Decode (List Entry) :=
  return (← walkFolder readFolder maxDepth (maxDepth + 1) 0 rootName root {}).found.toList

end Decode

/-- A folder that claims a run of a file table. -/
structure FolderRange where
  /-- The name of the folder. -/
  name : String
  /-- The folder that it lies in, by its place in the list. -/
  parent : Option Nat
  /-- The first file. -/
  first : Nat
  /-- The number of files. -/
  count : Nat
  deriving DecidableEq, Repr

namespace FolderRange

/-- The path of the folder at an index, given the paths of the folders before it. -/
def path (folder : FolderRange) (paths : List String) (index : Nat) : Except Error String :=
  match folder.parent with
  | none => .ok folder.name
  | some parent =>
    if parent < index then do
      return EntryName.join [← Checked.item paths parent, folder.name]
    else .error (.exceeds "parent folder index" parent index)

/-- Puts a path in front of the names in a run. -/
def mark (path : String) (first stop : Nat) (names : List String) : Except Error (List String) := do
  let run ← Checked.slice names first stop
  return names.take first ++ run.map (fun name => EntryName.join [path, name]) ++ names.drop stop

/-- Applies folders in turn, given the paths of the folders before them. Gives the names as far as
they are done, and the error that stopped it. -/
def applyFrom : (paths : List String) → List FolderRange → List String →
    List String × Option Error
  | _, [], names => (names, none)
  | paths, folder :: rest, names =>
    match folder.path paths paths.length with
    | .error e => (names, some e)
    | .ok path =>
      let stop := Word.satAdd folder.first folder.count
      if names.length < stop then
        (names, some (.exceeds "folder file range" stop names.length))
      else
        match mark path folder.first stop names with
        | .error e => (names, some e)
        | .ok names => applyFrom (paths ++ [path]) rest names

/-- The names of files in folder ranges. -/
def applyAll (folders : List FolderRange) (names : List String) : List String × Option Error :=
  applyFrom [] folders names

end FolderRange

end Packfile
