import Packfile.Command

/-!
# The program

Reads the files that a command can see into a tree, runs the command on it, and writes back what
has changed.
-/

namespace Packfile.Shell

/-- The absolute path of a place. -/
def pathOf (place : Place) : String := "/" ++ "/".intercalate place

/-- The place that a path means by its words alone. -/
def placeOf (current : Place) (path : String) : Place :=
  (Path.components path).foldl FileTree.step current

/-- Reads what is at a place, and all below it as far as `levels` says. -/
def load (levels : Nat) (place : Place) (tree : FileTree) : IO FileTree := do
  match ← (IO.FS.realPath (pathOf place)).toBaseIO with
  | .error _ => return tree
  | .ok path =>
    if !(← path.isDir) then
      let content ← IO.FS.readBinFile path
      return tree.addFile place content.toList
    let tree := if (tree.at? place).isSome then tree else tree.put place .folder
    match levels with
    | 0 => return tree
    | levels + 1 =>
      (← path.readDir).foldlM (fun tree e => load levels (place ++ [e.fileName]) tree) tree

/-- Reads what is on the way to a place. -/
def loadAlong (place : Place) (tree : FileTree) : IO FileTree :=
  (List.range (place.length + 1)).foldlM (fun tree count => load 0 (place.take count) tree) tree

/-- Reads the files next to one that differ from it in the extension only. -/
def loadParts (place : Place) (tree : FileTree) : IO FileTree := do
  match ← (IO.FS.realPath (pathOf place.dropLast)).toBaseIO with
  | .error _ => return tree
  | .ok folder =>
    if !(← folder.isDir) then return tree
    let stem := place.getLast?.bind Path.stem?
    let parts := (← folder.readDir).filter fun e => Path.stem? e.fileName == stem
    parts.foldlM (fun tree e => load 0 (place.dropLast ++ [e.fileName]) tree) tree

/-- The deepest that folders are read. -/
def maxLevels : Nat := 64

/-- The files and the folders that a command names. -/
def named : Command → List String × List String
  | .identify paths _ => (paths, [])
  | .list input _ => (input.file :: input.names.toList, [])
  | .extract input directory _ => (input.file :: input.names.toList, [directory])
  | .repack input directory output _ => (output :: input.file :: input.names.toList, [directory])
  | .diff left right names _ => (left :: right :: names.toList, [])

/-- Reads everything that a command can see. -/
def loadFor (command : Command) (current : Place) : IO FileTree := do
  let (files, folders) := named command
  let start ← loadAlong current { nodes := [], current }
  let tree ← files.foldlM (fun tree path => do
    let place := placeOf current path
    loadParts place (← loadAlong place tree)) start
  folders.foldlM (fun tree path => do
    let place := placeOf current path
    load maxLevels place (← loadAlong place.dropLast tree)) tree

/-- Writes back what has changed. -/
def store (before after : FileTree) : IO Unit :=
  after.nodes.forM fun (place, node) =>
    if before.at? place = some node then return
    else match node with
      | .folder => IO.FS.createDirAll (pathOf place)
      | .file _ content => IO.FS.writeBinFile (pathOf place) (ByteArray.mk content.toArray)

/-- Runs a command. -/
def perform (command : Command) : IO UInt32 := do
  let current := (Path.components (← IO.currentDir).toString).filter (· != "/")
  let tree ← loadFor command current
  let (result, desk) := command.run .plain tree
  desk.warnings.forM fun text => IO.eprintln ("warning: " ++ text)
  store tree desk.files
  IO.print desk.output
  match result with
  | .ok () => return 0
  | .error causes =>
    IO.eprintln ("error: " ++ ": ".intercalate (causes.map Cause.message))
    return 1

/-- How the program is called. -/
def usageText : String :=
  "usage: packfile identify|list|extract|repack|diff OPTIONS"

/-- Runs the program. -/
def start (arguments : List String) : IO UInt32 :=
  match Command.ofArguments arguments with
  | .ok command => perform command
  | .error .help => do
    IO.println usageText
    return 0
  | .error _ => do
    IO.eprintln usageText
    return 2

end Packfile.Shell

/-- The program. -/
def main (arguments : List String) : IO UInt32 := Packfile.Shell.start arguments
