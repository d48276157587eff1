import Packfile.FileTree

/-!
# What the system decides

Some of what a command does is not up to it. In which order the files of a folder are found, what a
temporary file is called, how much of a content there is room for, whether the system lets a folder
or a file be created or moved: all this is decided by the system that the command runs on. A `Host`
stands for such a system. What holds of a command on every host holds whatever the system decides.

## Main definitions

* `Walk` — an order in which files are found
* `Storage`, `Storage.CleansUp` — what can happen when a file is stored
* `Storage.createFolders` — folders, as far as they can be created
* `Host`, `Host.plain` — a system, and the one where nothing goes wrong
-/

namespace Packfile

/-- An order in which the files below a place are found. Each of them is found once. -/
structure Walk where
  /-- The files at or below a place, in the order in which they are found. -/
  visit : FileTree → Place → List (Place × Bytes)
  /-- They are those that are there. -/
  perm : ∀ t place, (visit t place).Perm (t.filesBelow place)

namespace Walk

/-- Whether a name comes before another, character by character. -/
def nameBefore (a b : String) : Bool := List.lex a.toList b.toList fun c d => c.toNat < d.toNat

/-- Whether a place comes no later than another, name by name. -/
def noLater (a b : Place) : Bool := !List.lex b a nameBefore

/-- Files in the ascending order of their places. -/
def ascending : Walk where
  visit t place := (t.filesBelow place).mergeSort fun a b => noLater a.1 b.1
  perm _ _ := List.mergeSort_perm _ _

end Walk

/-- What can happen when a file is stored. Each step may be refused, whatever the reason. -/
structure Storage where
  /-- After how many parts of a path the system stops creating folders, and why, if it does. -/
  folderRefusal : FileTree → String → Option (Nat × ResourceProblem)
  /-- Why the file that a path leads to cannot be created or emptied, if it cannot. -/
  fileRefusal : FileTree → String → Option ResourceProblem
  /-- The name of a temporary file that is to be created in a folder, or why there is none. -/
  temporary : FileTree → String → Except ResourceProblem String
  /-- How much of a content is written to a path before writing fails, and why, if it does. -/
  interruption : FileTree → String → Bytes → Option (Nat × ResourceProblem)
  /-- Why what was written to a path does not reach the disk, if it does not. -/
  syncFailure : FileTree → String → Option ResourceProblem
  /-- Why a file cannot be moved from one path to another, if it cannot. -/
  moveRefusal : FileTree → (source target : String) → Option ResourceProblem
  /-- What is left of the files when a temporary file at a place is given up. -/
  discarded : FileTree → Place → FileTree

namespace FileTree

/-- Creates folders along the first parts of a path only. -/
def createSome (t : FileTree) (count : Nat) (path : String) : Except ResourceProblem FileTree :=
  t.createAlong t.current ((Path.components path).take count)

end FileTree

namespace Storage

/-- Creates a folder and all that lead to it. Those that were created before the system stops stay
there. -/
def createFolders (s : Storage) (path : String) : EStateM ResourceProblem FileTree Unit := fun t =>
  match s.folderRefusal t path with
  | none =>
    match t.createFolders path with
    | .ok t => .ok () t
    | .error problem => .error problem t
  | some (count, refusal) =>
    match t.createSome count path with
    | .ok t => .error refusal t
    | .error problem => .error problem t

/-- A name that is longer than all others. -/
def unusedName (t : FileTree) : String :=
  let longest := t.nodes.foldr
    (fun entry longest => max (entry.1.foldr (fun name most => max name.length most) 0) longest) 0
  String.ofList (".tmp".toList ++ List.replicate longest '0')

/-- Everything is stored, and there is room for all. -/
def reliable : Storage where
  folderRefusal _ _ := none
  fileRefusal _ _ := none
  temporary t _ := .ok (unusedName t)
  interruption _ _ _ := none
  syncFailure _ _ := none
  moveRefusal _ _ _ := none
  discarded := FileTree.remove

end Storage

/-- A system that commands run on. -/
structure Host where
  /-- In which order it finds files. -/
  walk : Walk
  /-- How it stores them. -/
  storage : Storage

/-- A system that finds files in ascending order, and where nothing goes wrong. -/
def Host.plain : Host := ⟨.ascending, .reliable⟩

end Packfile
