import Packfile.Host

/-!
# Saving an archive

A finished archive is put in place as a whole: the folders on the way are created, the bytes go to
a temporary file in the folder, and that file is then moved to where the archive is to be, over what
was there. Each step may fail. A temporary file that is not moved is given up.

## Main definitions

* `Saving` — steps on files that may fail midway
* `Storage.save` — saving an archive
-/

namespace Packfile

/-- Steps on files, of which each may fail and leave what the ones before it did. -/
abbrev Saving := EStateM Error FileTree

namespace Saving

/-- What a look at the files says. A problem is said of a path. -/
def look (path : String) (f : FileTree → Except ResourceProblem α) : Saving α := fun t =>
  match f t with
  | .ok a => .ok a t
  | .error problem => .error (.resource path problem) t

/-- A change to the files. -/
def change (path : String) (update : FileTree → Except ResourceProblem FileTree) : Saving Unit :=
  fun t =>
    match update t with
    | .ok t => .ok () t
    | .error problem => .error (.resource path problem) t

end Saving

namespace FileTree

/-- The folder that a path lies in. -/
def folderOf (path : String) : String :=
  match Path.parent? path with
  | none => "."
  | some folder => if folder.isEmpty then "." else folder

end FileTree

namespace Storage

variable (s : Storage)

/-- Creates the folder that an archive goes to. -/
def createFolder (path folder : String) : Saving Unit := fun t =>
  match s.createFolders folder t with
  | .ok () t => .ok () t
  | .error problem t => .error (.resource path problem) t

/-- Creates an empty temporary file in a folder, and says where it is and by what path. The system
does not create one over anything that is there. -/
def createTemporary (path folder : String) : Saving (String × Place) := do
  let name ← Saving.look path fun t => s.temporary t folder
  let temporary := Path.join folder name
  let place ← Saving.look path fun t => t.place temporary
  Saving.change path fun t => t.createFile temporary
  return (temporary, place)

/-- Writes into a temporary file. -/
def writeAll (temporary : String) (place : Place) (bytes : Bytes) : Saving Unit := fun t =>
  match s.interruption t temporary bytes with
  | none => .ok () (t.fill place bytes)
  | some (count, problem) => .error (.read (.system problem)) (t.fill place (bytes.take count))

/-- Waits until what was written is on the disk. -/
def sync (temporary : String) : Saving Unit := fun t =>
  match s.syncFailure t temporary with
  | none => .ok () t
  | some problem => .error (.read (.system problem)) t

/-- Moves a temporary file to where it is to be. -/
def persist (temporary : String) (place : Place) (path : String) : Saving Unit := do
  let target ← Saving.look path fun t => t.targetPlace path
  Saving.change path fun t =>
    match s.moveRefusal t temporary path with
    | none => .ok (t.move place target)
    | some problem => .error problem

/-- Steps on a temporary file, which is given up if one of them fails. -/
def orDiscard (place : Place) (body : Saving Unit) : Saving Unit := fun t =>
  match body t with
  | .ok () t => .ok () t
  | .error e t => .error e (s.discarded t place)

/-- Puts the bytes of a finished archive in place. -/
def save (path : String) (bytes : Bytes) : Saving Unit := do
  let folder := FileTree.folderOf path
  s.createFolder path folder
  let (temporary, place) ← s.createTemporary path folder
  s.orDiscard place do
    s.writeAll temporary place bytes
    s.sync temporary
    s.persist temporary place path

end Storage

end Packfile
