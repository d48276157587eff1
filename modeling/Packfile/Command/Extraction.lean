import Packfile.Command.Desk
import Packfile.Host

/-!
# Extracting entries

The command `extract` writes the entries of an archive into a folder. Names come from the archive
and are not trusted: an entry whose name leads out of the folder is refused.
-/

namespace Packfile.Command

/-- Whether a part of a path stays in the folder that it is used in. -/
def staysInside (component : String) : Bool := component != "/" && component != ".."

/-- Where an entry goes. -/
def targetPath (directory name : String) : Except String String :=
  let relative := EntryName.slashed name
  if relative.isEmpty then .error "refusing to extract an unnamed entry"
  else if (Path.components relative).all staysInside then .ok (Path.join directory relative)
  else .error ("refusing to extract " ++ name ++ " outside of the target directory")

/-- The size of the pieces in which content is copied. -/
def copySize : Nat := 8192

/-- Creates the folder that a file goes into. -/
def createFolderOf (storage : Storage) (path : String) : Task Unit :=
  match Path.parent? path with
  | none => return
  | some folder =>
    Task.about ("creating " ++ folder) (Task.onFiles (storage.createFolders folder))

/-- Creates an empty file, or empties the one that is there. -/
def createTarget (storage : Storage) (path : String) (overwrite : Bool) : Task Unit :=
  Task.about ("creating " ++ path) <| Task.change fun t =>
    match storage.fileRefusal t path with
    | some problem => .error problem
    | none => if overwrite then t.writeFile path [] else t.createFile path

/-- Writes into a file as much of a content as there is room for. -/
def writePart (storage : Storage) (path : String) (content : Bytes) : Task Unit := do
  match storage.interruption (← get).files path content with
  | none => Task.change fun t => t.writeFile path content
  | some (count, problem) =>
    Task.change fun t => t.writeFile path (content.take count)
    throw [.text ("extracting " ++ path), .system problem]

/-- Writes content into a file, as far as it can be read. -/
def copyContent (storage : Storage) (path : String) (content : ContentReader) : Task Unit := do
  let (copied, failure) := content.pieces copySize
  writePart storage path copied
  match failure with
  | none => return
  | some e => throw [.text ("extracting " ++ path), .text e.message]

/-- Extracts the entry at an index. -/
def extractEntry (storage : Storage) (directory : String) (overwrite : Bool) (archive : Archive)
    (index : Nat) : Task Unit := do
  let (e, content) ← Task.orError (archive.openEntry (← get).files index).1
  match targetPath directory (e.name.getD "") with
  | .error message => Task.fail message
  | .ok path =>
    createFolderOf storage path
    createTarget storage path overwrite
    copyContent storage path content

/-- Extracts the entries of an archive. -/
def extractEntries (storage : Storage) (input : Input) (directory : String) (overwrite : Bool) :
    Task Unit := do
  let archive ← Task.openInput input
  (List.range archive.size).forM (extractEntry storage directory overwrite archive)

end Packfile.Command
