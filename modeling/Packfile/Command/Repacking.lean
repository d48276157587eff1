import Packfile.Command.Desk
import Packfile.Saving

/-!
# Repacking archives

The command `repack` writes an archive anew, with the files of a folder in the place of the entries
of the same names. Files without an entry are added behind the entries.
-/

namespace Packfile.Command

/-- Contents by name. -/
abbrev Replacements := List (String × Bytes)

/-- The files of a folder under their names. Of files that have the same name the one that is found
last counts. -/
def replacements (walk : Walk) (files : FileTree) (directory : String) : Replacements :=
  match files.place directory with
  | .error _ => []
  | .ok place =>
    let found := (walk.visit files place).map fun (rest, content) =>
      (EntryName.slashed ("/".intercalate rest), content)
    let put (done : Replacements) (file : String × Bytes) : Replacements :=
      done.filter (fun other => other.1 != file.1) ++ [file]
    (found.foldl put []).mergeSort fun a b => decide (a.1 ≤ b.1)

/-- The entries of an archive, some of them with new content, and the contents that are left. Each
content is used once. -/
def replaceEntries : List Entry → Replacements → List EditedEntry × Replacements
  | [], files => ([], files)
  | e :: rest, files =>
    let name := EntryName.slashed (e.name.getD "")
    match files.lookup name with
    | some content =>
      let (edited, left) := replaceEntries rest (files.filter fun file => file.1 != name)
      (.replace e content :: edited, left)
    | none =>
      let (edited, left) := replaceEntries rest files
      (.keep e :: edited, left)

/-- The character that an archive puts between the folders in its names. -/
def separatorOf (archive : Archive) : Char :=
  if archive.names.any fun name => name.contains EntryName.separator then EntryName.separator
  else '/'

/-- A new entry. -/
def addedEntry (separator : Char) (name : String) (content : Bytes) : EditedEntry :=
  let written := name.map fun c => if c = '/' then separator else c
  .replace
    { source := .memory content.length, name := some written, offset := 0,
      stored := content.length } content

/-- The entries of the new archive. -/
def editedEntries (archive : Archive) (files : Replacements) : List EditedEntry :=
  let (edited, left) := replaceEntries archive.entries files
  edited ++ left.map fun (name, content) => addedEntry (separatorOf archive) name content

/-- Puts an archive in place. -/
def saveArchive (storage : Storage) (path : String) (bytes : Bytes) : Task Unit := fun desk =>
  match storage.save path bytes desk.files with
  | .ok () files => .ok () { desk with files }
  | .error e files => .error [.error e] { desk with files }

/-- Writes an archive anew. -/
def repackArchive (host : Host) (input : Input) (directory output : String) (overwrite : Bool) :
    Task Unit := do
  if !overwrite && (← get).files.exists? output then Task.fail (output ++ " already exists")
  let archive ← Task.openInput input
  let edited := editedEntries archive (replacements host.walk (← get).files directory)
  let bytes ← Task.about ("encoding " ++ output) <|
    Task.orError (Registry.standard.encode archive edited).1
  saveArchive host.storage output bytes

end Packfile.Command
