import Packfile.Command.Desk
import Packfile.Inspect
import Packfile.Text.Coloured

/-!
# Comparing archives

The command `diff` prints in what two archives differ. Entries are compared by name and content,
and on demand by how they are stored; entries without a name are left out.

## Main definitions

* `Change` — a difference, and its text
* `Command.compare` — the differences of two archives
-/

namespace Packfile

/-- A difference. -/
inductive Change where
  /-- Only the second archive has an entry. -/
  | added (name : String)
  /-- Only the first archive has an entry. -/
  | removed (name : String)
  /-- Something has two values. -/
  | values (what old new : String)
  /-- Something has differences of its own. -/
  | modified (name : String) (changes : List Change)
  deriving Repr

namespace Change

/-- The difference of two values, if there is one. -/
def between? (what old new : String) : Option Change :=
  if old = new then none else some (.values what old new)

/-- The lines of a text that hold more than blanks, each behind two blanks. -/
def indent (text : String) : String :=
  String.join (((Text.lines text.toList).filter fun line => !(Text.trim line).isEmpty).map
    fun line => "  " ++ String.ofList line ++ "\n")

mutual

/-- The text of a difference, in lines. -/
def render : Change → String
  | added name => "✅ " ++ Coloured.green name ++ "\n"
  | removed name => "❌ " ++ Coloured.red name ++ "\n"
  | values what old new =>
    "* " ++ what ++ ": " ++ Coloured.red old ++ " vs " ++ Coloured.green new ++ "\n"
  | modified name changes => "🔃 " ++ Coloured.blue name ++ "\n" ++ indent (renderAll changes)

/-- The texts of differences, one after the other. -/
def renderAll : List Change → String
  | [] => ""
  | change :: changes => render change ++ renderAll changes

end

end Change

namespace Command

/-- What is compared. -/
inductive Depth where
  /-- Names, sizes and contents. -/
  | content
  /-- Also where and how entries are stored. -/
  | full
  deriving DecidableEq, Repr

/-- The place of the first difference of two byte strings, the start if there is none. -/
def firstDifference (a b : Bytes) : Nat := ((a.zip b).findIdx? fun (x, y) => x != y).getD 0

/-- The differences of two contents. -/
def contentChanges (a b : Bytes) : List Change :=
  match Change.between? "size" (toString a.length) (toString b.length) with
  | some change => [change]
  | none =>
    if a = b then []
    else [.values "content" "original" s!"differs from byte {firstDifference a b}"]

/-- The differences in how two entries are stored. -/
def storageChanges (a b : Entry) : List Change :=
  [Change.between? "offset" (toString a.offset) (toString b.offset),
   Change.between? "stored length" (toString a.stored) (toString b.stored),
   Change.between? "codec" a.codec.outline.line b.codec.outline.line].filterMap id

/-- The differences of two entries of one name. -/
def entryChanges (depth : Depth) (a b : Entry) (contentA contentB : Bytes) : List Change :=
  contentChanges contentA contentB ++ (if depth = .full then storageChanges a b else [])

/-- The names in an archive, each once and in ascending order. -/
def nameSet (archive : Archive) : List String :=
  (archive.names.mergeSort fun a b => decide (a ≤ b)).eraseDups

/-- The differences of the entries of one name. -/
def compareNamed (depth : Depth) (files : FileTree) (a b : Archive) (name : String) :
    Except Error (List Change) := do
  match a.indexOf? name, b.indexOf? name with
  | some i, some j =>
    let contentA ← (a.readEntry files i).1
    let contentB ← (b.readEntry files j).1
    match a.entries[i]?, b.entries[j]? with
    | some x, some y =>
      let changes := entryChanges depth x y contentA contentB
      return if changes.isEmpty then [] else [.modified name changes]
    | _, _ => return []
  | _, _ => return []

/-- The differences of two archives. -/
def compare (depth : Depth) (files : FileTree) (a b : Archive) : Except Error (List Change) := do
  let whole := [Change.between? "format" a.format b.format,
    Change.between? "entries" (toString a.size) (toString b.size)].filterMap id
  let namesA := nameSet a
  let namesB := nameSet b
  let added := (namesB.filter fun name => !namesA.contains name).map Change.added
  let removed := (namesA.filter fun name => !namesB.contains name).map Change.removed
  let common ← (namesA.filter fun name => namesB.contains name).mapM (compareNamed depth files a b)
  return whole ++ added ++ removed ++ common.flatten

/-- Prints the differences of two archives, if there are any. -/
def printChanges (left right : String) (names : Option String) (depth : Depth) : Task Unit := do
  let a ← Task.openInput { file := left, names }
  let b ← Task.openInput { file := right, names }
  let changes ← Task.orError (compare depth (← get).files a b)
  if !changes.isEmpty then Task.print (Change.modified left changes).render

end Command

end Packfile
