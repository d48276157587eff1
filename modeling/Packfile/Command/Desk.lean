import Packfile.Registry

/-!
# What commands work on

A command sees the files of a `Desk`, prints lines to it, and leaves warnings there. It ends well
or with an explanation: a list of causes, from what the command was about to what stood in its way.
What it did before it failed stays done.

## Main definitions

* `Cause`, `Desk`, `Task`
* `Input`, `Task.openInput` — the archive that a command is about
-/

namespace Packfile

/-- A link of the explanation of a failure. -/
inductive Cause where
  /-- Something that the command says. -/
  | text (message : String)
  /-- The reason why a file could not be written. -/
  | system (problem : ResourceProblem)
  /-- An error of the library. -/
  | error (e : Error)
  deriving DecidableEq, Repr

/-- Wording of a cause. -/
def Cause.message : Cause → String
  | text message => message
  | system problem => problem.systemMessage
  | error e => e.message

/-- What a command works on. -/
structure Desk where
  /-- The files within reach. -/
  files : FileTree
  /-- What was printed. -/
  output : String := ""
  /-- The warnings given so far. -/
  warnings : Array String := #[]
  deriving Repr

/-- The work of a command. -/
abbrev Task := EStateM (List Cause) Desk

/-- How an archive is to be opened. -/
structure Input where
  /-- The archive. -/
  file : String
  /-- A file of names. -/
  names : Option String := none
  /-- The format, if it is not to be found out. -/
  format : Option String := none
  deriving DecidableEq, Repr

namespace Task

/-- Prints a line. -/
def print (line : String) : Task Unit :=
  modify fun desk => { desk with output := desk.output ++ line ++ "\n" }

/-- Fails for a reason of the command's own. -/
def fail (message : String) : Task α := throw [.text message]

/-- The value of a result, or its error. -/
def orError : Except Error α → Task α
  | .ok a => return a
  | .error e => throw [.error e]

/-- Says what a failure was about. -/
def about (context : String) (body : Task α) : Task α := fun desk =>
  match body desk with
  | .ok a desk => .ok a desk
  | .error causes desk => .error (.text context :: causes) desk

/-- Takes steps on the files. What they have done before they fail stays done. -/
def onFiles (steps : EStateM ResourceProblem FileTree α) : Task α := fun desk =>
  match steps desk.files with
  | .ok a files => .ok a { desk with files }
  | .error problem files => .error [.system problem] { desk with files }

/-- Changes the files. -/
def change (update : FileTree → Except ResourceProblem FileTree) : Task Unit := fun desk =>
  match update desk.files with
  | .ok files => .ok () { desk with files }
  | .error problem => .error [.system problem] desk

/-- Runs a decoder over a stream. Its warnings are given whether it fails or not. -/
def decode (options : Options) (stream : Stream) (body : Decode α) : Task (Except Error α) :=
  fun desk =>
    let (result, session) := body.outcome { stream, context := { options }, files := desk.files }
    .ok result { desk with warnings := desk.warnings ++ session.warnings }

/-- A stream over a file, and its location. -/
def openFile (path : String) : Task (Stream × Location) := do
  let stream ← orError (Stream.ofFile (← get).files path)
  return (stream, .file path stream.length)

/-- Opens an archive in the format that it is recognized to be in. -/
def openRecognized (file : String) (options : Options) : Task Archive := do
  let (stream, source) ← about ("path: " ++ file) (openFile file)
  match ← orError (← decode options stream (Registry.standard.openStream source)) with
  | .recognized archive => return archive
  | .unrecognized => fail (file ++ " is not in any known archive format")
  | .corrupt format e =>
    throw [.text (file ++ " looks like " ++ format ++ " but could not be read"), .error e]

/-- Opens an archive in a given format. -/
def openInFormat (file format : String) (options : Options) : Task Archive :=
  about ("path: " ++ file) do
    let (stream, source) ← openFile file
    orError (← decode options stream (Registry.standard.openAs format source))

/-- Opens the archive that a command is about. -/
def openInput (input : Input) : Task Archive :=
  let options : Options := { nameTable := input.names }
  match input.format with
  | none => openRecognized input.file options
  | some format => openInFormat input.file format options

end Task

/-- A name with slashes between its folders. -/
def EntryName.slashed (name : String) : String :=
  name.map fun c => if c = EntryName.separator then '/' else c

end Packfile
