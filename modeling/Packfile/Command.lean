import Packfile.Command.Comparison
import Packfile.Command.Extraction
import Packfile.Command.Grammar
import Packfile.Command.Identification
import Packfile.Command.Repacking
import Packfile.Command.Table

/-!
# Commands

The five commands, as values that are read from arguments and run on a host with a desk of files.

## Main definitions

* `Command`, `Command.ofArguments`, `Command.run`
-/

namespace Packfile

/-- What is to be done. -/
inductive Command where
  /-- Say what formats files are in. -/
  | identify (paths : List String) (all : Bool)
  /-- List the entries of an archive. -/
  | list (input : Input) (json : Bool)
  /-- Extract an archive into a folder. -/
  | extract (input : Input) (directory : String) (overwrite : Bool)
  /-- Replace entries of an archive with the files of a folder. -/
  | repack (input : Input) (directory output : String) (overwrite : Bool)
  /-- Compare two archives. -/
  | diff (left right : String) (names : Option String) (depth : Command.Depth)
  deriving DecidableEq, Repr

namespace Command

/-- The options that say how an archive is opened. -/
def inputOptions : List OptionRule := [
  { name := "file", letter := some 'f', domain := some .path, required := true },
  { name := "names", domain := some .path },
  { name := "format", domain := some .text }]

/-- The option for a folder. -/
def directoryOption : OptionRule :=
  { name := "directory", letter := some 'd', domain := some .path, required := true }

/-- The option that allows a file to be replaced. -/
def overwriteOption : OptionRule := { name := "overwrite" }

/-- The commands by name, with what they take. -/
def grammars : List (String × Grammar) := [
  ("identify", { options := [{ name := "all", letter := some 'a' }], operands := true }),
  ("list", { options := inputOptions ++ [{ name := "json" }] }),
  ("extract", { options := inputOptions ++ [directoryOption, overwriteOption] }),
  ("repack",
    { options := inputOptions ++ [directoryOption,
        { name := "output", letter := some 'o', domain := some .path, required := true },
        overwriteOption] }),
  ("diff",
    { options := [
        { name := "left", letter := some 'l', domain := some .path, required := true },
        { name := "right", letter := some 'r', domain := some .path, required := true },
        { name := "names", domain := some .path },
        { name := "mode", letter := some 'm', domain := some (.word ["content", "full"]) }] })]

/-- The input that options describe. -/
def inputOf (r : Reading) : Input :=
  { file := r.value "file", names := r.value? "names", format := r.value? "format" }

/-- The command of a name, with the options and operands that were read for it. -/
def ofReading? (name : String) (r : Reading) : Option Command :=
  match name with
  | "identify" => some (.identify (r.values operandName) (r.has "all"))
  | "list" => some (.list (inputOf r) (r.has "json"))
  | "extract" => some (.extract (inputOf r) (r.value "directory") (r.has "overwrite"))
  | "repack" =>
    some (.repack (inputOf r) (r.value "directory") (r.value "output") (r.has "overwrite"))
  | "diff" =>
    some (.diff (r.value "left") (r.value "right") (r.value? "names")
      (if r.value? "mode" = some "full" then .full else .content))
  | _ => none

/-- The word that asks for help in the place of a command. -/
def helpWord : String := "help"

/-- Whether a word is the name of a command. -/
def isName (word : String) : Bool := word == helpWord || (grammars.lookup word).isSome

/-- What a request for help comes to: it may name a command. -/
def helpUsage : List String → Usage
  | [] => .help
  | [word] => if isName word then .help else .unknownCommand
  | _ => .unknownCommand

/-- Why a first argument that looks like an option is not accepted: in front of a command there is
no option but the one for help. -/
def leadingOption (argument : List Char) : Usage :=
  let none_ : Grammar := { options := [] }
  let result := match argument with
    | '-' :: '-' :: name => none_.readLong name {}
    | '-' :: letters => none_.readShort letters {}
    | _ => .error .unknownCommand
  match result with
  | .error usage => usage
  | .ok _ => .unknownOption

/-- The command that arguments stand for. -/
def ofArguments : List String → Except Usage Command
  | [] => .error .noArguments
  | ["--"] => .error .noArguments
  | "--" :: word :: _ => .error (if isName word then .unknownOption else .unknownCommand)
  | word :: rest =>
    match grammars.lookup word with
    | some grammar => do
      let r ← grammar.read rest
      match ofReading? word r with
      | some command => return command
      | none => throw .unknownCommand
    | none =>
      if word = helpWord then .error (helpUsage rest)
      else if word.startsWith "-" && word != "-" then .error (leadingOption word.toList)
      else .error .unknownCommand

/-- The work of a command. -/
def task (host : Host) : Command → Task Unit
  | identify paths all => identifyFiles paths all
  | list input json => listEntries input json
  | extract input directory overwrite => extractEntries host.storage input directory overwrite
  | repack input directory output overwrite => repackArchive host input directory output overwrite
  | diff left right names depth => printChanges left right names depth

/-- Runs a command on files: how it ends, and what it leaves. -/
def run (command : Command) (host : Host) (files : FileTree) : Except (List Cause) Unit × Desk :=
  match command.task host { files } with
  | .ok () desk => (.ok (), desk)
  | .error causes desk => (.error causes, desk)

end Command

end Packfile
