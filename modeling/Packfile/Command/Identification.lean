import Packfile.Command.Desk
import Packfile.Text.Coloured

/-!
# Identifying files

The command `identify` says of each file what format it is in, and how confident each format is.
-/

namespace Packfile.Command

/-- The confidence of a format, coloured by whether it is enough. -/
def scoreText (threshold : Nat) (c : Candidate) : String :=
  let text := c.format.id ++ " " ++ c.confidence.render
  if c.confidence.reaches threshold then Coloured.green text else Coloured.dimmed text

/-- The scores that are shown: those that are enough, or all. -/
def scoreLine (threshold : Nat) (all : Bool) (candidates : List Candidate) : String :=
  ", ".intercalate ((candidates.filter fun c => all || c.confidence.reaches threshold).map
    (scoreText threshold))

/-- What comes of opening a file, in a few words. -/
def verdict : Identification → String
  | .recognized archive =>
    Coloured.bold (Coloured.green archive.format) ++ s!" ({archive.size} entries)"
  | .unrecognized => Coloured.yellow "unrecognized"
  | .corrupt format e => Coloured.red ("corrupt " ++ format ++ ":") ++ " " ++ e.message

/-- Identifies a file. -/
def identifyFile (all : Bool) (path : String) : Task Unit := do
  let registry := Registry.standard
  let (stream, source) ← Task.about ("path: " ++ path) (Task.openFile path)
  let candidates ← Task.orError (← Task.decode {} stream (registry.identify source))
  let found ← Task.orError (← Task.decode {} stream (registry.openStream source))
  Task.print (path ++ ": " ++ verdict found)
  let scores := scoreLine registry.threshold all candidates
  if !scores.isEmpty then Task.print ("  " ++ scores)

/-- Identifies files. -/
def identifyFiles (paths : List String) (all : Bool) : Task Unit := paths.forM (identifyFile all)

end Packfile.Command
