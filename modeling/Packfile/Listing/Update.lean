import Packfile.Entry
import Packfile.Stream

/-!
# Updating entries in turn

Several steps complete the entries of a directory one after the other, each with the help of the
stream. When one fails, the entries before it are done and those from it on are as they were;
`updateEach` gives all of them, and the error.
-/

namespace Packfile

namespace Reader

/-- Runs a reader and gives its error as a value. -/
def attempt (body : Reader α) : Reader (Except Error α) := fun s =>
  match body s with
  | .ok a s => .ok (.ok a) s
  | .error e s => .ok (.error e) s

end Reader

namespace Listing

/-- Updates entries in turn, up to the first failure. -/
def updateEach (update : Entry → Reader Entry) :
    List Entry → Reader (List Entry × Option Error)
  | [] => return ([], none)
  | entry :: rest => do
    match ← Reader.attempt (update entry) with
    | .error e => return (entry :: rest, some e)
    | .ok entry =>
      let (rest, failure) ← updateEach update rest
      return (entry :: rest, failure)

/-- The updated entries, or the failure. -/
def orFail (result : List Entry × Option Error) : Except Error (List Entry) :=
  match result with
  | (entries, none) => .ok entries
  | (_, some e) => .error e

end Listing

end Packfile
