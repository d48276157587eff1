import Packfile.Entry
import Packfile.NameTable

/-!
# Decoding sessions

Directories are decoded in a `Session`: the stream they are read from, what the caller allows and
provides, the files within reach, and the reports made on the way. `Decode` is the monad of
computations in a session. Like readers they end with a value or an error, and with a session in
both cases, because reports made before an error have been made.

## Main definitions

* `Options`, `Context` — what a caller allows and provides, and what is kept between decodes
* `Session`, `Decode`
* `Decode.warn`, `Decode.progress` — reports
* `Decode.names` — the name table, loaded when first asked for
-/

namespace Packfile

/-- What a caller allows and wants. -/
structure Options where
  /-- The most entries that a directory may have. -/
  maxEntries : Nat := 1048576
  /-- A file of names for archives that store hashes only. -/
  nameTable : Option String := none
  /-- Whether entries are listed in the order of their data. -/
  sortByOffset : Bool := false
  deriving DecidableEq, Repr, Inhabited

/-- A colour as three bytes. -/
structure Colour where
  red : UInt8
  green : UInt8
  blue : UInt8
  deriving DecidableEq, Repr, Inhabited

/-- The 256 colours of a palette. -/
abbrev Palette := List Colour

/-- What is kept between the decodes of one caller. -/
structure Context where
  /-- What the caller allows and wants. -/
  options : Options := {}
  /-- The name table, once it has been asked for. -/
  names : Option NameTable := none
  /-- The palettes of the archive decoded last. -/
  palettes : List Palette := []
  deriving DecidableEq, Repr, Inhabited

/-- Something that a caller is told while a directory is decoded. -/
inductive Report where
  /-- Something is not as it should be, and decoding goes on. -/
  | warning (text : String)
  /-- A record has been read. -/
  | progress (index offset : Nat)
  deriving DecidableEq, Repr

/-- What a decoder works on. -/
structure Session where
  /-- What is being read. -/
  stream : Stream
  /-- What is kept between decodes. -/
  context : Context := {}
  /-- The files within reach. -/
  files : FileTree := .empty
  /-- The reports so far. -/
  reports : Array Report := #[]

namespace Session

/-- The texts of the warnings so far. -/
def warnings (session : Session) : Array String :=
  session.reports.filterMap fun
    | .warning text => some text
    | .progress .. => none

/-- The records reported so far, by index and offset. -/
def records (session : Session) : Array (Nat × Nat) :=
  session.reports.filterMap fun
    | .warning _ => none
    | .progress index offset => some (index, offset)

end Session

/-- A computation in a session. -/
abbrev Decode := EStateM Error Session

namespace Decode

/-- What a computation makes of a session: its value or error, and the session as it leaves it. -/
def outcome (body : Decode α) (session : Session) : Except Error α × Session :=
  match body session with
  | .ok a session => (.ok a, session)
  | .error e session => (.error e, session)

/-- A reader over the stream of the session. -/
def ofReader (body : Reader α) : Decode α := fun session =>
  match body session.stream with
  | .ok a stream => .ok a { session with stream }
  | .error e stream => .error e { session with stream }

instance : MonadLift Reader Decode := ⟨ofReader⟩

/-- A computation over another stream, in the same session otherwise. Gives the stream as it was
left. -/
def onStream (stream : Stream) (body : Decode α) : Decode (α × Stream) := fun session =>
  match body { session with stream } with
  | .ok a session' => .ok (a, session'.stream) { session' with stream := session.stream }
  | .error e session' => .error e { session' with stream := session.stream }

/-- Runs a computation and gives its error as a value. -/
def attempt (body : Decode α) : Decode (Except Error α) := fun session =>
  match body session with
  | .ok a session => .ok (.ok a) session
  | .error e session => .ok (.error e) session

/-- Reports something. -/
def report (r : Report) : Decode Unit :=
  modify fun session => { session with reports := session.reports.push r }

/-- Reports that something is not as it should be. -/
def warn (text : String) : Decode Unit := report (.warning text)

/-- Reports that a record has been read. -/
def progress (index offset : Nat) : Decode Unit := report (.progress index offset)

/-- What the caller allows and wants. -/
def options : Decode Options := return (← get).context.options

/-- The files within reach. -/
def files : Decode FileTree := return (← get).files

/-- What a missing name table is reported as. -/
def namesUnavailable : String := "name hash table unavailable, using generated names"

/-- The name table. It is loaded when first asked for; if it cannot be, it is empty. -/
def names : Decode NameTable := do
  let session ← get
  match session.context.names with
  | some table => return table
  | none =>
    let table ← match session.context.options.nameTable with
      | none => pure NameTable.empty
      | some path =>
        match NameTable.load? session.files path with
        | some table => pure table
        | none => do
          warn namesUnavailable
          pure NameTable.empty
    modify fun session => { session with context := { session.context with names := some table } }
    return table

/-- Forgets what an earlier archive left behind. -/
def clearPalettes : Decode Unit :=
  modify fun session => { session with context := { session.context with palettes := [] } }

/-- Adds a palette under the next number. -/
def addPalette (palette : Palette) : Decode Unit :=
  modify fun session =>
    { session with
      context := { session.context with palettes := session.context.palettes ++ [palette] } }

end Decode

end Packfile
