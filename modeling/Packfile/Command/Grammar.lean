/-!
# Arguments of a command line

A command takes options and possibly any number of operands. An option is a switch or takes one
value; it is written `--name`, or `-n` by its letter, and may be given once. A value follows as the
next argument, behind a `=`, or right behind the letter. Switches may be written together behind
one hyphen. After `--` everything is an operand.

A value is looked at when the next option begins or the arguments end, so of two faults an unknown
option is found before a bad value in front of it.

## Main definitions

* `Grammar` — the options and operands that a command takes
* `Grammar.read` — the arguments of one command
-/

namespace Packfile.Command

/-- Why arguments are not accepted. -/
inductive Usage where
  /-- Help was asked for. -/
  | help
  /-- There are no arguments at all. -/
  | noArguments
  /-- There is no command of that name. -/
  | unknownCommand
  /-- An argument that is required is missing. -/
  | missingArgument
  /-- A value is missing, empty, or none of those that are possible. -/
  | invalidValue
  /-- A switch is given a value. -/
  | unwantedValue
  /-- There is no such option, or an operand is given where none is taken. -/
  | unknownOption
  /-- An option is given a second time. -/
  | repeatedOption
  deriving DecidableEq, Repr

/-- The values that an option can take. -/
inductive Domain where
  /-- Any text. -/
  | text
  /-- Any text but the empty one. -/
  | path
  /-- One of a few words. -/
  | word (words : List String)
  deriving DecidableEq, Repr

/-- Whether a text is a possible value. -/
def Domain.accepts : Domain → String → Bool
  | text, _ => true
  | path, value => !value.isEmpty
  | word words, value => words.contains value

/-- An option. -/
structure OptionRule where
  /-- The name behind two hyphens. -/
  name : String
  /-- The letter behind one hyphen. -/
  letter : Option Char := none
  /-- What values it takes; a switch takes none. -/
  domain : Option Domain := none
  /-- Whether it has to be given. -/
  required : Bool := false
  deriving DecidableEq, Repr

/-- The options and operands that a command takes. -/
structure Grammar where
  /-- The options. -/
  options : List OptionRule
  /-- Whether there are operands. If so, at least one is required, and all are paths. -/
  operands : Bool := false
  deriving DecidableEq, Repr

/-- The name under which operands are kept. -/
def operandName : String := ""

/-- Values that were begun and not looked at yet. -/
structure Pending where
  /-- The option, or the operands. -/
  name : String
  /-- What values it takes. -/
  domain : Domain
  /-- The values so far. -/
  values : List String
  deriving DecidableEq, Repr

/-- What has been read of the arguments. -/
structure Reading where
  /-- The options that were given, with their values, and the operands. -/
  found : List (String × List String) := []
  /-- The values that were not looked at yet. -/
  pending : Option Pending := none
  /-- Whether the next argument is the value of the pending option. -/
  waiting : Bool := false
  deriving DecidableEq, Repr

namespace Reading

/-- The values of an option. -/
def values (r : Reading) (name : String) : List String := (r.found.lookup name).getD []

/-- The value of an option that takes one. -/
def value? (r : Reading) (name : String) : Option String := (r.values name).head?

/-- The value of a required option. -/
def value (r : Reading) (name : String) : String := (r.value? name).getD ""

/-- Whether an option was given. -/
def has (r : Reading) (name : String) : Bool := (r.found.lookup name).isSome

/-- Takes an option with its values. -/
def take (r : Reading) (name : String) (domain : Domain) (values : List String) :
    Except Usage Reading := do
  if values.isEmpty then throw .invalidValue
  if r.has name then throw .repeatedOption
  if !values.all domain.accepts then throw .invalidValue
  return { r with found := r.found ++ [(name, values)] }

/-- Takes more operands. -/
def takeOperands (r : Reading) (domain : Domain) (values : List String) :
    Except Usage Reading := do
  if !values.all domain.accepts then throw .invalidValue
  let others := r.found.filter fun entry => entry.1 != operandName
  return { r with found := others ++ [(operandName, r.values operandName ++ values)] }

/-- Looks at the pending values. -/
def settle (r : Reading) : Except Usage Reading :=
  let done := { r with pending := none, waiting := false }
  match r.pending with
  | none => return done
  | some p =>
    if p.name = operandName then done.takeOperands p.domain p.values
    else done.take p.name p.domain p.values

/-- Begins an option whose value is the next argument. -/
def await (r : Reading) (name : String) (domain : Domain) : Except Usage Reading := do
  return { (← r.settle) with pending := some { name, domain, values := [] }, waiting := true }

/-- Takes an option with a value that is written in the same argument. -/
def attach (r : Reading) (name : String) (domain : Domain) (value : String) :
    Except Usage Reading := do
  (← r.settle).take name domain [value]

/-- Takes a switch. -/
def switch (r : Reading) (name : String) : Except Usage Reading := do
  let r ← r.settle
  if r.has name then throw .repeatedOption
  return { r with found := r.found ++ [(name, [])] }

/-- Takes the value that the pending option waits for. -/
def supply (r : Reading) (value : String) : Reading :=
  { r with
    pending := r.pending.map fun p => { p with values := p.values ++ [value] }
    waiting := false }

/-- Takes an operand. -/
def operand (r : Reading) (value : String) : Except Usage Reading := do
  match r.pending with
  | some p =>
    if p.name = operandName then
      return { r with pending := some { p with values := p.values ++ [value] } }
    else begin (← r.settle)
  | none => begin r
where
  /-- Begins a run of operands. -/
  begin (r : Reading) : Except Usage Reading :=
    return { r with pending := some { name := operandName, domain := .path, values := [value] } }

end Reading

namespace Grammar

/-- The help option, which every command takes. -/
def help : OptionRule := { name := "help", letter := some 'h' }

/-- The option of a name. -/
def byName? (g : Grammar) (name : String) : Option OptionRule :=
  (g.options ++ [help]).find? fun o => o.name == name

/-- The option of a letter. -/
def byLetter? (g : Grammar) (letter : Char) : Option OptionRule :=
  (g.options ++ [help]).find? fun o => o.letter == some letter

/-- Takes a switch; the help option ends everything. -/
def switch (o : OptionRule) (r : Reading) : Except Usage Reading :=
  if o = help then do
    let _ ← r.settle
    throw .help
  else r.switch o.name

/-- The parts of a text before and after the first `=`. -/
def splitValue : List Char → List Char × Option (List Char)
  | [] => ([], none)
  | '=' :: value => ([], some value)
  | c :: rest =>
    let (name, value) := splitValue rest
    (c :: name, value)

/-- Reads an argument behind its two hyphens. -/
def readLong (g : Grammar) (argument : List Char) (r : Reading) : Except Usage Reading :=
  let (name, value) := splitValue argument
  match g.byName? (String.ofList name) with
  | none => throw .unknownOption
  | some o =>
    match o.domain, value with
    | some domain, some value => r.attach o.name domain (String.ofList value)
    | some domain, none => r.await o.name domain
    | none, some _ => throw .unwantedValue
    | none, none => switch o r

/-- Reads an argument behind its one hyphen. -/
def readShort (g : Grammar) : List Char → Reading → Except Usage Reading
  | [], r => return r
  | letter :: rest, r =>
    match g.byLetter? letter with
    | none => throw .unknownOption
    | some o =>
      match o.domain, rest with
      | none, _ => do readShort g rest (← switch o r)
      | some domain, [] => r.await o.name domain
      | some domain, '=' :: value => r.attach o.name domain (String.ofList value)
      | some domain, value => r.attach o.name domain (String.ofList value)

/-- Reads an argument that is not written as an option. -/
def readPlain (g : Grammar) (argument : String) (r : Reading) : Except Usage Reading :=
  if g.operands then r.operand argument else throw .unknownOption

/-- Reads arguments behind `--`. -/
def readOperands (g : Grammar) : List String → Reading → Except Usage Reading
  | [], r => return r
  | argument :: rest, r => do readOperands g rest (← g.readPlain argument r)

/-- Reads arguments. -/
def readFrom (g : Grammar) : List String → Reading → Except Usage Reading
  | [], r => return r
  | argument :: rest, r =>
    match argument.toList with
    | ['-', '-'] => g.readOperands rest { r with waiting := false }
    | '-' :: '-' :: name => do readFrom g rest (← g.readLong name r)
    | '-' :: letter :: more => do readFrom g rest (← g.readShort (letter :: more) r)
    | _ => do
      if r.waiting then readFrom g rest (r.supply argument)
      else readFrom g rest (← g.readPlain argument r)

/-- Whether everything required was given. -/
def isComplete (g : Grammar) (r : Reading) : Bool :=
  (g.options.all fun o => !o.required || r.has o.name) && (!g.operands || r.has operandName)

/-- Reads the arguments of a command. -/
def read (g : Grammar) (arguments : List String) : Except Usage Reading := do
  let r ← (← g.readFrom arguments {}).settle
  if g.isComplete r then return r else throw .missingArgument

end Grammar

end Packfile.Command
