import Packfile.Text.Hex

/-!
# JSON values and their indented text

The values that listings are given as, and the text form with one item on a line and two blanks for
each level. Characters beyond ASCII stand for themselves.
-/

namespace Packfile

/-- A JSON value. Objects keep the order of their members. -/
inductive Json where
  /-- The null value. -/
  | null
  /-- An integer. -/
  | int (value : Int)
  /-- A text. -/
  | text (value : String)
  /-- An array. -/
  | array (items : List Json)
  /-- An object. -/
  | object (members : List (String × Json))
  deriving Repr, Inhabited

namespace Json

/-- A text, or null. -/
def ofText? : Option String → Json
  | none => null
  | some value => text value

/-- A byte string as an array of numbers. -/
def ofBytes (bytes : Bytes) : Json := array (bytes.map fun b => int b.toNat)

/-- A character inside quotes. -/
def escape (c : Char) : List Char :=
  if c = '"' then ['\\', '"']
  else if c = '\\' then ['\\', '\\']
  else if c = '\n' then ['\\', 'n']
  else if c = '\r' then ['\\', 'r']
  else if c = '\t' then ['\\', 't']
  else if c.toNat = 8 then ['\\', 'b']
  else if c.toNat = 12 then ['\\', 'f']
  else if c.toNat < 32 then ['\\', 'u'] ++ Hex.fixed 4 c.toNat
  else [c]

/-- A text in quotes. -/
def quote (value : String) : String :=
  "\"" ++ String.ofList (value.toList.flatMap escape) ++ "\""

/-- The start of a line at a level. -/
def newline (level : Nat) : String := "\n" ++ String.ofList (List.replicate (2 * level) ' ')

/-- Opening brace of an object. -/
def openObject : String := "\x7b"

/-- Closing brace of an object. -/
def closeObject : String := "\x7d"

mutual

/-- The indented text of a value at a level. -/
def renderAt (level : Nat) : Json → String
  | null => "null"
  | int value => toString value
  | text value => quote value
  | array [] => "[]"
  | array (item :: items) =>
    "[" ++ newline (level + 1) ++ renderAt (level + 1) item ++
      renderItems (level + 1) items ++ newline level ++ "]"
  | object [] => openObject ++ closeObject
  | object ((key, value) :: members) =>
    openObject ++ newline (level + 1) ++ quote key ++ ": " ++ renderAt (level + 1) value ++
      renderMembers (level + 1) members ++ newline level ++ closeObject

/-- The items of an array behind the first. -/
def renderItems (level : Nat) : List Json → String
  | [] => ""
  | item :: items => "," ++ newline level ++ renderAt level item ++ renderItems level items

/-- The members of an object behind the first. -/
def renderMembers (level : Nat) : List (String × Json) → String
  | [] => ""
  | (key, value) :: members =>
    "," ++ newline level ++ quote key ++ ": " ++ renderAt level value ++
      renderMembers level members

end

/-- The indented text of a value. -/
def render (value : Json) : String := renderAt 0 value

end Json

end Packfile
