import Packfile.Text.Quoted

/-!
# Outlines of values

An outline shows a value with the names of its parts, for people who look for mistakes. It is
written in one line, or with one part on a line and four blanks for each level.
-/

namespace Packfile

/-- The parts of a value and their names. -/
inductive Outline where
  /-- A value without parts. -/
  | atom (text : String)
  /-- A name with parts that have no names. -/
  | tuple (name : String) (parts : List Outline)
  /-- A name with parts that have names. -/
  | record (name : String) (parts : List (String × Outline))
  /-- A name with some of the parts that have names. -/
  | partial_ (name : String) (parts : List (String × Outline))
  /-- Several values. -/
  | list (items : List Outline)
  /-- Values under keys. -/
  | table (rows : List (String × Outline))
  deriving Repr, Inhabited

namespace Outline

/-- A number. -/
def ofNat (n : Nat) : Outline := atom (toString n)

/-- A truth value. -/
def ofBool (b : Bool) : Outline := atom (if b then "true" else "false")

/-- A text. -/
def ofText (text : String) : Outline := atom (Quoted.quote text)

/-- A byte string, as numbers. -/
def ofBytes (bytes : Bytes) : Outline := list (bytes.map fun b => ofNat b.toNat)

/-- Something that may be missing. -/
def ofOption : Option Outline → Outline
  | none => atom "None"
  | some value => tuple "Some" [value]

/-- Opening brace. -/
def openBrace : String := "\x7b"

/-- Closing brace. -/
def closeBrace : String := "\x7d"

mutual

/-- An outline in one line. -/
def line : Outline → String
  | atom text => text
  | tuple name parts => name ++ "(" ++ lineItems parts ++ ")"
  | record name [] => name
  | record name parts => name ++ " " ++ openBrace ++ " " ++ lineParts parts ++ " " ++ closeBrace
  | partial_ name parts =>
    name ++ " " ++ openBrace ++ " " ++ lineParts parts ++ ", .. " ++ closeBrace
  | list items => "[" ++ lineItems items ++ "]"
  | table rows => openBrace ++ lineParts rows ++ closeBrace

/-- Outlines in one line, with commas between them. -/
def lineItems : List Outline → String
  | [] => ""
  | [item] => line item
  | item :: items => line item ++ ", " ++ lineItems items

/-- Named outlines in one line, with commas between them. -/
def lineParts : List (String × Outline) → String
  | [] => ""
  | [(name, part)] => name ++ ": " ++ line part
  | (name, part) :: parts => name ++ ": " ++ line part ++ ", " ++ lineParts parts

end

/-- The start of a line at a level. -/
def newline (level : Nat) : String := "\n" ++ String.ofList (List.replicate (4 * level) ' ')

mutual

/-- An outline with one part on a line, at a level. -/
def blockAt (level : Nat) : Outline → String
  | atom text => text
  | tuple name parts =>
    name ++ "(" ++ blockItems (level + 1) parts ++ newline level ++ ")"
  | record name [] => name
  | record name parts =>
    name ++ " " ++ openBrace ++ blockParts (level + 1) parts ++ newline level ++ closeBrace
  | partial_ name parts =>
    name ++ " " ++ openBrace ++ blockParts (level + 1) parts ++ newline (level + 1) ++ ".." ++
      newline level ++ closeBrace
  | list [] => "[]"
  | list items => "[" ++ blockItems (level + 1) items ++ newline level ++ "]"
  | table [] => openBrace ++ closeBrace
  | table rows => openBrace ++ blockParts (level + 1) rows ++ newline level ++ closeBrace

/-- Outlines on lines of their own. -/
def blockItems (level : Nat) : List Outline → String
  | [] => ""
  | item :: items => newline level ++ blockAt level item ++ "," ++ blockItems level items

/-- Named outlines on lines of their own. -/
def blockParts (level : Nat) : List (String × Outline) → String
  | [] => ""
  | (name, part) :: parts =>
    newline level ++ name ++ ": " ++ blockAt level part ++ "," ++ blockParts level parts

end

/-- An outline with one part on a line. -/
def block (outline : Outline) : String := blockAt 0 outline

end Outline

end Packfile
