import Packfile.Codec
import Packfile.Path

/-!
# Entries

An `Entry` describes one file inside an archive: where its bytes are, how long they are stored and
decoded, which codec leads from one to the other, and what the directory says of it besides. It
holds no content.

## Main definitions

* `Location` — the file or block of memory that holds an entry's bytes
* `Properties` — what a directory says besides, in the order in which it was said
* `Entry`
-/

namespace Packfile

/-- The bytes that offsets refer to: one part of an archive. -/
structure Location where
  /-- The number of the part; 0 is the archive that was opened. -/
  part : Nat := 0
  /-- The file, unless the bytes are in memory only. -/
  path : Option String := none
  /-- How many bytes there are. -/
  length : Nat
  deriving DecidableEq, Repr, Inhabited

namespace Location

/-- Bytes in memory. -/
def memory (length : Nat) : Location := { length }

/-- The file of an archive that was opened. -/
def file (path : String) (length : Nat) : Location := { path := some path, length }

/-- Whether the bytes are those of the archive that was opened. -/
def isPrimary (l : Location) : Bool := l.part == 0

/-- The extension of the path, in lower case. -/
def extension? (l : Location) : Option String :=
  (l.path.bind Path.extension?).map Text.lowerAscii

/-- The path with another extension. -/
def sibling? (l : Location) (extension : String) : Option String :=
  l.path.map fun path => Path.withExtension path extension

end Location

/-- A value that a directory holds besides the usual ones. -/
inductive PropertyValue where
  /-- A number. -/
  | int (value : Int)
  /-- A text. -/
  | text (value : String)
  /-- A byte string. -/
  | bytes (value : Bytes)
  deriving DecidableEq, Repr

/-- A value in one line. Of a byte string only the length is shown. -/
def PropertyValue.render : PropertyValue → String
  | int value => toString value
  | text value => value
  | bytes value => s!"{value.length} bytes"

/-- Values under keys, in the order in which the keys were first used. -/
abbrev Properties := List (String × PropertyValue)

namespace Properties

/-- The value under a key. -/
def get? : Properties → String → Option PropertyValue
  | [], _ => none
  | (k, v) :: rest, key => if k = key then some v else get? rest key

/-- Sets the value under a key. A key that is there keeps its place. -/
def insert : Properties → String → PropertyValue → Properties
  | [], key, value => [(key, value)]
  | (k, v) :: rest, key, value =>
    if k = key then (k, value) :: rest else (k, v) :: insert rest key value

theorem get?_insert (ps : Properties) (key other : String) (value : PropertyValue) :
    (ps.insert key value).get? other = if key = other then some value else ps.get? other := by
  induction ps with
  | nil => simp [insert, get?]
  | cons p ps ih =>
    obtain ⟨k, v⟩ := p
    by_cases hk : k = key
    · subst hk
      by_cases ho : k = other <;> simp [insert, get?, ho]
    · by_cases ho : k = other
      · subst ho
        simp [insert, get?, hk, Ne.symm hk]
      · simp [insert, get?, hk, ho, ih]

end Properties

/-- One file inside an archive. -/
structure Entry where
  /-- What the offset refers to. -/
  source : Location
  /-- The path inside the archive. -/
  name : Option String := none
  /-- Where the stored bytes start. -/
  offset : Nat
  /-- How many bytes are stored. -/
  stored : Nat := 0
  /-- How many bytes the content has. -/
  decoded : Nat := stored
  /-- What leads from the stored bytes to the content. -/
  codec : Codec := []
  /-- An extension that the content suggests. -/
  hint : Option String := none
  /-- What the directory says besides. -/
  properties : Properties := []
  deriving DecidableEq, Repr, Inhabited

namespace Entry

/-- Where the stored bytes end. -/
def stop (e : Entry) : Nat := Word.satAdd e.offset e.stored

/-- Names an entry that has no name yet. -/
def assignName (e : Entry) (name : String) : Except Error Entry :=
  match e.name with
  | some existing => .error (.alreadyNamed e.offset existing)
  | none => .ok { e with name := some name }

/-- The entry under another name. -/
def rename (e : Entry) (name : String) : Entry := { e with name := some name }

/-- The entry with a property set. -/
def withProperty (e : Entry) (key : String) (value : PropertyValue) : Entry :=
  { e with properties := e.properties.insert key value }

/-- The entry with a numeric property set. -/
def withNumber (e : Entry) (key : String) (value : Int) : Entry := e.withProperty key (.int value)

/-- The entry with a suggested extension. -/
def withHint (e : Entry) (hint : String) : Entry := { e with hint := some hint }

/-- The entry with another stored length. Without a codec the content has the same length. -/
def withStored (e : Entry) (stored : Nat) : Entry :=
  { e with
    stored
    decoded := if e.codec.isIdentity then stored else e.decoded }

/-- The entry with a codec and the length that it decodes to. -/
def withCodec (e : Entry) (codec : Codec) (decoded : Nat) : Entry := { e with codec, decoded }

/-- The name of an entry that is to be written. -/
def writtenName (e : Entry) : Except Error String :=
  match e.name with
  | some name => .ok name
  | none => .error (.unnamed e.offset)

end Entry

end Packfile
