import Packfile.Bytes
import Packfile.Checked
import Packfile.Text.Utf8

/-!
# Streams and the readers that run over them

A `Stream` is a byte string with a position in it. `Reader` is the monad of everything that reads
one: a reader ends with a value or an error, and with the stream as it left it in both cases, so
that the position after a failure is as much a fact as the position after a success.

## Two layers

`Reader.pull`, `Reader.exactly` and `Reader.jump` are the storage: they read at any position, also
past the end, and may meet a storage failure. Everything else is checked against the length of the
stream first, so that a corrupt length field is an error of its own and never a huge read.

## Storage failures

`Stream.failAt` says from which position on the storage fails. A read that starts there fails; one
that starts before is cut short there. The rest of the library cannot tell a stream that fails
beyond everything it reads from one that does not fail at all.

## Main definitions

* `Stream`, `Reader` — the state and the monad
* `Reader.seek`, `skip`, `shift`, `checkRange`, `restoring` — moving about
* `Reader.uint`, `bytes`, `fixedString`, `terminatedString` — reading fields
* `Reader.asRecord` — reading several fields as one
* `Reader.slice` — a stream over a part of the stream
-/

namespace Packfile

/-- A byte string with a position in it. -/
structure Stream where
  /-- The whole contents. -/
  bytes : Bytes
  /-- Where the next read starts. It may lie past the end. -/
  position : Nat := 0
  /-- The byte order of integers that do not state their own. -/
  order : ByteOrder := .little
  /-- The position from which on the storage fails. -/
  failAt : Option Nat := none
  deriving DecidableEq, Repr, Inhabited

namespace Stream

/-- A healthy little-endian stream, at its start. -/
def ofBytes (bytes : Bytes) : Stream := { bytes }

/-- The number of bytes in the stream. -/
def length (s : Stream) : Nat := s.bytes.length

/-- The number of bytes after the position. -/
def remaining (s : Stream) : Nat := s.length - s.position

/-- The bytes from the position on that the storage can deliver. -/
def ahead (s : Stream) : Bytes :=
  match s.failAt with
  | none => s.bytes.drop s.position
  | some limit => (s.bytes.drop s.position).take (limit - s.position)

/-- Whether the storage fails at the position that `taken` bytes lead to. -/
def failsAfter (s : Stream) (taken : Nat) : Bool :=
  match s.failAt with
  | none => false
  | some limit => limit ≤ s.position + taken

/-- The stream `count` bytes further on. -/
def advance (s : Stream) (count : Nat) : Stream := { s with position := s.position + count }

/-- Where a read of a few bytes at the end of the data leaves the stream: everything that could be
had is consumed. -/
def exhausted (s : Stream) : Stream :=
  match s.failAt with
  | none => { s with position := s.length }
  | some _ => s.advance s.ahead.length

end Stream

/-- A computation that reads a stream. -/
abbrev Reader := EStateM Error Stream

namespace Reader

/-- What a reader makes of a stream: its value or error, and the stream as it leaves it. -/
def outcome (body : Reader α) (s : Stream) : Except Error α × Stream :=
  match body s with
  | .ok a s => (.ok a, s)
  | .error e s => (.error e, s)

/-- A reader that leaves the stream alone. -/
def ofExcept (result : Except Error α) : Reader α := fun s =>
  match result with
  | .ok a => .ok a s
  | .error e => .error e s

instance : MonadLift (Except Error) Reader := ⟨ofExcept⟩

/-! ### Unchecked storage access -/

/-- Moves to any position. -/
def jump (position : Nat) : Reader Unit := fun s => .ok () { s with position }

/-- One read of the storage: at most `count` bytes, and none at the end of the data. -/
def pull (count : Nat) : Reader Bytes := fun s =>
  if s.failsAfter 0 then .error (.read .disk) s
  else
    let found := s.ahead.take count
    .ok found (s.advance found.length)

/-- Exactly `count` bytes, or a failed read. -/
def exactly (count : Nat) : Reader Bytes := fun s =>
  let found := s.ahead.take count
  if found.length = count then .ok found (s.advance count)
  else if s.failsAfter found.length then .error (.read .disk) s.exhausted
  else .error (.read .unexpectedEnd) s.exhausted

/-! ### Position and length -/

/-- The current position. -/
def offset : Reader Nat := return (← get).position

/-- The length of the stream. -/
def length : Reader Nat := return (← get).length

/-- The number of bytes after the position. -/
def remaining : Reader Nat := return (← get).remaining

/-- The byte order of integers that do not state their own. -/
def order : Reader ByteOrder := return (← get).order

/-- Changes the byte order of integers that do not state their own. -/
def setOrder (order : ByteOrder) : Reader Unit := modify fun s => { s with order }

/-- Moves to a position inside the stream, its end included. -/
def seek (position : Nat) : Reader Unit := do
  let length ← length
  if length < position then throw (.exceeds "seek offset" position length)
  jump position

/-- Moves by a signed distance. -/
def shift (distance : Int) : Reader Unit := do
  let current ← offset
  match Word.shift? current distance with
  | none => throw (.exceeds "relative seek" current (← length))
  | some target => seek target

/-- Moves forward. -/
def skip (count : Nat) : Reader Unit := do
  seek (Word.satAdd (← offset) count)

/-- Whether `size` bytes from `start` on lie in a stream of `length` bytes. -/
def inRange (length start size : Nat) : Bool :=
  match Word.add? start size with
  | some stop => stop ≤ length
  | none => false

/-- The error of a range that does not lie in a stream of `length` bytes. -/
def rangeError (what : String) (length start size : Nat) : Error :=
  .exceeds what (Word.satAdd start size) length

/-- Fails unless `size` bytes from `start` on lie in the stream. -/
def checkRange (what : String) (start size : Nat) : Reader Unit := do
  let length ← length
  if !inRange length start size then throw (rangeError what length start size)

/-- Runs a reader and goes back to where it started, whether it succeeded or not. -/
def restoring (body : Reader α) : Reader α := fun s =>
  match body s with
  | .ok a s' => .ok a { s' with position := s.position }
  | .error e s' => .error e { s' with position := s.position }

/-! ### Integers -/

/-- An unsigned integer of `width` bytes in a stated order. -/
def wordIn (order : ByteOrder) (width : Nat) : Reader Nat :=
  return order.decode (← exactly width)

/-- A byte. -/
def u8 : Reader Nat := wordIn .little 1

/-- A 16-bit integer in the order of the stream. -/
def u16 : Reader Nat := do wordIn (← order) 2

/-- A 32-bit integer in the order of the stream. -/
def u32 : Reader Nat := do wordIn (← order) 4

/-- A 64-bit integer in the order of the stream. -/
def u64 : Reader Nat := do wordIn (← order) 8

/-- The widths that an integer field can have. -/
def isIntegerWidth (width : Nat) : Bool := width == 1 || width == 2 || width == 4 || width == 8

/-- An unsigned integer of 1, 2, 4 or 8 bytes. -/
def uint (width : Nat) (order : ByteOrder) : Reader Nat :=
  if isIntegerWidth width then wordIn order width
  else throw (.odd (.integerWidth width))

/-! ### Byte strings and text -/

/-- Exactly `count` bytes. The count is compared with what is left before anything is read. -/
def bytes (count : Nat) : Reader Bytes := do
  let left ← remaining
  if left < count then throw (.exceeds "read length" count left)
  exactly count

/-- The part of a byte string before its first zero. -/
def beforeZero (field : Bytes) : Bytes := field.takeWhile (· != 0)

/-- Where the first zero of a field is, or the end of the field. -/
def zeroIndex (field : Bytes) : Nat := field.findIdx (· == 0)

/-- A text in a field of `width` bytes, ended by the first zero or by the end of the field. -/
def fixedString (width : Nat) : Reader String := do
  let field ← bytes width
  return Utf8.decode (← Checked.slice field 0 (zeroIndex field))

/-- The bytes up to a zero, which is consumed. At a limit, the bytes up to there. -/
def terminatedBytes (limit : Option Nat) : Reader Bytes := fun s =>
  let window := match limit with
    | none => s.ahead
    | some limit => s.ahead.take limit
  let found := beforeZero window
  if found.length < window.length then .ok found (s.advance (found.length + 1))
  else if limit = some found.length then .ok found (s.advance found.length)
  else
    let rest := s.advance found.length
    let failure := if rest.failsAfter 0 then ReadFailure.disk else .unexpectedEnd
    .error (.read failure) rest.exhausted

/-- The text form of `terminatedBytes`. -/
def terminatedString (limit : Option Nat) : Reader String :=
  return Utf8.decode (← terminatedBytes limit)

/-- The first bytes of the stream, as many of `width` as there are. -/
def leadingBytes (width : Nat) : Reader Bytes := do
  seek 0
  bytes (min (← length) width)

/-! ### Records and parts -/

/-- Reads several fields as one record: if one cannot be read, the stream is left where the record
starts. -/
def asRecord (body : Reader α) : Reader α := fun s =>
  match body s with
  | .ok a s' => .ok a s'
  | .error (.read failure) s' => .error (.recordRead failure) { s' with position := s.position }
  | .error e s' => .error e { s' with position := s.position }

/-- A new stream over `size` bytes from `start` on, in the same byte order. -/
def slice (start size : Nat) : Reader Stream := do
  checkRange "block range" start size
  seek start
  let content ← bytes size
  return { bytes := content, order := (← order) }

end Reader

end Packfile
