import Packfile.Stream
import Packfile.Cipher.Xor
import Packfile.Cipher.Rc4
import Packfile.Zlib

/-!
# Feeds: bytes that can only be taken from the front

A `Feed` is what a source of bytes will yield, all of it, together with how it ends: simply, or in
a failure. Deciphering and inflating are functions from feeds to feeds. Since the whole yield is
one value, how it is cut into reads cannot change it; the only thing that depends on the size of a
read is when the failure at the end shows, and `Notice` says how.

## Main definitions

* `Feed.ofStream` — a bounded part of a stream
* `Feed.xor`, `Feed.rc4`, `Feed.inflate` — the transforms
* `Feed.read` — one read
* `Feed.inflatedEnd` — how inflated content ends
-/

namespace Packfile

/-- Which read notices a failure behind the last byte. -/
inductive Notice where
  /-- One that takes the last byte, or starts behind it. -/
  | reached
  /-- One that starts behind the last byte. -/
  | started
  /-- One that starts behind the last byte and wants at least one more. -/
  | wanted
  deriving DecidableEq, Repr

/-- How a feed ends. -/
inductive FeedEnd where
  /-- There is nothing more. -/
  | finished
  /-- There should be more, and it cannot be had. -/
  | failed (failure : ReadFailure) (notice : Notice)
  deriving DecidableEq, Repr

/-- Everything that a source will yield. -/
structure Feed where
  /-- The bytes still to come. -/
  bytes : Bytes
  /-- What is behind them. -/
  ending : FeedEnd
  deriving DecidableEq, Repr

namespace Feed

/-- At most `size` bytes from the position of a stream on. The storage is not asked for more than
that, so it can fail only if it delivers less. -/
def ofStream (s : Stream) (size : Nat) : Feed :=
  let found := s.ahead.take size
  if found.length < size && s.failsAfter found.length then ⟨found, .failed .disk .started⟩
  else ⟨found, .finished⟩

/-- Combines a feed with a repeated key. -/
def xor (key : Bytes) (f : Feed) : Feed := { f with bytes := (Xor.mk key 0).apply f.bytes }

/-- Combines a feed with an RC4 key stream. -/
def rc4 (key : Bytes) (f : Feed) : Feed := { f with bytes := ((Rc4.ofKey key).apply f.bytes).1 }

/-- The size of the pieces in which a decompressor takes its input. -/
def pieceSize : Nat := 32768

/-- What reaches a consumer that takes pieces of `pieceSize` bytes. A failure that a read notices
by reaching it takes the whole last piece with it. -/
def inPieces (f : Feed) : Feed :=
  match f.ending with
  | .failed _ .reached =>
    { f with bytes := f.bytes.take ((f.bytes.length - 1) / pieceSize * pieceSize) }
  | _ => f

/-- The feed that decompression yields. Input behind the end of the compressed data is ignored. If
the input ends early, the failure is that of the input, or that it is incomplete. -/
def inflate (decompress : Bytes → Bytes × Deflate.Ending) (f : Feed) : Feed :=
  let input := f.inPieces
  match decompress input.bytes with
  | (content, .complete _) => ⟨content, .finished⟩
  | (content, .stopped .corrupt) => ⟨content, .failed .corruptDeflate .reached⟩
  | (content, .stopped .incomplete) =>
    match input.ending with
    | .finished => ⟨content, .failed .incompleteDeflate .wanted⟩
    | .failed failure _ => ⟨content, .failed failure .started⟩

/-- The failure that a read of `count` bytes meets, if it meets one. -/
def failure? (f : Feed) (count : Nat) : Option ReadFailure :=
  match f.ending with
  | .finished => none
  | .failed failure .reached => if f.bytes.length ≤ count then some failure else none
  | .failed failure .started => if f.bytes.isEmpty then some failure else none
  | .failed failure .wanted =>
    if f.bytes.isEmpty && count != 0 then some failure else none

/-- One read of at most `count` bytes: as many as there are, or a failure. Bytes in front of a
failure that a read meets by reaching it are lost with it, and nothing is read after them. -/
def read (f : Feed) (count : Nat) : Except ReadFailure Bytes × Feed :=
  match f.failure? count with
  | some failure => (.error failure, { f with bytes := [] })
  | none => (.ok (f.bytes.take count), { f with bytes := f.bytes.drop count })

theorem read_of_failure {f : Feed} {count : Nat} {failure : ReadFailure}
    (h : f.failure? count = some failure) :
    f.read count = (.error failure, { f with bytes := [] }) := by
  rw [read, h]

theorem read_of_none {f : Feed} {count : Nat} (h : f.failure? count = none) :
    f.read count = (.ok (f.bytes.take count), { f with bytes := f.bytes.drop count }) := by
  rw [read, h]

/-- Whether a read fails depends on how many bytes there are, and not on which. -/
theorem failure?_congr (f : Feed) {bytes : Bytes} (h : bytes.length = f.bytes.length)
    (count : Nat) : failure? { f with bytes } count = f.failure? count := by
  have hempty : bytes.isEmpty = f.bytes.isEmpty := by
    rw [Bool.eq_iff_iff, List.isEmpty_iff_length_eq_zero, List.isEmpty_iff_length_eq_zero, h]
  simp only [failure?, h, hempty]

theorem ending_inPieces (f : Feed) : f.inPieces.ending = f.ending := by
  rw [inPieces]
  split <;> rfl

/-- How inflated content ends, by how the data end and by how what is behind them does. -/
def inflatedEnd (ending : Deflate.Ending) (input : FeedEnd) : FeedEnd :=
  match ending with
  | .complete _ => .finished
  | .stopped .corrupt => .failed .corruptDeflate .reached
  | .stopped .incomplete =>
    match input with
    | .finished => .failed .incompleteDeflate .wanted
    | .failed failure _ => .failed failure .started

/-- Inflating is a matter of the bytes that arrive in pieces and of what is behind them. -/
theorem inflate_eq (decompress : Bytes → Bytes × Deflate.Ending) (f : Feed) :
    f.inflate decompress = ⟨(decompress f.inPieces.bytes).1,
      inflatedEnd (decompress f.inPieces.bytes).2 f.ending⟩ := by
  rw [inflate, ending_inPieces]
  rcases decompress f.inPieces.bytes with ⟨content, rest | reason⟩
  · rfl
  · cases reason with
    | corrupt => rfl
    | incomplete => cases f.ending <;> rfl

end Feed

end Packfile
