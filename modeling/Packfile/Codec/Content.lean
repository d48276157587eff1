import Packfile.Codec

/-!
# Reading content

A `ContentReader` yields the content of an entry in pieces of any size, up to the declared length.
A content that ends before that length is an error and never a shorter content.

## Main definitions

* `ContentReader.read` — one piece
* `ContentReader.readAll` — everything, or an error
* `ContentReader.pieces` — what a copy in pieces of one size has moved when it ends or fails
* `Reader.content`, `Reader.decodeBlock` — content of a range of a stream
* `Block` — a block under construction
-/

namespace Packfile

/-- The content of an entry, as far as it is not read yet. -/
structure ContentReader where
  /-- What the codec will yield. -/
  feed : Feed
  /-- How many bytes of the declared length are left. -/
  remaining : Nat
  deriving DecidableEq, Repr

namespace ContentReader

/-- The content that `stored` bytes decode to, of declared length `decoded`. -/
def make (source : Feed) (decoded : Nat) (codec : Codec) : Except Error ContentReader :=
  match codec.undo source with
  | .error e => .error e
  | .ok feed => .ok { feed, remaining := decoded }

/-- One read of at most `count` bytes. Behind the declared length there is nothing, and nothing is
asked for. -/
def read (r : ContentReader) (count : Nat) : Except Error Bytes × ContentReader :=
  if r.remaining = 0 then (.ok [], r)
  else
    match r.feed.read (min count r.remaining) with
    | (.error failure, feed) => (.error (.read failure), { r with feed })
    | (.ok found, feed) =>
      let r := { feed, remaining := r.remaining - found.length : ContentReader }
      if found.isEmpty && count != 0 then (.error (.read (.endedEarly r.remaining)), r)
      else (.ok found, r)

/-- The whole content that is left, or the error that keeps it from being complete. -/
def readAll (r : ContentReader) : Except Error Bytes :=
  if r.remaining = 0 then .ok []
  else
    match r.feed.failure? r.remaining, r.feed.ending with
    | some failure, _ => .error (.read failure)
    | none, .failed failure _ =>
      if r.feed.bytes.length < r.remaining then .error (.read failure)
      else .ok (r.feed.bytes.take r.remaining)
    | none, .finished =>
      if r.feed.bytes.length < r.remaining then
        .error (.read (.endedEarly (r.remaining - r.feed.bytes.length)))
      else .ok (r.feed.bytes.take r.remaining)

/-- A content is read as a whole if there is enough of it and no failure is met on the way. -/
theorem readAll_eq_ok {r : ContentReader} {content : Bytes} : r.readAll = .ok content ↔
    (r.remaining ≠ 0 → r.feed.failure? r.remaining = none) ∧
      r.remaining ≤ r.feed.bytes.length ∧ content = r.feed.bytes.take r.remaining := by
  rw [readAll]
  by_cases hzero : r.remaining = 0
  · simp [hzero, eq_comm]
  · cases hfailure : r.feed.failure? r.remaining with
    | some failure => simp [hzero]
    | none =>
      rcases Nat.lt_or_ge r.feed.bytes.length r.remaining with hlt | hle
      · cases r.feed.ending <;> simp [hzero, hlt, Nat.not_le.mpr hlt]
      · cases r.feed.ending <;> simp [hzero, hle, Nat.not_lt.mpr hle, eq_comm]

/-- Reads pieces of `size` bytes until nothing is left or a read fails. Gives what was read, and
the error. Every piece but the last has at least one byte, so the declared length and one more
round are enough. -/
def piecesFrom (size : Nat) : Nat → ContentReader → Bytes → Bytes × Option Error
  | 0, _, done => (done, none)
  | rounds + 1, r, done =>
    match r.read size with
    | (.error e, _) => (done, some e)
    | (.ok [], _) => (done, none)
    | (.ok found, r) => piecesFrom size rounds r (done ++ found)

/-- What a copy in pieces of `size` bytes moves, and the error that stopped it. -/
def pieces (size : Nat) (r : ContentReader) : Bytes × Option Error :=
  piecesFrom size (r.feed.bytes.length + 1) r []

end ContentReader

namespace Reader

/-- How far reading a content moves the stream. A decompressor takes all it can get. -/
def drawn (codec : Codec) (decoded : Nat) (source : Feed) : Nat :=
  if codec.isCompressed then (if decoded = 0 then 0 else source.bytes.length)
  else min decoded source.bytes.length

/-- The content of declared length `decoded` that `stored` bytes from the position on decode to. -/
def content (stored decoded : Nat) (codec : Codec) : Reader Bytes := fun s =>
  let source := Feed.ofStream s stored
  match ContentReader.make source decoded codec with
  | .error e => .error e s
  | .ok r =>
    let s := s.advance (drawn codec decoded source)
    match r.readAll with
    | .error e => .error e s
    | .ok found => .ok found s

/-- The block of declared length `decoded` that `stored` bytes from `start` on decode to. -/
def decodeBlock (start stored decoded : Nat) (codec : Codec) : Reader Bytes := do
  checkRange "block range" start stored
  if !codec.isCompressed && stored < decoded then
    throw (.exceeds "decoded block length" decoded stored)
  seek start
  content stored decoded codec

end Reader

/-- A block under construction: bytes that are stored as they are or compressed when the block is
done. The pieces that it was written in are kept apart, so that writing one more does not touch
those before it. -/
structure Block where
  /-- Whether the block is compressed. -/
  compressed : Bool
  /-- The pieces put into the block, the latest first. -/
  pieces : List Bytes := []
  deriving DecidableEq, Repr

namespace Block

/-- What is stored for a content. -/
def stored (compressed : Bool) (content : Bytes) (compress : Bytes → Bytes := Zlib.compress) :
    Bytes :=
  if compressed then compress content else content

/-- Appends bytes. -/
def write (b : Block) (data : Bytes) : Block := { b with pieces := data :: b.pieces }

/-- The number of bytes put into the block. -/
def size (b : Block) : Nat := b.pieces.foldr (fun piece size => piece.length + size) 0

/-- The bytes put into the block. -/
def content (b : Block) : Bytes := b.pieces.reverse.flatten

/-- The finished block. -/
def bytes (b : Block) (compress : Bytes → Bytes := Zlib.compress) : Bytes :=
  stored b.compressed b.content compress

theorem size_eq (b : Block) : b.size = b.content.length := by
  rw [size, content]
  induction b.pieces with
  | nil => rfl
  | cons piece pieces ih =>
    rw [List.foldr_cons, ih, List.reverse_cons, List.flatten_append, List.length_append,
      List.flatten_singleton, Nat.add_comm]

@[simp] theorem size_write (b : Block) (data : Bytes) :
    (b.write data).size = data.length + b.size := rfl

@[simp] theorem content_write (b : Block) (data : Bytes) :
    (b.write data).content = b.content ++ data := by
  simp [write, content]

end Block

end Packfile
