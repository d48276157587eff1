import Packfile.Cipher
import Packfile.Codec.Content

/-!
# Pulling content, one read at a time

A `Tap` is what bytes are pulled from: a source with everything stacked on it, in its state between
two reads. A feed says what will come in all; `Tap.Reads` says what one read may do and what it
leaves behind. Each layer keeps a state of its own — a limit how many bytes are left, a cipher its
place in the key stream, a decompressor what it has taken and how much of the result it has given —
and each has to move on by what a read returned, which may be less than was asked for.

## What is left open

`Tap.Reads` is a relation. A source may return any part of what is asked for, and a decompressor may
take its input in pieces of any sizes, at any time, and return any part of what it has made of it.
What is not left open is when a read may return nothing: if it asked for nothing, or at the end.

## After a failure

Nothing keeps a caller from reading on after a read that failed. A decompressor that met corrupt
data stays broken, and what it had not returned by then is lost.

## Main definitions

* `Tap`, `Tap.Reads` — the stack, and one read of it
* `Codec.tap` — what a codec puts on a source
* `ContentTap`, `ContentTap.Reads`, `ContentTap.Runs` — content of a declared length, and its reads
-/

namespace Packfile

/-- The two forms of compressed data. -/
inductive Framing where
  /-- With a header and a checksum. -/
  | zlib
  /-- Without. -/
  | bare
  deriving DecidableEq, Repr

/-- What compressed data of the given form decode to, and how they end. -/
def Framing.decompress : Framing → Bytes → Bytes × Deflate.Ending
  | zlib => Zlib.decompress
  | bare => Deflate.inflate

/-- What bytes are pulled from. -/
inductive Tap where
  /-- A byte string, as far as it is not read yet. -/
  | source (left : Bytes)
  /-- At most so many more bytes. -/
  | limit (left : Nat) (inner : Tap)
  /-- A cipher. -/
  | cipher (state : Cipher) (inner : Tap)
  /-- Decompression: the input taken so far, and how many bytes of the result were returned. -/
  | inflate (framing : Framing) (taken : Bytes) (given : Nat) (inner : Tap)
  /-- Decompression that has met corrupt data. -/
  | broken

/-- The bytes that a read returned. One that failed returned none. -/
def received {ε : Type} : Except ε Bytes → Bytes
  | .ok found => found
  | .error _ => []

namespace Tap

/-- `t.Reads count result t'`: a read of at most `count` bytes may give `result` and leave `t'`. -/
inductive Reads : Tap → Nat → Except ReadFailure Bytes → Tap → Prop where
  /-- A source returns some of its bytes. -/
  | source {left : Bytes} {count : Nat} (size : Nat) (hsize : size ≤ count)
      (hsome : size = 0 → count = 0 ∨ left = []) :
      Reads (.source left) count (.ok (left.take size)) (.source (left.drop size))
  /-- Nothing is asked of what is behind a limit that was reached. -/
  | reached {inner : Tap} {count : Nat} : Reads (.limit 0 inner) count (.ok []) (.limit 0 inner)
  /-- A limit asks for no more than is left. -/
  | limit {left count : Nat} {inner inner' : Tap} {result : Except ReadFailure Bytes}
      (hleft : left ≠ 0) (h : Reads inner (min count left) result inner') :
      Reads (.limit left inner) count result (.limit (left - (received result).length) inner')
  /-- A cipher is moved on by what was returned. -/
  | cipher {state : Cipher} {count : Nat} {inner inner' : Tap}
      {result : Except ReadFailure Bytes} (h : Reads inner count result inner') :
      Reads (.cipher state inner) count (result.map fun found => (state.apply found).1)
        (.cipher (state.apply (received result)).2 inner')
  /-- A decompressor takes more input before it answers. -/
  | refill {framing : Framing} {taken found : Bytes} {given asked count : Nat}
      {inner inner' t : Tap} {result : Except ReadFailure Bytes} (hasked : asked ≠ 0)
      (h : Reads inner asked (.ok found) inner')
      (hrest : Reads (.inflate framing (taken ++ found) given inner') count result t) :
      Reads (.inflate framing taken given inner) count result t
  /-- A decompressor returns some of what it has made of its input. -/
  | deliver {framing : Framing} {taken content : Bytes} {ending : Deflate.Ending}
      {given count : Nat} {inner : Tap} (size : Nat) (hsize : size ≤ count)
      (hdata : framing.decompress taken = (content, ending))
      (hthere : given + size ≤ content.length)
      (hsome : size = 0 → count = 0 ∨
        (given = content.length ∧ ∃ rest, ending = .complete rest)) :
      Reads (.inflate framing taken given inner) count (.ok ((content.drop given).take size))
        (.inflate framing taken (given + size) inner)
  /-- The input breaks the rules of its format. -/
  | corrupt {framing : Framing} {taken content : Bytes} {given count : Nat} {inner : Tap}
      (hdata : framing.decompress taken = (content, .stopped .corrupt)) :
      Reads (.inflate framing taken given inner) count (.error .corruptDeflate) .broken
  /-- The input ends early, and everything made of it was returned. -/
  | incomplete {framing : Framing} {taken content : Bytes} {given asked count : Nat}
      {inner inner' : Tap} (hcount : count ≠ 0) (hasked : asked ≠ 0)
      (hend : Reads inner asked (.ok []) inner')
      (hdata : framing.decompress taken = (content, .stopped .incomplete))
      (hgiven : given = content.length) :
      Reads (.inflate framing taken given inner) count (.error .incompleteDeflate)
        (.inflate framing taken given inner')
  /-- The input cannot be read. -/
  | failed {framing : Framing} {taken : Bytes} {given asked count : Nat} {inner inner' : Tap}
      {failure : ReadFailure} (h : Reads inner asked (.error failure) inner') :
      Reads (.inflate framing taken given inner) count (.error failure)
        (.inflate framing taken given inner')
  /-- Corrupt data stay corrupt. -/
  | broken {count : Nat} : Reads .broken count (.error .corruptDeflate) .broken

end Tap

/-- What a transform puts on a tap. -/
def Transform.tap : Transform → Tap → Tap
  | xor key, t => .cipher (.xor ⟨key, 0⟩) t
  | rc4 key, t => .cipher (.rc4 (Rc4.ofKey key)) t
  | zlib, t => .inflate .zlib [] 0 t
  | deflate, t => .inflate .bare [] 0 t

/-- What a codec puts on a tap. The first key that cannot be used is the error. -/
def Codec.tap : Codec → Tap → Except Error Tap
  | [], t => .ok t
  | transform :: codec, t =>
    match transform.keyError? with
    | some e => .error e
    | none => Codec.tap codec (transform.tap t)

/-- Content of a declared length that is pulled through the layers of a codec. -/
structure ContentTap where
  /-- The layers. -/
  inner : Tap
  /-- How many bytes of the declared length are left. -/
  remaining : Nat

namespace ContentTap

/-- The content of declared length `decoded` in the first `stored` bytes of a source. -/
def make (source : Bytes) (stored decoded : Nat) (codec : Codec) : Except Error ContentTap :=
  match codec.tap (.limit stored (.source source)) with
  | .error e => .error e
  | .ok inner => .ok { inner, remaining := decoded }

/-- One read of at most `count` bytes: content that ends before the declared length is an error. -/
inductive Reads : ContentTap → Nat → Except Error Bytes → ContentTap → Prop where
  /-- Some bytes are there, or none were asked for or declared. -/
  | found {inner inner' : Tap} {remaining remaining' count : Nat} {bytes : Bytes}
      (h : Tap.Reads (.limit remaining inner) count (.ok bytes) (.limit remaining' inner'))
      (hsome : bytes = [] → count = 0 ∨ remaining' = 0) :
      Reads ⟨inner, remaining⟩ count (.ok bytes) ⟨inner', remaining'⟩
  /-- There are none. -/
  | endedEarly {inner inner' : Tap} {remaining remaining' count : Nat}
      (h : Tap.Reads (.limit remaining inner) count (.ok []) (.limit remaining' inner'))
      (hcount : count ≠ 0) (hremaining : remaining' ≠ 0) :
      Reads ⟨inner, remaining⟩ count (.error (.read (.endedEarly remaining'))) ⟨inner', remaining'⟩
  /-- They cannot be had. -/
  | failed {inner inner' : Tap} {remaining remaining' count : Nat} {failure : ReadFailure}
      (h : Tap.Reads (.limit remaining inner) count (.error failure) (.limit remaining' inner')) :
      Reads ⟨inner, remaining⟩ count (.error (.read failure)) ⟨inner', remaining'⟩

/-- Reads one after the other, each with what it asked for and what it gave. A failed read may be
followed by others. -/
inductive Runs : ContentTap → List (Nat × Except Error Bytes) → ContentTap → Prop where
  /-- No more reads. -/
  | nil {c : ContentTap} : Runs c [] c
  /-- One read, and the others. -/
  | cons {c c' c'' : ContentTap} {count : Nat} {result : Except Error Bytes}
      {reads : List (Nat × Except Error Bytes)} (h : c.Reads count result c')
      (hrest : Runs c' reads c'') : Runs c ((count, result) :: reads) c''

/-- Everything that the successful ones of several reads returned. -/
def pulled (reads : List (Nat × Except Error Bytes)) : Bytes :=
  reads.flatMap fun read => received read.2

end ContentTap

end Packfile
