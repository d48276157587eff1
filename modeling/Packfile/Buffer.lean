import Packfile.Stream

/-!
# Growing byte buffers

The counterpart of a stream for output: bytes written so far and a position among them. Writing
inside the buffer overwrites, writing past its end first fills the gap with zeros. A field whose
value becomes known only later is written first and patched then.

## Main definitions

* `Buffer.put` — the one writing primitive; the others choose the bytes
* `Buffer.padTo` — alignment
* `Buffer.patch32` — overwriting a field without losing the place
* `Buffer.copyFrom` — a range of a stream, verbatim

## Main results

* `Buffer.put_of_end`, `Buffer.patch32_of_le` — writing at the end adds, patching inside replaces
* `Buffer.padding_lt`, `Buffer.dvd_padding` — less than an alignment, up to a multiple of it
-/

namespace Packfile

/-- The bytes of a range, as far as they can be read, and the error that cut them short. -/
def Reader.preserved (start size : Nat) : Reader (Bytes × Option Error) := fun s =>
  if !Reader.inRange s.length start size then
    .ok ([], some (Reader.rangeError "preserved range" s.length start size)) s
  else
    let s := { s with position := start }
    let found := s.ahead.take size
    let s := s.advance found.length
    if found.length = size then .ok (found, none) s
    else if s.failsAfter 0 then .ok (found, some (.read .disk)) s
    else .ok (found, some (.exceeds "preserved range" found.length size)) s

/-- The bytes of a range, or an error. -/
def Reader.preserve (start size : Nat) : Reader Bytes := do
  match ← Reader.preserved start size with
  | (found, none) => return found
  | (_, some e) => throw e

/-- Bytes written so far, and where the next write goes. -/
structure Buffer where
  /-- The bytes written. -/
  bytes : Bytes := []
  /-- Where the next write starts. -/
  position : Nat := 0
  /-- The byte order of the integers written. -/
  order : ByteOrder := .little
  deriving DecidableEq, Repr, Inhabited

namespace Buffer

/-- An empty buffer. -/
def empty : Buffer := {}

/-- A byte string with `data` written over it at a position, zeros filling any gap. -/
def overwrite (bytes : Bytes) (position : Nat) (data : Bytes) : Bytes :=
  let front := bytes.take position
  front ++ List.replicate (position - front.length) 0 ++ data ++
    bytes.drop (position + data.length)

/-- Writes bytes at the position and moves behind them. Writing nothing changes nothing, also
beyond the end. -/
def put (b : Buffer) (data : Bytes) : Buffer :=
  if data.isEmpty then b
  else { b with
    bytes := overwrite b.bytes b.position data
    position := b.position + data.length }

/-- Writes an unsigned integer of `width` bytes. -/
def uint (b : Buffer) (width n : Nat) : Buffer := b.put (b.order.encode width n)

/-- Writes a 32-bit integer. -/
def u32 (b : Buffer) (n : Nat) : Buffer := b.uint 4 n

/-- Writes a text and a zero. -/
def terminatedString (b : Buffer) (text : String) : Buffer := b.put (Utf8.encode text ++ [0])

/-- The bytes of a text in a field of `width` bytes, filled up with zeros. A text that does not
fit is refused, not cut. -/
def fixedField (text : String) (width : Nat) : Except Error Bytes :=
  let encoded := Utf8.encode text
  if width < encoded.length then throw (.exceeds "name length" encoded.length width)
  else return encoded ++ List.replicate (width - encoded.length) 0

/-- Writes a text into a field of `width` bytes. -/
def fixedString (b : Buffer) (text : String) (width : Nat) : Except Error Buffer :=
  return b.put (← fixedField text width)

/-- How many bytes lead from a position to the next multiple of an alignment. -/
def padding (position alignment : Nat) : Nat :=
  if alignment ≤ 1 then 0 else (alignment - position % alignment) % alignment

/-- Fills up to the next multiple of an alignment. -/
def padTo (b : Buffer) (alignment : Nat) (fill : UInt8) : Buffer :=
  b.put (List.replicate (padding b.position alignment) fill)

/-- Overwrites a 32-bit field and comes back. -/
def patch32 (b : Buffer) (at_ n : Nat) : Buffer :=
  { ({ b with position := at_ }).u32 n with position := b.position }

/-! ### Inside and at the end -/

/-- Up to the end there is no gap to fill. -/
theorem overwrite_of_le {bytes : Bytes} {position : Nat} (h : position ≤ bytes.length)
    (data : Bytes) : overwrite bytes position data
      = bytes.take position ++ data ++ bytes.drop (position + data.length) := by
  have hgap : position - (bytes.take position).length = 0 := by
    rw [List.length_take]
    omega
  simp only [overwrite, hgap, List.replicate_zero, List.append_nil]

/-- At the end a write adds to what is there. -/
theorem put_of_end {b : Buffer} (h : b.position = b.bytes.length) (data : Bytes) :
    b.put data = { b with
      bytes := b.bytes ++ data
      position := b.position + data.length } := by
  unfold put
  split
  · next hempty =>
    rw [List.isEmpty_iff.mp hempty, List.append_nil, List.length_nil, Nat.add_zero]
  · rw [overwrite_of_le (Nat.le_of_eq h), h, List.take_length,
      List.drop_eq_nil_of_le (Nat.le_add_right _ _), List.append_nil]

/-- A patch inside the buffer replaces four bytes. -/
theorem patch32_of_le {b : Buffer} {place : Nat} (h : place ≤ b.bytes.length) (n : Nat) :
    b.patch32 place n = { b with
      bytes := b.bytes.take place ++ b.order.encode 4 n ++ b.bytes.drop (place + 4) } := by
  have hlength : (b.order.encode 4 n).length = 4 := ByteOrder.length_encode ..
  have hne : (b.order.encode 4 n).isEmpty = false := by
    rw [List.isEmpty_eq_false_iff_exists_mem, ← List.length_pos_iff_exists_mem, hlength]
    decide
  simp only [patch32, u32, uint, put, hne, Bool.false_eq_true, if_false]
  rw [overwrite_of_le h, hlength]

/-! ### Padding -/

theorem padding_lt {alignment : Nat} (h : 0 < alignment) (position : Nat) :
    padding position alignment < alignment := by
  unfold padding
  split
  · exact h
  · exact Nat.mod_lt _ h

/-- Padding leads to a multiple of the alignment. -/
theorem dvd_padding {alignment : Nat} (h : 0 < alignment) (position : Nat) :
    alignment ∣ position + padding position alignment := by
  have hdiv := Nat.div_add_mod position alignment
  have hlt := Nat.mod_lt position h
  unfold padding
  split
  · rw [show alignment = 1 by omega]
    exact Nat.one_dvd _
  · by_cases hzero : position % alignment = 0
    · rw [hzero, Nat.sub_zero, Nat.mod_self, Nat.add_zero]
      exact Nat.dvd_of_mod_eq_zero hzero
    · rw [Nat.mod_eq_of_lt (by omega)]
      refine ⟨position / alignment + 1, ?_⟩
      rw [Nat.mul_add_one]
      omega

/-- Copies a range of the stream that is being read. What could be read before a failure is
written all the same. -/
def copyFrom (b : Buffer) (start size : Nat) : Reader (Buffer × Option Error) := do
  let (found, failure) ← Reader.preserved start size
  return (b.put found, failure)

end Buffer

end Packfile
