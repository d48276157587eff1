/-!
# Byte strings and the integers written in them

A byte string is a list of octets: every statement of this library about archive contents is one
about `take`, `drop` and `++`. The unsigned integers of an archive take a fixed number of bytes in
one of two orders; `ByteOrder.encode` writes them and `ByteOrder.decode` reads them.

## Main definitions

* `ByteOrder.encode`, `ByteOrder.decode` — integers as bytes
-/

namespace Packfile

/-- A string of octets. -/
abbrev Bytes := List UInt8

/-- The order in which the bytes of an integer are stored. -/
inductive ByteOrder where
  /-- Least significant byte first. -/
  | little
  /-- Most significant byte first. -/
  | big
  deriving DecidableEq, Repr, Inhabited

namespace ByteOrder

/-- The `width` low bytes of `n`, least significant first. -/
def digits : Nat → Nat → Bytes
  | 0, _ => []
  | width + 1, n => UInt8.ofNat n :: digits width (n / 256)

/-- The number whose base 256 digits, least significant first, are given. -/
def number : Bytes → Nat
  | [] => 0
  | b :: rest => b.toNat + 256 * number rest

/-- The `width` low bytes of `n` in this order. -/
def encode (order : ByteOrder) (width n : Nat) : Bytes :=
  match order with
  | little => digits width n
  | big => (digits width n).reverse

/-- The number stored in this order. -/
def decode (order : ByteOrder) (bytes : Bytes) : Nat :=
  match order with
  | little => number bytes
  | big => number bytes.reverse

@[simp] theorem length_digits (width n : Nat) : (digits width n).length = width := by
  induction width generalizing n with
  | zero => rfl
  | succ width ih => simp [digits, ih]

@[simp] theorem length_encode (order : ByteOrder) (width n : Nat) :
    (order.encode width n).length = width := by
  cases order <;> simp [encode]

/-- A byte is the same in both orders. -/
theorem encode_one (order : ByteOrder) (n : Nat) : order.encode 1 n = little.encode 1 n := by
  cases order <;> rfl

end ByteOrder

end Packfile
