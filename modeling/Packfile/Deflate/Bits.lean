import Packfile.Bytes

/-!
# Bit strings inside byte strings

Deflate packs bits into bytes from the least significant end. A `Bits` value is what is left of
such a string: the unread bits of the byte in hand, and the bytes after it.
-/

namespace Packfile.Deflate

/-- The unread bits of a byte, and the bytes after it. -/
structure Bits where
  /-- What is left of the byte in hand, least significant bit first. -/
  pending : List Bool
  /-- The bytes not touched yet. -/
  rest : Bytes
  deriving DecidableEq, Repr

namespace Bits

/-- All bits of a byte string. -/
def ofBytes (bytes : Bytes) : Bits := ⟨[], bytes⟩

/-- The bits of a byte, least significant first. -/
def ofByte (b : UInt8) : List Bool :=
  [b.toNat.testBit 0, b.toNat.testBit 1, b.toNat.testBit 2, b.toNat.testBit 3,
    b.toNat.testBit 4, b.toNat.testBit 5, b.toNat.testBit 6, b.toNat.testBit 7]

/-- How many bits are left. -/
def length (bits : Bits) : Nat := bits.pending.length + 8 * bits.rest.length

/-- Takes one bit. -/
def next : Bits → Option (Bool × Bits)
  | ⟨bit :: pending, rest⟩ => some (bit, ⟨pending, rest⟩)
  | ⟨[], b :: rest⟩ =>
    match ofByte b with
    | bit :: pending => some (bit, ⟨pending, rest⟩)
    | [] => none
  | ⟨[], []⟩ => none

/-- Takes `count` bits as a number, least significant bit first. -/
def take : Nat → Bits → Option (Nat × Bits)
  | 0, bits => some (0, bits)
  | count + 1, bits => do
    let (bit, bits) ← bits.next
    let (high, bits) ← take count bits
    return (bit.toNat + 2 * high, bits)

/-- Drops what is left of the byte in hand. -/
def align (bits : Bits) : Bytes := bits.rest

end Bits

end Packfile.Deflate
