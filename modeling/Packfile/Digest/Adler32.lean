import Packfile.Bytes

/-!
# Adler-32

The checksum at the end of a zlib stream: two running sums modulo 65521, the second one summing the
values of the first.
-/

namespace Packfile.Adler32

/-- The largest prime below 65536. -/
def modulus : Nat := 65521

/-- Both sums after one more byte. -/
def step (sums : Nat × Nat) (b : UInt8) : Nat × Nat :=
  let low := (sums.1 + b.toNat) % modulus
  (low, (sums.2 + low) % modulus)

/-- The checksum of a byte string. -/
def checksum (bytes : Bytes) : Nat :=
  let sums := bytes.foldl step (1, 0)
  65536 * sums.2 + sums.1

end Packfile.Adler32
