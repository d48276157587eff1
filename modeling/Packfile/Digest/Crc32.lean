import Packfile.Bytes

/-!
# CRC-32/BZIP2

The 32-bit cyclic redundancy check with polynomial 04C11DB7, bits taken most significant first,
started from all ones and complemented at the end.
-/

namespace Packfile.Crc32

/-- The generator polynomial without its leading term. -/
def polynomial : UInt32 := 0x04C11DB7

/-- Shifts `count` bits out of the register. -/
def shift : Nat → UInt32 → UInt32
  | 0, register => register
  | count + 1, register =>
    let shifted := register <<< 1
    shift count (if register &&& 0x80000000 = 0 then shifted else shifted ^^^ polynomial)

/-- The register after one more byte. -/
def step (register : UInt32) (b : UInt8) : UInt32 :=
  shift 8 (register ^^^ (b.toUInt32 <<< 24))

/-- The checksum of a byte string. -/
def checksum (bytes : Bytes) : UInt32 := ~~~ (bytes.foldl step 0xFFFFFFFF)

end Packfile.Crc32
