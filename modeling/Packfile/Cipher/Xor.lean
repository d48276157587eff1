import Packfile.Bytes

/-!
# The repeating exclusive-or cipher

Each byte is combined with a byte of the key, which is repeated without end. The state is the key
and the number of bytes done so far, so a text may be enciphered in pieces of any sizes.

## Main results

* `Xor.apply_append`: pieces or the whole, the result is the same
* `Xor.apply_apply`: the cipher is its own inverse
-/

namespace Packfile

/-- A key and the number of bytes that it has been applied to. -/
structure Xor where
  /-- The key; an empty one changes nothing. -/
  key : Bytes
  /-- How many bytes are done. -/
  count : Nat := 0
  deriving DecidableEq, Repr

namespace Xor

/-- The key byte in use `n` bytes further on. -/
def keyByte (x : Xor) (n : Nat) : UInt8 := x.key.getD ((x.count + n) % x.key.length) 0

/-- The state `n` bytes later. -/
def advance (x : Xor) (n : Nat) : Xor := { x with count := x.count + n }

/-- Combines a byte string with the key, from the state's place in it on. -/
def apply (x : Xor) (bytes : Bytes) : Bytes := bytes.mapIdx fun n b => b ^^^ x.keyByte n

@[simp] theorem length_apply (x : Xor) (bytes : Bytes) :
    (x.apply bytes).length = bytes.length := by
  simp [apply]

theorem keyByte_advance (x : Xor) (m n : Nat) : (x.advance m).keyByte n = x.keyByte (n + m) := by
  simp only [keyByte, advance]
  congr 2
  omega

/-- A byte string may be enciphered in pieces. -/
theorem apply_append (x : Xor) (front back : Bytes) :
    x.apply (front ++ back) = x.apply front ++ (x.advance front.length).apply back := by
  simp only [apply, List.mapIdx_append, keyByte_advance]

/-- The cipher is its own inverse. -/
theorem apply_apply (x : Xor) (bytes : Bytes) : x.apply (x.apply bytes) = bytes := by
  apply List.ext_getElem
  · rw [length_apply, length_apply]
  · intro n _ _
    simp only [apply, List.getElem_mapIdx]
    rw [UInt8.xor_assoc, UInt8.xor_self, UInt8.xor_zero]

end Xor

end Packfile
