import Mathlib.Algebra.GroupWithZero.Nat
import Packfile.Bytes

/-!
# Integers in byte strings

A field of `width` bytes holds the integers below `256 ^ width`, each in exactly one way. What is
written there is read back, and what is read is what was written, in both orders.

## Main results

* `ByteOrder.decode_lt` — the integers of a field are bounded by its width
* `ByteOrder.decode_encode`, `ByteOrder.encode_decode` — writing and reading are inverse
-/

namespace Packfile.ByteOrder

theorem number_lt (bytes : Bytes) : number bytes < 256 ^ bytes.length := by
  induction bytes with
  | nil => simp [number]
  | cons b rest ih =>
    have hb : b.toNat < 256 := b.toNat_lt
    rw [number, List.length_cons, Nat.pow_succ]
    omega

theorem decode_lt (order : ByteOrder) (bytes : Bytes) :
    order.decode bytes < 256 ^ bytes.length := by
  cases order with
  | little => exact number_lt bytes
  | big => simpa [decode] using number_lt bytes.reverse

theorem number_digits {width n : ℕ} (h : n < 256 ^ width) : number (digits width n) = n := by
  induction width generalizing n with
  | zero => simp at h; simp [digits, number, h]
  | succ width ih =>
    rw [digits, number, ih (by rw [Nat.pow_succ] at h; omega), UInt8.toNat_ofNat']
    omega

theorem digits_number (bytes : Bytes) : digits bytes.length (number bytes) = bytes := by
  induction bytes with
  | nil => rfl
  | cons b rest ih =>
    have hb : b.toNat < 256 := b.toNat_lt
    rw [List.length_cons, digits, number, Nat.add_mul_div_left _ _ (by decide),
      Nat.div_eq_of_lt hb, Nat.zero_add, ih]
    congr 1
    apply UInt8.toNat_inj.mp
    rw [UInt8.toNat_ofNat']
    omega

/-- An integer that fits its field is read back. -/
theorem decode_encode (order : ByteOrder) {width n : ℕ} (h : n < 256 ^ width) :
    order.decode (order.encode width n) = n := by
  cases order <;> simp [encode, decode, number_digits h]

/-- A field is the encoding of the integer it holds. -/
theorem encode_decode (order : ByteOrder) (bytes : Bytes) :
    order.encode bytes.length (order.decode bytes) = bytes := by
  cases order with
  | little => exact digits_number bytes
  | big =>
    have := digits_number bytes.reverse
    rw [List.length_reverse] at this
    simp [encode, decode, this]

end Packfile.ByteOrder
