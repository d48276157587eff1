import Packfile.Bytes

/-!
# UTF-8, read leniently

Names inside archives are meant to be UTF-8 and need not be. `decode` never refuses: each maximal
run of bytes that begins a character and cannot be completed becomes one U+FFFD, as does each byte
that begins none, and reading goes on with the byte after.

## Main definitions

* `Utf8.encode` — the bytes of a text
* `Utf8.decode` — the text of a byte string, total
-/

namespace Packfile.Utf8

/-- The bytes of a text. -/
def encode (text : String) : Bytes := text.toList.flatMap String.utf8EncodeChar

/-- The character that stands for bytes which are no character. -/
def replacement : Char := Char.ofNat 0xFFFD

/-- What a leading byte announces. -/
structure Lead where
  /-- How many continuation bytes follow. -/
  tail : Nat
  /-- The least value of the next byte. -/
  low : UInt8
  /-- The greatest value of the next byte. -/
  high : UInt8
  /-- The bits of the character that the leading byte holds. -/
  bits : Nat

/-- The announcement of a leading byte; `none` when no character starts with it. The narrowed
ranges after E0, ED, F0 and F4 exclude overlong forms, surrogates and values past U+10FFFF. -/
def lead? (b : UInt8) : Option Lead :=
  let n := b.toNat
  if n < 0x80 then some ⟨0, 0x80, 0xBF, n⟩
  else if n < 0xC2 then none
  else if n < 0xE0 then some ⟨1, 0x80, 0xBF, n - 0xC0⟩
  else if n = 0xE0 then some ⟨2, 0xA0, 0xBF, 0⟩
  else if n = 0xED then some ⟨2, 0x80, 0x9F, 0xD⟩
  else if n < 0xF0 then some ⟨2, 0x80, 0xBF, n - 0xE0⟩
  else if n = 0xF0 then some ⟨3, 0x90, 0xBF, 0⟩
  else if n < 0xF4 then some ⟨3, 0x80, 0xBF, n - 0xF0⟩
  else if n = 0xF4 then some ⟨3, 0x80, 0x8F, 4⟩
  else none

/-- Collects `count` continuation bytes, the first of them between `low` and `high`. Stops in
front of the first byte that does not continue the character. -/
def collect (low high : UInt8) : Nat → Nat → Bytes → Option Nat × Bytes
  | 0, bits, rest => (some bits, rest)
  | _ + 1, _, [] => (none, [])
  | count + 1, bits, b :: rest =>
    if low ≤ b ∧ b ≤ high then collect 0x80 0xBF count (64 * bits + b.toNat % 64) rest
    else (none, b :: rest)

/-- Reads one character off a non-empty byte string. -/
def next (b : UInt8) (rest : Bytes) : Char × Bytes :=
  match lead? b with
  | none => (replacement, rest)
  | some lead =>
    match collect lead.low lead.high lead.tail lead.bits rest with
    | (some bits, rest) => (Char.ofNat bits, rest)
    | (none, rest) => (replacement, rest)

theorem length_collect_le (low high : UInt8) (count bits : Nat) (rest : Bytes) :
    (collect low high count bits rest).2.length ≤ rest.length := by
  fun_induction collect low high count bits rest with
  | case1 => exact Nat.le_refl _
  | case2 => exact Nat.le_refl _
  | case3 low high count bits b rest _ ih => exact Nat.le_succ_of_le ih
  | case4 => exact Nat.le_refl _

theorem length_next_le (b : UInt8) (rest : Bytes) : (next b rest).2.length ≤ rest.length := by
  unfold next
  split
  · exact Nat.le_refl _
  · next lead _ =>
    have h := length_collect_le lead.low lead.high lead.tail lead.bits rest
    split <;> simp_all

/-- The characters of a byte string. -/
def chars : Bytes → List Char
  | [] => []
  | b :: rest => (next b rest).1 :: chars (next b rest).2
termination_by bytes => bytes.length
decreasing_by
  have := length_next_le b rest
  simp only [List.length_cons]
  omega

/-- The text of a byte string. -/
def decode (bytes : Bytes) : String := String.ofList (chars bytes)

/-- Whether a byte string is the UTF-8 form of some text, said through the lenient reading: it is
when no byte was lost to it. -/
def isValid (bytes : Bytes) : Bool := encode (decode bytes) == bytes

end Packfile.Utf8
