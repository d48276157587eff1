import Packfile.Bytes

/-!
# Hexadecimal text

Numbers and byte strings written with the digits `0` to `9` and `a` to `f`. A number takes as many
digits as it needs, or is filled up on the left with zeros; a byte always takes two.
-/

namespace Packfile.Hex

/-- The hexadecimal digit of a number below sixteen. -/
def digit (n : Nat) : Char :=
  if n < 10 then Char.ofNat (48 + n) else Char.ofNat (87 + n)

/-- The value of a hexadecimal digit in either case. -/
def value? (c : Char) : Option Nat :=
  if '0' ≤ c ∧ c ≤ '9' then some (c.toNat - 48)
  else if 'a' ≤ c ∧ c ≤ 'f' then some (c.toNat - 87)
  else if 'A' ≤ c ∧ c ≤ 'F' then some (c.toNat - 55)
  else none

/-- The last `width` hexadecimal digits of a number. -/
def fixed : Nat → Nat → List Char
  | 0, _ => []
  | width + 1, n => fixed width (n / 16) ++ [digit (n % 16)]

/-- A number in as few digits as it needs. -/
def ofNat (n : Nat) : String := String.ofList (Nat.toDigits 16 n)

/-- A number in at least `width` digits, with leading zeros. -/
def padded (width n : Nat) : String :=
  let digits := Nat.toDigits 16 n
  String.ofList (List.replicate (width - digits.length) '0' ++ digits)

/-- A byte string, two digits a byte. -/
def ofBytes (bytes : Bytes) : String :=
  String.ofList (bytes.flatMap fun b => fixed 2 b.toNat)

/-- The byte string that a text of paired digits stands for. -/
def toBytes? : List Char → Option Bytes
  | [] => some []
  | a :: b :: rest => do
    let high ← value? a
    let low ← value? b
    return UInt8.ofNat (16 * high + low) :: (← toBytes? rest)
  | [_] => none

theorem digit_eq_digitChar {n : Nat} (h : n < 16) : digit n = n.digitChar := by
  have hall : ∀ n < 16, digit n = n.digitChar := by decide
  exact hall n h

theorem fixed_zero (width : Nat) : fixed width 0 = List.replicate width '0' := by
  induction width with
  | zero => rfl
  | succ width ih =>
    rw [fixed, Nat.zero_div, ih, List.replicate_succ']
    rfl

/-- The digits of a number, as they are written. -/
theorem of_mem_fixed {width n : Nat} {c : Char} (h : c ∈ fixed width n) :
    ∃ k < 16, c = digit k := by
  induction width generalizing n with
  | zero => cases h
  | succ width ih =>
    rw [fixed, List.mem_append, List.mem_singleton] at h
    rcases h with h | rfl
    · exact ih h
    · exact ⟨n % 16, Nat.mod_lt n (by decide), rfl⟩

end Packfile.Hex
