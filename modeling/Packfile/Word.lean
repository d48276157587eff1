/-!
# Sixty-four bit quantities as natural numbers

Offsets, lengths and counts are natural numbers here, and the archives that hold them store words
of at most 64 bits. This module says what happens where the two meet. Four kinds of arithmetic
are kept apart by name:

* `satAdd`, `satMul` stop at the largest word;
* `wrapAdd32`, `wrapMul32` go on from zero behind the largest 32-bit word;
* `add?`, `mul?`, `sub?` answer `none` when the exact result is not a word;
* plain `+` and `*` are exact, and have no limit.

## Main results

* `le_iff_satAdd_le`, `le_iff_satMul_le`: below the largest word a saturating guard decides what
  the exact one decides.
-/

namespace Packfile.Word

/-- The largest 64-bit word. -/
def max : Nat := 18446744073709551615

/-- The largest 32-bit word. -/
def max32 : Nat := 4294967295

/-- The largest 16-bit word. -/
def max16 : Nat := 65535

/-- Addition that stops at the largest word. -/
def satAdd (a b : Nat) : Nat := min (a + b) max

/-- Multiplication that stops at the largest word. -/
def satMul (a b : Nat) : Nat := min (a * b) max

/-- Addition of 32-bit words that goes on from zero behind the largest one. -/
def wrapAdd32 (a b : Nat) : Nat := (a + b) % (max32 + 1)

/-- Multiplication of 32-bit words that goes on from zero behind the largest one. -/
def wrapMul32 (a b : Nat) : Nat := (a * b) % (max32 + 1)

/-- The sum, when it is a word. -/
def add? (a b : Nat) : Option Nat := if a + b ≤ max then some (a + b) else none

/-- The product, when it is a word. -/
def mul? (a b : Nat) : Option Nat := if a * b ≤ max then some (a * b) else none

/-- The difference, when it is not negative. -/
def sub? (a b : Nat) : Option Nat := if b ≤ a then some (a - b) else none

/-- A signed displacement, when the result is a word. -/
def shift? (a : Nat) (d : Int) : Option Nat :=
  let target := (a : Int) + d
  if 0 ≤ target ∧ target ≤ (max : Int) then some target.toNat else none

theorem max_eq : max = 18446744073709551615 := rfl

theorem satAdd_of_le {a b : Nat} (h : a + b ≤ max) : satAdd a b = a + b := Nat.min_eq_left h

theorem satMul_of_le {a b : Nat} (h : a * b ≤ max) : satMul a b = a * b := Nat.min_eq_left h

theorem wrapMul32_le (a b : Nat) : wrapMul32 a b ≤ max32 :=
  Nat.le_of_lt_succ (Nat.mod_lt _ (Nat.succ_pos _))

theorem wrapMul32_of_le {a b : Nat} (h : a * b ≤ max32) : wrapMul32 a b = a * b :=
  Nat.mod_eq_of_lt (Nat.lt_succ_of_le h)

/-- Under a limit that is itself below the largest word, a saturating sum is as good as the
exact one. -/
theorem le_iff_satAdd_le {a b limit : Nat} (h : limit < max) :
    satAdd a b ≤ limit ↔ a + b ≤ limit := by
  unfold satAdd; omega

/-- Under a limit that is itself below the largest word, a saturating product is as good as the
exact one. -/
theorem le_iff_satMul_le {a b limit : Nat} (h : limit < max) :
    satMul a b ≤ limit ↔ a * b ≤ limit := by
  unfold satMul; omega

theorem add?_eq_some {a b c : Nat} : add? a b = some c ↔ a + b = c ∧ c ≤ max := by
  unfold add?; split <;> simp <;> omega

theorem sub?_eq_some {a b c : Nat} : sub? a b = some c ↔ b ≤ a ∧ a - b = c := by
  by_cases h : b ≤ a <;> simp [sub?, h]

end Packfile.Word
