import Packfile.Error
import Packfile.Word

/-!
# Arithmetic that has to stay within a word

Directories compute with the numbers they read. Where such a computation is meant to stay within 64
bits by the checks in front of it, it is written with the functions here, which fail with
`Error.overflow` when it does not. The same goes for an index that is meant to lie within a list.
That no decoder ever fails this way is then a statement about its answers. `narrow` is for numbers
that must fit into a 32-bit field, where too large a number is an error of the archive that is being
written.
-/

namespace Packfile.Checked

/-- The result of a checked operation. -/
def orOverflow : Option Nat → Except Error Nat
  | some n => .ok n
  | none => .error .overflow

/-- A sum. -/
def sum (a b : Nat) : Except Error Nat := orOverflow (Word.add? a b)

/-- A product. -/
def product (a b : Nat) : Except Error Nat := orOverflow (Word.mul? a b)

/-- A difference. -/
def difference (a b : Nat) : Except Error Nat := orOverflow (Word.sub? a b)

/-- A number that is kept in a field with room for numbers up to `limit`. -/
def within (limit n : Nat) : Except Error Nat := if n ≤ limit then .ok n else .error .overflow

/-- The element of a list at an index. -/
def item (xs : List α) (index : Nat) : Except Error α :=
  match xs[index]? with
  | some x => .ok x
  | none => .error .overflow

/-- The elements of a list from one index on and before another. -/
def slice (xs : List α) (start stop : Nat) : Except Error (List α) :=
  if start ≤ stop ∧ stop ≤ xs.length then .ok ((xs.drop start).take (stop - start))
  else .error .overflow

/-- A number that has to fit into a 32-bit field. -/
def narrow (what : String) (value : Nat) : Except Error Nat :=
  if Word.max32 < value then .error (.exceeds what value Word.max32) else .ok value

theorem sum_of_le {a b : Nat} (h : a + b ≤ Word.max) : sum a b = .ok (a + b) := by
  simp [sum, Word.add?, h, orOverflow]

example : sum Word.max 1 = .error .overflow := rfl

theorem product_of_le {a b : Nat} (h : a * b ≤ Word.max) : product a b = .ok (a * b) := by
  simp [product, Word.mul?, h, orOverflow]

theorem product_eq_ok {a b n : Nat} : product a b = .ok n ↔ n = a * b ∧ a * b ≤ Word.max := by
  unfold product Word.mul?; split <;> simp [orOverflow] <;> omega

theorem difference_of_le {a b : Nat} (h : b ≤ a) : difference a b = .ok (a - b) := by
  simp [difference, Word.sub?, h, orOverflow]

theorem within_of_le {limit n : Nat} (h : n ≤ limit) : within limit n = .ok n := by
  rw [within, if_pos h]

theorem within_eq_ok {limit n m : Nat} : within limit n = .ok m ↔ m = n ∧ n ≤ limit := by
  unfold within; split <;> simp <;> omega

theorem item_of_getElem? {xs : List α} {index : Nat} {x : α} (h : xs[index]? = some x) :
    item xs index = .ok x := by
  rw [item, h]

theorem slice_of_le {xs : List α} {start stop : Nat} (hstart : start ≤ stop)
    (hstop : stop ≤ xs.length) : slice xs start stop = .ok ((xs.drop start).take (stop - start)) := by
  rw [slice, if_pos ⟨hstart, hstop⟩]

theorem narrow_eq_error {what : String} {value : Nat} {e : Error} :
    narrow what value = .error e ↔
      Word.max32 < value ∧ e = .exceeds what value Word.max32 := by
  unfold narrow; split <;> simp [eq_comm] <;> omega

theorem narrow_eq_ok {what : String} {value n : Nat} :
    narrow what value = .ok n ↔ value = n ∧ value ≤ Word.max32 := by
  unfold narrow; split <;> simp <;> omega

end Packfile.Checked
