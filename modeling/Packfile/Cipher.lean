import Packfile.Cipher.Rc4
import Packfile.Cipher.Xor

/-!
# Ciphers that work piece by piece

Both ciphers combine a text with a stream of key bytes and remember no more than their place in it,
so both are a state that a piece of text moves on. What a piece becomes depends on the state alone,
and cutting a text into other pieces changes nothing.

## Main definitions

* `Cipher.apply` — one piece, and the state after it
* `Cipher.applyEach` — several pieces in turn

## Main results

* `Cipher.flatten_applyEach` — pieces or the whole, the result is the same
-/

namespace Packfile

/-- A cipher, in its state between two pieces of text. -/
inductive Cipher where
  /-- Exclusive or with a repeated key. -/
  | xor (state : Xor)
  /-- RC4. -/
  | rc4 (state : Rc4)

namespace Cipher

/-- One piece of text, and the state after it. -/
def apply : Cipher → Bytes → Bytes × Cipher
  | xor state, text => (state.apply text, xor (state.advance text.length))
  | rc4 state, text => ((state.apply text).1, rc4 (state.apply text).2)

/-- Several pieces of text in turn, and the state after them. -/
def applyEach (c : Cipher) : List Bytes → List Bytes × Cipher
  | [] => ([], c)
  | piece :: pieces =>
    let (first, c) := c.apply piece
    let (others, c) := c.applyEach pieces
    (first :: others, c)

theorem apply_nil (c : Cipher) : c.apply [] = ([], c) := by
  cases c <;> rfl

@[simp] theorem length_apply (c : Cipher) (text : Bytes) :
    (c.apply text).1.length = text.length := by
  cases c with
  | xor state => exact Xor.length_apply state text
  | rc4 state => exact Rc4.length_apply state text

/-- A text may be done in two pieces. -/
theorem apply_append (c : Cipher) (front back : Bytes) :
    c.apply (front ++ back) =
      ((c.apply front).1 ++ ((c.apply front).2.apply back).1,
        ((c.apply front).2.apply back).2) := by
  cases c with
  | xor state =>
    simp only [apply, Xor.apply_append, Xor.advance, List.length_append, Nat.add_assoc]
  | rc4 state => simp only [apply, Rc4.apply_append]

/-- The beginning of a text becomes the beginning of what the text becomes. -/
theorem apply_prefix (c : Cipher) {short long : Bytes} (h : short <+: long) :
    (c.apply short).1 <+: (c.apply long).1 := by
  obtain ⟨tail, rfl⟩ := h
  rw [apply_append]
  exact List.prefix_append _ _

/-- Where a text is cut, what it becomes is cut. -/
theorem take_drop_apply (c : Cipher) (text : Bytes) (n : Nat) :
    (c.apply text).1.take n = (c.apply (text.take n)).1 ∧
      (c.apply text).1.drop n = ((c.apply (text.take n)).2.apply (text.drop n)).1 := by
  have hpieces := congrArg Prod.fst (c.apply_append (text.take n) (text.drop n))
  rw [List.take_append_drop] at hpieces
  refine List.append_inj ?_ ?_
  · rw [List.take_append_drop]
    exact hpieces
  · rw [List.length_take, length_apply, length_apply, List.length_take]

/-- **Consecutive pieces become what their concatenation becomes**, and leave the same state. -/
theorem flatten_applyEach (c : Cipher) (pieces : List Bytes) :
    (c.applyEach pieces).1.flatten = (c.apply pieces.flatten).1 ∧
      (c.applyEach pieces).2 = (c.apply pieces.flatten).2 := by
  induction pieces generalizing c with
  | nil =>
    rw [List.flatten_nil, apply_nil]
    exact ⟨rfl, rfl⟩
  | cons piece pieces ih =>
    obtain ⟨htext, hstate⟩ := ih (c.apply piece).2
    rw [List.flatten_cons, apply_append, applyEach]
    dsimp only
    rw [List.flatten_cons, htext]
    exact ⟨rfl, hstate⟩

end Cipher

end Packfile
