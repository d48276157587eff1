import Packfile.Inspect
import Packfile.Proofs.GeneratedNames

/-!
# Codecs are known by their outlines

Two codecs are compared by the lines that show them. That this finds every difference, and no more,
is not plain from the texts: a key is a list of numbers of one to three digits, a codec is a list of
transforms with keys in them, and commas and brackets stand inside and between both.

## Why no two lines are the same

A text that is followed by something can be told from the front if it is known where it ends. An
item of a list is always followed by a comma or a bracket, and that is where a number ends. So items
that are told apart in front of a comma or a bracket make lists that are told apart in front of
anything. The argument is used twice: for the numbers of a key, and for the transforms of a codec.

## Main definitions

* `Outline.EndsItem` — what may stand behind an item of a list
* `Outline.IsItem` — values whose outlines are told apart in front of it

## Main results

* `Outline.IsItem.list_inj` — lists of such values are told apart in front of anything
* `Codec.line_inj` — codecs with the same line are the same
-/

namespace Packfile

namespace Outline

/-- A text that can stand behind an item of a list: it starts with a comma, or with the bracket that
ends the list. -/
def EndsItem (rest : List Char) : Prop := ∃ tail, rest = ',' :: tail ∨ rest = ']' :: tail

/-- The outlines of values are told apart in front of the end of an item, and they are not taken for
the end of a list. -/
structure IsItem {α : Type} (shown : α → Outline) : Prop where
  /-- They are not taken for the end of a list. -/
  ne_close : ∀ a r r', (line (shown a)).toList ++ r ≠ ']' :: r'
  /-- They are told apart. -/
  inj : ∀ a b r r', EndsItem r → EndsItem r' →
    (line (shown a)).toList ++ r = (line (shown b)).toList ++ r' → a = b ∧ r = r'

variable {α : Type} {shown : α → Outline} {xs ys : List α} {r r' : List Char}

/-! ### Lists -/

/-- The rest of a list behind an item: what follows the comma, or the end. -/
def restOfItems (items : List Outline) (r : List Char) : List Char :=
  if items.isEmpty then ']' :: r else ',' :: ' ' :: ((lineItems items).toList ++ ']' :: r)

theorem toList_lineItems_cons (item : Outline) (items : List Outline) (r : List Char) :
    (lineItems (item :: items)).toList ++ ']' :: r
      = (line item).toList ++ restOfItems items r := by
  cases items with
  | nil => rfl
  | cons next items =>
    have hcomma : (", " : String).toList = [',', ' '] := rfl
    simp [lineItems, restOfItems, String.toList_append, hcomma]

theorem endsItem_restOfItems (items : List Outline) (r : List Char) :
    EndsItem (restOfItems items r) := by
  cases items with
  | nil => exact ⟨r, .inr rfl⟩
  | cons item items => exact ⟨_, .inl rfl⟩

theorem IsItem.items_inj (h : IsItem shown)
    (heq : (lineItems (xs.map shown)).toList ++ ']' :: r
      = (lineItems (ys.map shown)).toList ++ ']' :: r') : xs = ys ∧ r = r' := by
  induction xs generalizing ys with
  | nil =>
    cases ys with
    | nil => exact ⟨rfl, (List.cons.inj heq).2⟩
    | cons y ys =>
      rw [List.map_cons, toList_lineItems_cons] at heq
      exact absurd heq.symm (h.ne_close y _ r)
  | cons x xs ih =>
    rw [List.map_cons, toList_lineItems_cons] at heq
    cases ys with
    | nil => exact absurd heq (h.ne_close x _ r')
    | cons y ys =>
      rw [List.map_cons, toList_lineItems_cons] at heq
      obtain ⟨rfl, hrest⟩ := h.inj x y _ _ (endsItem_restOfItems _ _) (endsItem_restOfItems _ _) heq
      -- behind one item, a list that goes on is not one that ends
      cases xs with
      | nil =>
        cases ys with
        | nil => exact ⟨rfl, (List.cons.inj hrest).2⟩
        | cons y ys => exact absurd (List.cons.inj hrest).1 (by decide)
      | cons x xs =>
        cases ys with
        | nil => exact absurd (List.cons.inj hrest).1 (by decide)
        | cons y ys =>
          obtain ⟨hlist, hr⟩ := ih (List.cons.inj (List.cons.inj hrest).2).2
          exact ⟨congrArg _ hlist, hr⟩

theorem toList_line_list (items : List Outline) (r : List Char) :
    (line (.list items)).toList ++ r = '[' :: ((lineItems items).toList ++ ']' :: r) := by
  have hopen : ("[" : String).toList = ['['] := rfl
  have hclose : ("]" : String).toList = [']'] := rfl
  simp [line, String.toList_append, hopen, hclose]

/-- **Lists of items are told apart** in front of anything. -/
theorem IsItem.list_inj (h : IsItem shown)
    (heq : (line (.list (xs.map shown))).toList ++ r
      = (line (.list (ys.map shown))).toList ++ r') : xs = ys ∧ r = r' := by
  rw [toList_line_list, toList_line_list] at heq
  exact h.items_inj (List.cons.inj heq).2

/-! ### Numbers and byte strings -/

theorem toList_line_ofNat (n : ℕ) : (line (ofNat n)).toList = Nat.toDigits 10 n := by
  rw [ofNat, line, Nat.toString_eq_repr, Nat.toList_repr]

theorem EndsItem.takeWhile_isDigit (h : EndsItem r) : r.takeWhile Char.isDigit = [] := by
  obtain ⟨tail, rfl | rfl⟩ := h <;> rfl

/-- Numbers end where their digits end. -/
theorem isItem_ofNat : IsItem ofNat where
  ne_close n r r' heq := by
    rw [toList_line_ofNat] at heq
    obtain ⟨c, digits, hdigits⟩ := List.exists_cons_of_ne_nil (Nat.toDigits_ne_nil (n := n) (b := 10))
    have hc : c.isDigit = true :=
      Nat.isDigit_of_mem_toDigits (by decide) (by decide) (hdigits ▸ List.mem_cons_self)
    rw [hdigits] at heq
    rw [(List.cons.inj heq).1] at hc
    exact absurd hc (by decide)
  inj n m r r' hr hr' heq := by
    rw [toList_line_ofNat, toList_line_ofNat] at heq
    have hall (k : ℕ) : ∀ c ∈ Nat.toDigits 10 k, c.isDigit = true :=
      fun c hc => Nat.isDigit_of_mem_toDigits (by decide) (by decide) hc
    have hdigits := congrArg (List.takeWhile Char.isDigit) heq
    rw [List.takeWhile_append_of_pos (hall n), List.takeWhile_append_of_pos (hall m),
      hr.takeWhile_isDigit, hr'.takeWhile_isDigit, List.append_nil, List.append_nil] at hdigits
    rw [hdigits] at heq
    refine ⟨Text.toString_injective ?_, List.append_cancel_left heq⟩
    rw [← String.toList_inj, Nat.toString_eq_repr, Nat.toString_eq_repr, Nat.toList_repr,
      Nat.toList_repr, hdigits]

theorem isItem_toNat : IsItem fun b : UInt8 => ofNat b.toNat where
  ne_close b := isItem_ofNat.ne_close b.toNat
  inj b c r r' hr hr' heq := by
    obtain ⟨hnat, hrest⟩ := isItem_ofNat.inj _ _ _ _ hr hr' heq
    exact ⟨UInt8.toNat_inj.mp hnat, hrest⟩

end Outline

/-! ### Transforms and codecs -/

namespace Transform

open Outline

variable {r r' : List Char} {name : String} {key key' : Bytes}

/-- The outline of a cipher is the key between fixed texts. -/
theorem toList_line_key (name : String) (key : Bytes) (r : List Char) :
    (line (.record name [("key", .ofBytes key)])).toList ++ r
      = name.toList ++ (" \x7b key: ".toList ++
          ((line (.ofBytes key)).toList ++ (" \x7d".toList ++ r))) := by
  simp [line, lineParts, openBrace, closeBrace, String.toList_append]

theorem key_inj (heq : (line (.record name [("key", .ofBytes key)])).toList ++ r
    = (line (.record name [("key", .ofBytes key')])).toList ++ r') : key = key' ∧ r = r' := by
  rw [toList_line_key, toList_line_key] at heq
  have hkey := List.append_cancel_left (List.append_cancel_left heq)
  obtain ⟨rfl, hrest⟩ := isItem_toNat.list_inj hkey
  exact ⟨rfl, List.append_cancel_left hrest⟩

/-- The letter that the outline of a transform starts with. -/
def initial : Transform → Char
  | xor _ => 'X'
  | rc4 _ => 'R'
  | zlib => 'Z'
  | deflate => 'D'

theorem exists_line_eq (t : Transform) : ∃ rest, (line t.outline).toList = t.initial :: rest := by
  cases t with
  | xor key => exact ⟨_, by simp [outline, line, initial, String.toList_append]; rfl⟩
  | rc4 key => exact ⟨_, by simp [outline, line, initial, String.toList_append]; rfl⟩
  | zlib => exact ⟨_, rfl⟩
  | deflate => exact ⟨_, rfl⟩

/-- Transforms differ in their first letters, or they are ciphers and differ in their keys. -/
theorem isItem_outline : IsItem outline where
  ne_close t r r' heq := by
    obtain ⟨rest, ht⟩ := t.exists_line_eq
    rw [ht] at heq
    have hletter : t.initial = ']' := (List.cons.inj heq).1
    cases t <;> simp [initial] at hletter
  inj t u r r' _ _ heq := by
    have hletter : t.initial = u.initial := by
      obtain ⟨rest, ht⟩ := t.exists_line_eq
      obtain ⟨rest', hu⟩ := u.exists_line_eq
      rw [ht, hu] at heq
      exact (List.cons.inj heq).1
    cases t with
    | xor key =>
      cases u with
      | xor key' =>
        obtain ⟨rfl, hr⟩ := key_inj heq
        exact ⟨rfl, hr⟩
      | rc4 | zlib | deflate => simp [initial] at hletter
    | rc4 key =>
      cases u with
      | rc4 key' =>
        obtain ⟨rfl, hr⟩ := key_inj heq
        exact ⟨rfl, hr⟩
      | xor | zlib | deflate => simp [initial] at hletter
    | zlib =>
      cases u with
      | zlib => exact ⟨rfl, List.append_cancel_left heq⟩
      | xor | rc4 | deflate => simp [initial] at hletter
    | deflate =>
      cases u with
      | deflate => exact ⟨rfl, List.append_cancel_left heq⟩
      | xor | rc4 | zlib => simp [initial] at hletter

end Transform

/-- **A codec is known by its line.** -/
theorem Codec.line_inj {a b : Codec} : (Codec.outline a).line = (Codec.outline b).line ↔ a = b := by
  refine ⟨fun h => ?_, fun h => h ▸ rfl⟩
  have hlists := congrArg (fun text => text.toList ++ []) h
  exact (Transform.isItem_outline.list_inj hlists).1

end Packfile
