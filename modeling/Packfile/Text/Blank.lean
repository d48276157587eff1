/-!
# Blank characters and trimming

The characters with the Unicode property `White_Space`, and the functions that cut them, or a given
piece of text, off the ends of a text.
-/

namespace Packfile.Text

/-- The characters with the Unicode property `White_Space`. -/
def isBlank (c : Char) : Bool :=
  let n := c.toNat
  (9 ≤ n && n ≤ 13) || n == 32 || n == 0x85 || n == 0xA0 || n == 0x1680 ||
    (0x2000 ≤ n && n ≤ 0x200A) || n == 0x2028 || n == 0x2029 || n == 0x202F || n == 0x205F ||
    n == 0x3000

/-- Cuts blank characters off both ends. -/
def trim (chars : List Char) : List Char :=
  ((chars.dropWhile isBlank).reverse.dropWhile isBlank).reverse

/-- What follows `front`, when the text starts with it. -/
def dropFront? : (front text : List Char) → Option (List Char)
  | [], text => some text
  | _ :: _, [] => none
  | a :: front, b :: text => if a = b then dropFront? front text else none

/-- What comes before `back`, when the text ends with it. -/
def dropBack? (back text : List Char) : Option (List Char) :=
  (dropFront? back.reverse text.reverse).map List.reverse

/-- The parts of a text before and after the first occurrence of a character. -/
def splitFirst? (c : Char) : List Char → Option (List Char × List Char)
  | [] => none
  | a :: rest =>
    if a = c then some ([], rest)
    else (splitFirst? c rest).map fun parts => (a :: parts.1, parts.2)

/-- The parts of a text before and after the last occurrence of a character. -/
def splitLast? (c : Char) (text : List Char) : Option (List Char × List Char) :=
  (splitFirst? c text.reverse).map fun parts => (parts.2.reverse, parts.1.reverse)

/-- The pieces of a text between occurrences of a character; one more than there are
occurrences. -/
def pieces (c : Char) : List Char → List (List Char)
  | [] => [[]]
  | a :: rest =>
    match pieces c rest with
    | [] => [[a]]
    | first :: others => if a = c then [] :: first :: others else (a :: first) :: others

/-- The lines of a text, without the characters that end them. -/
def lines (text : List Char) : List (List Char) :=
  match (pieces '\n' text).reverse with
  | [] => []
  | last :: ended =>
    (ended.map fun line => (dropBack? ['\r'] line).getD line).reverse ++
      (if last.isEmpty then [] else [last])

/-- Lower case for the letters `A` to `Z`; every other character stays. -/
def lowerAscii (text : String) : String := text.map Char.toLower

/-- Equality up to the case of the letters `A` to `Z`. -/
def sameIgnoringCase (a b : String) : Bool := lowerAscii a == lowerAscii b

/-- Fills a text up with blanks on the left. -/
def padLeft (width : Nat) (text : String) : String :=
  String.ofList (List.replicate (width - text.length) ' ') ++ text

section

variable {c : Char} {text front back rest : List Char}

/-! ### The ends of a text -/

theorem dropFront?_eq_some : dropFront? front text = some rest ↔ text = front ++ rest := by
  induction front generalizing text with
  | nil => simp [dropFront?]
  | cons a front ih =>
    cases text with
    | nil => simp [dropFront?]
    | cons b text =>
      rw [dropFront?]
      split
      · next h => simp [ih, h]
      · next h => simp [Ne.symm h]

theorem dropBack?_eq_some : dropBack? back text = some rest ↔ text = rest ++ back := by
  simp only [dropBack?, Option.map_eq_some_iff, dropFront?_eq_some]
  constructor
  · rintro ⟨front, h, rfl⟩
    rw [← List.reverse_reverse text, h, List.reverse_append, List.reverse_reverse]
  · rintro rfl
    exact ⟨rest.reverse, List.reverse_append, List.reverse_reverse rest⟩

/-! ### The first and the last occurrence of a character -/

theorem splitFirst?_append (h : c ∉ front) (back : List Char) :
    splitFirst? c (front ++ c :: back) = some (front, back) := by
  induction front with
  | nil => rw [List.nil_append, splitFirst?, if_pos rfl]
  | cons a front ih =>
    rw [List.mem_cons, not_or] at h
    rw [List.cons_append, splitFirst?, if_neg (Ne.symm h.1), ih h.2]
    rfl

theorem splitFirst?_of_not_mem (h : c ∉ text) : splitFirst? c text = none := by
  induction text with
  | nil => rfl
  | cons a text ih =>
    rw [List.mem_cons, not_or] at h
    rw [splitFirst?, if_neg (Ne.symm h.1), ih h.2]
    rfl

/-- A text is cut at the first occurrence, and only there. -/
theorem splitFirst?_eq_some :
    splitFirst? c text = some (front, back) ↔ text = front ++ c :: back ∧ c ∉ front := by
  constructor
  · intro h
    by_cases hmem : c ∈ text
    · obtain ⟨left, right, rfl, hleft⟩ := List.eq_append_cons_of_mem hmem
      rw [splitFirst?_append hleft] at h
      cases h
      exact ⟨rfl, hleft⟩
    · rw [splitFirst?_of_not_mem hmem] at h
      cases h
  · rintro ⟨rfl, h⟩
    exact splitFirst?_append h back

theorem splitLast?_append (front : List Char) (h : c ∉ back) :
    splitLast? c (front ++ c :: back) = some (front, back) := by
  have hreverse : (front ++ c :: back).reverse = back.reverse ++ c :: front.reverse := by simp
  rw [splitLast?, hreverse, splitFirst?_append (mt List.mem_reverse.mp h), Option.map_some,
    List.reverse_reverse, List.reverse_reverse]

theorem splitLast?_of_not_mem (h : c ∉ text) : splitLast? c text = none := by
  rw [splitLast?, splitFirst?_of_not_mem (mt List.mem_reverse.mp h), Option.map_none]

end

end Packfile.Text
