import Mathlib.Data.List.TakeWhile
import Mathlib.Data.Set.Card
import Packfile.Proofs.Paths

/-!
# Reading a table of names

A table of names is a text, and what it says can be read off its lines: `NameTable.Assigns` says
what a single line gives a name to. The table that is kept in memory forgets the lines, and keeps
one name for each normal form of a hash.

## Why the two sides agree

A hash is written down once in the table and once by whoever asks for it, and the two need not spell
it alike. Both are brought into the same normal form before they are compared. So a look-up finds
what the last line says that spells the hash in any way. `NameTable.Spells` says what the ways are,
and `normalize` is one of the things that a hash spells.

Only one mark is taken off, and blanks only at the ends, before the mark. Two marks one behind the
other, or a blank behind the mark, are part of the hash. Hexadecimal digits have neither, so that a
number can be asked for in each of its spellings.

## Main definitions

* `NameTable.Assigns` — what a line of a table says
* `NameTable.Spells` — the ways to write the digits of a hash

## Main results

* `NameTable.lookup?_ofLines` — the last line that says something about a hash counts
* `NameTable.normalize_of_spells` — all spellings have one normal form
* `NameTable.lookup?_ofText` — what is found in a table, and how many names it has
-/

namespace Packfile

/-! ### The ends of a text -/

namespace Text

variable {text front back : List Char}

/-- Blank characters behind a text are cut off. -/
theorem trim_append (hback : ∀ c ∈ back, isBlank c) : trim (text ++ back) = trim text := by
  rw [trim, trim, List.dropWhile_append]
  split
  · next hblank =>
    have hnone : back.dropWhile isBlank = [] := List.dropWhile_eq_nil_iff.mpr hback
    rw [hnone, List.isEmpty_iff.mp hblank]
  · rw [List.reverse_append,
      List.dropWhile_append_of_pos fun c hc => hback c (List.mem_reverse.mp hc)]

/-- Blank characters in front of a text are cut off. -/
theorem trim_prepend (hfront : ∀ c ∈ front, isBlank c) : trim (front ++ text) = trim text := by
  rw [trim, trim, List.dropWhile_append_of_pos hfront]

/-- A text without blank characters stays as it is. -/
theorem trim_of_forall_not (h : ∀ c ∈ text, isBlank c = false) : trim text = text := by
  have hsame : ∀ chars : List Char, (∀ c ∈ chars, isBlank c = false) →
      chars.dropWhile isBlank = chars := by
    intro chars hchars
    cases chars with
    | nil => rfl
    | cons a chars =>
      exact List.dropWhile_cons_of_neg (by rw [hchars a List.mem_cons_self]; decide)
  rw [trim, hsame text h, hsame text.reverse fun c hc => h c (List.mem_reverse.mp hc),
    List.reverse_reverse]

/-- What is cut off is blank. -/
theorem exists_trim (text : List Char) : ∃ front back, text = front ++ trim text ++ back ∧
    (∀ c ∈ front, isBlank c) ∧ ∀ c ∈ back, isBlank c := by
  refine ⟨text.takeWhile isBlank, ((text.dropWhile isBlank).reverse.takeWhile isBlank).reverse,
    ?_, fun c => List.mem_takeWhile_imp, fun c hc =>
      List.mem_takeWhile_imp (List.mem_reverse.mp hc)⟩
  rw [trim, List.append_assoc, ← List.reverse_append, List.takeWhile_append_dropWhile,
    List.reverse_reverse, List.takeWhile_append_dropWhile]

/-- No letter is blank, in either case. -/
theorem isBlank_toLower (c : Char) : isBlank c.toLower = isBlank c := by
  by_cases hupper : 65 ≤ c.toNat ∧ c.toNat ≤ 90
  · have hall : ∀ n ≤ 90, 65 ≤ n → isBlank (Char.ofNat n).toLower = isBlank (Char.ofNat n) := by
      decide
    rw [← Char.ofNat_toNat c]
    exact hall _ hupper.2 hupper.1
  · have hsame : c.toLower = c := by
      refine dif_neg fun h => hupper ?_
      rwa [ge_iff_le, UInt32.le_iff_toNat_le, UInt32.le_iff_toNat_le] at h
    rw [hsame]

end Text

/-! ### Numbers of a given width -/

namespace Hex

/-- A number that needs no more digits than there is room for is written in all of the room. -/
theorem padded_eq_fixed {width n : ℕ} (hwidth : 0 < width) (h : n < 16 ^ width) :
    padded width n = String.ofList (fixed width n) := by
  rw [padded]
  congr 1
  induction width generalizing n with
  | zero => exact absurd hwidth (Nat.lt_irrefl 0)
  | succ width ih =>
    rw [fixed, digit_eq_digitChar (Nat.mod_lt n (by decide))]
    by_cases hsmall : n < 16
    · rw [Nat.toDigits_of_lt_base hsmall, Nat.div_eq_of_lt hsmall, Nat.mod_eq_of_lt hsmall,
        fixed_zero]
      rfl
    · have hpos : 0 < width := by
        rcases Nat.eq_zero_or_pos width with rfl | hpos
        · exact absurd h hsmall
        · exact hpos
      have hdiv : n / 16 < 16 ^ width := by
        rw [Nat.pow_succ] at h
        exact Nat.div_lt_of_lt_mul (Nat.mul_comm _ _ ▸ h)
      rw [Nat.toDigits_of_base_le (by decide) (Nat.le_of_not_lt hsmall), ← ih hpos hdiv,
        List.length_append, List.length_singleton, Nat.add_sub_add_right, List.append_assoc]

end Hex

namespace NameTable

variable {line : List Char} {lines : List (List Char)} {hash name other : String}
  {digits : List Char}

/-! ### Lines -/

/-- What a line says. Without the blanks around it, it does not start with `#`, and what stands
before its first `=` is the hash in some spelling. What stands behind, without the blanks around it,
is the name. -/
def Assigns (line : List Char) (hash name : String) : Prop :=
  (Text.trim line).head? ≠ some '#' ∧ ∃ written rest, Text.trim line = written ++ '=' :: rest ∧
    '=' ∉ written ∧ normalize (String.ofList written) = normalize hash ∧
    name = String.ofList (Text.trim rest)

theorem ofLine?_eq_some : ofLine? line = some (hash, name) ↔
    (Text.trim line).head? ≠ some '#' ∧ ∃ written rest, Text.trim line = written ++ '=' :: rest ∧
      '=' ∉ written ∧ hash = String.ofList written ∧ name = String.ofList (Text.trim rest) := by
  rw [ofLine?]
  split
  · next hempty => simp [hempty]
  · next hcomment => simp [hcomment]
  · next hcomment =>
    have hhead : (Text.trim line).head? ≠ some '#' := by
      intro h
      obtain ⟨rest, hrest⟩ := List.head?_eq_some_iff.mp h
      exact hcomment rest hrest
    simp only [Option.map_eq_some_iff, Prod.exists, Text.splitFirst?_eq_some, Prod.mk.injEq]
    constructor
    · rintro ⟨written, rest, ⟨htrim, hwritten⟩, rfl, rfl⟩
      exact ⟨hhead, written, rest, htrim, hwritten, rfl, rfl⟩
    · rintro ⟨-, written, rest, htrim, hwritten, rfl, rfl⟩
      exact ⟨written, rest, ⟨htrim, hwritten⟩, rfl, rfl⟩

/-- Only what is left of a line without the blanks around it counts. -/
theorem ofLine?_congr {a b : List Char} (h : Text.trim a = Text.trim b) :
    ofLine? a = ofLine? b := by
  rw [ofLine?, ofLine?, h]

/-- The name that a line gives to a hash. -/
def nameOn? (hash : String) (line : List Char) : Option String :=
  (ofLine? line).bind fun pair => if normalize pair.1 = normalize hash then some pair.2 else none

theorem nameOn?_eq_some : nameOn? hash line = some name ↔ Assigns line hash name := by
  simp only [nameOn?, Option.bind_eq_some_iff, Prod.exists, ofLine?_eq_some,
    Option.ite_none_right_eq_some, Option.some.injEq, Assigns]
  constructor
  · rintro ⟨_, _, ⟨hhead, written, rest, htrim, hwritten, rfl, rfl⟩, hsame, rfl⟩
    exact ⟨hhead, written, rest, htrim, hwritten, hsame, rfl⟩
  · rintro ⟨hhead, written, rest, htrim, hwritten, hsame, rfl⟩
    exact ⟨_, _, ⟨hhead, written, rest, htrim, hwritten, rfl, rfl⟩, hsame, rfl⟩

theorem nameOn?_eq_none : nameOn? hash line = none ↔ ∀ name, ¬ Assigns line hash name := by
  simp only [Option.eq_none_iff_forall_ne_some, ne_eq, nameOn?_eq_some]

/-! ### Tables -/

/-- The table that the lines of a text make. -/
def ofLines (lines : List (List Char)) : NameTable :=
  (lines.filterMap ofLine?).foldl (fun table pair => table.insert pair.1 pair.2) empty

theorem ofLines_concat_of_none (h : ofLine? line = none) (lines : List (List Char)) :
    ofLines (lines ++ [line]) = ofLines lines := by
  rw [ofLines, List.filterMap_append, List.filterMap_cons_none h, List.filterMap_nil,
    List.append_nil, ofLines]

theorem ofLines_concat_of_some (h : ofLine? line = some (hash, name)) (lines : List (List Char)) :
    ofLines (lines ++ [line]) = (ofLines lines).insert hash name := by
  rw [ofLines, List.filterMap_append, List.filterMap_cons_some h, List.filterMap_nil,
    List.foldl_concat, ofLines]

/-- **The last line that says something about a hash counts.** -/
theorem lookup?_ofLines (lines : List (List Char)) (hash : String) :
    (ofLines lines).lookup? hash = lines.reverse.findSome? (nameOn? hash) := by
  induction lines using List.reverseRecOn with
  | nil => rfl
  | append_singleton lines line ih =>
    rw [List.reverse_append, List.reverse_singleton, List.singleton_append, List.findSome?_cons]
    cases hline : ofLine? line with
    | none => rw [ofLines_concat_of_none hline, nameOn?, hline, ih, Option.bind_none]
    | some pair =>
      obtain ⟨written, found⟩ := pair
      rw [ofLines_concat_of_some hline, lookup?_insert, nameOn?, hline, Option.bind_some, ih]
      by_cases hsame : normalize written = normalize hash
      · rw [if_pos hsame, if_pos hsame.symm]
      · rw [if_neg hsame, if_neg (Ne.symm hsame)]

/-- The normal forms in a table are those of the hashes that its lines say something about. -/
theorem mem_keys_ofLines {key : String} : key ∈ (ofLines lines).pairs.map Prod.fst ↔
    ∃ line ∈ lines, ∃ hash name, Assigns line hash name ∧ key = normalize hash := by
  induction lines using List.reverseRecOn with
  | nil => simp [ofLines, empty]
  | append_singleton lines line ih =>
    simp only [List.mem_append, List.mem_singleton, or_and_right, exists_or, exists_eq_left]
    cases hline : ofLine? line with
    | none =>
      have hnone : ∀ hash name, ¬ Assigns line hash name := by
        intro hash
        rw [← nameOn?_eq_none, nameOn?, hline, Option.bind_none]
      rw [ofLines_concat_of_none hline, ih]
      simp only [hnone, false_and, exists_false, or_false]
    | some pair =>
      obtain ⟨written, found⟩ := pair
      have hassigns : ∀ hash name, Assigns line hash name ↔
          normalize written = normalize hash ∧ found = name := by
        intro hash name
        rw [← nameOn?_eq_some, nameOn?, hline, Option.bind_some, Option.ite_none_right_eq_some,
          Option.some.injEq]
      rw [ofLines_concat_of_some hline, insert, mem_keys_put, ih, or_comm]
      refine or_congr Iff.rfl ?_
      simp only [hassigns]
      constructor
      · rintro rfl
        exact ⟨written, found, ⟨rfl, rfl⟩, rfl⟩
      · rintro ⟨hash, name, ⟨hsame, -⟩, rfl⟩
        exact hsame.symm

theorem nodup_keys_ofLines (lines : List (List Char)) :
    ((ofLines lines).pairs.map Prod.fst).Nodup := by
  induction lines using List.reverseRecOn with
  | nil => exact List.nodup_nil
  | append_singleton lines line ih =>
    cases hline : ofLine? line with
    | none => rwa [ofLines_concat_of_none hline]
    | some pair =>
      rw [ofLines_concat_of_some hline]
      exact nodup_put ih _ _

/-- What ends a line, and an end without a line, say nothing. -/
theorem ofText_eq (text : String) : ofText text = ofLines (Text.lines text.toList) := by
  obtain ⟨others, last, hpieces, -⟩ := Text.exists_pieces_eq_concat '\n' text.toList
  have hended : ∀ line : List Char,
      ofLine? ((Text.dropBack? ['\r'] line).getD line) = ofLine? line := by
    intro line
    cases hdrop : Text.dropBack? ['\r'] line with
    | none => rfl
    | some rest =>
      rw [Text.dropBack?_eq_some.mp hdrop]
      exact ofLine?_congr (Text.trim_append (List.forall_mem_singleton.mpr rfl)).symm
  have hlines : Text.lines text.toList = (others.map fun line =>
      (Text.dropBack? ['\r'] line).getD line) ++ if last.isEmpty then [] else [last] := by
    rw [Text.lines, hpieces, List.reverse_append, List.reverse_singleton, List.singleton_append]
    simp only [List.map_reverse, List.reverse_reverse]
  have hlast : (if last.isEmpty then [] else [last]).filterMap ofLine?
      = [last].filterMap ofLine? := by
    split
    · next hempty => rw [List.isEmpty_iff.mp hempty]; rfl
    · rfl
  rw [ofText, ofLines, hlines, hpieces, List.filterMap_append, List.filterMap_append, hlast,
    List.filterMap_map]
  simp only [Function.comp_def, hended]

/-! ### Spellings of a hash -/

/-- The marks that a hash may have in front of its digits. -/
def marks : List (List Char) := [[], ['0', 'x'], ['0', 'X']]

/-- The hash is written with these digits: its letters in either case, behind one mark or none, and
between blanks or none. -/
def Spells (hash : String) (digits : List Char) : Prop :=
  ∃ front mark written back, hash.toList = front ++ (mark ++ written) ++ back ∧ mark ∈ marks ∧
    written.map Char.toLower = digits ∧ (∀ c ∈ front, Text.isBlank c) ∧ ∀ c ∈ back, Text.isBlank c

theorem exists_mark (chars : List Char) : ∃ mark ∈ marks, chars = mark ++ dropMark chars := by
  rw [dropMark.eq_def]
  split
  · exact ⟨['0', 'x'], by decide, rfl⟩
  · exact ⟨['0', 'X'], by decide, rfl⟩
  · exact ⟨[], by decide, rfl⟩

/-- A hash spells its own normal form. -/
theorem spells_normalize (hash : String) : Spells hash (normalize hash).toList := by
  obtain ⟨front, back, htrim, hfront, hback⟩ := Text.exists_trim hash.toList
  obtain ⟨mark, hmark, hdrop⟩ := exists_mark (Text.trim hash.toList)
  refine ⟨front, mark, dropMark (Text.trim hash.toList), back, ?_, hmark, ?_, hfront, hback⟩
  · rwa [← hdrop]
  · rw [normalize, String.toList_ofList]

theorem dropMark_append {mark written : List Char} (hmark : mark ∈ marks)
    (hwritten : ∀ c ∈ written, c ≠ 'x' ∧ c ≠ 'X') : dropMark (mark ++ written) = written := by
  simp only [marks, List.mem_cons, List.not_mem_nil, or_false] at hmark
  rcases hmark with rfl | rfl | rfl
  · -- what is written has no mark of its own
    rw [List.nil_append, dropMark.eq_def]
    split
    · exact absurd rfl (hwritten 'x' (by simp)).1
    · exact absurd rfl (hwritten 'X' (by simp)).2
    · rfl
  · rfl
  · rfl

/-- **All spellings have one normal form**, if blanks and marks cannot be taken for digits. -/
theorem normalize_of_spells (h : Spells hash digits)
    (hplain : ∀ c ∈ digits, Text.isBlank c = false ∧ c ≠ 'x') :
    normalize hash = String.ofList digits := by
  obtain ⟨front, mark, written, back, htext, hmark, rfl, hfront, hback⟩ := h
  have hwritten : ∀ c ∈ written, Text.isBlank c = false ∧ c ≠ 'x' ∧ c ≠ 'X' := by
    intro c hc
    obtain ⟨hblank, hx⟩ := hplain _ (List.mem_map_of_mem hc)
    rw [Text.isBlank_toLower] at hblank
    refine ⟨hblank, ?_, ?_⟩
    · rintro rfl
      exact hx rfl
    · rintro rfl
      exact hx rfl
  have hinner : ∀ c ∈ mark ++ written, Text.isBlank c = false := by
    intro c hc
    rcases List.mem_append.mp hc with hin | hin
    · have hall : marks.all fun mark => mark.all fun c => !Text.isBlank c := by decide
      simp only [List.all_eq_true, Bool.not_eq_true'] at hall
      exact hall mark hmark c hin
    · exact (hwritten c hin).1
  rw [normalize, htext, Text.trim_append hback, Text.trim_prepend hfront,
    Text.trim_of_forall_not hinner, dropMark_append hmark fun c hc => (hwritten c hc).2]

/-- Hexadecimal digits are lower case, no blanks and not part of a mark. -/
theorem of_mem_fixed {width n : ℕ} {c : Char} (h : c ∈ Hex.fixed width n) :
    c.toLower = c ∧ Text.isBlank c = false ∧ c ≠ 'x' := by
  obtain ⟨k, hk, rfl⟩ := Hex.of_mem_fixed h
  have hall : ∀ k < 16, (Hex.digit k).toLower = Hex.digit k ∧
      Text.isBlank (Hex.digit k) = false ∧ Hex.digit k ≠ 'x' := by
    decide
  exact hall k hk

theorem spells_fixed (width n : ℕ) :
    Spells (String.ofList (Hex.fixed width n)) (Hex.fixed width n) := by
  have hlower : (Hex.fixed width n).map Char.toLower = Hex.fixed width n :=
    (List.map_congr_left fun c hc => (of_mem_fixed hc).1).trans (List.map_id _)
  refine ⟨[], [], Hex.fixed width n, [], ?_, by decide, hlower, by simp, by simp⟩
  simp

/-- A number is found under each spelling of its digits. -/
theorem lookup?_padded {width n : ℕ} (t : NameTable) (hwidth : 0 < width) (hn : n < 16 ^ width)
    (h : Spells hash (Hex.fixed width n)) : t.lookup? (Hex.padded width n) = t.lookup? hash := by
  have hplain : ∀ c ∈ Hex.fixed width n, Text.isBlank c = false ∧ c ≠ 'x' :=
    fun c hc => (of_mem_fixed hc).2
  rw [lookup?, lookup?, Hex.padded_eq_fixed hwidth hn,
    normalize_of_spells (spells_fixed width n) hplain, normalize_of_spells h hplain]

/-! ### What is found in a table -/

/-- **What is found in a table.** A hash has the name that the last line of the text gives to it,
and no name if there is no such line. There are as many names as there are normal forms of hashes in
the text. Numbers of 32 and of 64 bits are found under each spelling of their 8 and 16 digits, and
every hash spells its normal form. One more name changes the look-ups of its own normal form, in any
table and for every spelling, and of no other. -/
theorem lookup?_ofText (text : String) :
    (∀ hash name, (ofText text).lookup? hash = some name ↔
      ∃ before line after, Text.lines text.toList = before ++ line :: after ∧
        Assigns line hash name ∧ ∀ later ∈ after, ∀ other, ¬ Assigns later hash other) ∧
    (∀ hash, (ofText text).lookup? hash = none ↔
      ∀ line ∈ Text.lines text.toList, ∀ name, ¬ Assigns line hash name) ∧
    (ofText text).size = Set.ncard {key | ∃ line ∈ Text.lines text.toList, ∃ hash name,
      Assigns line hash name ∧ key = normalize hash} ∧
    (∀ hash, Spells hash (normalize hash).toList) ∧
    (∀ (t : NameTable) (n : UInt32) hash, Spells hash (Hex.fixed 8 n.toNat) →
      t.lookup32? n.toNat = t.lookup? hash) ∧
    (∀ (t : NameTable) (n : UInt64) hash, Spells hash (Hex.fixed 16 n.toNat) →
      t.lookup64? n.toNat = t.lookup? hash) ∧
    ∀ (t : NameTable) hash name other, (t.insert hash name).lookup? other =
      if normalize other = normalize hash then some name else t.lookup? other := by
  refine ⟨fun hash name => ?_, fun hash => ?_, ?_, spells_normalize,
    fun t n hash h => lookup?_padded t (by decide) n.toNat_lt h,
    fun t n hash h => lookup?_padded t (by decide) n.toNat_lt h,
    fun t hash name other => lookup?_insert t hash other name⟩
  · rw [ofText_eq, lookup?_ofLines, List.findSome?_eq_some_iff]
    simp only [nameOn?_eq_some, nameOn?_eq_none]
    constructor
    · rintro ⟨after, line, before, hlines, hassigns, hlater⟩
      refine ⟨before.reverse, line, after.reverse, ?_, hassigns,
        fun later hin => hlater later (List.mem_reverse.mp hin)⟩
      rw [← List.reverse_reverse (Text.lines text.toList), hlines]
      simp
    · rintro ⟨before, line, after, hlines, hassigns, hlater⟩
      refine ⟨after.reverse, line, before.reverse, ?_, hassigns,
        fun later hin => hlater later (List.mem_reverse.mp hin)⟩
      rw [hlines]
      simp
  · rw [ofText_eq, lookup?_ofLines, List.findSome?_eq_none_iff]
    simp only [List.mem_reverse, nameOn?_eq_none]
  · have hnodup : ((ofText text).pairs.map Prod.fst).Nodup := by
      rw [ofText_eq]
      exact nodup_keys_ofLines _
    have hkeys : {key | ∃ line ∈ Text.lines text.toList, ∃ hash name,
        Assigns line hash name ∧ key = normalize hash} =
          (((ofText text).pairs.map Prod.fst).toFinset : Set String) := by
      ext key
      rw [List.coe_toFinset, Set.mem_ofPred_eq, Set.mem_ofPred_eq, ofText_eq, mem_keys_ofLines]
    rw [hkeys, Set.ncard_coe_finset, List.toFinset_card_of_nodup hnodup, size, List.length_map]

/-- Three spellings of one number and a comment. The last line that is no comment counts, and it is
found for the number. -/
theorem lookup?_ofText_thrice : Spells " 0X0000002a" (Hex.fixed 8 (42 : UInt32).toNat) ∧
    (ofText "0x0000002a = a\n2a=b\n0000002A=c \r\n# 0000002a=d\n").lookup32? (42 : UInt32).toNat
      = some "c" := by
  have hspells : Spells " 0X0000002a" (Hex.fixed 8 (42 : UInt32).toNat) :=
    ⟨[' '], ['0', 'X'], "0000002a".toList, [], by decide, by decide, by decide,
      List.forall_mem_singleton.mpr rfl, by simp⟩
  obtain ⟨hfound, -, -, -, hnumber, -⟩ :=
    lookup?_ofText "0x0000002a = a\n2a=b\n0000002A=c \r\n# 0000002a=d\n"
  refine ⟨hspells, ?_⟩
  rw [hnumber _ 42 _ hspells, hfound]
  refine ⟨["0x0000002a = a".toList, "2a=b".toList], "0000002A=c ".toList,
    ["# 0000002a=d".toList], by decide +kernel, ⟨by decide, "0000002A".toList, ['c'], by decide,
      by decide, by decide +kernel, by decide⟩, ?_⟩
  intro later hlater other hassigns
  rw [List.mem_singleton.mp hlater] at hassigns
  exact hassigns.1 (by decide)

end NameTable

end Packfile
