import Packfile.Proofs.Listings

/-!
# What the guards against overlong ranges decide

Three guards stand between the numbers of a directory and the bytes that there are. A declared count
must leave room for its records, every entry of a listing must end in its part, and a range of a
stream must end in the stream. Each of them compares a product or a sum of two words with a word,
and the exact result need not be a word itself.

## Two ways to meet an overflow

A sum that is no word at all has no place in any stream, and the guard of a range takes it for that:
it decides what the exact sum decides, whatever the three numbers are. The other two guards put the
largest word in the place of a result that is larger. That is as good as the exact result as long as
the limit is a smaller word. The largest word as the limit lets everything pass, the results that
are too large included.

## Main definitions

* `Entry.IsOfWords` — the numbers of an entry are words

## Main results

* `Guards.decide_iff` — what the three guards decide, and when two of them agree
-/

namespace Packfile

open Run Reading

/-! ### Saturated results -/

namespace Word

variable {a b limit : ℕ}

/-- A saturated sum is within a limit if the exact one is, or if nothing is beyond the limit. -/
theorem satAdd_le_iff (h : limit ≤ max) : satAdd a b ≤ limit ↔ a + b ≤ limit ∨ limit = max := by
  rcases Nat.lt_or_eq_of_le h with hlt | rfl
  · simp only [le_iff_satAdd_le hlt, Nat.ne_of_lt hlt, or_false]
  · simp only [satAdd, Nat.min_le_right, or_true]

/-- A saturated product is within a limit if the exact one is, or if nothing is beyond the limit. -/
theorem satMul_le_iff (h : limit ≤ max) : satMul a b ≤ limit ↔ a * b ≤ limit ∨ limit = max := by
  rcases Nat.lt_or_eq_of_le h with hlt | rfl
  · simp only [le_iff_satMul_le hlt, Nat.ne_of_lt hlt, or_false]
  · simp only [satMul, Nat.min_le_right, or_true]

end Word

/-! ### Entries -/

/-- The numbers that say where the data of an entry are and how long its part is are words. -/
structure Entry.IsOfWords (e : Entry) : Prop where
  /-- Where the stored bytes start. -/
  offset_le : e.offset ≤ Word.max
  /-- How many bytes are stored. -/
  stored_le : e.stored ≤ Word.max
  /-- How many bytes the part has. -/
  length_le : e.source.length ≤ Word.max

section

variable {e : Entry} {entries : List Entry} {s : Stream} {available : ℕ}

/-- An entry that ends in its part starts there too. -/
theorem Entry.IsOfWords.inBounds_iff (h : e.IsOfWords) :
    e.offset ≤ e.source.length ∧ e.stop ≤ e.source.length ↔
      e.offset + e.stored ≤ e.source.length ∨ e.source.length = Word.max := by
  rw [Entry.stop, Word.satAdd_le_iff h.length_le]
  constructor
  · exact And.right
  · rintro (hstop | hlength)
    · exact ⟨Nat.le_trans (Nat.le_add_right _ _) hstop, .inl hstop⟩
    · exact ⟨by rw [hlength]; exact h.offset_le, .inr hlength⟩

/-- A listing is let through if all its entries end in their parts. Those of a part as long as the
largest word are not looked at. -/
theorem Listing.validate_iff (h : ∀ e ∈ entries, e.IsOfWords) :
    validate entries = .ok () ↔
      ∀ e ∈ entries, e.offset + e.stored ≤ e.source.length ∨ e.source.length = Word.max := by
  rw [validate_eq_ok]
  exact forall₂_congr fun e he => (h e he).inBounds_iff

/-- A range of a stream is let through if it ends in the stream. -/
theorem Reading.checkRange_iff (hs : s.length ≤ Word.max) (what : String) (start size : ℕ) :
    Reader.checkRange what start size s = .ok () s ↔ start + size ≤ s.length := by
  rw [checkRange_eq_ok]
  exact ⟨And.left, fun h => ⟨h, Nat.le_trans h hs, rfl⟩⟩

/-- **What the guards decide.** The guard of a range decides what exact arithmetic decides. The
guards of a count and of a listing do so too, unless what is available is the largest word, and then
they let everything pass. So the guard of a listing agrees with that of a range, unless the stream
is as long as the largest word. -/
theorem Guards.decide_iff (x : Session) (count recordSize : ℕ) (havailable : available ≤ Word.max)
    (hentries : ∀ e ∈ entries, e.IsOfWords) (hs : s.length ≤ Word.max) :
    (∀ c y, Decode.checkCount count recordSize available x = .ok c y ↔
      c = ⟨count⟩ ∧ y = x ∧ count ≤ x.context.options.maxEntries ∧
        (count * recordSize ≤ available ∨ available = Word.max)) ∧
    (Listing.validate entries = .ok () ↔
      ∀ e ∈ entries, e.offset + e.stored ≤ e.source.length ∨ e.source.length = Word.max) ∧
    (∀ what start size,
      Reader.checkRange what start size s = .ok () s ↔ start + size ≤ s.length) ∧
    ((∀ e ∈ entries, e.source.length = s.length) → ∀ what, Listing.validate entries = .ok () ↔
      (∀ e ∈ entries, Reader.checkRange what e.offset e.stored s = .ok () s) ∨
        s.length = Word.max) := by
  refine ⟨fun c y => ?_, Listing.validate_iff hentries, checkRange_iff hs, fun hlength what => ?_⟩
  · rw [checkCount_eq_ok, Word.satMul_le_iff havailable]
    tauto
  · rw [Listing.validate_iff hentries]
    simp only [checkRange_iff hs]
    have hsame : (∀ e ∈ entries, e.offset + e.stored ≤ e.source.length ∨
        e.source.length = Word.max) ↔
        ∀ e ∈ entries, e.offset + e.stored ≤ s.length ∨ s.length = Word.max :=
      forall₂_congr fun e he => by rw [hlength e he]
    rw [hsame]
    by_cases hmax : s.length = Word.max
    · simp only [hmax, or_true, implies_true]
    · simp only [hmax, or_false]

/-- A directory of two records that need one byte more than any word can tell, in as much room as
the largest word but one, and an entry that ends as far behind a part of four bytes. -/
theorem Guards.decide_iff_brink :
    (∀ c y, Decode.checkCount 2 (2 ^ 63) (Word.max - 1) { stream := .ofBytes [1, 2, 3, 4] } ≠
        .ok c y) ∧
      Listing.validate [{ source := .memory 4, offset := 2, stored := Word.max - 1 }] ≠ .ok () ∧
      Reader.checkRange "entry" 2 (Word.max - 1) (.ofBytes [1, 2, 3, 4]) ≠
        .ok () (.ofBytes [1, 2, 3, 4]) := by
  have hwords : ∀ e ∈ [({ source := .memory 4, offset := 2, stored := Word.max - 1 } : Entry)],
      e.IsOfWords := by
    intro e he
    rw [List.mem_singleton.mp he]
    exact ⟨by decide, by decide, by decide⟩
  have hroom : Word.max - 1 ≤ Word.max := by decide
  have hlength : (Stream.ofBytes [1, 2, 3, 4]).length ≤ Word.max := by decide
  obtain ⟨hcount, hlisting, hrange, -⟩ :=
    Guards.decide_iff { stream := .ofBytes [1, 2, 3, 4] } 2 (2 ^ 63) hroom hwords hlength
  refine ⟨fun c y h => ?_, fun h => ?_, fun h => ?_⟩
  · exact absurd ((hcount c y).mp h).2.2.2 (by decide)
  · exact absurd (hlisting.mp h _ List.mem_cons_self) (by decide)
  · exact absurd ((hrange _ _ _).mp h) (by decide)

/-- **The largest word as the limit lets everything pass**: two records that take twice half of what
comes behind it, and an entry that ends just behind it. The guard of a range does not. -/
theorem Guards.passes_beyond_max :
    (Decode.checkCount 2 (2 ^ 63) Word.max { stream := .ofBytes [] } =
        .ok ⟨2⟩ { stream := .ofBytes [] } ∧ ¬ 2 * 2 ^ 63 ≤ Word.max) ∧
      (Listing.validate [{ source := .memory Word.max, offset := Word.max, stored := 1 }] = .ok () ∧
        ¬ Word.max + 1 ≤ Word.max) ∧
      Reader.checkRange "entry" Word.max 1 (.ofBytes (List.replicate Word.max 0)) ≠
        .ok () (.ofBytes (List.replicate Word.max 0)) := by
  refine ⟨⟨rfl, by decide⟩, ⟨rfl, by decide⟩, fun h => ?_⟩
  obtain ⟨-, hmax, -⟩ := checkRange_eq_ok.mp h
  exact absurd hmax (by decide)

end

end Packfile
