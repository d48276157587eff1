import Mathlib.Data.List.Nodup
import Mathlib.Data.List.Perm.Subperm
import Packfile.Proofs.Listings

/-!
# Names made up for entries

An entry without a name is called by its index, and by its index and a number where that name is
taken. Names are compared without regard to the case of letters, and a name that has been made up is
taken for all entries behind it.

## Why a free name is found

The names that are tried for one index are all different, also without regard to case: they end in
the same extension and start with the same index, so they differ in the number between. Hence among
one more of them than there are taken names one is free, and a search of so many rounds finds the
first that is.

## Who differs from whom

Two entries that had names before may share one, and keep it. But no name that has been made up is
that of another entry, whether that one stands in front of it or behind it and whether it had a name
or not. So the statement is one about pairs of an entry before and after, in the order of the list.

## Main definitions

* `Listing.IsFirstFree` — the first of the names for an index that is not taken
* `Listing.Apart` — entries whose names differ if one of them was made up

## Main results

* `Listing.isFirstFree_freeName` — the search for a free name finds the first
* `Listing.apart_generate` — made up names differ from all others
* `Listing.nodup_generate` — entries without names get different ones
-/

namespace Packfile

namespace Text

theorem lowerAscii_append (a b : String) : lowerAscii (a ++ b) = lowerAscii a ++ lowerAscii b := by
  rw [← String.toList_inj]
  simp only [lowerAscii, String.toList_append, String.toList_map, List.map_append]

/-- Digits have no case. -/
theorem lowerAscii_toString (n : ℕ) : lowerAscii (toString n) = toString n := by
  have hdigit : ∀ c ∈ (toString n).toList, c.toLower = c := by
    intro c hc
    rw [Nat.toString_eq_repr, Nat.toList_repr] at hc
    have hc := Nat.isDigit_of_mem_toDigits (by decide) (by decide) hc
    refine dif_neg fun hupper => ?_
    simp only [Char.isDigit] at hc
    grind
  rw [← String.toList_inj, lowerAscii, String.toList_map]
  exact (List.map_congr_left hdigit).trans (List.map_id _)

/-- A number is known by its digits. -/
theorem toString_injective : Function.Injective (toString : ℕ → String) := by
  intro a b h
  rw [Nat.toString_eq_repr, Nat.toString_eq_repr, ← String.toList_inj, Nat.toList_repr,
    Nat.toList_repr] at h
  have hvalue := congrArg (fun digits => Nat.ofDigitChars 10 digits 0) h
  simpa using hvalue

end Text

namespace Listing

open Text

variable {taken : List String} {index : ℕ} {extension : String} {entries : List Entry}

/-! ### The names that are tried -/

/-- What stands in front of the extension of the name that is tried at an attempt. -/
def candidateStem (index attempt : ℕ) : String :=
  if attempt = 0 then toString index else toString index ++ "_" ++ toString attempt

theorem candidate_eq (attempt : ℕ) : candidate index extension attempt
    = EntryName.withExtension (candidateStem index attempt) extension := rfl

theorem lowerAscii_candidateStem (attempt : ℕ) :
    lowerAscii (candidateStem index attempt) = candidateStem index attempt := by
  rw [candidateStem]
  split
  · exact lowerAscii_toString index
  · have hmark : lowerAscii "_" = "_" := by decide +kernel
    rw [lowerAscii_append, lowerAscii_append, lowerAscii_toString, lowerAscii_toString, hmark]

theorem candidateStem_injective : Function.Injective (candidateStem index) := by
  -- a stem without a number is shorter than every other
  have hlonger : ∀ attempt : ℕ, (toString index).length
      < (toString index ++ "_" ++ toString attempt).length := by
    intro attempt
    rw [String.length_append, String.length_append]
    show _ < (toString index).length + 1 + _
    omega
  intro a b h
  rw [candidateStem, candidateStem] at h
  split at h <;> split at h
  · omega
  · exact absurd (congrArg String.length h) (Nat.ne_of_lt (hlonger b))
  · exact absurd (congrArg String.length h) (Nat.ne_of_gt (hlonger a))
  · exact toString_injective ((String.append_right_inj _).mp h)

/-- No two names that are tried for an index are the same, whatever the case of their letters. -/
theorem candidate_injective :
    Function.Injective fun attempt => lowerAscii (candidate index extension attempt) := by
  intro a b h
  suffices hstem : candidateStem index a = candidateStem index b from candidateStem_injective hstem
  simp only [candidate_eq, EntryName.withExtension] at h
  split at h
  · rwa [lowerAscii_candidateStem, lowerAscii_candidateStem] at h
  · simp only [lowerAscii_append, lowerAscii_candidateStem] at h
    exact (String.append_left_inj _).mp ((String.append_left_inj _).mp h)

/-! ### The search for a free name -/

/-- The first of the names for an index that is not taken. -/
def IsFirstFree (taken : List String) (index : ℕ) (extension name : String) : Prop :=
  ∃ attempt, name = candidate index extension attempt ∧ lowerAscii name ∉ taken ∧
    ∀ earlier < attempt, lowerAscii (candidate index extension earlier) ∈ taken

/-- A search has passed over taken names only, and it ends before its last round only at a name that
is free. -/
theorem exists_freeName (taken : List String) (index : ℕ) (extension : String)
    (rounds attempt : ℕ) : ∃ passed ≤ rounds,
    freeName taken index extension rounds attempt = candidate index extension (attempt + passed) ∧
      (∀ k < passed, lowerAscii (candidate index extension (attempt + k)) ∈ taken) ∧
      (passed < rounds → lowerAscii (candidate index extension (attempt + passed)) ∉ taken) := by
  induction rounds generalizing attempt with
  | zero =>
    refine ⟨0, Nat.le_refl _, rfl, fun k hk => absurd hk (Nat.not_lt_zero k), fun h => ?_⟩
    exact absurd h (Nat.lt_irrefl 0)
  | succ rounds ih =>
    rw [freeName]
    by_cases htaken : lowerAscii (candidate index extension attempt) ∈ taken
    · obtain ⟨passed, hle, hname, hpassed, hfree⟩ := ih (attempt + 1)
      rw [if_pos (List.contains_iff_mem.mpr htaken), hname]
      have hshift : ∀ k, attempt + 1 + k = attempt + (k + 1) := by
        intro k
        omega
      simp only [hshift] at hpassed hfree ⊢
      refine ⟨passed + 1, by omega, rfl, fun k hk => ?_, fun h => hfree (by omega)⟩
      cases k with
      | zero => exact htaken
      | succ k => exact hpassed k (by omega)
    · rw [if_neg fun h => htaken (List.contains_iff_mem.mp h)]
      exact ⟨0, Nat.zero_le _, rfl, fun k hk => absurd hk (Nat.not_lt_zero k), fun _ => htaken⟩

/-- No more names in a row are taken than there are taken names, because no two of them are the
same. -/
theorem attempt_le_length {attempt : ℕ}
    (h : ∀ earlier < attempt, lowerAscii (candidate index extension earlier) ∈ taken) :
    attempt ≤ taken.length := by
  have hnodup : ((List.range attempt).map
      fun earlier => lowerAscii (candidate index extension earlier)).Nodup :=
    List.nodup_range.map candidate_injective
  have hsub : (List.range attempt).map
      (fun earlier => lowerAscii (candidate index extension earlier)) ⊆ taken := by
    intro name hname
    obtain ⟨earlier, hearlier, rfl⟩ := List.mem_map.mp hname
    exact h earlier (List.mem_range.mp hearlier)
  have hlength := (hnodup.subperm hsub).length_le
  rwa [List.length_map, List.length_range] at hlength

/-- Of one more names than are taken not all are taken. -/
theorem exists_not_mem_taken (taken : List String) (index : ℕ) (extension : String) :
    ∃ attempt ≤ taken.length, lowerAscii (candidate index extension attempt) ∉ taken := by
  by_contra! hall
  have hle : taken.length + 1 ≤ taken.length :=
    attempt_le_length fun earlier hearlier => hall earlier (Nat.lt_succ_iff.mp hearlier)
  omega

/-- **The search finds the first name that is free.** -/
theorem isFirstFree_freeName (taken : List String) (index : ℕ) (extension : String) :
    IsFirstFree taken index extension (freeName taken index extension taken.length 0) := by
  obtain ⟨passed, hle, hname, hpassed, hfree⟩ :=
    exists_freeName taken index extension taken.length 0
  simp only [Nat.zero_add] at hname hpassed hfree
  rw [hname]
  refine ⟨passed, rfl, ?_, hpassed⟩
  rcases Nat.lt_or_ge passed taken.length with hlt | hge
  · exact hfree hlt
  · -- all rounds were needed, so the name that is left is the free one
    obtain ⟨attempt, hattempt, hnot⟩ := exists_not_mem_taken taken index extension
    rcases Nat.lt_or_ge attempt passed with hlt | hge
    · exact absurd (hpassed attempt hlt) hnot
    · obtain rfl : attempt = passed := by omega
      exact hnot

/-! ### Names for all entries -/

/-- Two entries, each before and after, whose names differ without regard to case if one of them had
none. -/
def Apart (p q : Entry × Entry) : Prop :=
  p.1.name = none ∨ q.1.name = none →
    ∀ a b, p.2.name = some a → q.2.name = some b → lowerAscii a ≠ lowerAscii b

/-- An entry keeps the name that it has, and gets one that is not taken if it has none. -/
theorem of_mem_zip_generateFrom {p : Entry × Entry}
    (h : p ∈ entries.zip (generateFrom extension taken index entries)) :
    (∀ name, p.1.name = some name → p.2 = p.1) ∧
      (p.1.name = none → ∃ name, p.2 = p.1.rename name ∧ lowerAscii name ∉ taken) := by
  induction entries generalizing taken index with
  | nil => exact absurd h List.not_mem_nil
  | cons e entries ih =>
    rw [generateFrom] at h
    cases hname : e.name with
    | some name =>
      rw [hname] at h
      rcases List.mem_cons.mp h with rfl | h
      · exact ⟨fun _ _ => rfl, fun hnone => by rw [hname] at hnone; cases hnone⟩
      · exact ih h
    | none =>
      rw [hname] at h
      rcases List.mem_cons.mp h with rfl | h
      · refine ⟨fun name hsome => ?_, fun _ => ⟨_, rfl, ?_⟩⟩
        · rw [hname] at hsome
          cases hsome
        · obtain ⟨_, _, hfree, _⟩ :=
            isFirstFree_freeName taken index (e.hint.getD extension)
          exact hfree
      · obtain ⟨hkept, hmade⟩ := ih h
        refine ⟨hkept, fun hnone => ?_⟩
        obtain ⟨name, heq, hfree⟩ := hmade hnone
        exact ⟨name, heq, fun hmem => hfree (List.mem_cons_of_mem _ hmem)⟩

/-- The induction is on the entries. What keeps a made up name from being that of an entry behind it
is that it is taken then, and that the names which entries had before were taken from the start. -/
theorem apart_generateFrom
    (hnamed : ∀ e ∈ entries, ∀ name, e.name = some name → lowerAscii name ∈ taken) :
    (entries.zip (generateFrom extension taken index entries)).Pairwise Apart := by
  induction entries generalizing taken index with
  | nil => exact List.Pairwise.nil
  | cons e entries ih =>
    have hrest : ∀ e ∈ entries, ∀ name, e.name = some name → lowerAscii name ∈ taken :=
      fun e he => hnamed e (List.mem_cons_of_mem _ he)
    rw [generateFrom]
    cases hname : e.name with
    | some name =>
      refine List.Pairwise.cons (fun q hq hmade a b ha hb => ?_) (ih hrest)
      obtain ⟨-, hfresh⟩ := of_mem_zip_generateFrom hq
      obtain ⟨made, heq, hfree⟩ := hfresh (hmade.resolve_left (by rw [hname]; simp))
      rw [heq] at hb
      cases hb
      intro hsame
      refine hfree (hsame ▸ hnamed e List.mem_cons_self a ha)
    | none =>
      dsimp only
      obtain ⟨_, -, hfree, -⟩ := isFirstFree_freeName taken index (e.hint.getD extension)
      generalize freeName taken index (e.hint.getD extension) taken.length 0 = made at hfree ⊢
      refine List.Pairwise.cons (fun q hq _ a b ha hb => ?_)
        (ih fun e he name h => List.mem_cons_of_mem _ (hrest e he name h))
      cases ha
      obtain ⟨hkept, hfresh⟩ := of_mem_zip_generateFrom hq
      cases hq1 : q.1.name with
      | some name =>
        rw [hkept name hq1, hq1] at hb
        cases hb
        intro hsame
        exact hfree (hsame ▸ hrest q.1 (List.of_mem_zip hq).1 b hq1)
      | none =>
        obtain ⟨other, heq, hother⟩ := hfresh hq1
        rw [heq] at hb
        cases hb
        exact fun hsame => hother (hsame ▸ List.mem_cons_self)

/-- **Names that were made up differ from those of all other entries**, without regard to case. -/
theorem apart_generate (extension : String) (entries : List Entry) :
    (entries.zip (generate extension entries)).Pairwise Apart := by
  refine apart_generateFrom fun e he name hname => ?_
  exact List.mem_filterMap.mpr ⟨e, he, by rw [hname]; rfl⟩

/-- Entries of which none has a name get different ones. -/
theorem nodup_generate (extension : String) (h : ∀ e ∈ entries, e.name = none) :
    ((generate extension entries).map Entry.name).Nodup := by
  have hforall := forall₂_generate extension entries
  have hnamed : ∀ e ∈ generate extension entries, ∃ name, e.name = some name := by
    intro e he
    obtain ⟨_, -, name, rfl⟩ := Run.exists_of_forall₂ hforall he
    exact ⟨name, rfl⟩
  have hsnd : (entries.zip (generate extension entries)).map Prod.snd
      = generate extension entries := List.map_snd_zip (Nat.le_of_eq hforall.length_eq.symm)
  rw [← hsnd, List.map_map, List.Nodup, List.pairwise_map]
  refine (apart_generate extension entries).imp_of_mem ?_
  intro p q hp hq hapart hsame
  obtain ⟨a, ha⟩ := hnamed p.2 (List.of_mem_zip hp).2
  obtain ⟨b, hb⟩ := hnamed q.2 (List.of_mem_zip hq).2
  refine hapart (.inl (h p.1 (List.of_mem_zip hp).1)) a b ha hb ?_
  dsimp only [Function.comp_apply] at hsame
  rw [ha, hb, Option.some.injEq] at hsame
  rw [hsame]

end Listing

end Packfile
