import Packfile.Proofs.GeneratedNames
import Packfile.Proofs.Rereading

/-!
# Entries that can be found by made up names

An archive finds the first entry of a name. Of entries that shared a name from the start only one
can be found so, but a name that has been made up for an entry leads to that entry: it is the name
of no other, whatever names there were before, however they are spelled, and whatever extensions the
contents suggest.

## Which names are in use

When it is the turn of an entry, a name is in use if an entry had it from the start, in front or
behind, or if it has been made up for an entry in front. Both are names of other entries of the
finished list. So no more names are in use than there are other entries, and since the names that
are tried are all different, a free one is found after fewer attempts than there are entries.

## Main definitions

* `Listing.namesOf`, `Listing.inUse` — names without regard to case, and those in use at a turn

## Main results

* `Listing.exists_getElem?_generate` — an entry without a name gets the first that is not in use
* `Listing.attempt_lt_length` — how often a name has to be tried
* `Listing.generate_addressable` — every entry without a name can be found by the one it gets
-/

namespace Packfile.Listing

open Text

variable {taken : List String} {index other attempt : ℕ} {extension : String}
  {entries generated : List Entry} {e : Entry}

/-! ### Names in use -/

/-- The names of entries, in lower case. -/
def namesOf (entries : List Entry) : List String :=
  entries.filterMap fun e => e.name.map lowerAscii

/-- The names in use, in lower case, when it is the turn of the entry at an index: those that
entries had from the start, and those of the entries in front of it. -/
def inUse (entries generated : List Entry) (index : ℕ) : List String :=
  namesOf (entries ++ generated.take index)

theorem mem_namesOf {name : String} :
    name ∈ namesOf entries ↔ ∃ e ∈ entries, ∃ spelled, e.name = some spelled ∧
      lowerAscii spelled = name := by
  simp only [namesOf, List.mem_filterMap, Option.map_eq_some_iff]

theorem mem_namesOf_cons {name : String} : name ∈ namesOf (e :: entries) ↔
    e.name.map lowerAscii = some name ∨ name ∈ namesOf entries := by
  simp only [namesOf, List.mem_filterMap, List.mem_cons, exists_eq_or_imp]

theorem mem_namesOf_append {name : String} : name ∈ namesOf (entries ++ generated) ↔
    name ∈ namesOf entries ∨ name ∈ namesOf generated := by
  rw [namesOf, List.filterMap_append, List.mem_append, namesOf, namesOf]

/-! ### Which name an entry gets -/

/-- Which name is the first that is free depends on the names that are taken, and not on their order
or on how often they are. -/
theorem IsFirstFree.congr {used : List String} {name : String}
    (h : IsFirstFree used index extension name) (hused : ∀ a, a ∈ used ↔ a ∈ taken) :
    IsFirstFree taken index extension name := by
  simp only [IsFirstFree, hused] at h
  exact h

/-- At the turn of an entry without a name, the names are taken that were so from the start and
those of the entries in front. The induction is on the entries: a name that is made up for the first
of them is taken for the others, and a name that it had was taken before. -/
theorem exists_getElem?_generateFrom {place : ℕ} (hnamed : namesOf entries ⊆ taken)
    (he : entries[place]? = some e) (hnone : e.name = none) :
    ∃ name, (generateFrom extension taken index entries)[place]? = some (e.rename name) ∧
      IsFirstFree (taken ++ namesOf ((generateFrom extension taken index entries).take place))
        (index + place) (e.hint.getD extension) name := by
  induction entries generalizing taken index place with
  | nil => cases he
  | cons first rest ih =>
    have hrest : namesOf rest ⊆ taken := fun a ha => hnamed (mem_namesOf_cons.mpr (.inr ha))
    rw [generateFrom]
    cases place with
    | zero =>
      cases he
      rw [hnone]
      refine ⟨_, rfl, (isFirstFree_freeName taken index _).congr fun a => ?_⟩
      rw [List.take_zero, namesOf, List.filterMap_nil, List.append_nil]
    | succ place =>
      have hshift : index + (place + 1) = index + 1 + place := by omega
      rw [hshift]
      cases hname : first.name with
      | some spelled =>
        have htaken : lowerAscii spelled ∈ taken :=
          hnamed (mem_namesOf_cons.mpr (.inl (by rw [hname, Option.map_some])))
        obtain ⟨name, hget, hfirst⟩ := @ih taken (index + 1) place hrest he
        refine ⟨name, hget, hfirst.congr fun a => ?_⟩
        rw [List.take_succ_cons, List.mem_append, List.mem_append, mem_namesOf_cons, hname,
          Option.map_some, Option.some.injEq]
        constructor
        · rintro (ha | ha)
          · exact .inl ha
          · exact .inr (.inr ha)
        · rintro (ha | rfl | ha)
          · exact .inl ha
          · exact .inl htaken
          · exact .inr ha
      | none =>
        dsimp only
        generalize freeName taken index (first.hint.getD extension) taken.length 0 = made
        obtain ⟨name, hget, hfirst⟩ := @ih (lowerAscii made :: taken) (index + 1) place
          (fun a ha => List.mem_cons_of_mem _ (hrest ha)) he
        refine ⟨name, hget, hfirst.congr fun a => ?_⟩
        have hmade : (first.rename made).name = some made := rfl
        rw [List.take_succ_cons, List.mem_append, List.mem_append, mem_namesOf_cons, hmade,
          Option.map_some, Option.some.injEq, List.mem_cons, eq_comm]
        tauto

/-- **An entry without a name gets the first that is not in use.** -/
theorem exists_getElem?_generate (extension : String) (he : entries[index]? = some e)
    (hnone : e.name = none) :
    ∃ name, (generate extension entries)[index]? = some (e.rename name) ∧
      IsFirstFree (inUse entries (generate extension entries) index) index
        (e.hint.getD extension) name := by
  obtain ⟨name, hget, hfirst⟩ := exists_getElem?_generateFrom (List.Subset.refl _) he hnone
  rw [Nat.zero_add] at hfirst
  exact ⟨name, hget, hfirst.congr fun a => by rw [inUse, mem_namesOf_append, List.mem_append]; rfl⟩

theorem length_generate (extension : String) (entries : List Entry) :
    (generate extension entries).length = entries.length :=
  (forall₂_generate extension entries).length_eq.symm

/-- An entry before and after. -/
theorem getElem?_zip_generate {after : Entry} (he : entries[index]? = some e)
    (hafter : (generate extension entries)[index]? = some after) :
    (entries.zip (generate extension entries))[index]? = some (e, after) :=
  List.getElem?_zip_eq_some.mpr ⟨he, hafter⟩

/-- An entry keeps the name that it has. -/
theorem getElem?_generate_of_named {name : String} (extension : String)
    (he : entries[index]? = some e) (hname : e.name = some name) :
    (generate extension entries)[index]? = some e := by
  obtain ⟨hindex, -⟩ := List.getElem?_eq_some_iff.mp he
  rw [← length_generate extension] at hindex
  have hafter := List.getElem?_eq_getElem hindex
  have hkept := (of_mem_zip_generateFrom
    (List.mem_of_getElem? (getElem?_zip_generate he hafter))).1 name hname
  exact hafter.trans (congrArg some hkept)

/-! ### Whose names are in use -/

/-- The names in use at the turn of an entry without a name are those of other entries. -/
theorem inUse_subset (extension : String) (he : entries[index]? = some e) (hnone : e.name = none) :
    inUse entries (generate extension entries) index
      ⊆ namesOf ((generate extension entries).eraseIdx index) := by
  intro a ha
  obtain ⟨user, huser, spelled, hspelled, rfl⟩ := mem_namesOf.mp ha
  refine mem_namesOf.mpr ⟨user, List.mem_eraseIdx_iff_getElem?.mpr ?_, spelled, hspelled, rfl⟩
  rcases List.mem_append.mp huser with hbefore | hfront
  · obtain ⟨other, hother⟩ := List.getElem?_of_mem hbefore
    refine ⟨other, fun hsame => ?_, getElem?_generate_of_named extension hother hspelled⟩
    rw [hsame, he, Option.some.injEq] at hother
    rw [← hother, hnone] at hspelled
    cases hspelled
  · obtain ⟨other, hother⟩ := List.getElem?_of_mem hfront
    rw [List.getElem?_take] at hother
    split_ifs at hother with hlt
    exact ⟨other, Nat.ne_of_lt hlt, hother⟩

/-- **Fewer names are tried than there are entries.** Each attempt that fails meets the name of
another entry, and no two of them meet the same. -/
theorem attempt_lt_length (he : entries[index]? = some e) (hnone : e.name = none)
    (htried : ∀ earlier < attempt, lowerAscii (candidate index (e.hint.getD extension) earlier)
      ∈ inUse entries (generate extension entries) index) : attempt < entries.length := by
  obtain ⟨hindex, -⟩ := List.getElem?_eq_some_iff.mp he
  have hle := attempt_le_length fun earlier hearlier =>
    inUse_subset extension he hnone (htried earlier hearlier)
  have hnames := List.length_filterMap_le (fun e => e.name.map lowerAscii)
    ((generate extension entries).eraseIdx index)
  rw [List.length_eraseIdx, length_generate, if_pos hindex] at hnames
  rw [namesOf] at hle
  omega

/-- A name that has been made up is not that of another entry, in front or behind. -/
theorem lowerAscii_ne_of_made {after user : Entry} {name spelled : String}
    (he : entries[index]? = some e) (hnone : e.name = none)
    (hafter : (generate extension entries)[index]? = some after) (hname : after.name = some name)
    (hne : other ≠ index) (huser : (generate extension entries)[other]? = some user)
    (hspelled : user.name = some spelled) : lowerAscii spelled ≠ lowerAscii name := by
  obtain ⟨hother, -⟩ := List.getElem?_eq_some_iff.mp huser
  rw [length_generate] at hother
  have hbefore := List.getElem?_eq_getElem hother
  obtain ⟨hi, hpair⟩ := List.getElem?_eq_some_iff.mp (getElem?_zip_generate he hafter)
  obtain ⟨hj, hpair'⟩ := List.getElem?_eq_some_iff.mp (getElem?_zip_generate hbefore huser)
  have hapart := List.pairwise_iff_getElem.mp (apart_generate extension entries)
  rcases Nat.lt_or_gt_of_ne hne with hlt | hlt
  · have hfront := hapart other index hj hi hlt
    rw [hpair, hpair'] at hfront
    exact hfront (.inr hnone) spelled name hspelled hname
  · have hbehind := hapart index other hi hj hlt
    rw [hpair, hpair'] at hbehind
    exact (hbehind (.inl hnone) name spelled hname hspelled).symm

/-! ### Finding entries -/

/-- **Every entry without a name can be found by the one it gets.** None of the entries is lost, and
those with names stay as they are. An entry without one is only renamed, with the first of the names
for its index that is not in use, and that is found after fewer attempts than there are entries. No
other entry has the name, without regard to case, and in an archive of the entries it leads to this
one. -/
theorem generate_addressable (extension : String) (entries : List Entry) :
    (generate extension entries).length = entries.length ∧
      ∀ (index : ℕ) (e : Entry), entries[index]? = some e →
        (∀ name, e.name = some name → (generate extension entries)[index]? = some e) ∧
          (e.name = none → ∃ attempt < entries.length, ∃ name,
            name = candidate index (e.hint.getD extension) attempt ∧
            (generate extension entries)[index]? = some (e.rename name) ∧
            lowerAscii name ∉ inUse entries (generate extension entries) index ∧
            (∀ earlier < attempt, lowerAscii (candidate index (e.hint.getD extension) earlier)
              ∈ inUse entries (generate extension entries) index) ∧
            (∀ (other : ℕ) (user : Entry) (spelled : String), other ≠ index →
              (generate extension entries)[other]? = some user → user.name = some spelled →
                lowerAscii spelled ≠ lowerAscii name) ∧
            ∀ archive : Archive, archive.entries = generate extension entries →
              archive.indexOf? name = some index) := by
  refine ⟨length_generate extension entries, fun index e he => ⟨fun name hname => ?_, ?_⟩⟩
  · exact getElem?_generate_of_named extension he hname
  · intro hnone
    obtain ⟨name, hget, attempt, hname, hfree, htried⟩ :=
      exists_getElem?_generate extension he hnone
    have hdiffer : ∀ (other : ℕ) (user : Entry) (spelled : String), other ≠ index →
        (generate extension entries)[other]? = some user → user.name = some spelled →
          lowerAscii spelled ≠ lowerAscii name :=
      fun other user spelled hne huser => lowerAscii_ne_of_made he hnone hget rfl hne huser
    refine ⟨attempt, attempt_lt_length he hnone htried, name, hname, hget, hfree, htried, hdiffer,
      fun archive harchive => ?_⟩
    have hfirst : archive.IsFirstNamed name index :=
      ⟨⟨e.rename name, harchive ▸ hget, rfl⟩, fun earlier hlt user huser hsame =>
        hdiffer earlier user name (Nat.ne_of_lt hlt) (harchive ▸ huser) hsame rfl⟩
    exact hfirst.indexOf?_eq

/-- Three entries. The first has no name but suggests an extension, the second has the name that is
tried for it, in capitals, and the third the one that is tried next. -/
def contested : List Entry :=
  let e : Entry := { source := .memory 0, offset := 0 }
  [{ e with hint := some "txt" }, e.rename "0.TXT", e.rename "0_1.txt"]

/-- The first of them is found by the third name that is tried for it. -/
theorem generate_addressable_contested :
    let archive : Archive :=
      { format := "ofs", stream := .ofBytes [], entries := generate "dat" contested }
    archive.indexOf? "0_2.txt" = some 0 := by
  intro archive
  have htaken : namesOf contested = ["0.txt", "0_1.txt"] := by decide +kernel
  have hgenerate : generate "dat" contested = generateFrom "dat" ["0.txt", "0_1.txt"] 0 contested :=
    congrArg (fun taken => generateFrom "dat" taken 0 contested) htaken
  have hmade : (generate "dat" contested)[0]?.bind Entry.name = some "0_2.txt" := by
    rw [hgenerate]
    decide +kernel
  obtain ⟨_, _, name, _, hget, _, _, _, hfind⟩ :=
    ((generate_addressable "dat" contested).2 0 _ rfl).2 rfl
  rw [hget] at hmade
  rw [← Option.some.inj hmade]
  exact hfind archive rfl

end Packfile.Listing
