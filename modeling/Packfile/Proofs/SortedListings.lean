import Mathlib.Data.Prod.Lex
import Packfile.Proofs.Desks
import Packfile.Proofs.HiddenParts

/-!
# Listings in the order of the data

A caller may ask for the entries of a directory in the order of their data. The wish is looked at
once only, behind the decoder: names that tell the index of an entry have been generated by then, and
properties have been given to the entries that they belong to. So the decoder finds the same whether
or not the order is wanted, and the listing is the same entries, those of one place in the order in
which they were found.

Whether a directory can be read does not depend on the order either. Every entry is held against its
part, and of a bad one there is an error wherever it stands; only which of several bad ones is named
may differ.

## Main definitions

* `Entry.place` — where the data of an entry are
* `Listing.IsSorting` — the same entries by place, those of one place in the order they had
* `Session.sorting` — a session in which the order is wanted, or not

## Main results

* `Listing.isSorting_sort` — what the sort makes of a listing
* `Format.ignores_unsorted_of_mem` — no decoder knows of the order
* `Format.readDirectory_sorting` — sorting only reorders
-/

namespace Packfile

open Run

/-! ### The order of a listing -/

/-- Where the data of the entry are: the number of the part, and the offset in it. -/
def Entry.place (e : Entry) : ℕ ×ₗ ℕ := toLex (e.source.part, e.offset)

namespace Listing

/-- The second listing is the first one rearranged, so that the places of the data ascend. Entries
at one place are in the order that they had. -/
structure IsSorting (listed sorted : List Entry) : Prop where
  /-- The entries are the same, each as it was. -/
  perm : sorted.Perm listed
  /-- Their places ascend. -/
  ascending : sorted.Pairwise fun a b => a.place ≤ b.place
  /-- At each place there are the same entries in the same order. -/
  stable : ∀ place, sorted.filter (·.place = place) = listed.filter (·.place = place)

theorem precedes_iff {a b : Entry} : precedes a b = true ↔ a.place ≤ b.place := by
  rw [Entry.place, Entry.place, Prod.Lex.toLex_le_toLex]
  simp [precedes]

/-- The sort is one. -/
theorem isSorting_sort (listed : List Entry) : IsSorting listed (sort listed) := by
  have htrans : ∀ a b c : Entry, precedes a b = true → precedes b c = true →
      precedes a c = true := by
    simp only [precedes_iff]
    exact fun _ _ _ hab hbc => hab.trans hbc
  have htotal : ∀ a b : Entry, (precedes a b || precedes b a) = true := by
    simp only [Bool.or_eq_true, precedes_iff]
    exact fun _ _ => le_total _ _
  refine ⟨List.mergeSort_perm _ _, ?_, fun place => ?_⟩
  · exact (List.pairwise_mergeSort htrans htotal listed).imp precedes_iff.mp
  · refine filter_mergeSort htrans htotal (fun a b ha hb => ?_) listed
    rw [decide_eq_true_eq] at ha hb
    rw [precedes_iff, ha, hb]

/-- A listing has no other one. -/
theorem IsSorting.unique {listed sorted sorted' : List Entry} (h : IsSorting listed sorted)
    (h' : IsSorting listed sorted') : sorted = sorted' :=
  eq_of_filter_eq Entry.place (· ≤ ·) le_refl (fun _ _ => le_antisymm) h.ascending h'.ascending
    fun place => (h.stable place).trans (h'.stable place).symm

end Listing

/-! ### Decoders do not know of the order -/

namespace Session

/-- The session with a caller who wants the order of the data, or does not. -/
def sorting (sorted : Bool) (x : Session) : Session :=
  { x with context := { x.context with
    options := { x.context.options with sortByOffset := sorted } } }

/-- In the first session the order is not wanted, and in the second it is. Otherwise they are the
same. -/
def Unsorted (x y : Session) : Prop :=
  x.context.options.sortByOffset = false ∧ y = x.sorting true

theorem hides_unsorted : Hides Unsorted where
  stream_eq := by
    rintro x _ ⟨-, rfl⟩
    rfl
  maxEntries_eq := by
    rintro x _ ⟨-, rfl⟩
    rfl
  palettes_eq := by
    rintro x _ ⟨-, rfl⟩
    rfl
  withStream := by
    rintro x _ ⟨hx, rfl⟩ s
    exact ⟨hx, rfl⟩
  withPalettes := by
    rintro x _ ⟨hx, rfl⟩ palettes
    exact ⟨hx, rfl⟩
  withReport := by
    rintro x _ ⟨hx, rfl⟩ r
    exact ⟨hx, rfl⟩

/-- The name table is found by its path, whatever the other options are. -/
theorem ignores_names_unsorted : Decode.names.Ignores Unsorted := by
  have hstore (table : NameTable) : Decode.Ignores Unsorted (do
      modify fun x : Session => { x with context := { x.context with names := some table } }
      return table) := by
    refine Coupled.bind (coupled_modify ?_) fun _ => coupled_pure table
    rintro x _ ⟨hx, rfl⟩
    exact ⟨hx, rfl⟩
  refine Coupled.get (by rintro x _ ⟨-, rfl⟩; rfl) fun x => ?_
  cases x.context.names with
  | some table => exact coupled_pure table
  | none =>
    cases x.context.options.nameTable with
    | none => exact (coupled_pure _).bind fun _ => hstore _
    | some path =>
      dsimp only
      cases NameTable.load? x.files path with
      | some table => exact (coupled_pure _).bind fun _ => hstore _
      | none =>
        exact (hides_unsorted.report _).bind fun _ => (coupled_pure _).bind fun _ => hstore _

end Session

namespace Format

variable {format : Format} {source : Location} {x y : Session}

open Session (hides_unsorted ignores_names_unsorted)

/-- No decoder knows whether the order is wanted. -/
theorem ignores_unsorted_of_mem (h : format ∈ Registry.standard.formats) (source : Location) :
    (format.decode source).Ignores Session.Unsorted := by
  simp only [Registry.standard, List.mem_cons, List.not_mem_nil, or_false] at h
  rcases h with rfl | rfl | rfl | rfl | rfl | rfl | rfl | rfl
  · exact Xarc.ignores hides_unsorted source
  · exact Ofs.ignores hides_unsorted source
  · exact Dtre.ignores hides_unsorted source
  · exact Tre.ignores hides_unsorted source
  · exact Rpak.ignores hides_unsorted source
  · have hfiles : Decode.files.Ignores Session.Unsorted :=
      coupled_query (by rintro x _ ⟨-, rfl⟩; rfl)
    exact Spk.ignores hides_unsorted hfiles ignores_names_unsorted source
  · exact Sprb.ignores hides_unsorted source
  · exact Lump.ignores hides_unsorted source

/-- The decoder does the same in both sessions. -/
theorem agree_decode_sorting (h : format ∈ Registry.standard.formats) (source : Location)
    (x : Session) :
    Agree Session.Unsorted Session.Unsorted (format.decode source (x.sorting false).started)
      (format.decode source (x.sorting true).started) :=
  (ignores_unsorted_of_mem h source).agree ⟨rfl, rfl⟩

/-- What is read in the order of the directory is read sorted. -/
theorem readDirectory_sort (h : format ∈ Registry.standard.formats) {listed : List Entry}
    (hlisted : format.readDirectory source (x.sorting false) = .ok listed y) :
    format.readDirectory source (x.sorting true)
      = .ok (Listing.sort listed) (y.sorting true) := by
  obtain ⟨found, hfound, hfinish⟩ := readDirectory_eq_ok.mp hlisted
  have hagree := agree_decode_sorting h source x
  rw [hfound] at hagree
  obtain ⟨z, hother, hunsorted, rfl⟩ := hagree.of_ok_left
  rw [hunsorted] at hfinish
  obtain ⟨rfl, hbounds⟩ := Listing.finish_eq_ok.mp hfinish
  exact readDirectory_eq_ok.mpr ⟨_, hother, Listing.finish_eq_ok.mpr ⟨rfl, hbounds⟩⟩

/-- What is read sorted is read in the order of the directory. -/
theorem exists_readDirectory_of_sort (h : format ∈ Registry.standard.formats)
    {sorted : List Entry} (hsorted : format.readDirectory source (x.sorting true) = .ok sorted y) :
    ∃ listed z, format.readDirectory source (x.sorting false) = .ok listed z := by
  obtain ⟨found, hfound, hfinish⟩ := readDirectory_eq_ok.mp hsorted
  have hagree := agree_decode_sorting h source x
  rw [hfound] at hagree
  obtain ⟨z, hother, -⟩ := hagree.of_ok_right
  obtain ⟨-, hbounds⟩ := Listing.finish_eq_ok.mp hfinish
  exact ⟨_, z, readDirectory_eq_ok.mpr ⟨_, hother, Listing.finish_eq_ok.mpr ⟨rfl, hbounds⟩⟩⟩

/-- **Sorting only reorders.** In any session a directory is read in the order of the data exactly
if it is read in the order of the directory. The one listing is the other one sorted, and the
sessions behind them differ in what the caller wants. -/
theorem readDirectory_sorting (h : format ∈ Registry.standard.formats) (source : Location)
    (x : Session) :
    ((∃ sorted y, format.readDirectory source (x.sorting true) = .ok sorted y) ↔
      ∃ listed y, format.readDirectory source (x.sorting false) = .ok listed y) ∧
    ∀ listed y sorted z, format.readDirectory source (x.sorting false) = .ok listed y →
      format.readDirectory source (x.sorting true) = .ok sorted z →
        Listing.IsSorting listed sorted ∧ z = y.sorting true := by
  refine ⟨⟨?_, ?_⟩, ?_⟩
  · rintro ⟨sorted, y, hsorted⟩
    exact exists_readDirectory_of_sort h hsorted
  · rintro ⟨listed, y, hlisted⟩
    exact ⟨_, _, readDirectory_sort h hlisted⟩
  · intro listed y sorted z hlisted hsorted
    have heq := hsorted.symm.trans (readDirectory_sort h hlisted)
    rw [EStateM.Result.ok.injEq] at heq
    obtain ⟨rfl, rfl⟩ := heq
    exact ⟨Listing.isSorting_sort listed, rfl⟩

/-- An archive of three entries. The data of the first come last, and the others share theirs. -/
def backwards : Session where
  stream := .ofBytes (Xarc.magic ++ [3, 0, 0, 0] ++
    [63, 0, 0, 0, 1, 0, 0, 0, 0, 0, 0, 0, 0, 0, 0, 0] ++
    [62, 0, 0, 0, 1, 0, 0, 0, 2, 0, 0, 0, 0, 0, 0, 0] ++
    [62, 0, 0, 0, 1, 0, 0, 0, 4, 0, 0, 0, 0, 0, 0, 0] ++
    [0x61, 0, 0x62, 0, 0x63, 0] ++ [0x21, 0x3F])

/-- The entry of that archive with a name. -/
def ofBackwards (name : String) (offset : ℕ) : Entry :=
  Xarc.toEntry (.memory 64) ⟨offset, 1, 0, 0⟩ name

/-- The entries are found in the order of the records. -/
def asRecorded : List Entry := [ofBackwards "a" 63, ofBackwards "b" 62, ofBackwards "c" 62]

/-- In the order of the data the first entry is behind the others, which stay in their order. -/
def asStored : List Entry := [ofBackwards "b" 62, ofBackwards "c" 62, ofBackwards "a" 63]

theorem isSorting_asStored : Listing.IsSorting asRecorded asStored where
  perm := by decide
  ascending := by decide
  stable := by
    intro place
    by_cases hfirst : (ofBackwards "a" 63).place = place
    · subst hfirst
      decide
    · simp [asRecorded, asStored, List.filter_cons, hfirst]

/-- Without the wish the entries are listed as recorded, and with it as stored. -/
theorem readDirectory_sorting_backwards :
    ∃ y, Xarc.format.readDirectory (.memory 64) (backwards.sorting false) = .ok asRecorded y ∧
      Xarc.format.readDirectory (.memory 64) (backwards.sorting true)
        = .ok asStored (y.sorting true) := by
  have hxarc : Xarc.format ∈ Registry.standard.formats := by simp [Registry.standard]
  obtain ⟨hsucceeds, hsorting⟩ := readDirectory_sorting hxarc (.memory 64) backwards
  obtain ⟨y, hlisted⟩ : ∃ y, Xarc.format.readDirectory (.memory 64) (backwards.sorting false)
      = .ok asRecorded y := Decode.outcome_eq_ok.mp (by decide +kernel)
  obtain ⟨sorted, z, hsorted⟩ := hsucceeds.mpr ⟨_, y, hlisted⟩
  obtain ⟨hissorting, rfl⟩ := hsorting _ _ _ _ hlisted hsorted
  rw [hissorting.unique isSorting_asStored] at hsorted
  exact ⟨y, hlisted, hsorted⟩

end Format

end Packfile
