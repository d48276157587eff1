import Mathlib.Data.List.Sort
import Mathlib.Data.List.Zip
import Mathlib.Data.String.Basic
import Packfile.Command.Comparison
import Packfile.Proofs.Outlines
import Packfile.Proofs.Rereading

/-!
# The differences of two archives

Two archives are compared by name. An archive may hold several entries of one name, and the first
stands for all of them, as it does wherever an entry is asked for by name. What is reported comes in
four groups: what the archives as wholes differ in, the names that only the second has, those that
only the first has, and the names under which both hold something else.

## What a report says

The texts of a report are numbers, codecs and names, and no two different ones are written alike. So
a report has a line exactly where there is a difference. Of two contents of different sizes nothing
more is said; of two contents of one size the place where they first differ, in words that do not
tell which archive comes first.

## Seen from the other side

When the archives change places, so do the two groups of names that only one has, and so do the two
values of each line. The groups themselves keep their order.

## Main definitions

* `Archive.Holds` — what an archive holds under a name
* `Command.EntryDiffers`, `Command.AreApart` — what two entries differ in, and whether they do
* `Command.Differences` — a report by its groups, with `Differences.swapped` and
  `Differences.AreExact`

## Main results

* `Command.mem_entryChanges` — the lines about two entries
* `Command.compare_eq` — archives that can be read are compared
* `Command.compare_exact` — and their differences are what is reported
-/

namespace Packfile

open Run

namespace Archive

variable {a : Archive} {files : FileTree} {name : String} {i : ℕ} {x y : Entry × Bytes}

/-- Every entry can be read. -/
def AllReadable (a : Archive) (files : FileTree) : Prop :=
  ∀ i < a.size, ∃ content, (a.readEntry files i).1 = .ok content

/-- What an archive holds under a name: the first entry of the name, and its content. -/
def Holds (a : Archive) (files : FileTree) (name : String) (found : Entry × Bytes) : Prop :=
  ∃ i, a.IsFirstNamed name i ∧ a.entries[i]? = some found.1 ∧
    (a.readEntry files i).1 = .ok found.2

theorem isFirstNamed_of_indexOf? (h : a.indexOf? name = some i) : a.IsFirstNamed name i := by
  obtain ⟨hi, hname, hbefore⟩ := List.findIdx?_eq_some_iff_getElem.mp h
  refine ⟨⟨a.entries[i], List.getElem?_eq_getElem hi, beq_iff_eq.mp hname⟩, fun j hj e he hsame => ?_⟩
  obtain ⟨_, rfl⟩ := List.getElem?_eq_some_iff.mp he
  exact hbefore j hj (beq_iff_eq.mpr hsame)

theorem mem_names : name ∈ a.names ↔ ∃ e ∈ a.entries, e.name = some name := List.mem_filterMap

theorem exists_holds (h : a.AllReadable files) (hname : name ∈ a.names) :
    ∃ found, a.Holds files name found := by
  obtain ⟨e, he, hsame⟩ := mem_names.mp hname
  cases hindex : a.indexOf? name with
  | none =>
    have hnone := List.findIdx?_eq_none_iff.mp hindex e he
    simp [hsame] at hnone
  | some i =>
    have hfirst := isFirstNamed_of_indexOf? hindex
    obtain ⟨found, hget, -⟩ := hfirst.named
    obtain ⟨hi, -⟩ := List.getElem?_eq_some_iff.mp hget
    obtain ⟨content, hread⟩ := h i hi
    exact ⟨(found, content), i, hfirst, hget, hread⟩

theorem Holds.mem_names (h : a.Holds files name x) : name ∈ a.names := by
  obtain ⟨i, hfirst, -, -⟩ := h
  obtain ⟨e, he, hsame⟩ := hfirst.named
  exact Archive.mem_names.mpr ⟨e, List.mem_of_getElem? he, hsame⟩

theorem Holds.unique (hx : a.Holds files name x) (hy : a.Holds files name y) : x = y := by
  obtain ⟨i, hfirst, hget, hread⟩ := hx
  obtain ⟨j, hfirst', hget', hread'⟩ := hy
  have hindex : i = j := by
    have hsame := hfirst.indexOf?_eq.symm.trans hfirst'.indexOf?_eq
    exact Option.some.inj hsame
  subst hindex
  have hentry : x.1 = y.1 := Option.some.inj (hget.symm.trans hget')
  have hcontent : x.2 = y.2 := Except.ok.inj (hread.symm.trans hread')
  exact Prod.ext hentry hcontent

end Archive

namespace Command

variable {a b : Archive} {files : FileTree} {name : String} {depth : Depth} {x y : Entry × Bytes}
  {change : Change} {what old new : String}

/-! ### Where two contents first differ -/

section

variable {xs ys : Bytes} {p q : ℕ}

/-- The place of the first difference: the contents agree before it, and not there. -/
def IsFirstDifference (xs ys : Bytes) (p : ℕ) : Prop := xs.take p = ys.take p ∧ xs[p]? ≠ ys[p]?

theorem IsFirstDifference.unique (hp : IsFirstDifference xs ys p) (hq : IsFirstDifference xs ys q) :
    p = q := by
  have hle : ∀ {p q : ℕ}, IsFirstDifference xs ys p → IsFirstDifference xs ys q → q ≤ p := by
    intro p q hp hq
    by_contra hlt
    have hsame := congrArg (·[p]?) hq.1
    rw [List.getElem?_take_of_lt (by omega), List.getElem?_take_of_lt (by omega)] at hsame
    exact hp.2 hsame
  exact Nat.le_antisymm (hle hq hp) (hle hp hq)

theorem isFirstDifference_of_ne (hlength : xs.length = ys.length) (hne : xs ≠ ys) :
    IsFirstDifference xs ys (firstDifference xs ys) := by
  rw [firstDifference]
  generalize hfound : (xs.zip ys).findIdx? _ = found
  cases found with
  | none =>
    -- lists of one length that agree at every place are the same
    refine absurd (List.ext_getElem hlength fun i hi hi' => ?_) hne
    have hmem : (xs[i], ys[i]) ∈ xs.zip ys := by
      rw [← List.getElem_zip (h := by rw [List.length_zip]; omega)]
      exact List.getElem_mem _
    simpa using List.findIdx?_eq_none_iff.mp hfound _ hmem
  | some p =>
    obtain ⟨hp, hdiffer, hbefore⟩ := List.findIdx?_eq_some_iff_getElem.mp hfound
    rw [List.length_zip] at hp
    rw [List.getElem_zip, bne_iff_ne] at hdiffer
    rw [Option.getD_some]
    refine ⟨List.ext_getElem? fun j => ?_, ?_⟩
    · rw [List.getElem?_take, List.getElem?_take]
      split
      · next hj =>
        have hsame := hbefore j hj
        rw [List.getElem_zip, bne_iff_ne, ne_eq, Decidable.not_not] at hsame
        rw [List.getElem?_eq_getElem (by omega), List.getElem?_eq_getElem (by omega), hsame]
      · rfl
    · rw [List.getElem?_eq_getElem (by omega), List.getElem?_eq_getElem (by omega)]
      exact fun h => hdiffer (Option.some.inj h)

theorem firstDifference_comm (xs ys : Bytes) : firstDifference ys xs = firstDifference xs ys := by
  have hzip : ys.zip xs = (xs.zip ys).map Prod.swap := (List.zip_swap xs ys).symm
  have hsymm : (fun p : UInt8 × UInt8 => p.1 != p.2) ∘ Prod.swap = fun p => p.1 != p.2 :=
    funext fun p => bne_comm
  show ((ys.zip xs).findIdx? fun p => p.1 != p.2).getD 0 = _
  rw [hzip, List.findIdx?_map, hsymm]
  rfl

end

/-! ### Lines about two entries -/

/-- What two entries of one name differ in, each given with its content. The sizes of contents come
before the contents, and how entries are stored is looked at on demand only. -/
inductive EntryDiffers (depth : Depth) (x y : Entry × Bytes) : Change → Prop
  /-- The contents have different sizes. -/
  | size (h : x.2.length ≠ y.2.length) :
    EntryDiffers depth x y (.values "size" (toString x.2.length) (toString y.2.length))
  /-- The contents have one size, and differ from a place on. -/
  | content {place : ℕ} (hsize : x.2.length = y.2.length)
    (h : IsFirstDifference x.2 y.2 place) :
    EntryDiffers depth x y (.values "content" "original" s!"differs from byte {place}")
  /-- They start at different places. -/
  | offset (hfull : depth = .full) (h : x.1.offset ≠ y.1.offset) :
    EntryDiffers depth x y (.values "offset" (toString x.1.offset) (toString y.1.offset))
  /-- They take up different numbers of bytes. -/
  | stored (hfull : depth = .full) (h : x.1.stored ≠ y.1.stored) :
    EntryDiffers depth x y (.values "stored length" (toString x.1.stored) (toString y.1.stored))
  /-- Their codecs are different. -/
  | codec (hfull : depth = .full) (h : x.1.codec ≠ y.1.codec) :
    EntryDiffers depth x y (.values "codec" x.1.codec.outline.line y.1.codec.outline.line)

/-- Two entries, each with its content, differ in what is compared. -/
def AreApart (depth : Depth) (x y : Entry × Bytes) : Prop :=
  x.2 ≠ y.2 ∨ depth = .full ∧
    (x.1.offset ≠ y.1.offset ∨ x.1.stored ≠ y.1.stored ∨ x.1.codec ≠ y.1.codec)

theorem mem_between? : change ∈ Change.between? what old new ↔
    old ≠ new ∧ change = .values what old new := by
  rw [Change.between?]
  split <;> simp_all [eq_comm]

theorem toString_ne_iff {m n : ℕ} : toString m ≠ toString n ↔ m ≠ n :=
  not_congr Text.toString_injective.eq_iff

theorem mem_contentChanges : change ∈ contentChanges x.2 y.2 ↔
    x.2.length ≠ y.2.length ∧
        change = .values "size" (toString x.2.length) (toString y.2.length) ∨
      x.2.length = y.2.length ∧ ∃ place, IsFirstDifference x.2 y.2 place ∧
        change = .values "content" "original" s!"differs from byte {place}" := by
  rw [contentChanges, Change.between?]
  by_cases hsize : x.2.length = y.2.length
  · rw [if_pos (congrArg toString hsize)]
    simp only [hsize, ne_eq, not_true_eq_false, false_and, false_or, true_and]
    by_cases hsame : x.2 = y.2
    · simp [hsame, IsFirstDifference]
    · have hfirst := isFirstDifference_of_ne hsize hsame
      simp only [hsame, if_false, List.mem_singleton]
      constructor
      · rintro rfl
        exact ⟨_, hfirst, rfl⟩
      · rintro ⟨place, hplace, rfl⟩
        rw [hplace.unique hfirst]
  · rw [if_neg (toString_ne_iff.mpr hsize)]
    simp [hsize]

theorem mem_storageChanges : change ∈ storageChanges x.1 y.1 ↔
    x.1.offset ≠ y.1.offset ∧
        change = .values "offset" (toString x.1.offset) (toString y.1.offset) ∨
      x.1.stored ≠ y.1.stored ∧
        change = .values "stored length" (toString x.1.stored) (toString y.1.stored) ∨
      x.1.codec ≠ y.1.codec ∧
        change = .values "codec" x.1.codec.outline.line y.1.codec.outline.line := by
  simp only [storageChanges, List.mem_filterMap, List.mem_cons, List.not_mem_nil, or_false,
    exists_eq_or_imp, exists_eq_left, id_eq, ← Option.mem_def, mem_between?, toString_ne_iff,
    ne_eq, Codec.line_inj]

/-- **There is a line exactly for each difference** of two entries. -/
theorem mem_entryChanges : change ∈ entryChanges depth x.1 y.1 x.2 y.2 ↔
    EntryDiffers depth x y change := by
  rw [entryChanges, List.mem_append, mem_contentChanges]
  constructor
  · rintro ((⟨h, rfl⟩ | ⟨hsize, place, h, rfl⟩) | h)
    · exact .size h
    · exact .content hsize h
    · split at h
      · next hfull =>
        rcases mem_storageChanges.mp h with ⟨hne, rfl⟩ | ⟨hne, rfl⟩ | ⟨hne, rfl⟩
        · exact .offset hfull hne
        · exact .stored hfull hne
        · exact .codec hfull hne
      · exact absurd h List.not_mem_nil
  · intro h
    cases h with
    | size h => exact .inl (.inl ⟨h, rfl⟩)
    | content hsize h => exact .inl (.inr ⟨hsize, _, h, rfl⟩)
    | offset hfull h =>
      rw [if_pos hfull]
      exact .inr (mem_storageChanges.mpr (.inl ⟨h, rfl⟩))
    | stored hfull h =>
      rw [if_pos hfull]
      exact .inr (mem_storageChanges.mpr (.inr (.inl ⟨h, rfl⟩)))
    | codec hfull h =>
      rw [if_pos hfull]
      exact .inr (mem_storageChanges.mpr (.inr (.inr ⟨h, rfl⟩)))

/-- There is a line at all if the entries differ in anything that is compared. -/
theorem entryChanges_ne_nil : entryChanges depth x.1 y.1 x.2 y.2 ≠ [] ↔ AreApart depth x y := by
  constructor
  · intro h
    obtain ⟨change, hmem⟩ := List.exists_mem_of_ne_nil _ h
    cases mem_entryChanges.mp hmem with
    | size h => exact .inl fun hsame => h (congrArg List.length hsame)
    | content hsize h => exact .inl fun hsame => h.2 (congrArg (·[_]?) hsame)
    | offset hfull h => exact .inr ⟨hfull, .inl h⟩
    | stored hfull h => exact .inr ⟨hfull, .inr (.inl h)⟩
    | codec hfull h => exact .inr ⟨hfull, .inr (.inr h)⟩
  · intro h
    suffices hdiffers : ∃ change, EntryDiffers depth x y change by
      obtain ⟨change, h⟩ := hdiffers
      exact List.ne_nil_of_mem (mem_entryChanges.mpr h)
    rcases h with hcontent | ⟨hfull, hoffset | hstored | hcodec⟩
    · by_cases hsize : x.2.length = y.2.length
      · exact ⟨_, .content hsize (isFirstDifference_of_ne hsize hcontent)⟩
      · exact ⟨_, .size hsize⟩
    · exact ⟨_, .offset hfull hoffset⟩
    · exact ⟨_, .stored hfull hstored⟩
    · exact ⟨_, .codec hfull hcodec⟩

/-! ### Sets of names -/

section

variable {α : Type} [BEq α]

/-- What is left when repetitions are dropped comes in the same order. -/
theorem sublist_eraseDups (xs : List α) : xs.eraseDups.Sublist xs := by
  match xs with
  | [] => exact .slnil
  | x :: xs =>
    rw [List.eraseDups_cons]
    exact ((sublist_eraseDups _).trans List.filter_sublist).cons_cons x
termination_by xs.length
decreasing_by exact Nat.lt_succ_of_le (List.length_filter_le _ _)

theorem nodup_eraseDups [LawfulBEq α] (xs : List α) : xs.eraseDups.Nodup := by
  match xs with
  | [] => exact List.nodup_nil
  | x :: xs =>
    rw [List.eraseDups_cons, List.nodup_cons]
    refine ⟨fun hmem => ?_, nodup_eraseDups _⟩
    simpa using List.mem_eraseDups.mp hmem
termination_by xs.length
decreasing_by exact Nat.lt_succ_of_le (List.length_filter_le _ _)

end

theorem mem_nameSet : name ∈ nameSet a ↔ name ∈ a.names := by
  rw [nameSet, List.mem_eraseDups, List.mem_mergeSort]

/-- Each name is there once, and they ascend. -/
theorem pairwise_nameSet (a : Archive) : (nameSet a).Pairwise (· < ·) := by
  have hsorted : (a.names.mergeSort fun a b => decide (a ≤ b)).Pairwise (· ≤ ·) := by
    refine (List.pairwise_mergeSort (fun a b c => ?_) (fun a b => ?_) _).imp of_decide_eq_true
    · simpa using String.le_trans
    · simpa using String.le_total a b
  exact (hsorted.sublist (sublist_eraseDups _)).imp₂ (fun _ _ hle hne => lt_of_le_of_ne hle hne)
    (nodup_eraseDups _)

/-- The common names are the same from either side. -/
theorem commonNames_comm (a b : Archive) :
    (nameSet b).filter (fun name => (nameSet a).contains name)
      = (nameSet a).filter fun name => (nameSet b).contains name := by
  refine List.Pairwise.eq_of_mem_iff ((pairwise_nameSet b).filter _) ((pairwise_nameSet a).filter _)
    fun name => ?_
  simp only [List.mem_filter, List.contains_iff_mem, and_comm]

/-! ### Reports -/

/-- A report of the differences of two archives. -/
structure Differences where
  /-- What the archives as wholes differ in. -/
  whole : List Change
  /-- The names that only the second has. -/
  added : List String
  /-- The names that only the first has. -/
  removed : List String
  /-- The names under which both hold something else, with the lines about it. -/
  modified : List (String × List Change)

/-- The differences in the order in which they are reported. -/
def Differences.changes (d : Differences) : List Change :=
  d.whole ++ d.added.map .added ++ d.removed.map .removed ++
    d.modified.map fun (name, changes) => .modified name changes

/-- A line with its two values exchanged, except that of contents, where the values are words. -/
def exchanged : Change → Change
  | .values what old new => if what = "content" then .values what old new else .values what new old
  | change => change

/-- The report when the archives change places. -/
def Differences.swapped (d : Differences) : Differences where
  whole := d.whole.map exchanged
  added := d.removed
  removed := d.added
  modified := d.modified.map fun (name, changes) => (name, changes.map exchanged)

/-- A report says what two archives differ in, all of it, and nothing else. -/
structure Differences.AreExact (depth : Depth) (files : FileTree) (a b : Archive)
    (d : Differences) : Prop where
  /-- The archives as wholes differ in their formats and in their numbers of entries. -/
  whole_eq : d.whole =
    (if a.format = b.format then [] else [.values "format" a.format b.format]) ++
    (if a.size = b.size then [] else [.values "entries" (toString a.size) (toString b.size)])
  /-- Added names are given once, in ascending order. -/
  pairwise_added : d.added.Pairwise (· < ·)
  /-- They are those of the second archive that the first has not. -/
  mem_added : ∀ name, name ∈ d.added ↔ name ∈ b.names ∧ name ∉ a.names
  /-- Removed names are given once, in ascending order. -/
  pairwise_removed : d.removed.Pairwise (· < ·)
  /-- They are those of the first archive that the second has not. -/
  mem_removed : ∀ name, name ∈ d.removed ↔ name ∈ a.names ∧ name ∉ b.names
  /-- Names under which something else is held are given once, in ascending order. -/
  pairwise_modified : (d.modified.map Prod.fst).Pairwise (· < ·)
  /-- They are the common names whose first entries differ. -/
  mem_modified : ∀ name, name ∈ d.modified.map Prod.fst ↔
    ∃ x y, a.Holds files name x ∧ b.Holds files name y ∧ AreApart depth x y
  /-- The lines about a name are those about its first entries. -/
  mem_lines : ∀ name changes, (name, changes) ∈ d.modified →
    ∀ x y, a.Holds files name x → b.Holds files name y →
      ∀ change, change ∈ changes ↔ EntryDiffers depth x y change

/-! ### The report that is made -/

theorem mapM_of_forall {ε α β : Type} {f : α → Except ε β} {g : α → β} {xs : List α}
    (h : ∀ x ∈ xs, f x = .ok (g x)) : xs.mapM f = .ok (xs.map g) := by
  induction xs with
  | nil => rfl
  | cons x xs ih =>
    rw [List.mapM_cons, h x List.mem_cons_self, ih fun y hy => h y (List.mem_cons_of_mem _ hy)]
    rfl

theorem flatten_map_toList {α β γ : Type} (f : α → Option β) (g : β → γ) (xs : List α) :
    (xs.map fun x => (f x).toList.map g).flatten = (xs.filterMap f).map g := by
  induction xs with
  | nil => rfl
  | cons x xs ih => cases h : f x <;> simp [h, ih]

/-- What an archive holds under a name, if it can be had. -/
def held? (files : FileTree) (a : Archive) (name : String) : Option (Entry × Bytes) := do
  let i ← a.indexOf? name
  let e ← a.entries[i]?
  let content ← (a.readEntry files i).1.toOption
  return (e, content)

/-- The lines about a name, if there are any. -/
def modified? (depth : Depth) (files : FileTree) (a b : Archive) (name : String) :
    Option (String × List Change) := do
  let x ← held? files a name
  let y ← held? files b name
  let changes := entryChanges depth x.1 y.1 x.2 y.2
  if changes.isEmpty then none else some (name, changes)

/-- The report of two archives that can be read. -/
def differences (depth : Depth) (files : FileTree) (a b : Archive) : Differences where
  whole := [Change.between? "format" a.format b.format,
    Change.between? "entries" (toString a.size) (toString b.size)].filterMap id
  added := (nameSet b).filter fun name => !(nameSet a).contains name
  removed := (nameSet a).filter fun name => !(nameSet b).contains name
  modified := ((nameSet a).filter fun name => (nameSet b).contains name).filterMap
    (modified? depth files a b)

theorem held?_eq_some (h : a.Holds files name x) : held? files a name = some x := by
  obtain ⟨i, hfirst, hget, hread⟩ := h
  simp [held?, hfirst.indexOf?_eq, hget, hread, Except.toOption]

theorem modified?_eq (hx : a.Holds files name x) (hy : b.Holds files name y) :
    modified? depth files a b name =
      if (entryChanges depth x.1 y.1 x.2 y.2).isEmpty then none
      else some (name, entryChanges depth x.1 y.1 x.2 y.2) := by
  rw [modified?, held?_eq_some hx, held?_eq_some hy]
  rfl

theorem compareNamed_eq (hx : a.Holds files name x) (hy : b.Holds files name y) :
    compareNamed depth files a b name =
      .ok ((modified? depth files a b name).toList.map
        fun (name, changes) => .modified name changes) := by
  rw [modified?_eq hx hy]
  obtain ⟨i, hfirst, hget, hread⟩ := hx
  obtain ⟨j, hfirst', hget', hread'⟩ := hy
  rw [compareNamed, hfirst.indexOf?_eq, hfirst'.indexOf?_eq]
  simp only [hread, hread', hget, hget', bind, Except.bind, pure, Except.pure]
  split <;> simp_all

/-- **Archives that can be read are compared**, and the report is the lines of its groups. -/
theorem compare_eq (ha : a.AllReadable files) (hb : b.AllReadable files) :
    compare depth files a b = .ok (differences depth files a b).changes := by
  have hcommon : ((nameSet a).filter fun name => (nameSet b).contains name).mapM
      (compareNamed depth files a b)
      = .ok (((nameSet a).filter fun name => (nameSet b).contains name).map fun name =>
          (modified? depth files a b name).toList.map
            fun (name, changes) => .modified name changes) := by
    refine mapM_of_forall fun name hname => ?_
    obtain ⟨hna, hnb⟩ := List.mem_filter.mp hname
    obtain ⟨x, hx⟩ := Archive.exists_holds ha (mem_nameSet.mp hna)
    obtain ⟨y, hy⟩ := Archive.exists_holds hb (mem_nameSet.mp (List.contains_iff_mem.mp hnb))
    exact compareNamed_eq hx hy
  rw [compare]
  simp only [hcommon, bind, Except.bind, pure, Except.pure, flatten_map_toList]
  rfl

theorem isEmpty_entryChanges :
    (entryChanges depth x.1 y.1 x.2 y.2).isEmpty = true ↔ ¬ AreApart depth x y := by
  rw [List.isEmpty_iff, ← entryChanges_ne_nil, ne_eq, not_not]

/-- What is reported under a name is about entries of that name in both archives. -/
theorem modified?_eq_some (ha : a.AllReadable files) (hb : b.AllReadable files)
    (hna : name ∈ a.names) (hnb : name ∈ b.names) {line : String × List Change} :
    modified? depth files a b name = some line ↔
      ∃ x y, a.Holds files name x ∧ b.Holds files name y ∧ AreApart depth x y ∧
        line = (name, entryChanges depth x.1 y.1 x.2 y.2) := by
  obtain ⟨x, hx⟩ := Archive.exists_holds ha hna
  obtain ⟨y, hy⟩ := Archive.exists_holds hb hnb
  rw [modified?_eq hx hy]
  constructor
  · intro h
    split at h
    · cases h
    · next hlines =>
      rw [isEmpty_entryChanges, not_not] at hlines
      exact ⟨x, y, hx, hy, hlines, (Option.some.inj h).symm⟩
  · rintro ⟨x', y', hx', hy', hapart, rfl⟩
    rw [hx.unique hx', hy.unique hy', if_neg (fun h => isEmpty_entryChanges.mp h hapart)]

/-- Lines under distinct names, some of them left out, are under names in the same order. -/
theorem sublist_map_fst {α β : Type} {f : α → Option (α × β)}
    (hf : ∀ x line, f x = some line → line.1 = x) (xs : List α) :
    ((xs.filterMap f).map Prod.fst).Sublist xs := by
  induction xs with
  | nil => exact .slnil
  | cons x xs ih =>
    cases h : f x with
    | none =>
      rw [List.filterMap_cons_none h]
      exact ih.cons x
    | some line =>
      rw [List.filterMap_cons_some h, List.map_cons, hf x line h]
      exact ih.cons_cons x

theorem fst_of_modified? {line : String × List Change}
    (h : modified? depth files a b name = some line) : line.1 = name := by
  simp only [modified?, Option.bind_eq_bind, Option.bind_eq_some_iff] at h
  obtain ⟨x, -, y, -, h⟩ := h
  split at h
  · cases h
  · cases h
    rfl

theorem mem_common : name ∈ (nameSet a).filter (fun name => (nameSet b).contains name) ↔
    name ∈ a.names ∧ name ∈ b.names := by
  rw [List.mem_filter, List.contains_iff_mem, mem_nameSet, mem_nameSet]

theorem mem_modified (ha : a.AllReadable files) (hb : b.AllReadable files)
    {line : String × List Change} : line ∈ (differences depth files a b).modified ↔
      ∃ x y, a.Holds files line.1 x ∧ b.Holds files line.1 y ∧ AreApart depth x y ∧
        line.2 = entryChanges depth x.1 y.1 x.2 y.2 := by
  rw [differences, List.mem_filterMap]
  constructor
  · rintro ⟨name, hname, h⟩
    obtain ⟨hna, hnb⟩ := mem_common.mp hname
    obtain ⟨x, y, hx, hy, hapart, rfl⟩ := (modified?_eq_some ha hb hna hnb).mp h
    exact ⟨x, y, hx, hy, hapart, rfl⟩
  · rintro ⟨x, y, hx, hy, hapart, hlines⟩
    refine ⟨line.1, mem_common.mpr ⟨hx.mem_names, hy.mem_names⟩, ?_⟩
    exact (modified?_eq_some ha hb hx.mem_names hy.mem_names).mpr
      ⟨x, y, hx, hy, hapart, Prod.ext rfl hlines⟩

theorem areExact_differences (ha : a.AllReadable files) (hb : b.AllReadable files) :
    (differences depth files a b).AreExact depth files a b where
  whole_eq := by
    have hsize : toString a.size = toString b.size ↔ a.size = b.size :=
      Text.toString_injective.eq_iff
    simp only [differences, Change.between?, hsize]
    split <;> split <;> rfl
  pairwise_added := (pairwise_nameSet b).filter _
  mem_added name := by simp [differences, mem_nameSet]
  pairwise_removed := (pairwise_nameSet a).filter _
  mem_removed name := by simp [differences, mem_nameSet]
  pairwise_modified :=
    ((pairwise_nameSet a).filter _).sublist (sublist_map_fst (fun _ _ => fst_of_modified?) _)
  mem_modified name := by
    constructor
    · intro h
      obtain ⟨line, hline, rfl⟩ := List.mem_map.mp h
      obtain ⟨x, y, hx, hy, hapart, -⟩ := (mem_modified ha hb).mp hline
      exact ⟨x, y, hx, hy, hapart⟩
    · rintro ⟨x, y, hx, hy, hapart⟩
      exact List.mem_map.mpr ⟨(name, _), (mem_modified ha hb).mpr ⟨x, y, hx, hy, hapart, rfl⟩, rfl⟩
  mem_lines name changes hmem x y hx hy change := by
    obtain ⟨x', y', hx', hy', -, rfl⟩ := (mem_modified ha hb).mp hmem
    rw [hx.unique hx', hy.unique hy']
    exact mem_entryChanges

/-- An exact report is empty if there is nothing to report. -/
theorem Differences.AreExact.changes_eq_nil_iff {d : Differences}
    (h : d.AreExact depth files a b) : d.changes = [] ↔
      a.format = b.format ∧ a.size = b.size ∧ (∀ name, name ∈ a.names ↔ name ∈ b.names) ∧
        ∀ name x y, a.Holds files name x → b.Holds files name y → ¬ AreApart depth x y := by
  have hwhole : d.whole = [] ↔ a.format = b.format ∧ a.size = b.size := by
    rw [h.whole_eq, List.append_eq_nil_iff]
    split <;> split <;> simp_all
  have hnames : d.added = [] ∧ d.removed = [] ↔ ∀ name, name ∈ a.names ↔ name ∈ b.names := by
    simp only [List.eq_nil_iff_forall_not_mem, h.mem_added, h.mem_removed, ← forall_and]
    exact forall_congr' fun name => by tauto
  have hmodified : d.modified = [] ↔
      ∀ name x y, a.Holds files name x → b.Holds files name y → ¬ AreApart depth x y := by
    rw [← List.map_eq_nil_iff (f := Prod.fst), List.eq_nil_iff_forall_not_mem]
    simp only [h.mem_modified, not_exists, not_and]
  rw [changes]
  simp only [List.append_eq_nil_iff, List.map_eq_nil_iff]
  rw [and_assoc (a := d.whole = []), hwhole, hnames, hmodified, and_assoc, and_assoc]

/-! ### The other way round -/

theorem map_exchanged_between? (h : what ≠ "content") :
    (Change.between? what old new).map exchanged = Change.between? what new old := by
  rw [Change.between?, Change.between?]
  by_cases hsame : old = new
  · rw [if_pos hsame, if_pos hsame.symm, Option.map_none]
  · rw [if_neg hsame, if_neg (Ne.symm hsame), Option.map_some, exchanged, if_neg h]

theorem map_exchanged_filterMap (lines : List (Option Change)) :
    (lines.filterMap id).map exchanged = (lines.map (Option.map exchanged)).filterMap id := by
  rw [List.map_filterMap, List.filterMap_map]
  rfl

theorem map_exchanged_storageChanges (e f : Entry) :
    (storageChanges e f).map exchanged = storageChanges f e := by
  rw [storageChanges, map_exchanged_filterMap]
  simp only [List.map_cons, List.map_nil]
  rw [map_exchanged_between? (by decide), map_exchanged_between? (by decide),
    map_exchanged_between? (by decide), storageChanges]

theorem map_exchanged_contentChanges (xs ys : Bytes) :
    (contentChanges xs ys).map exchanged = contentChanges ys xs := by
  have hsize : (Change.between? "size" (toString xs.length) (toString ys.length)).map exchanged
      = Change.between? "size" (toString ys.length) (toString xs.length) :=
    map_exchanged_between? (by decide)
  rw [contentChanges, contentChanges, ← hsize, firstDifference_comm]
  cases Change.between? "size" (toString xs.length) (toString ys.length) with
  | some change => rfl
  | none =>
    by_cases hsame : xs = ys
    · simp [hsame]
    · simp [hsame, Ne.symm hsame, exchanged]

theorem map_exchanged_entryChanges (e f : Entry) (xs ys : Bytes) :
    (entryChanges depth e f xs ys).map exchanged = entryChanges depth f e ys xs := by
  rw [entryChanges, entryChanges, List.map_append, map_exchanged_contentChanges]
  split
  · rw [map_exchanged_storageChanges]
  · rfl

theorem modified?_swapped (name : String) : modified? depth files b a name
    = (modified? depth files a b name).map fun (name, changes) => (name, changes.map exchanged) := by
  rw [modified?, modified?]
  cases held? files a name with
  | none => cases held? files b name <;> rfl
  | some x =>
    cases held? files b name with
    | none => rfl
    | some y =>
      simp only [Option.bind_eq_bind, Option.bind_some, ← map_exchanged_entryChanges x.1,
        List.isEmpty_map]
      split <;> rfl

/-- The report of two archives that have changed places. -/
theorem differences_swapped :
    differences depth files b a = (differences depth files a b).swapped := by
  have hmodified : modified? depth files b a = fun name => (modified? depth files a b name).map
      fun (name, changes) => (name, changes.map exchanged) := funext modified?_swapped
  have hwhole : (differences depth files b a).whole
      = (differences depth files a b).whole.map exchanged := by
    simp only [differences, map_exchanged_filterMap, List.map_cons, List.map_nil]
    rw [map_exchanged_between? (by decide), map_exchanged_between? (by decide)]
  have hlines : (differences depth files b a).modified
      = (differences depth files a b).modified.map
          fun (name, changes) => (name, changes.map exchanged) := by
    simp only [differences, commonNames_comm a b, hmodified, List.map_filterMap]
  rw [Differences.swapped, ← hwhole, ← hlines]
  rfl

/-- **What is reported are the differences.** Two archives whose entries can all be read are
compared, and the report is exact: it is empty exactly if the archives agree in their formats, in
their numbers of entries, in their names and in what they hold under each of them. An archive and
itself do agree. When the archives change places, the report is the same with added and removed
names exchanged, and old and new values. -/
theorem compare_exact (ha : a.AllReadable files) (hb : b.AllReadable files) (depth : Depth) :
    ∃ d : Differences, compare depth files a b = .ok d.changes ∧ d.AreExact depth files a b ∧
      (d.changes = [] ↔ a.format = b.format ∧ a.size = b.size ∧
        (∀ name, name ∈ a.names ↔ name ∈ b.names) ∧
        ∀ name x y, a.Holds files name x → b.Holds files name y → ¬ AreApart depth x y) ∧
      compare depth files a a = .ok [] ∧ compare depth files b a = .ok d.swapped.changes := by
  have hexact : (differences depth files a b).AreExact depth files a b := areExact_differences ha hb
  refine ⟨differences depth files a b, compare_eq ha hb, hexact, hexact.changes_eq_nil_iff, ?_, ?_⟩
  · have hself : (differences depth files a a).changes = [] := by
      refine (areExact_differences ha ha).changes_eq_nil_iff.mpr ⟨rfl, rfl, fun _ => Iff.rfl, ?_⟩
      intro name x y hx hy
      rw [hx.unique hy]
      simp [AreApart]
    rw [compare_eq ha ha, hself]
  · rw [compare_eq hb ha, differences_swapped]

/-- Three entries, two of them of one name. -/
def drawer : Archive where
  format := "ofs"
  stream := .ofBytes [0x68, 0x69, 0x20, 0x22]
  entries :=
    [{ source := .memory 4, name := some "b", offset := 0, stored := 2 },
      { source := .memory 4, name := some "a", offset := 2, stored := 1 },
      { source := .memory 4, name := some "b", offset := 2, stored := 2 }]

/-- The first of them is enciphered, one is changed, and one has another name. -/
def otherDrawer : Archive where
  format := "ofs"
  stream := .ofBytes [0x69, 0x68, 0x21]
  entries :=
    [{ source := .memory 3, name := some "b", offset := 0, stored := 2, codec := [.xor [1]] },
      { source := .memory 3, name := some "a", offset := 2, stored := 1 },
      { source := .memory 3, name := some "c", offset := 2, stored := 1 }]

theorem nameSet_drawer : nameSet drawer = ["a", "b"] := by
  have hsorted : drawer.names.mergeSort (fun a b => decide (a ≤ b)) = ["a", "b", "b"] := by
    simp [Archive.names, drawer, List.mergeSort]
  rw [nameSet, hsorted]
  rfl

theorem nameSet_otherDrawer : nameSet otherDrawer = ["a", "b", "c"] := by
  have hsorted : otherDrawer.names.mergeSort (fun a b => decide (a ≤ b)) = ["a", "b", "c"] := by
    simp [Archive.names, otherDrawer, List.mergeSort]
  rw [nameSet, hsorted]
  rfl

/-- The second entry of a name is not looked at, and a cipher is not a change of content. -/
theorem compare_exact_drawers :
    drawer.AllReadable .empty ∧ otherDrawer.AllReadable .empty ∧
    ∃ d : Differences, compare .full .empty drawer otherDrawer = .ok d.changes ∧
      compare .full .empty otherDrawer drawer = .ok d.swapped.changes ∧
      d.changes =
        [.added "c", .modified "a" [.values "content" "original" "differs from byte 0"],
          .modified "b" [.values "codec" "[]" "[Xor \x7b key: [1] \x7d]"]] := by
  have hleft : drawer.AllReadable .empty := fun i hi =>
    match i, hi with
    | 0, _ | 1, _ | 2, _ => ⟨_, rfl⟩
  have hright : otherDrawer.AllReadable .empty := fun i hi =>
    match i, hi with
    | 0, _ | 1, _ | 2, _ => ⟨_, rfl⟩
  obtain ⟨d, hd, -, -, -, hswapped⟩ := compare_exact hleft hright .full
  refine ⟨hleft, hright, d, hd, hswapped, ?_⟩
  refine Except.ok.inj (hd.symm.trans ?_)
  rw [Command.compare, nameSet_drawer, nameSet_otherDrawer]
  rfl

end Command

end Packfile
