import Packfile.Proofs.ConsistentTables

/-!
# Entries that end where the next one starts

A directory that states only where its entries start says by that how long they are: each ends where
the next one starts, and the last where the directory says. It takes two steps to find the entries.
A table of offsets is read, each of them a number of units, and then the lengths are taken between
neighbours.

## The words in between

The first step multiplies words and the second subtracts them, and neither result need be a word.
A product that is too large stops the first step, an offset that lies behind its neighbour the
second, so whatever comes out is exact: it is what the same arithmetic gives without any bound. Of
the numbers of the table nothing else is asked. They may repeat, which makes empty entries, and the
unit may be 0, which makes all of them start at 0.

## Which number is blamed

Both steps go through the table from its start, so the error is that of the first number that they
cannot take, and every product is looked at before any difference is.

## Main definitions

* `Listing.IsTiling` — lengths that lead from each offset to the next one
* `Reader.offsetsAndLengths` — the two steps
* `Tables.Blames` — the error of a table from which they find no entries

## Main results

* `Listing.lengths_eq_ok` — the lengths that are found are those that tile
* `Listing.IsTiling.add_sum` — they add up to the range that they tile
* `Tables.offsetsAndLengths_tile` — when entries are found, where they are, and what else comes out
-/

namespace Packfile

open Run Reading

/-! ### Lengths between offsets -/

namespace Listing

variable {offsets lens : List ℕ} {offset length first next stop : ℕ} {e : Error}

/-- Each length leads from its offset to the next one, and the last length to `stop`. -/
structure IsTiling (offsets lens : List ℕ) (stop : ℕ) : Prop where
  /-- There is a length for each offset. -/
  length_eq : lens.length = offsets.length
  /-- It leads to the next offset. -/
  add_eq : ∀ i offset length, offsets[i]? = some offset → lens[i]? = some length →
    offset + length = offsets[i + 1]?.getD stop

theorem isTiling_nil : IsTiling [] lens stop ↔ lens = [] := by
  constructor
  · exact fun h => List.length_eq_zero_iff.mp h.length_eq
  · rintro rfl
    exact ⟨rfl, fun i offset length hoffset => by simp at hoffset⟩

/-- The first length leads to the next offset, and the others tile what is behind it. -/
theorem isTiling_cons : IsTiling (offset :: offsets) (length :: lens) stop ↔
    offset + length = offsets.headD stop ∧ IsTiling offsets lens stop := by
  have hnext : (offset :: offsets)[1]?.getD stop = offsets.headD stop := by cases offsets <;> rfl
  constructor
  · intro h
    refine ⟨?_, Nat.succ.inj h.length_eq, fun i => h.add_eq (i + 1)⟩
    rw [h.add_eq 0 offset length rfl rfl, hnext]
  · rintro ⟨hfirst, h⟩
    refine ⟨congrArg Nat.succ h.length_eq, fun i offset' length' hoffset hlength => ?_⟩
    cases i with
    | zero =>
      cases hoffset
      cases hlength
      rw [hfirst, hnext]
    | succ i => exact h.add_eq i offset' length' hoffset hlength

/-- **The lengths that are found are those that tile.** -/
theorem lengths_eq_ok : lengths offsets stop = .ok lens ↔ IsTiling offsets lens stop := by
  induction offsets generalizing lens with
  | nil => rw [lengths, Except.ok.injEq, eq_comm, isTiling_nil]
  | cons offset offsets ih =>
    simp only [lengths, except_bind_eq_ok, except_pure_eq_ok, Ofs.gap_eq_ok, ih]
    constructor
    · rintro ⟨_, hfirst, _, htiling, rfl⟩
      exact isTiling_cons.mpr ⟨hfirst, htiling⟩
    · intro h
      cases lens with
      | nil => exact absurd h.length_eq (by simp)
      | cons length lens =>
        obtain ⟨hfirst, htiling⟩ := isTiling_cons.mp h
        exact ⟨length, hfirst, lens, htiling, rfl⟩

/-- Lengths that tile add up to the range from the first offset on. -/
theorem IsTiling.add_sum (h : IsTiling (first :: offsets) lens stop) :
    first + lens.sum = stop := by
  induction offsets generalizing first lens with
  | nil =>
    obtain ⟨length, rfl⟩ := List.length_eq_one_iff.mp h.length_eq
    simpa using (isTiling_cons.mp h).1
  | cons next offsets ih =>
    cases lens with
    | nil => exact absurd h.length_eq (by simp)
    | cons length lens =>
      obtain ⟨hfirst, htiling⟩ := isTiling_cons.mp h
      rw [List.headD_cons] at hfirst
      rw [List.sum_cons, ← Nat.add_assoc, hfirst, ih htiling]

/-- There are lengths that tile if the offsets do not fall and the end is behind them all. -/
theorem exists_isTiling_iff : (∃ lens, IsTiling offsets lens stop) ↔
    offsets.Pairwise (· ≤ ·) ∧ ∀ offset ∈ offsets, offset ≤ stop := by
  simp only [← lengths_eq_ok, Ofs.exists_lengths_iff, List.isChain_iff_pairwise,
    List.pairwise_append, List.pairwise_singleton, true_and, List.mem_singleton, forall_eq]

theorem gap_eq_error : gap offset next = .error e ↔
    next < offset ∧ e = .exceeds "entry offset" offset next := by
  by_cases h : offset ≤ next
  · simp [gap, Word.sub?, h, Nat.not_lt.mpr h]
  · simp [gap, Word.sub?, h, Nat.lt_of_not_le h, eq_comm]

/-- Where no lengths are found, the first offset that lies behind its neighbour is blamed. -/
theorem of_lengths_eq_error (h : lengths offsets stop = .error e) : ∃ front offset behind,
    offsets = front ++ offset :: behind ∧ (front ++ [offset]).IsChain (· ≤ ·) ∧
      behind.headD stop < offset ∧ e = .exceeds "entry offset" offset (behind.headD stop) := by
  induction offsets with
  | nil => cases h
  | cons first offsets ih =>
    rw [lengths] at h
    cases hgap : gap first (offsets.headD stop) with
    | error e' =>
      rw [hgap] at h
      cases h
      obtain ⟨hlt, rfl⟩ := gap_eq_error.mp hgap
      exact ⟨[], first, offsets, rfl, .singleton _, hlt, rfl⟩
    | ok length =>
      have hle : first ≤ offsets.headD stop := by
        have := Ofs.gap_eq_ok.mp hgap
        omega
      have hrest : lengths offsets stop = .error e := by
        rw [hgap] at h
        cases hlengths : lengths offsets stop with
        | error e' =>
          rw [hlengths] at h
          cases h
          rfl
        | ok lens =>
          rw [hlengths] at h
          cases h
      obtain ⟨front, offset, behind, rfl, hchain, hlt, rfl⟩ := ih hrest
      -- the first offset does not lie behind its neighbour, which begins the rest
      refine ⟨first :: front, offset, behind, rfl, ?_, hlt, rfl⟩
      cases front with
      | nil => exact .cons_cons hle hchain
      | cons second front => exact .cons_cons hle hchain

end Listing

/-! ### The two steps -/

/-- The offsets of a table, and the lengths from each to the next one and from the last to `stop`. -/
def Reader.offsetsAndLengths (count : EntryCount) (width : ℕ) (order : ByteOrder)
    (scale stop : ℕ) : Reader (List ℕ × List ℕ) := do
  let offsets ← Reader.offsetTable count width order scale
  let lens ← Reader.ofExcept (Listing.lengths offsets stop)
  return (offsets, lens)

namespace Tables

variable {s t : Stream} {order : ByteOrder} {c : EntryCount} {found : Array ℕ}
  {offsets lens : List ℕ} {width scale count raw stop : ℕ} {e : Error}

/-- The error that a table of numbers gives rise to, if a scaled number is no word or an offset lies
behind its neighbour. -/
inductive Blames (raws : List ℕ) (scale stop : ℕ) : Error → Prop where
  /-- The first number whose product is no word is blamed. -/
  | product {front behind : List ℕ} {raw : ℕ} (hsplit : raws = front ++ raw :: behind)
    (hfront : ∀ r ∈ front, r * scale ≤ Word.max) (hlt : Word.max < raw * scale) :
    Blames raws scale stop (.exceeds "scaled offset" raw (Word.max / max scale 1))
  /-- If there is none, the first offset that lies behind its neighbour is. -/
  | fall {front behind : List ℕ} {offset : ℕ} (hall : ∀ raw ∈ raws, raw * scale ≤ Word.max)
    (hsplit : raws.map (· * scale) = front ++ offset :: behind)
    (hchain : (front ++ [offset]).IsChain (· ≤ ·)) (hlt : behind.headD stop < offset) :
    Blames raws scale stop (.exceeds "entry offset" offset (behind.headD stop))

theorem scaled_eq_error : Reader.scaled raw scale = .error e ↔
    Word.max < raw * scale ∧ e = .exceeds "scaled offset" raw (Word.max / max scale 1) := by
  by_cases h : raw * scale ≤ Word.max
  · simp [Reader.scaled, Word.mul?, h, Nat.not_lt.mpr h]
  · simp [Reader.scaled, Word.mul?, h, Nat.lt_of_not_le h, eq_comm]

section

variable (hwidth : Reader.isIntegerWidth width = true)
include hwidth

/-- A table that is there is read up to the first number that gives no word, and that one is
blamed. -/
theorem of_offsetsFrom_eq_error (hroom : width * count ≤ s.ahead.length)
    (h : Reader.offsetsFrom width order scale count found s = .error e t) :
    ∃ front raw behind, integers order width count s.ahead = front ++ raw :: behind ∧
      (∀ r ∈ front, r * scale ≤ Word.max) ∧ Word.max < raw * scale ∧
        e = .exceeds "scaled offset" raw (Word.max / max scale 1) := by
  induction count generalizing found s with
  | zero => cases h
  | succ count ih =>
    rw [Nat.mul_succ] at hroom
    -- the number is there, so that only its product can be refused
    have hraw : Reader.uint width order s
        = .ok (order.decode (s.ahead.take width)) (s.advance width) :=
      (uint_eq_ok hwidth).mpr ⟨by omega, rfl, rfl⟩
    rw [Reader.offsetsFrom, bind_of_ok hraw] at h
    rw [integers]
    cases hscaled : Reader.scaled (order.decode (s.ahead.take width)) scale with
    | error e' =>
      rw [hscaled] at h
      cases h
      obtain ⟨hlt, rfl⟩ := scaled_eq_error.mp hscaled
      exact ⟨[], _, _, rfl, fun r hr => absurd hr List.not_mem_nil, hlt, rfl⟩
    | ok offset =>
      obtain ⟨hfirst, -⟩ := scaled_eq_ok.mp hscaled
      rw [hscaled, bind_of_ok (ofExcept_eq_ok.mpr ⟨rfl, rfl⟩)] at h
      have hrest : width * count ≤ (s.advance width).ahead.length := by
        rw [Stream.ahead_advance, List.length_drop]
        omega
      obtain ⟨front, raw, behind, hsplit, hfront, hlt, he⟩ := ih hrest h
      rw [Stream.ahead_advance] at hsplit
      exact ⟨_ :: front, raw, behind, by rw [hsplit, List.cons_append],
        List.forall_mem_cons.mpr ⟨hfirst, hfront⟩, hlt, he⟩

variable (hroom : width * c.value ≤ s.ahead.length)
include hroom

/-- Entries are found where the products are words, and they tile. -/
theorem offsetsAndLengths_eq_ok :
    ((Reader.offsetsAndLengths c width order scale stop).outcome s).1 = .ok (offsets, lens) ↔
      (∀ raw ∈ integers order width c.value s.ahead, raw * scale ≤ Word.max) ∧
      offsets = (integers order width c.value s.ahead).map (· * scale) ∧
      Listing.IsTiling offsets lens stop := by
  simp only [Reader.outcome_eq_ok, Reader.offsetsAndLengths, bind_eq_ok, pure_eq_ok,
    ofExcept_eq_ok, scaledTable_eq_ok hwidth, Listing.lengths_eq_ok, Prod.mk.injEq]
  constructor
  · rintro ⟨_, _, _, ⟨-, hall, rfl, rfl⟩, _, _, ⟨htiling, rfl⟩, ⟨rfl, rfl⟩, rfl⟩
    exact ⟨hall, rfl, htiling⟩
  · rintro ⟨hall, rfl, htiling⟩
    exact ⟨_, _, _, ⟨hroom, hall, rfl, rfl⟩, _, _, ⟨htiling, rfl⟩, ⟨rfl, rfl⟩, rfl⟩

/-- Where no entries are found, a number is blamed. -/
theorem blames_of_eq_error
    (h : ((Reader.offsetsAndLengths c width order scale stop).outcome s).1 = .error e) :
    Blames (integers order width c.value s.ahead) scale stop e := by
  obtain ⟨t, ht⟩ := Reader.outcome_eq_error.mp h
  rw [Reader.offsetsAndLengths, bind_eq_error] at ht
  rcases ht with htable | ⟨offsets, u, htable, hlengths⟩
  · rw [Reader.offsetTable, bind_eq_error] at htable
    rcases htable with hfrom | ⟨_, _, -, hpure⟩
    · obtain ⟨front, raw, behind, hsplit, hfront, hlt, rfl⟩ :=
        of_offsetsFrom_eq_error hwidth hroom hfrom
      exact .product hsplit hfront hlt
    · exact (pure_eq_error.mp hpure).elim
  · obtain ⟨-, hall, rfl, -⟩ := (scaledTable_eq_ok hwidth).mp htable
    rw [bind_eq_error] at hlengths
    rcases hlengths with hlengths | ⟨_, _, -, hpure⟩
    · obtain ⟨front, offset, behind, hsplit, hchain, hlt, rfl⟩ :=
        Listing.of_lengths_eq_error (ofExcept_eq_error.mp hlengths).1
      exact .fall hall hsplit hchain hlt
    · exact (pure_eq_error.mp hpure).elim

end

/-- **Entries that end where the next one starts are exact, or a number is blamed.** On a healthy
stream that holds the table, they are found if the offsets are words that do not fall and do not
exceed the end. Then each offset is its number times the scale, each length leads to the next offset
and the last one to the end, and together they are the range from the first offset to the end. -/
theorem offsetsAndLengths_tile (hhealthy : s.failAt = none) (hwidth : width ∈ [1, 2, 4, 8])
    (hroom : width * c.value ≤ s.remaining) (order : ByteOrder) (scale stop : ℕ) :
    ((∃ found, ((Reader.offsetsAndLengths c width order scale stop).outcome s).1 = .ok found) ↔
      (∀ raw ∈ integers order width c.value s.ahead, raw * scale < 2 ^ 64) ∧
      ((integers order width c.value s.ahead).map (· * scale)).Pairwise (· ≤ ·) ∧
      ∀ raw ∈ integers order width c.value s.ahead, raw * scale ≤ stop) ∧
    (∀ offsets lens,
      ((Reader.offsetsAndLengths c width order scale stop).outcome s).1 = .ok (offsets, lens) →
        offsets = (integers order width c.value s.ahead).map (· * scale) ∧
        Listing.IsTiling offsets lens stop ∧ ∀ first ∈ offsets.head?, first + lens.sum = stop) ∧
    ∀ e, ((Reader.offsetsAndLengths c width order scale stop).outcome s).1 = .error e →
      Blames (integers order width c.value s.ahead) scale stop e := by
  have hinteger : Reader.isIntegerWidth width = true := by
    simp only [List.mem_cons, List.not_mem_nil, or_false] at hwidth
    rcases hwidth with rfl | rfl | rfl | rfl <;> rfl
  have hahead : width * c.value ≤ s.ahead.length := by
    rwa [Stream.ahead, hhealthy, List.length_drop, ← Stream.length, ← Stream.remaining]
  refine ⟨?_, fun offsets lens h => ?_, fun e h => blames_of_eq_error hinteger hahead h⟩
  · have hword : ∀ raw, raw * scale < 2 ^ 64 ↔ raw * scale ≤ Word.max := by
      intro raw
      rw [Word.max_eq]
      omega
    simp only [hword, Prod.exists, offsetsAndLengths_eq_ok hinteger hahead]
    rw [← List.forall_mem_map (P := (· ≤ stop)), ← Listing.exists_isTiling_iff]
    constructor
    · rintro ⟨offsets, lens, hall, rfl, htiling⟩
      exact ⟨hall, lens, htiling⟩
    · rintro ⟨hall, lens, htiling⟩
      exact ⟨_, lens, hall, rfl, htiling⟩
  · obtain ⟨-, hoffsets, htiling⟩ := (offsetsAndLengths_eq_ok hinteger hahead).mp h
    refine ⟨hoffsets, htiling, fun first hfirst => ?_⟩
    obtain ⟨rest, rfl⟩ := List.head?_eq_some_iff.mp hfirst
    exact htiling.add_sum

/-- Three big-endian numbers of sectors behind a byte, and a byte behind them. The first two are the
same. -/
def sectorTable : Stream := { bytes := [9, 0, 1, 0, 1, 0, 3, 7], position := 1 }

/-- Three entries between sectors, the first of them empty. An end in front of the last one leaves
no entries, and it is the last offset that is blamed. -/
theorem offsetsAndLengths_tile_sectors :
    sectorTable.failAt = none ∧ 2 * 3 ≤ sectorTable.remaining ∧
      ((Reader.offsetsAndLengths ⟨3⟩ 2 .big 0x800 0x2000).outcome sectorTable).1
        = .ok ([0x800, 0x800, 0x1800], [0, 0x1000, 0x800]) ∧
      ∀ found, ((Reader.offsetsAndLengths ⟨3⟩ 2 .big 0x800 0x1000).outcome sectorTable).1
        ≠ .ok found := by
  have hhealthy : sectorTable.failAt = none := rfl
  have hroom : 2 * (EntryCount.mk 3).value ≤ sectorTable.remaining := by decide
  have hraws : integers .big 2 (EntryCount.mk 3).value sectorTable.ahead = [1, 1, 3] := by decide
  obtain ⟨hfound, htile, -⟩ :=
    offsetsAndLengths_tile hhealthy (by decide) hroom .big 0x800 0x2000
  obtain ⟨hearly, -, -⟩ := offsetsAndLengths_tile hhealthy (by decide) hroom .big 0x800 0x1000
  rw [hraws] at hfound htile hearly
  refine ⟨hhealthy, hroom, ?_, fun found h => absurd (hearly.mp ⟨found, h⟩) (by decide)⟩
  obtain ⟨⟨offsets, lens⟩, h⟩ := hfound.mpr (by decide)
  obtain ⟨rfl, htiling, -⟩ := htile offsets lens h
  have hlens : Listing.lengths ([1, 1, 3].map (· * 0x800)) 0x2000 = .ok [0, 0x1000, 0x800] := rfl
  rw [Listing.lengths_eq_ok.mpr htiling, Except.ok.injEq] at hlens
  rw [h, hlens]
  rfl

end Tables

end Packfile
