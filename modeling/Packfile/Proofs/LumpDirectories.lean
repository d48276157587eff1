import Mathlib.Order.Bounds.Defs
import Mathlib.Order.Nat
import Mathlib.Data.Nat.Find
import Packfile.Format.Lump
import Packfile.Proofs.Fields
import Packfile.Proofs.Listings
import Packfile.Proofs.StorageFailures
import Packfile.Proofs.Walks

/-!
# What a LUMP directory says

A LUMP directory is records without offsets, so each entry starts where the sum of all lengths
before it leads, deleted entries included. Nothing says how many records there are: they go on until
one ends the directory, one does not fit into the stream any more, or one claims data that would
reach into the directory itself.

## The directory without a run

`Directory` is a byte string with a place where records start, and everything else about it is said
of the record with a number: its name, its length, and where its data start, for every number and
whether there are still bytes or not. `Directory.Stops` says that the directory ends in front of a
record, for one of the three reasons, and `Directory.size` is the first number at which it does. The
walk over the records is then shown to find `Directory.entries`, by induction on the records that
are left, where the state that the walk hands on is `Directory.dataAt`.

## What comes behind

`Directory.reach` is how far the directory has been looked at: past the record that ended it, or up
to the tail that was too short for one. A directory that is ended by a record is the same in
front of any other bytes, which need not even be readable.

## Main definitions

* `Lump.Directory` — the records, their places and where they end
* `Lump.Directory.entries` — the entries they stand for
* `Lump.Directory.reach` — how much of the stream this depends on

## Main results

* `Lump.Directory.entries_inside`, `entries_apart` — where the data of the entries lie
* `Lump.Directory.size_eq_of_take` — the bytes behind do not matter
* `Lump.Directory.walkFrom_eq_ok` — the walk over the records that are left
* `Lump.readDirectory_follows_records` — reading a stream gives these entries
-/

namespace Packfile

namespace Lump

open Run Reading

/-- What a record says. -/
structure Record where
  /-- The name, empty if the entry is deleted. -/
  name : String
  /-- The length of the data. -/
  length : ℕ
  deriving DecidableEq, Repr

/-- Records from a place on. -/
structure Directory where
  /-- The whole contents of the stream. -/
  bytes : Bytes
  /-- The byte order of lengths. -/
  order : ByteOrder
  /-- Where the first record starts. -/
  start : ℕ
  deriving DecidableEq, Repr

namespace Directory

/-- The directory of a stream. -/
def of (s : Stream) : Directory := ⟨s.bytes, s.order, s.order.field 4 s.bytes 4⟩

variable (d : Directory) (source : Location)

/-- Where the record with a number starts. -/
def place (k : ℕ) : ℕ := d.start + recordSize * k

/-- The record with a number. -/
def record (k : ℕ) : Record where
  name := Utf8.decode (Reader.beforeZero ((d.bytes.drop (d.place k)).take nameSize))
  length := d.order.field 4 d.bytes (d.place k + nameSize)

/-- Where the data of the record with a number start: behind those of all records before it. -/
def dataAt (k : ℕ) : ℕ := dataStart + ((List.range k).map fun i => (d.record i).length).sum

/-- The stream ends before the record does. -/
def IsCutOff (k : ℕ) : Prop := d.bytes.length < d.place (k + 1)

/-- The record marks the end. -/
def IsSentinel (k : ℕ) : Prop := (d.record k).name = "" ∧ (d.record k).length = 0

/-- The data of the record would reach into the directory. -/
def IsRejected (k : ℕ) : Prop := d.start < d.dataAt k + (d.record k).length

/-- The directory ends in front of the record with a number. -/
def Stops (k : ℕ) : Prop := d.IsCutOff k ∨ d.IsSentinel k ∨ d.IsRejected k

instance (k : ℕ) : Decidable (d.IsCutOff k) := inferInstanceAs (Decidable (_ < _))

instance (k : ℕ) : Decidable (d.IsSentinel k) := inferInstanceAs (Decidable (_ ∧ _))

instance (k : ℕ) : Decidable (d.IsRejected k) := inferInstanceAs (Decidable (_ < _))

instance : DecidablePred d.Stops := fun _ => inferInstanceAs (Decidable (_ ∨ _ ∨ _))

/-- A directory does not go on behind the end of the stream. -/
theorem exists_stops : ∃ k, d.Stops k := by
  refine ⟨d.bytes.length, .inl ?_⟩
  rw [IsCutOff, place, recordSize]
  omega

/-- How many records there are in front of the one at which the directory ends. -/
def size : ℕ := Nat.find d.exists_stops

/-- The entry that a record stands for, unless it is deleted. -/
def entryOf (k : ℕ) : Option Entry :=
  if (d.record k).name = "" then none
  else some { source, name := some (d.record k).name, offset := d.dataAt k
              stored := (d.record k).length }

/-- The entries of `count` records from a number on. -/
def entriesFrom (k count : ℕ) : List Entry := (List.range' k count).filterMap (d.entryOf source)

/-- The entries of a directory. -/
def entries : List Entry := (List.range d.size).filterMap (d.entryOf source)

/-- How much of the stream has been looked at when the directory has ended. -/
def reach : ℕ := if d.IsCutOff d.size then d.place d.size else d.place (d.size + 1)

variable {d source} {k count : ℕ}

/-! ### Where the directory ends -/

theorem isLeast_size : IsLeast {k | d.Stops k} d.size :=
  ⟨Nat.find_spec d.exists_stops, fun _ hk => Nat.find_min' d.exists_stops hk⟩

theorem not_stops_of_lt (hk : k < d.size) : ¬ d.Stops k := Nat.find_min d.exists_stops hk

theorem entries_eq : d.entries source = d.entriesFrom source 0 d.size := by
  rw [entries, entriesFrom, List.range_eq_range']

/-- A record that does not end the directory, and those behind it. -/
theorem entriesFrom_succ : d.entriesFrom source k (count + 1)
    = (d.entryOf source k).toList ++ d.entriesFrom source (k + 1) count := by
  rw [entriesFrom, List.range'_succ, List.filterMap_cons]
  cases d.entryOf source k <;> rfl

theorem place_succ : d.place (k + 1) = d.place k + recordSize := by
  rw [place, place, Nat.mul_succ, Nat.add_assoc]

/-- Every record in front of the end fits into the stream. -/
theorem place_size_le (hstart : d.start ≤ d.bytes.length) : d.place d.size ≤ d.bytes.length := by
  cases hsize : d.size with
  | zero => exact hstart
  | succ k =>
    have hk : ¬ d.Stops k := not_stops_of_lt (by omega)
    exact Nat.not_lt.mp fun hcut => hk (.inl hcut)

theorem place_le_reach : d.place d.size ≤ d.reach := by
  rw [reach, place_succ]
  split <;> omega

theorem reach_eq (h : ¬ d.IsCutOff d.size) : d.reach = d.place (d.size + 1) := if_neg h

/-! ### Where the data lie -/

/-- The sum runs on by the length of each record. -/
theorem dataAt_succ : d.dataAt (k + 1) = d.dataAt k + (d.record k).length := by
  rw [dataAt, dataAt, List.range_succ, List.map_append, List.sum_append, List.map_singleton,
    List.sum_singleton, Nat.add_assoc]

theorem dataAt_mono : Monotone d.dataAt := by
  refine monotone_nat_of_le_succ fun k => ?_
  rw [dataAt_succ]
  exact Nat.le_add_right _ _

/-- The data of the records in front of the end lie in front of the directory. -/
theorem dataAt_le (hstart : dataStart ≤ d.start) (hk : k ≤ d.size) : d.dataAt k ≤ d.start := by
  cases k with
  | zero => exact hstart
  | succ k =>
    have hkeep := not_stops_of_lt hk
    rw [dataAt_succ]
    exact Nat.not_lt.mp fun hreject => hkeep (.inr (.inr hreject))

theorem entryOf_eq_some {e : Entry} : d.entryOf source k = some e ↔ (d.record k).name ≠ "" ∧
    e = { source, name := some (d.record k).name, offset := d.dataAt k
          stored := (d.record k).length } := by
  rw [entryOf]
  by_cases hname : (d.record k).name = ""
  · rw [if_pos hname]
    exact ⟨fun h => (nomatch h), fun h => absurd hname h.1⟩
  · rw [if_neg hname, Option.some.injEq, eq_comm]
    exact ⟨fun h => ⟨hname, h⟩, fun h => h.2⟩

/-- The data of an entry are those of its record. -/
theorem stop_of_entryOf {e : Entry} (h : d.entryOf source k = some e) :
    e.source = source ∧ e.offset = d.dataAt k ∧ e.offset + e.stored = d.dataAt (k + 1) := by
  obtain ⟨-, rfl⟩ := entryOf_eq_some.mp h
  exact ⟨rfl, rfl, dataAt_succ.symm⟩

theorem exists_of_mem_entries {e : Entry} (he : e ∈ d.entries source) :
    ∃ k < d.size, d.entryOf source k = some e := by
  obtain ⟨k, hk, he⟩ := List.mem_filterMap.mp he
  exact ⟨k, List.mem_range.mp hk, he⟩

/-- The data of every entry lie between the header and the directory. -/
theorem entries_inside (hstart : dataStart ≤ d.start) :
    ∀ e ∈ d.entries source, dataStart ≤ e.offset ∧ e.offset + e.stored ≤ d.start := by
  intro e he
  obtain ⟨k, hk, he⟩ := exists_of_mem_entries he
  obtain ⟨-, hoffset, hstop⟩ := stop_of_entryOf he
  rw [hstop, hoffset]
  exact ⟨dataAt_mono (Nat.zero_le k), dataAt_le hstart hk⟩

/-- Each entry ends before the next one starts. -/
theorem entries_apart :
    (d.entries source).Pairwise fun a b => a.offset + a.stored ≤ b.offset := by
  refine List.Pairwise.filterMap _ ?_ List.pairwise_lt_range
  intro i j hij a ha b hb
  obtain ⟨-, -, hstop⟩ := stop_of_entryOf ha
  obtain ⟨-, hoffset, -⟩ := stop_of_entryOf hb
  rw [hstop, hoffset]
  exact dataAt_mono hij

/-! ### What comes behind -/

section

variable {d' : Directory} {n : ℕ}

/-- A part of a byte string is found in every other one that starts alike. -/
theorem take_drop_of_take {a b : Bytes} (place width : ℕ) (h : a.take n = b.take n)
    (hfit : place + width ≤ n) : (a.drop place).take width = (b.drop place).take width := by
  have hpart : ∀ c : Bytes, (c.drop place).take width = ((c.take n).drop place).take width := by
    intro c
    rw [List.drop_take, List.take_take, Nat.min_eq_left (by omega)]
  rw [hpart a, hpart b, h]

/-- Directories that start at the same place in bytes that agree up to `n`. -/
structure AgreesUpTo (n : ℕ) (d d' : Directory) : Prop where
  order_eq : d'.order = d.order
  start_eq : d'.start = d.start
  take_eq : d'.bytes.take n = d.bytes.take n

variable (h : AgreesUpTo n d d')
include h

theorem AgreesUpTo.place_eq (k : ℕ) : d'.place k = d.place k := by
  rw [place, place, h.start_eq]

theorem AgreesUpTo.record_eq (hk : d.place (k + 1) ≤ n) : d'.record k = d.record k := by
  rw [place_succ, recordSize] at hk
  simp only [record, ByteOrder.field, h.order_eq, h.place_eq]
  rw [take_drop_of_take (d.place k) nameSize h.take_eq (by rw [nameSize]; omega),
    take_drop_of_take (d.place k + nameSize) 4 h.take_eq (by rw [nameSize]; omega)]

theorem AgreesUpTo.dataAt_eq (hk : d.place k ≤ n) : d'.dataAt k = d.dataAt k := by
  induction k with
  | zero => rfl
  | succ k ih =>
    have hplace : d.place k ≤ n := by
      rw [place_succ] at hk
      omega
    rw [dataAt_succ, dataAt_succ, ih hplace, h.record_eq hk]

theorem AgreesUpTo.stops_iff (hk : d.place (k + 1) ≤ n) (hn : n ≤ d.bytes.length) :
    d'.Stops k ↔ d.Stops k := by
  have hplace : d.place k ≤ n := by
    rw [place_succ] at hk
    omega
  have hlength : n ≤ d'.bytes.length := by
    have := congrArg List.length h.take_eq
    rw [List.length_take, List.length_take] at this
    omega
  -- the record fits into both streams, so neither is cut off
  have hcut : ¬ d.IsCutOff k := by
    rw [IsCutOff]
    omega
  have hcut' : ¬ d'.IsCutOff k := by
    rw [IsCutOff, h.place_eq]
    omega
  simp only [Stops, hcut, hcut', false_or, IsSentinel, IsRejected, h.record_eq hk,
    h.dataAt_eq hplace, h.start_eq]

end

/-- **Nothing behind the directory matters**: a directory that is ended by a record is the same in
front of any other bytes. -/
theorem size_eq_of_take (source : Location) {d' : Directory} (hended : ¬ d.IsCutOff d.size)
    (h : AgreesUpTo d.reach d d') :
    d'.size = d.size ∧ d'.reach = d.reach ∧ d'.entries source = d.entries source := by
  rw [reach_eq hended] at h
  have hfit : d.place (d.size + 1) ≤ d.bytes.length := Nat.not_lt.mp hended
  have hplace : ∀ k ≤ d.size, d.place (k + 1) ≤ d.place (d.size + 1) := by
    intro k hk
    simp only [place, recordSize]
    omega
  have hsize : d'.size = d.size := by
    refine (Nat.find_eq_iff _).mpr ⟨?_, fun k hk => ?_⟩
    · exact (h.stops_iff (hplace _ le_rfl) hfit).mpr isLeast_size.1
    · rw [h.stops_iff (hplace k hk.le) hfit]
      exact not_stops_of_lt hk
  have hended' : ¬ d'.IsCutOff d'.size := by
    have := congrArg List.length h.take_eq
    rw [List.length_take, List.length_take] at this
    rw [IsCutOff, hsize, h.place_eq]
    omega
  refine ⟨hsize, ?_, ?_⟩
  · rw [reach_eq hended', reach_eq hended, hsize, h.place_eq]
  · rw [entries, entries, hsize]
    refine List.filterMap_congr fun k hk => ?_
    have hk := (List.mem_range.mp hk).le
    have hdata : d.place k ≤ d.place (d.size + 1) := by
      simp only [place, recordSize]
      omega
    rw [entryOf, entryOf, h.record_eq (hplace k hk), h.dataAt_eq hdata]

/-! ### Reading one record -/

/-- What a record that does not end the directory means for the walk. -/
def action (d : Directory) (source : Location) (k : ℕ) : RecordAction Entry :=
  match d.entryOf source k with
  | some e => .entry e
  | none => .skip

theorem action_ne_finish : d.action source k ≠ .finish := by
  rw [action]
  cases d.entryOf source k <;> exact fun h => (nomatch h)

theorem keep_action (found : Array Entry) :
    (Decode.keep found (d.action source k)).toList
      = found.toList ++ (d.entryOf source k).toList := by
  rw [action]
  cases d.entryOf source k with
  | none => exact (List.append_nil _).symm
  | some e => exact Array.toList_push

/-- The stream stands in front of the record with a number. -/
structure IsAt (d : Directory) (k : ℕ) (s : Stream) : Prop where
  holds : s.bytes = d.bytes
  order_eq : s.order = d.order
  position_eq : s.position = d.place k

section

variable {s : Stream}

theorem IsAt.advance (h : d.IsAt k s) : d.IsAt (k + 1) (s.advance recordSize) where
  holds := h.holds
  order_eq := h.order_eq
  position_eq := by rw [Stream.position_advance, h.position_eq, place_succ]

variable (h : d.IsAt k s) (hfit : ¬ d.IsCutOff k) (hdelivers : s.Delivers (d.place (k + 1)))
include h hfit hdelivers

/-- The fields of a record that is there are read. -/
theorem IsAt.fields : Reader.fixedString nameSize s = .ok (d.record k).name (s.advance nameSize) ∧
    Reader.u32 (s.advance nameSize) = .ok (d.record k).length (s.advance recordSize) := by
  have hplace : d.place (k + 1) = s.position + nameSize + 4 := by
    rw [place_succ, h.position_eq]
    rfl
  have hlength : s.position + nameSize + 4 ≤ s.length := by
    rw [Stream.length, h.holds, ← hplace]
    exact Nat.not_lt.mp hfit
  rw [hplace] at hdelivers
  constructor
  · have hname : nameSize ≤ s.ahead.length :=
      (hdelivers.mono (Nat.le_add_right _ _)).le_length_ahead (by omega)
    refine fixedString_eq_ok.mpr ⟨hname, ?_, rfl⟩
    rw [Stream.take_ahead hname, h.holds, h.position_eq]
    rfl
  · have hword : 4 ≤ (s.advance nameSize).ahead.length :=
      Stream.Delivers.le_length_ahead hdelivers hlength
    refine u32_eq_ok.mpr ⟨hword, ?_, rfl⟩
    rw [Stream.take_ahead hword, Stream.position_advance, h.position_eq]
    show _ = s.order.decode ((s.bytes.drop _).take 4)
    rw [h.holds, h.order_eq]
    rfl

theorem readRecord_of_sentinel (hsentinel : d.IsSentinel k) (next : ℕ) :
    readRecord source d.start next s = .ok (.finish, next) (s.advance recordSize) := by
  obtain ⟨hname, hlength⟩ := h.fields hfit hdelivers
  rw [readRecord, bind_of_ok hname, bind_of_ok hlength, hsentinel.1, hsentinel.2]
  rfl

variable (hnot : ¬ d.IsSentinel k) (hstart : dataStart ≤ d.start) (hsmall : d.start < 2 ^ 32)
  (hk : k ≤ d.size)
include hnot hstart hsmall hk

/-- Behind a record that is no sentinel stands the sum of its length and all before it. -/
theorem readRecord_of_ne_sentinel (source : Location) : readRecord source d.start (d.dataAt k) s =
    (if d.start < d.dataAt (k + 1) then throw (.exceeds "entry end" (d.dataAt (k + 1)) d.start)
      else pure (d.action source k, d.dataAt (k + 1)) : Reader _) (s.advance recordSize) := by
  obtain ⟨hname, hlength⟩ := h.fields hfit hdelivers
  have hdata : d.dataAt k ≤ d.start := dataAt_le hstart hk
  have hsum : d.dataAt k + (d.record k).length ≤ Word.max := by
    have hlt := d.order.field_lt 4 d.bytes (d.place k + nameSize)
    have hmax := Word.max_eq
    show d.dataAt k + d.order.field 4 d.bytes (d.place k + nameSize) ≤ Word.max
    omega
  have hgo : (liftM (Checked.sum (d.dataAt k) (d.record k).length) : Reader ℕ)
      (s.advance recordSize) = .ok (d.dataAt (k + 1)) (s.advance recordSize) := by
    rw [dataAt_succ]
    exact liftExcept_eq_ok.mpr ⟨Checked.sum_of_le hsum, rfl⟩
  have hflag : ((d.record k).name.isEmpty && decide ((d.record k).length = 0)) = false := by
    rw [← Bool.not_eq_true, Bool.and_eq_true, String.isEmpty_iff, decide_eq_true_eq]
    exact hnot
  rw [readRecord, bind_of_ok hname, bind_of_ok hlength, hflag, if_neg Bool.false_ne_true,
    bind_of_ok hgo]
  by_cases hreject : d.start < d.dataAt (k + 1)
  · rw [if_pos hreject, if_pos hreject]
    rfl
  · rw [if_neg hreject, if_neg hreject, action, entryOf]
    by_cases hempty : (d.record k).name = ""
    · rw [if_pos (String.isEmpty_iff.mpr hempty), if_pos hempty]
    · rw [if_neg fun hflag => hempty (String.isEmpty_iff.mp hflag), if_neg hempty]

end

/-! ### The walk -/

/-- The walk over the records of a directory, from one of them on. -/
def walkFrom (d : Directory) (source : Location) (rounds k : ℕ) (found : Array Entry) :
    Decode (Array Entry) :=
  Decode.untilFrom d.bytes.length recordSize
    (fun next _ => Decode.ofReader (readRecord source d.start next)) rounds (d.dataAt k) k found

section

variable {x : Session} {rounds : ℕ} {found : Array Entry}
variable (hlow : dataStart ≤ d.start) (hsmall : d.start < 2 ^ 32)
  (hlength : d.bytes.length < Word.max)
include hlow hsmall hlength

/-- Where the directory ends, the walk does. -/
theorem walkFrom_of_end (hat : d.IsAt d.size x.stream) (hdelivers : x.stream.Delivers d.reach)
    (hroom : found.size < x.context.options.maxEntries) :
    ∃ y, d.walkFrom source (rounds + 1) d.size found x = .ok found y ∧ y.input = x.input := by
  have hposition : x.stream.position + recordSize = d.place (d.size + 1) := by
    rw [hat.position_eq, place_succ]
  by_cases hcut : d.IsCutOff d.size
  · -- the tail is too short for a record
    refine Walks.untilFrom_of_cutOff (Nat.lt_of_not_le fun hle => ?_)
    rw [Word.le_iff_satAdd_le hlength, hposition] at hle
    exact Nat.not_le.mpr hcut hle
  · have hfits : Word.satAdd x.stream.position recordSize ≤ d.bytes.length := by
      rw [Word.le_iff_satAdd_le hlength, hposition]
      exact Nat.not_lt.mp hcut
    rw [reach_eq hcut] at hdelivers
    by_cases hsentinel : d.IsSentinel d.size
    · refine ⟨_, Walks.untilFrom_of_finish hfits hroom (ofReader_eq_ok.mpr ⟨_,
        readRecord_of_sentinel hat hcut hdelivers hsentinel _, rfl⟩), ?_⟩
      exact x.input_of_source rfl
    · -- what is left is that the data of the record would reach into the directory
      have hreject : d.start < d.dataAt (d.size + 1) := by
        rw [dataAt_succ]
        rcases isLeast_size.1 with h | h | h
        · exact absurd h hcut
        · exact absurd h hsentinel
        · exact h
      have hread := readRecord_of_ne_sentinel hat hcut hdelivers hsentinel hlow hsmall le_rfl
        source
      rw [if_pos hreject] at hread
      have herror : Decode.ofReader (readRecord source d.start (d.dataAt d.size)) x =
          .error (.exceeds "entry end" (d.dataAt (d.size + 1)) d.start)
            { x with stream := x.stream.advance recordSize } := by
        rw [Decode.ofReader, hread]
        rfl
      obtain ⟨y, hy, hinput⟩ : ∃ y, d.walkFrom source (rounds + 1) d.size found x = .ok found y ∧
          y.input = ({ x with stream := x.stream.advance recordSize } : Session).input :=
        Walks.untilFrom_of_error hfits hroom herror rfl rfl
      exact ⟨y, hy, hinput.trans (x.input_of_source rfl)⟩

/-- A record in front of the end is kept or passed over, and the walk goes on behind it. -/
theorem walkFrom_of_lt (source : Location) (rounds : ℕ) (hk : k < d.size) (hat : d.IsAt k x.stream)
    (hdelivers : x.stream.Delivers d.reach) (hroom : found.size < x.context.options.maxEntries) :
    ∃ y, d.walkFrom source (rounds + 1) k found x
        = d.walkFrom source rounds (k + 1) (Decode.keep found (d.action source k)) y ∧
      y.stream = x.stream.advance recordSize ∧ y.context = x.context ∧ y.files = x.files := by
  have hkeep := not_stops_of_lt hk
  have hcut : ¬ d.IsCutOff k := fun h => hkeep (.inl h)
  have hsentinel : ¬ d.IsSentinel k := fun h => hkeep (.inr (.inl h))
  have hplace : d.place (k + 1) ≤ d.bytes.length := Nat.not_lt.mp hcut
  have hfits : Word.satAdd x.stream.position recordSize ≤ d.bytes.length := by
    rw [Word.le_iff_satAdd_le hlength, hat.position_eq, ← place_succ]
    exact hplace
  have hbefore : x.stream.Delivers (d.place (k + 1)) := by
    refine hdelivers.mono (Nat.le_trans ?_ place_le_reach)
    simp only [place, recordSize]
    omega
  have hread := readRecord_of_ne_sentinel hat hcut hbefore hsentinel hlow hsmall hk.le
    source
  rw [if_neg (Nat.not_lt.mpr (dataAt_le hlow hk))] at hread
  have hindex : k + 1 ≤ Word.max := by
    simp only [place, recordSize] at hplace
    omega
  exact ⟨_, Walks.untilFrom_of_step hfits hroom (ofReader_eq_ok.mpr ⟨_, hread, rfl⟩)
    action_ne_finish hindex, rfl, rfl, rfl⟩

/-- The records that are left are walked over. The induction is on their number, and the state that
the walk hands on is where the next data start. -/
theorem walkFrom_eq_ok (hk : k + count = d.size) (hrounds : count < rounds)
    (hat : d.IsAt k x.stream) (hdelivers : x.stream.Delivers d.reach)
    (hroom : found.size + (d.entriesFrom source k count).length < x.context.options.maxEntries) :
    ∃ result y, d.walkFrom source rounds k found x = .ok result y ∧
      result.toList = found.toList ++ d.entriesFrom source k count ∧ y.input = x.input := by
  obtain ⟨rounds, rfl⟩ : ∃ n, rounds = n + 1 := ⟨rounds - 1, by omega⟩
  induction count generalizing k rounds found x with
  | zero =>
    obtain rfl : k = d.size := hk
    obtain ⟨y, hy, hinput⟩ := walkFrom_of_end hlow hsmall hlength hat hdelivers hroom
    exact ⟨found, y, hy, (List.append_nil _).symm, hinput⟩
  | succ count ih =>
    obtain ⟨rounds, rfl⟩ : ∃ n, rounds = n + 1 := ⟨rounds - 1, by omega⟩
    obtain ⟨y, hstep, hstream, hcontext, hfiles⟩ := walkFrom_of_lt hlow hsmall hlength source
      (rounds + 1) (show k < d.size by omega) hat hdelivers
      (Nat.lt_of_le_of_lt (Nat.le_add_right _ _) hroom)
    have hkeep : (Decode.keep found (d.action source k)).size
        = found.size + (d.entryOf source k).toList.length := by
      rw [← Array.length_toList, keep_action, List.length_append, Array.length_toList]
    have hat' : d.IsAt (k + 1) y.stream := by
      rw [hstream]
      exact hat.advance
    have hdelivers' : y.stream.Delivers d.reach := by
      rw [hstream]
      exact hdelivers
    have hroom' : (Decode.keep found (d.action source k)).size
        + (d.entriesFrom source (k + 1) count).length < y.context.options.maxEntries := by
      rw [entriesFrom_succ, List.length_append] at hroom
      rw [hkeep, hcontext]
      omega
    obtain ⟨result, z, hz, hresult, hinput⟩ :=
      ih (by omega) hat' hdelivers' hroom' rounds (by omega)
    refine ⟨result, z, hstep.trans hz, ?_, hinput.trans ?_⟩
    · rw [hresult, keep_action, entriesFrom_succ, List.append_assoc]
    · rw [Session.input, Session.input, hstream, hcontext, hfiles]
      rfl

end

end Directory

/-! ### Whole directories -/

open Directory

variable {x : Session} {d : Directory} {source : Location}

/-- The header says where the directory starts. -/
theorem header_of_delivers {s : Stream} (hposition : s.position = 0)
    (hlength : dataStart ≤ s.length) (hdelivers : s.Delivers dataStart) :
    Reader.skip magic.length s = .ok () { s with position := 4 } ∧
      Reader.u32 { s with position := 4 }
        = .ok (Directory.of s).start { s with position := dataStart } := by
  constructor
  · exact (skip_start_eq_ok hposition (by decide)).mpr
      ⟨Nat.le_trans (show 4 ≤ dataStart by decide) hlength, rfl⟩
  · have hword : 4 ≤ ({ s with position := 4 } : Stream).ahead.length :=
      Stream.Delivers.le_length_ahead hdelivers hlength
    refine u32_eq_ok.mpr ⟨hword, ?_, rfl⟩
    rw [Stream.take_ahead hword]
    rfl

/-- From the start of the directory on, the walk to the end of the stream finds its entries. -/
theorem readUntil_of_directory (hd : d = .of x.stream) (source : Location)
    (hlow : dataStart ≤ d.start) (hhigh : d.start ≤ x.stream.length)
    (hlength : x.stream.length < Word.max)
    (hroom : (d.entries source).length < x.context.options.maxEntries)
    (hdelivers : x.stream.Delivers d.reach) :
    ∃ y, Decode.readUntil x.stream.length recordSize dataStart
        (fun next _ => Decode.ofReader (readRecord source d.start next))
        { x with stream := { x.stream with position := d.start } } = .ok (d.entries source) y ∧
      y.input = x.input := by
  have hsmall : d.start < 2 ^ 32 := by
    rw [hd]
    exact x.stream.order.field_lt 4 x.stream.bytes 4
  have hbytes : x.stream.length = d.bytes.length := by
    rw [hd]
    rfl
  have hat : d.IsAt 0 { x.stream with position := d.start } := by
    rw [hd]
    exact ⟨rfl, rfl, rfl⟩
  have hrounds : d.size < d.bytes.length - d.start + 2 := by
    have hlast : d.place d.size ≤ d.bytes.length := place_size_le (hbytes ▸ hhigh)
    simp only [place, recordSize] at hlast
    omega
  have hfree : (#[] : Array Entry).size + (d.entriesFrom source 0 d.size).length
      < x.context.options.maxEntries := by
    rw [← entries_eq]
    simpa using hroom
  obtain ⟨result, y, hy, hresult, hinput⟩ :=
    walkFrom_eq_ok hlow hsmall (hbytes ▸ hlength) (Nat.zero_add d.size) hrounds
      (show d.IsAt 0 ({ x with stream := { x.stream with position := d.start } } : Session).stream
        from hat) hdelivers hfree
  refine ⟨y, ?_, hinput.trans (x.input_of_source rfl)⟩
  simp only [bind_eq_ok, Decode.readUntil, pure_eq_ok]
  refine ⟨_, _, liftLength_eq_ok.mpr ⟨rfl, rfl⟩, _, _, liftOffset_eq_ok.mpr ⟨rfl, rfl⟩,
    result, y, ?_, ?_, rfl⟩
  · show Decode.untilFrom (min x.stream.length x.stream.length) recordSize _
      (min x.stream.length x.stream.length - d.start + 2) dataStart 0 #[]
      { x with stream := { x.stream with position := d.start } } = _
    rw [Nat.min_self, hbytes]
    exact hy
  · rw [hresult, entries_eq]
    rfl

/-- The decoder finds the entries of the directory that the header leads to. -/
theorem decode_of_directory (hd : d = .of x.stream) (source : Location)
    (hposition : x.stream.position = 0) (hlow : dataStart ≤ d.start)
    (hhigh : d.start ≤ x.stream.length) (hlength : x.stream.length < Word.max)
    (hroom : (d.entries source).length < x.context.options.maxEntries)
    (hdelivers : x.stream.Delivers d.reach) :
    ∃ y, decode source x = .ok (d.entries source) y ∧ y.input = x.input := by
  have hreach : dataStart ≤ d.reach := by
    refine Nat.le_trans (Nat.le_trans hlow ?_) place_le_reach
    exact Nat.le_add_right _ _
  obtain ⟨hskip, hstart⟩ :=
    header_of_delivers hposition (Nat.le_trans hlow hhigh) (hdelivers.mono hreach)
  rw [← hd] at hstart
  have hvalid : isDirectory d.start x.stream.length = true := by
    rw [isDirectory, Bool.and_eq_true, decide_eq_true_eq, decide_eq_true_eq]
    exact ⟨hlow, hhigh⟩
  have hseek : Reader.seek d.start { x.stream with position := dataStart }
      = .ok () { x.stream with position := d.start } := seek_eq_ok.mpr ⟨hhigh, rfl⟩
  obtain ⟨y, hwalk, hinput⟩ :=
    readUntil_of_directory hd source hlow hhigh hlength hroom hdelivers
  refine ⟨y, ?_, hinput⟩
  simp only [decode, bind_eq_ok]
  refine ⟨_, _, liftReader_eq_ok.mpr ⟨_, hskip, rfl⟩, _, _, liftReader_eq_ok.mpr ⟨_, hstart, rfl⟩,
    _, _, liftLength_eq_ok.mpr ⟨rfl, rfl⟩, ?_⟩
  rw [guard_eq_ok]
  refine ⟨show ¬ (!isDirectory d.start x.stream.length) = true by rw [hvalid]; decide, ?_⟩
  exact bind_eq_ok.mpr ⟨_, _, liftReader_eq_ok.mpr ⟨_, hseek, rfl⟩, hwalk⟩

/-- Reading a directory gives the entries of its records, in the order of their data. -/
theorem readDirectory_of_delivers (hd : d = .of x.stream) (source : Location)
    (hlow : dataStart ≤ d.start) (hhigh : d.start ≤ x.stream.length)
    (hlength : x.stream.length < Word.max) (hsource : d.start ≤ source.length)
    (hroom : (d.entries source).length < x.context.options.maxEntries)
    (hdelivers : x.stream.Delivers d.reach) :
    ∃ y, format.readDirectory source x = .ok (d.entries source) y := by
  obtain ⟨y, hy, -⟩ :=
    decode_of_directory (x := x.started) hd source rfl hlow hhigh hlength hroom hdelivers
  refine ⟨y, Format.readDirectory_eq_ok.mpr ⟨_, hy, Listing.finish_eq_ok.mpr ⟨?_, ?_⟩⟩⟩
  · symm
    refine Listing.arrange_of_rising source (fun e he => ?_) (entries_apart.imp fun h => ?_)
    · obtain ⟨k, -, he⟩ := exists_of_mem_entries he
      exact (stop_of_entryOf he).1
    · exact Nat.le_trans (Nat.le_add_right _ _) h
  · intro e he
    obtain ⟨k, -, hentry⟩ := exists_of_mem_entries he
    obtain ⟨-, hstop⟩ := entries_inside hlow e he
    rw [(stop_of_entryOf hentry).1, Entry.stop]
    have hsat : Word.satAdd e.offset e.stored ≤ e.offset + e.stored := Nat.min_le_left _ _
    omega

/-- Over storage that fails somewhere the entries are the same, or the failure is noticed. -/
theorem intact_of_directory (hd : d = .of x.stream) (source : Location)
    (hlow : dataStart ≤ d.start) (hhigh : d.start ≤ x.stream.length)
    (hlength : x.stream.length < Word.max) (hsource : d.start ≤ source.length)
    (hroom : (d.entries source).length < x.context.options.maxEntries) :
    IntactOrFailed (d.entries source)
      (Decode.outcome (format.readDirectory source) x).1 := by
  -- the same session over storage that does not fail
  let z : Session := { x with stream := { x.stream with failAt := none } }
  have hhealthy : z.stream.Delivers d.reach := fun _ hlimit => nomatch hlimit
  obtain ⟨y, hy⟩ :=
    readDirectory_of_delivers (x := z) hd source hlow hhigh hlength hsource hroom hhealthy
  cases hfail : x.stream.failAt with
  | none =>
    have hx : z = x := by
      simp only [z, ← hfail]
    rw [hx] at hy
    left
    rw [Decode.outcome, hy]
  | some limit =>
    have hx : z.failingFrom limit = x := by
      simp only [z, Session.failingFrom, Stream.failingFrom, ← hfail]
    have h := isBlind.directory_intact_or_failed (x := z) rfl hy limit
    rwa [hx] at h

/-- A directory that a record has ended is ended by it in every stream that agrees so far. -/
theorem readDirectory_of_take {x' : Session} (hd : d = .of x.stream)
    (hlow : dataStart ≤ d.start) (hended : ¬ d.IsCutOff d.size)
    (horder : x'.stream.order = x.stream.order)
    (htake : x'.stream.bytes.take d.reach = x.stream.bytes.take d.reach) (source : Location)
    (hlength : x'.stream.length < Word.max) (hsource : d.start ≤ source.length)
    (hroom : (d.entries source).length < x'.context.options.maxEntries)
    (hdelivers : x'.stream.Delivers d.reach) :
    ∃ y, format.readDirectory source x' = .ok (d.entries source) y := by
  have hplace : d.start + recordSize ≤ d.reach := by
    rw [reach_eq hended]
    simp only [place, recordSize]
    omega
  have hfits : d.reach ≤ x'.stream.length := by
    have hlength := congrArg List.length htake
    have hfits : d.reach ≤ d.bytes.length := by
      rw [reach_eq hended]
      exact Nat.not_lt.mp hended
    rw [hd] at hlength hfits ⊢
    rw [List.length_take, List.length_take] at hlength
    show _ ≤ x'.stream.bytes.length
    have : (of x.stream).bytes = x.stream.bytes := rfl
    rw [this] at hfits
    omega
  -- the header is in what the streams agree in, so their directories start at the same place
  have hagrees : AgreesUpTo d.reach d (.of x'.stream) := by
    refine ⟨by rw [hd]; exact horder, ?_, by rw [hd] at htake ⊢; exact htake⟩
    have hword := take_drop_of_take 4 4 htake (by rw [dataStart, recordSize] at *; omega)
    show x'.stream.order.field 4 x'.stream.bytes 4 = d.start
    rw [ByteOrder.field, hword, horder, hd]
    rfl
  obtain ⟨-, hreach, hentries⟩ := size_eq_of_take source hended hagrees
  rw [← hagrees.start_eq] at hlow hsource hplace
  rw [← hentries] at hroom ⊢
  rw [← hreach] at hdelivers
  exact readDirectory_of_delivers rfl source hlow (by omega) hlength hsource hroom hdelivers

/-- **A LUMP directory is read record by record, up to the first that ends it**: a sentinel, one
that does not fit into the stream, or one whose data would reach into the directory. Its entries are
the named records before that one, each where the lengths of all records before it lead. They follow
each other between the header and the directory, and what comes behind the record that ended the
directory has no influence on them. -/
theorem readDirectory_follows_records (source : Location) (x : Session)
    (hlow : dataStart ≤ (of x.stream).start) (hhigh : (of x.stream).start ≤ x.stream.length)
    (hlength : x.stream.length < Word.max) (hsource : (of x.stream).start ≤ source.length)
    (hroom : ((of x.stream).entries source).length < x.context.options.maxEntries) :
    let d := of x.stream
    IsLeast {k | d.Stops k} d.size ∧
    (x.stream.Delivers d.reach → ∃ y, format.readDirectory source x = .ok (d.entries source) y) ∧
    IntactOrFailed (d.entries source) (Decode.outcome (format.readDirectory source) x).1 ∧
    ((d.entries source).Pairwise fun a b => a.offset + a.stored ≤ b.offset) ∧
    (∀ e ∈ d.entries source, dataStart ≤ e.offset ∧ e.offset + e.stored ≤ d.start) ∧
    (¬ d.IsCutOff d.size → ∀ (source' : Location) (x' : Session),
      x'.stream.order = x.stream.order →
      x'.stream.bytes.take d.reach = x.stream.bytes.take d.reach →
      x'.stream.length < Word.max → d.start ≤ source'.length →
      (d.entries source').length < x'.context.options.maxEntries → x'.stream.Delivers d.reach →
      ∃ y, format.readDirectory source' x' = .ok (d.entries source') y) :=
  ⟨isLeast_size, readDirectory_of_delivers rfl source hlow hhigh hlength hsource hroom,
    intact_of_directory rfl source hlow hhigh hlength hsource hroom, entries_apart,
    entries_inside hlow, fun hended source' _ horder htake =>
      readDirectory_of_take rfl hlow hended horder htake source'⟩

/-- A stream with 12 bytes of data, a deleted entry between two others, and a sentinel in front of
some other bytes. -/
def deletedBetween (behind : Bytes) : Stream :=
  .ofBytes (magic ++ ByteOrder.little.encode 4 20 ++ Utf8.encode "mapdeadsound" ++
    Names.padded nameSize "MAP01" ++ ByteOrder.little.encode 4 3 ++
    Names.padded nameSize "" ++ ByteOrder.little.encode 4 4 ++
    Names.padded nameSize "SOUND" ++ ByteOrder.little.encode 4 5 ++
    List.replicate recordSize 0 ++ behind)

/-- The entries around the deleted one, whose data count. -/
def aroundDeleted (source : Location) : List Entry :=
  [{ source, name := some "MAP01", offset := 8, stored := 3 },
    { source, name := some "SOUND", offset := 15, stored := 5 }]

theorem size_deletedBetween : (of (deletedBetween [1])).size = 3 :=
  (Nat.find_eq_iff _).mpr ⟨by decide +kernel, by decide +kernel⟩

theorem entries_deletedBetween (source : Location) :
    (of (deletedBetween [1])).entries source = aroundDeleted source := by
  have hrecords : (of (deletedBetween [1])).record 0 = ⟨"MAP01", 3⟩ ∧
      (of (deletedBetween [1])).record 1 = ⟨"", 4⟩ ∧
      (of (deletedBetween [1])).record 2 = ⟨"SOUND", 5⟩ := by decide +kernel
  obtain ⟨hfirst, hdeleted, hlast⟩ := hrecords
  rw [entries, size_deletedBetween]
  simp [List.range_succ, entryOf, dataAt, hfirst, hdeleted, hlast, aroundDeleted, dataStart]

/-- Both entries are found, and other bytes behind the sentinel change nothing. -/
theorem readDirectory_follows_records_deleted :
    (∃ y, format.readDirectory (.memory 85) { stream := deletedBetween [1] }
      = .ok (aroundDeleted (.memory 85)) y) ∧
    ∃ y, format.readDirectory (.memory 86) { stream := deletedBetween [2, 3] }
      = .ok (aroundDeleted (.memory 86)) y := by
  have hentries := entries_deletedBetween
  have h := readDirectory_follows_records (.memory 85) { stream := deletedBetween [1] }
    (by decide +kernel) (by decide +kernel) (by decide +kernel) (by decide +kernel)
    (by rw [hentries]; decide)
  have hended : ¬ (of (deletedBetween [1])).IsCutOff (of (deletedBetween [1])).size := by
    rw [size_deletedBetween]
    decide +kernel
  have htake : (deletedBetween [2, 3]).bytes.take (of (deletedBetween [1])).reach
      = (deletedBetween [1]).bytes.take (of (deletedBetween [1])).reach := by
    rw [reach_eq hended, size_deletedBetween]
    decide +kernel
  obtain ⟨-, hread, -, -, -, hsame⟩ := h
  dsimp only at hread hsame
  have hhealthy : ∀ behind reach, (deletedBetween behind).Delivers reach :=
    fun _ _ _ hlimit => nomatch hlimit
  have hother := hsame hended (.memory 86) { stream := deletedBetween [2, 3] } rfl htake
    (by decide +kernel) (by decide +kernel) (by rw [hentries]; decide) (hhealthy _ _)
  have hfirst := hread (hhealthy _ _)
  rw [hentries] at hfirst hother
  exact ⟨hfirst, hother⟩

end Lump

end Packfile
