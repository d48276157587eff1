import Packfile.Proofs.Ratings

/-!
# Checking a table and reading it

An offset list has no magic. What stands in for one is a check of its table, and the check has a
loop of its own: it goes through the offsets, stops at the first that falls, and compares the last one
with the end of the stream. The decoder reads the whole table first and takes the lengths of the
entries from it, and it is the lengths that an offset which falls spoils. Both come to the same, but
for streams that go on behind the last entry. These are read, with a warning, and not recognized.

## What the two have in common

Both speak of the offsets with the end behind them, as one list that must not fall: an entry ends
where the next one starts, or at the end if there is no next one. A table of one offset has no
entries, and that offset is the end.

## Main definitions

* `Ofs.Tiles` — entries that lie one behind the other, without gaps

## Main results

* `Ofs.exists_lengths_iff` — lengths are found between offsets that do not fall
* `Ofs.hasTable_iff` — the check passes for tables that can be read and that end with the stream
* `Ofs.isConsistent_iff_readDirectory` — what is checked is what is read without a warning
-/

namespace Packfile.Ofs

open Run Reading Packfile.Stream

variable {bytes : Bytes} {lens : List ℕ} {source : Location} {x y : Session} {entries : List Entry}

/-! ### Tables -/

/-- Lengths are found between offsets that do not fall, the end included. -/
theorem exists_lengths_iff {offsets : List ℕ} {stop : ℕ} :
    (∃ lens, Listing.lengths offsets stop = .ok lens) ↔
      (offsets ++ [stop]).IsChain (· ≤ ·) := by
  induction offsets with
  | nil => exact ⟨fun _ => .singleton stop, fun _ => ⟨[], rfl⟩⟩
  | cons offset rest ih =>
    have hstep : (offset :: rest ++ [stop]).IsChain (· ≤ ·) ↔
        offset ≤ rest.headD stop ∧ (rest ++ [stop]).IsChain (· ≤ ·) := by
      cases rest with
      | nil => simp
      | cons next rest => exact List.isChain_cons_cons
    rw [hstep, ← ih]
    simp only [Listing.lengths, except_bind_eq_ok, except_pure_eq_ok, gap_eq_ok]
    constructor
    · rintro ⟨_, length, hlength, lens, hlens, -⟩
      exact ⟨by omega, lens, hlens⟩
    · rintro ⟨hle, lens, hlens⟩
      exact ⟨_, rest.headD stop - offset, by omega, lens, hlens, rfl⟩

/-- The check passes for the tables that can be read and that end with the stream. -/
theorem hasTable_iff :
    HasTable bytes ↔ (∃ lens, IsTable bytes lens) ∧ tableEnd bytes = bytes.length := by
  constructor
  · intro h
    have hrising := h.rising
    rw [← dropLast_append_tableEnd h.le_first, ← exists_lengths_iff] at hrising
    obtain ⟨lens, hlens⟩ := hrising
    exact ⟨⟨lens, h.first_le, h.le_first, h.dvd_first, h.table_le, Nat.le_of_eq h.end_eq, hlens⟩,
      h.end_eq⟩
  · rintro ⟨⟨lens, h⟩, hend⟩
    refine ⟨h.first_le, h.le_first, h.dvd_first, h.table_le, ?_, hend⟩
    rw [← dropLast_append_tableEnd h.le_first, ← exists_lengths_iff]
    exact ⟨lens, h.lengths_eq⟩

/-! ### Entries behind a table -/

/-- The entries lie one behind the other from `start` to `stop`. -/
def Tiles : (start stop : ℕ) → List Entry → Prop
  | start, stop, [] => start = stop
  | start, stop, e :: rest => e.offset = start ∧ Tiles (start + e.stored) stop rest

/-- Entries at the places of contents that follow each other lie one behind the other. -/
theorem tiles_of_map_data {k : ℕ} {contents : List Bytes}
    (h : entries.map Entry.data = (places k contents).map (dataAt source)) :
    Tiles k (k + contents.flatten.length) entries := by
  induction contents generalizing k entries with
  | nil =>
    rw [List.map_eq_nil_iff.mp h]
    exact rfl
  | cons content contents ih =>
    obtain ⟨e, rest, rfl, hdata, hrest⟩ := List.map_eq_cons_iff.mp h
    obtain ⟨-, hoffset, hstored, -, -⟩ := data_eq_dataAt.mp hdata
    refine ⟨hoffset, ?_⟩
    rw [hstored, List.flatten_cons, List.length_append, ← Nat.add_assoc]
    exact ih hrest

/-- A directory that is read has its entries where the table says, from the end of the table to the
last offset. -/
theorem tiles_of_readDirectory (hx : x.stream.IsOver bytes)
    (h : format.readDirectory source x = .ok entries y) :
    entries.map Entry.offset = (table bytes).dropLast ∧
      Tiles (ByteOrder.little.decode (bytes.take 4)) (tableEnd bytes) entries ∧
        tableEnd bytes ≤ bytes.length := by
  obtain ⟨lens, htable, hdata⟩ := of_readDirectory hx h
  obtain ⟨hplaces, hstarts, hflatten, hle⟩ := starts_pieces htable
  have hlength := htable.end_le
  have hfirst : 4 * (table bytes).length = ByteOrder.little.decode (bytes.take 4) := by
    have hdvd := htable.dvd_first
    rw [length_table]
    omega
  have hoffsets : (places (4 * (table bytes).length)
      (pieces bytes (table bytes).dropLast lens)).map Prod.fst = (table bytes).dropLast := by
    have hdrop := congrArg List.dropLast hstarts
    rwa [starts_eq, List.dropLast_concat] at hdrop
  refine ⟨?_, ?_, hlength⟩
  · rw [← hoffsets, hplaces]
    have hfst := congrArg (List.map fun data => data.2.1) hdata
    rw [List.map_map, List.map_map] at hfst
    exact hfst
  · rw [← hplaces] at hdata
    have htiles := tiles_of_map_data hdata
    rw [hflatten, List.length_take, List.length_drop, hfirst] at htiles
    rw [hfirst] at hle
    rwa [Nat.min_eq_left (by omega), Nat.add_sub_cancel' hle] at htiles

/-! ### Both at once -/

/-- A table within the limit is read, whatever follows it, and what follows is warned of. -/
theorem exists_readDirectory_of_isTable (hx : x.stream.IsOver bytes) (htable : IsTable bytes lens)
    (hcount : (table bytes).length ≤ x.context.options.maxEntries)
    (hsource : bytes.length ≤ source.length) :
    ∃ entries y, format.readDirectory source x = .ok entries y ∧
      y.warnings = x.warnings ++ warningsFor bytes := by
  obtain ⟨found, y, hdecode, hdata, -, hwarnings⟩ :=
    exists_decode (x := x.started) source (Stream.isOver_goto hx) rfl htable hcount
  obtain ⟨hplaces, hstarts, hflatten, hle⟩ := starts_pieces htable
  rw [← hplaces] at hdata
  refine ⟨found, y, Format.readDirectory_eq_ok.mpr ⟨found, hdecode,
    Listing.finish_eq_ok.mpr ⟨(arrange_of_map_data hdata).symm, fun e he => ?_⟩⟩, hwarnings⟩
  -- every entry ends before the last offset, and that one lies in the stream
  obtain ⟨p, hp, hedata⟩ := exists_place hdata he
  obtain ⟨hesource, hoffset, hstored, -, -⟩ := data_eq_dataAt.mp hedata
  have hend := htable.end_le
  have hp := (le_of_mem_places hp).2
  rw [hflatten, List.length_take, List.length_drop] at hp
  have hsat : e.stop ≤ e.offset + e.stored := Nat.min_le_left _ _
  rw [hesource]
  omega

/-- A directory that is read is behind a table, and what is warned of is what follows the last
entry. -/
theorem exists_isTable_of_readDirectory (hx : x.stream.IsOver bytes)
    (h : format.readDirectory source x = .ok entries y) :
    (∃ lens, IsTable bytes lens) ∧ y.warnings = x.warnings ++ warningsFor bytes := by
  obtain ⟨found, hdecode, -⟩ := Format.readDirectory_eq_ok.mp h
  have hover : x.started.stream.IsOver bytes := Stream.isOver_goto hx
  obtain ⟨lens, htable, hcount⟩ := isTable_of_decode hover rfl hdecode
  obtain ⟨found', y', hdecode', -, -, hwarnings⟩ := exists_decode source hover rfl htable hcount
  have heq := hdecode.symm.trans hdecode'
  rw [EStateM.Result.ok.injEq] at heq
  rw [heq.2]
  exact ⟨⟨lens, htable⟩, hwarnings⟩

theorem trailingBytes_not_mem_warningsFor (h : tableEnd bytes ≤ bytes.length) :
    trailingBytes ∉ warningsFor bytes ↔ tableEnd bytes = bytes.length := by
  rw [warningsFor]
  split
  · simp only [Array.mem_singleton, not_true_eq_false, false_iff]
    omega
  · simp only [Array.not_mem_empty, not_false_eq_true, true_iff]
    omega

/-- **What is checked is what is read without a warning.** On healthy little-endian storage, of which
the source holds all, and with a first offset that is within the limit, if there is one at all, the
check answers yes exactly when the directory is read and no trailing bytes are warned of. Whenever it
is read, the entries lie one behind the other in the order of the table, from the first offset to the
last, and the last one does not lie behind the end of the stream. -/
theorem isConsistent_iff_readDirectory (hx : x.stream.IsOver bytes)
    (hsource : bytes.length ≤ source.length)
    (hcount : 4 ≤ bytes.length →
      ByteOrder.little.decode (bytes.take 4) / 4 ≤ x.context.options.maxEntries) :
    ((∃ t, isConsistent x.stream = .ok true t) ↔
      ∃ entries y new, format.readDirectory source x = .ok entries y ∧
        y.warnings = x.warnings ++ new ∧ trailingBytes ∉ new) ∧
    ∀ entries y, format.readDirectory source x = .ok entries y →
      entries.map Entry.offset = (table bytes).dropLast ∧
      Tiles (ByteOrder.little.decode (bytes.take 4)) (tableEnd bytes) entries ∧
      tableEnd bytes ≤ bytes.length := by
  refine ⟨?_, fun entries y h => tiles_of_readDirectory hx h⟩
  rw [hx.eq_healthyAt, isConsistent_iff, hasTable_iff]
  constructor
  · rintro ⟨⟨lens, htable⟩, hend⟩
    have hlength : (table bytes).length ≤ x.context.options.maxEntries := by
      rw [length_table]
      exact hcount htable.first_le
    obtain ⟨entries, y, h, hwarnings⟩ := exists_readDirectory_of_isTable hx htable hlength hsource
    exact ⟨entries, y, _, h, hwarnings,
      (trailingBytes_not_mem_warningsFor htable.end_le).mpr hend⟩
  · rintro ⟨entries, y, new, h, hnew, hnone⟩
    obtain ⟨⟨lens, htable⟩, hwarnings⟩ := exists_isTable_of_readDirectory hx h
    rw [hwarnings, Array.append_right_inj] at hnew
    rw [← hnew, trailingBytes_not_mem_warningsFor htable.end_le] at hnone
    exact ⟨⟨lens, htable⟩, hnone⟩

/-- Two entries behind a table of three offsets, and one byte that belongs to none. -/
def overhanging : Bytes := [12, 0, 0, 0, 14, 0, 0, 0, 15, 0, 0, 0, 0x61, 0x62, 0x63, 0]

theorem isTable_overhanging : IsTable overhanging [2, 1] where
  first_le := by decide
  le_first := by decide
  dvd_first := by decide
  table_le := by decide
  end_le := by decide
  lengths_eq := by decide

/-- The two entries are read, and the check says no, so nobody can read them without a warning. -/
theorem isConsistent_iff_readDirectory_overhanging :
    (∃ entries y, format.readDirectory (.memory 16) { stream := .ofBytes overhanging } =
      .ok entries y ∧ entries.map Entry.offset = [12, 14] ∧ Tiles 12 15 entries) ∧
    isConsistent (.ofBytes overhanging) = .ok false (Stream.healthyAt overhanging 12) ∧
    ¬ ∃ entries y, format.readDirectory (.memory 16) { stream := .ofBytes overhanging } =
      .ok entries y ∧ trailingBytes ∉ y.warnings := by
  have hover : (Stream.ofBytes overhanging).IsOver overhanging := Stream.isOver_ofBytes _
  have hsource : overhanging.length ≤ (Location.memory 16).length := by decide
  obtain ⟨hchecked, htiles⟩ := isConsistent_iff_readDirectory
    (x := { stream := .ofBytes overhanging }) hover hsource fun _ => by decide
  obtain ⟨entries, y, h, -⟩ := exists_readDirectory_of_isTable
    (x := { stream := .ofBytes overhanging }) hover isTable_overhanging (by decide) hsource
  obtain ⟨hoffsets, hentries, -⟩ := htiles entries y h
  have hno : isConsistent (.ofBytes overhanging)
      = .ok false (Stream.healthyAt overhanging 12) := rfl
  refine ⟨⟨entries, y, h, hoffsets, hentries⟩, hno, ?_⟩
  rintro ⟨entries, y, h, hnone⟩
  obtain ⟨t, hyes⟩ := hchecked.mpr ⟨entries, y, y.warnings, h, (Array.empty_append).symm, hnone⟩
  cases hno.symm.trans hyes

end Packfile.Ofs
