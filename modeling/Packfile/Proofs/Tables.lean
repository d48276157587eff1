import Mathlib.Data.Set.List
import Packfile.Proofs.Reading
import Packfile.Walk.Offsets
import Packfile.Walk.Records

/-!
# Tables of records and of offsets

The table readers of the directories, from both sides: what is known of everything that a table
yields, and that a table which was written is read back.

## Reading back

The bytes of a table are the `flatMap` of its records, and reading it takes one record after the
other off the front of what is ahead. Nothing is known of the bytes behind the table. A reader of
records may look at the length of the stream, as those do that check an offset, so it is asked to
read back records only in streams of the source at hand.

## Main definitions

* `Session.quiet` — everything in a session but positions and progress
* `RecordAction.value?` — what a record adds to the entries
* `Tables.words`, `Tables.integers` — the integers that a table consists of, in the usual form and in
  any other

## Main results

* `Tables.ensures_readTable` — size and contents of a table that was read
* `Tables.readRecords_of_ahead`, `readTable_of_ahead` — a table that was written is read back
* `Tables.of_readTable` — where each record of a table was read
* `Tables.scaledTable_eq_ok` — a table of offsets in units is its integers, each times the unit
* `Tables.offsetTable_eq_ok` — a table of 4-byte offsets is its bytes
-/

namespace Packfile

namespace Session

/-- What a step leaves alone that warns of nothing. -/
def quiet (t : Session) :
    ((Bytes × ByteOrder × Option Nat) × Options × FileTree) × Array String :=
  (t.input, t.warnings)

theorem input_of_quiet {t u : Session} (h : u.quiet = t.quiet) : u.input = t.input :=
  congrArg Prod.fst h

theorem warnings_of_quiet {t u : Session} (h : u.quiet = t.quiet) : u.warnings = t.warnings :=
  congrArg Prod.snd h

theorem quiet_progress (t : Session) (index offset : ℕ) :
    ({ t with reports := t.reports.push (.progress index offset) } : Session).quiet = t.quiet := by
  simp [quiet, input, warnings]

theorem quiet_of_source (t : Session) {s : Stream} (h : s.source = t.stream.source) :
    ({ t with stream := s } : Session).quiet = t.quiet := by
  simp [quiet, input, warnings, h]

/-- A computation over another stream leaves as much alone as it does over its own. -/
theorem quiet_of_onStream {t u : Session} {s v : Stream}
    (h : u.quiet = ({ t with stream := s } : Session).quiet) (hv : v.source = t.stream.source) :
    ({ u with stream := v } : Session).quiet = t.quiet := by
  simp only [quiet, input, Prod.mk.injEq] at h ⊢
  exact ⟨⟨hv, h.1.2⟩, h.2⟩

end Session

/-- What a record adds to the entries. -/
def RecordAction.value? {α : Type} : RecordAction α → Option α
  | .entry value => some value
  | .skip | .finish => none

namespace Tables

open Run Reading

variable {α : Type} {x y : Session}

/-! ### Counted tables -/

section

variable {read : ℕ → Decode (RecordAction α)} {P : α → Prop}
  {i : (Bytes × ByteOrder × Option Nat) × Options × FileTree} {count index : ℕ}

/-- The records so far and those of one more step. -/
theorem mem_keep {found : Array α} {action : RecordAction α} {a : α}
    (h : a ∈ Decode.keep found action) : a ∈ found ∨ action = .entry a := by
  cases action with
  | entry value =>
    rw [Decode.keep, Array.mem_push] at h
    rcases h with h | rfl
    · exact .inl h
    · exact .inr rfl
  | skip => exact .inl h
  | finish => exact .inl h

theorem size_keep_le (found : Array α) (action : RecordAction α) :
    (Decode.keep found action).size ≤ found.size + 1 := by
  cases action with
  | entry value => exact Nat.le_of_eq (Array.size_push value)
  | skip => exact Nat.le_succ _
  | finish => exact Nat.le_succ _

theorem toArray_keep (found : Array α) (action : RecordAction α) :
    Decode.keep found action = found ++ action.value?.toList.toArray := by
  cases action <;> simp [Decode.keep, RecordAction.value?]

theorem ensures_tableFrom
    (hread : ∀ index, Ensures Session.input i (fun action => ∀ a, action = .entry a → P a)
      (read index)) {found : Array α} (hfound : ∀ a ∈ found, P a) :
    Ensures Session.input i (fun result => result.size ≤ found.size + count ∧ ∀ a ∈ result, P a)
      (Decode.tableFrom read count index found) := by
  induction count generalizing index found with
  | zero => exact ensures_pure ⟨Nat.le_refl _, hfound⟩
  | succ count ih =>
    refine (keeps_liftReader keeps_offset).then fun offset => ?_
    refine (hread index).bind fun action haction => ?_
    have hall : ∀ a ∈ Decode.keep found action, P a := by
      intro a ha
      rcases mem_keep ha with hmem | rfl
      · exact hfound a hmem
      · exact haction a rfl
    have hsize := size_keep_le found action
    have hrest : Ensures Session.input i
        (fun result => result.size ≤ found.size + (count + 1) ∧ ∀ a ∈ result, P a)
        (Decode.tableFrom read count (index + 1) (Decode.keep found action)) :=
      (ih hall).mono fun result ⟨hle, h⟩ => ⟨by omega, h⟩
    cases action with
    | finish => exact ensures_pure ⟨by omega, hfound⟩
    | skip => exact (keeps_report _).then fun _ => hrest
    | entry value => exact (keeps_report _).then fun _ => hrest

/-- **A table that was read** is no longer than its count, and of everything in it is known what is
known of a single record. -/
theorem ensures_readTable {c : EntryCount}
    (hread : ∀ index, Ensures Session.input i (fun action => ∀ a, action = .entry a → P a)
      (read index)) :
    Ensures Session.input i (fun result => result.length ≤ c.value ∧ ∀ a ∈ result, P a)
      (Decode.readTable c read) := by
  refine (ensures_tableFrom hread fun a ha => absurd ha (Array.not_mem_empty a)).bind ?_
  rintro found ⟨hsize, hall⟩
  refine ensures_pure ⟨by simpa using hsize, fun a ha => hall a (Array.mem_toList_iff.mp ha)⟩

end

/-! ### Tables that are read back -/

section

variable {enc : α → Bytes} {body : Reader α} {records : List α} {rest : Bytes}

/-- A reader of records that are all entries. -/
def entries (body : Reader α) (_ : ℕ) : Decode (RecordAction α) :=
  return .entry (← Decode.ofReader body)

/-- A table of entries that was read is no longer than its count, and of each entry is known what is
known of a single record. -/
theorem ensures_entries {P : α → Prop} {c : EntryCount}
    {i : (Bytes × ByteOrder × Option ℕ) × Options × FileTree}
    (h : Ensures Stream.source i.1 P body) :
    Ensures Session.input i (fun result => result.length ≤ c.value ∧ ∀ a ∈ result, P a)
      (Decode.readTable c (entries body)) := by
  refine ensures_readTable fun _ => (ensures_ofReader h).bind fun a ha => ensures_pure ?_
  rintro _ ⟨⟩
  exact ha

/-- A table of entries is read without anything but the position being changed, and reports. -/
theorem keeps_readEntries {c : EntryCount} {body : ℕ → Reader α}
    (h : ∀ index, Keeps Stream.source (body index)) :
    Keeps Session.input
      (Decode.readTable c fun index => return .entry (← Decode.ofReader (body index))) := by
  intro x
  refine (ensures_readTable (P := fun _ => True) (fun index => ?_) x rfl).1
  exact (keeps_ofReader (h index)).then fun _ => ensures_pure fun _ _ => trivial

/-- The length of a table whose records have one size. -/
theorem length_flatMap_of_mem {size : ℕ} (h : ∀ r ∈ records, (enc r).length = size) :
    (records.flatMap enc).length = size * records.length := by
  induction records with
  | nil => rfl
  | cons r records ih =>
    rw [List.flatMap_cons, List.length_append, h r List.mem_cons_self,
      ih fun r hr => h r (List.mem_cons_of_mem _ hr), List.length_cons, Nat.mul_succ, Nat.add_comm]

theorem length_flatMap {size : ℕ} (h : ∀ r, (enc r).length = size) (records : List α) :
    (records.flatMap enc).length = size * records.length :=
  length_flatMap_of_mem fun r _ => h r

/-- In a table whose records have one size, the number of a record tells where it stands. -/
theorem drop_flatMap {size index : ℕ} {r : α} (h : ∀ r, (enc r).length = size)
    (hget : records[index]? = some r) (rest : Bytes) :
    ∃ behind, (records.flatMap enc ++ rest).drop (size * index) = enc r ++ behind := by
  induction records generalizing index with
  | nil => cases hget
  | cons first records ih =>
    rw [List.flatMap_cons, List.append_assoc]
    cases index with
    | zero =>
      cases hget
      exact ⟨_, rfl⟩
    | succ index =>
      obtain ⟨behind, hbehind⟩ := ih hget
      refine ⟨behind, ?_⟩
      rw [Nat.mul_succ, Nat.add_comm, ← List.drop_drop, List.drop_left' (h first), hbehind]

section

variable {β : Type} {read : ℕ → Decode (RecordAction α)} {action : β → RecordAction α}
  {enc : β → Bytes} {records : List β} {rest : Bytes}

theorem tableFrom_of_ahead (index : ℕ) (found : Array α)
    (hread : ∀ r ∈ records, ∀ (index : ℕ) (z : Session) (rest : Bytes),
      z.stream.source = x.stream.source → z.stream.ahead = enc r ++ rest → action r ≠ .finish ∧
        read index z = .ok (action r) { z with stream := z.stream.advance (enc r).length })
    (h : x.stream.ahead = records.flatMap enc ++ rest) :
    ∃ y, Decode.tableFrom read records.length index found x
        = .ok (found ++ ((records.map action).filterMap RecordAction.value?).toArray) y ∧
      y.stream = x.stream.advance (records.flatMap enc).length ∧ y.quiet = x.quiet ∧
        y.context = x.context := by
  induction records generalizing index found x with
  | nil =>
    refine ⟨x, ?_, rfl, rfl, rfl⟩
    rw [List.length_nil, Decode.tableFrom, pure_eq_ok]
    exact ⟨Array.append_empty, rfl⟩
  | cons r records ih =>
    rw [List.flatMap_cons, List.append_assoc] at h
    have hoffset : (liftM Reader.offset : Decode ℕ) x = .ok x.stream.position x :=
      liftOffset_eq_ok.mpr ⟨rfl, rfl⟩
    obtain ⟨hfinish, hfirst⟩ := hread r List.mem_cons_self index x _ rfl h
    obtain ⟨y, hy, hstream, hquiet, hcontext⟩ := ih (index + 1) (Decode.keep found (action r))
      (x := { x with
        stream := x.stream.advance (enc r).length
        reports := x.reports.push (.progress index x.stream.position) })
      (fun r' hr' index z rest hz ha => hread r' (List.mem_cons_of_mem _ hr') index z rest hz ha)
      (by rw [Stream.ahead_advance, h, List.drop_left])
    refine ⟨y, ?_, ?_, hquiet.trans ?_, hcontext⟩
    · rw [List.length_cons, Decode.tableFrom, bind_of_ok hoffset, bind_of_ok hfirst]
      have hfound : found ++ (((r :: records).map action).filterMap RecordAction.value?).toArray
          = Decode.keep found (action r)
            ++ ((records.map action).filterMap RecordAction.value?).toArray := by
        rw [toArray_keep, List.map_cons]
        cases hvalue : (action r).value? <;> simp [hvalue]
      rw [hfound]
      -- the record does not end the table, so the rest of it is read
      cases haction : action r with
      | finish => exact absurd haction hfinish
      | skip => exact (bind_of_ok rfl).trans (by rw [haction] at hy; exact hy)
      | entry value => exact (bind_of_ok rfl).trans (by rw [haction] at hy; exact hy)
    · rw [hstream, List.flatMap_cons, List.length_append]
      exact Stream.advance_advance
    · exact (Session.quiet_progress { x with stream := x.stream.advance (enc r).length }
        index x.stream.position).trans (x.quiet_of_source rfl)

/-- **Records that were written are read back**, as what each of them means, and the stream is left
behind them. -/
theorem readRecords_of_ahead (enc : β → Bytes) (read : ℕ → Decode (RecordAction α))
    (action : β → RecordAction α)
    (hread : ∀ r ∈ records, ∀ (index : ℕ) (z : Session) (rest : Bytes),
      z.stream.source = x.stream.source → z.stream.ahead = enc r ++ rest → action r ≠ .finish ∧
        read index z = .ok (action r) { z with stream := z.stream.advance (enc r).length })
    (h : x.stream.ahead = records.flatMap enc ++ rest) :
    ∃ y, Decode.readTable ⟨records.length⟩ read x
        = .ok ((records.map action).filterMap RecordAction.value?) y ∧
      y.stream = x.stream.advance (records.flatMap enc).length ∧ y.quiet = x.quiet ∧
        y.context = x.context := by
  obtain ⟨y, hy, hkept⟩ := tableFrom_of_ahead 0 #[] hread h
  refine ⟨y, ?_, hkept⟩
  simp only [Decode.readTable, bind_eq_ok, pure_eq_ok]
  exact ⟨_, y, hy, by simp, rfl⟩

theorem filterMap_value?_map_entry (values : List α) :
    (values.map RecordAction.entry).filterMap RecordAction.value? = values := by
  simp [List.filterMap_map, Function.comp_def, RecordAction.value?]

/-- The same of records that are entries one and all. -/
theorem readEntries_of_ahead (enc : β → Bytes) (value : β → α) (body : ℕ → Reader α)
    (hbody : ∀ r ∈ records, ∀ (index : ℕ) (s : Stream) (rest : Bytes),
      s.source = x.stream.source → s.ahead = enc r ++ rest →
        body index s = .ok (value r) (s.advance (enc r).length))
    (h : x.stream.ahead = records.flatMap enc ++ rest) :
    ∃ y, Decode.readTable ⟨records.length⟩
        (fun index => return .entry (← Decode.ofReader (body index))) x
        = .ok (records.map value) y ∧
      y.stream = x.stream.advance (records.flatMap enc).length ∧ y.quiet = x.quiet ∧
        y.context = x.context := by
  obtain ⟨y, hy, hkept⟩ := readRecords_of_ahead enc
    (fun index => return .entry (← Decode.ofReader (body index)))
    (fun r => RecordAction.entry (value r))
    (fun r hr index z rest hz ha => ⟨by simp, bind_eq_ok.mpr
      ⟨value r, _, ofReader_eq_ok.mpr ⟨_, hbody r hr index _ _ hz ha, rfl⟩, rfl⟩⟩) h
  refine ⟨y, hy.trans ?_, hkept⟩
  rw [← filterMap_value?_map_entry (records.map value), List.map_map]
  rfl

end

/-- **A table that was written is read back**, and the stream is left behind it. -/
theorem readTable_of_ahead (enc : α → Bytes) (body : Reader α) (records : List α)
    (hbody : ∀ r ∈ records, ∀ (s : Stream) (rest : Bytes), s.source = x.stream.source →
      s.ahead = enc r ++ rest → body s = .ok r (s.advance (enc r).length))
    (h : x.stream.ahead = records.flatMap enc ++ rest) :
    ∃ y, Decode.readTable ⟨records.length⟩ (entries body) x = .ok records y ∧
      y.stream = x.stream.advance (records.flatMap enc).length ∧ y.quiet = x.quiet := by
  obtain ⟨y, hy, hstream, hquiet, -⟩ := readEntries_of_ahead enc id (fun _ => body)
    (fun r hr _ s rest hs ha => hbody r hr s rest hs ha) h
  rw [List.map_id] at hy
  exact ⟨y, hy, hstream, hquiet⟩

end

/-! ### Tables that were read

A table whose records have one size is taken apart again: each record was read where the ones before
it end. This is what is needed to see that a table with a bad record is not read at all. -/

section

variable {read : ℕ → Decode (RecordAction α)} {size count index : ℕ}

/-- Each record of a table that was read has been read where the ones before it end. -/
theorem of_tableFrom {found result : Array α}
    (hread : ∀ index x action y, read index x = .ok action y →
      action ≠ .finish ∧ y.stream = x.stream.advance size)
    (h : Decode.tableFrom read count index found x = .ok result y) :
    y.stream = x.stream.advance (size * count) ∧ ∃ actions : List (RecordAction α),
      actions.length = count ∧ result = found ++ (actions.filterMap RecordAction.value?).toArray ∧
      ∀ k action, actions[k]? = some action →
        ∃ z w, z.stream = x.stream.advance (size * k) ∧ read (index + k) z = .ok action w := by
  induction count generalizing index found x with
  | zero =>
    obtain ⟨rfl, rfl⟩ := pure_eq_ok.mp h
    exact ⟨rfl, [], rfl, by simp, fun k action hk => by simp at hk⟩
  | succ count ih =>
    simp only [Decode.tableFrom, bind_eq_ok, liftOffset_eq_ok] at h
    obtain ⟨_, _, ⟨rfl, rfl⟩, action, z, hz, h⟩ := h
    obtain ⟨hne, hstream⟩ := hread _ _ _ _ hz
    -- whatever the record is, the rest of the table begins behind it
    have hrest : ∃ u : Session, u.stream = z.stream ∧
        Decode.tableFrom read count (index + 1) (Decode.keep found action) u = .ok result y := by
      cases action with
      | finish => exact absurd rfl hne
      | skip =>
        obtain ⟨_, u, hreport, h⟩ := bind_eq_ok.mp h
        exact ⟨u, by rw [report_eq_ok.mp hreport], h⟩
      | entry value =>
        obtain ⟨_, u, hreport, h⟩ := bind_eq_ok.mp h
        exact ⟨u, by rw [report_eq_ok.mp hreport], h⟩
    obtain ⟨u, hu, htable⟩ := hrest
    obtain ⟨hend, actions, hlength, hresult, hall⟩ := ih htable
    rw [hu, hstream, Stream.advance_advance] at hend
    refine ⟨by rw [hend, Nat.mul_succ, Nat.add_comm], action :: actions, by simp [hlength], ?_, ?_⟩
    · rw [hresult, toArray_keep]
      cases hvalue : action.value? <;> simp [hvalue]
    · intro k a hk
      cases k with
      | zero =>
        rw [List.getElem?_cons_zero, Option.some.injEq] at hk
        subst hk
        exact ⟨_, z, by simp, hz⟩
      | succ k =>
        obtain ⟨v, w, hv, hw⟩ := hall k a hk
        rw [hu, hstream, Stream.advance_advance] at hv
        refine ⟨v, w, by rw [hv, Nat.mul_succ, Nat.add_comm], ?_⟩
        rwa [show index + (k + 1) = index + 1 + k by omega]

/-- **Each record of a table that was read** has been read where the ones before it end. -/
theorem of_readTable {c : EntryCount} {found : List α}
    (hread : ∀ index x action y, read index x = .ok action y →
      action ≠ .finish ∧ y.stream = x.stream.advance size)
    (h : Decode.readTable c read x = .ok found y) :
    y.stream = x.stream.advance (size * c.value) ∧ ∃ actions : List (RecordAction α),
      actions.length = c.value ∧ found = actions.filterMap RecordAction.value? ∧
      ∀ k action, actions[k]? = some action →
        ∃ z w, z.stream = x.stream.advance (size * k) ∧ read k z = .ok action w := by
  simp only [Decode.readTable, bind_eq_ok, pure_eq_ok] at h
  obtain ⟨result, _, htable, rfl, rfl⟩ := h
  obtain ⟨hend, actions, hlength, hresult, hall⟩ := of_tableFrom hread htable
  refine ⟨hend, actions, hlength, by simp [hresult], fun k action hk => ?_⟩
  simpa only [Nat.zero_add] using hall k action hk

/-- The same of a table of records that are entries one and all. -/
theorem of_readEntries {c : EntryCount} {found : List α} {body : ℕ → Reader α}
    (hbody : ∀ index s a t, body index s = .ok a t → t = s.advance size)
    (h : Decode.readTable c (fun index => return .entry (← Decode.ofReader (body index))) x
      = .ok found y) :
    y.stream = x.stream.advance (size * c.value) ∧ found.length = c.value ∧
      ∀ k a, found[k]? = some a → ∃ t, body k (x.stream.advance (size * k)) = .ok a t := by
  have hentry : ∀ index (x : Session) action y,
      (do return .entry (← Decode.ofReader (body index)) : Decode (RecordAction α)) x
        = .ok action y → ∃ a t, action = .entry a ∧ body index x.stream = .ok a t ∧
          y.stream = x.stream.advance size := by
    intro index x action y h
    simp only [bind_eq_ok, ofReader_eq_ok, pure_eq_ok] at h
    obtain ⟨a, _, ⟨t, ht, rfl⟩, rfl, rfl⟩ := h
    exact ⟨a, t, rfl, ht, hbody _ _ _ _ ht⟩
  have hstep : ∀ index (x : Session) action y,
      (do return .entry (← Decode.ofReader (body index)) : Decode (RecordAction α)) x
        = .ok action y → action ≠ .finish ∧ y.stream = x.stream.advance size := by
    intro index x action y h
    obtain ⟨a, _, rfl, -, hstream⟩ := hentry index x action y h
    exact ⟨by simp, hstream⟩
  obtain ⟨hend, actions, hlength, rfl, hall⟩ := of_readTable hstep h
  -- every action is an entry, so none is lost
  obtain ⟨values, rfl⟩ : ∃ values : List α, actions = values.map .entry := by
    have hrange : actions ∈ Set.range (List.map (RecordAction.entry (α := α))) := by
      rw [Set.range_list_map]
      intro action haction
      obtain ⟨k, hk⟩ := List.mem_iff_getElem?.mp haction
      obtain ⟨z, w, -, hread⟩ := hall k action hk
      obtain ⟨a, _, rfl, -⟩ := hentry _ _ _ _ hread
      exact ⟨a, rfl⟩
    obtain ⟨values, hvalues⟩ := hrange
    exact ⟨values, hvalues.symm⟩
  have hvalues := filterMap_value?_map_entry values
  refine ⟨hend, by rw [hvalues, ← hlength, List.length_map], fun k a hk => ?_⟩
  rw [hvalues] at hk
  obtain ⟨z, w, hz, hread⟩ := hall k (.entry a) (by rw [List.getElem?_map, hk]; rfl)
  obtain ⟨_, t, ha, ht, -⟩ := hentry _ _ _ _ hread
  cases ha
  exact ⟨t, by rwa [← hz]⟩
end

/-! ### Tables of offsets -/

/-- The first `count` little-endian integers of 4 bytes. -/
def words : ℕ → Bytes → List ℕ
  | 0, _ => []
  | count + 1, bytes => ByteOrder.little.decode (bytes.take 4) :: words count (bytes.drop 4)

@[simp] theorem length_words (count : ℕ) (bytes : Bytes) : (words count bytes).length = count := by
  induction count generalizing bytes with
  | zero => rfl
  | succ count ih => rw [words, List.length_cons, ih]

/-- The integers of a table are below `2 ^ 32`. -/
theorem lt_of_mem_words {count n : ℕ} {bytes : Bytes} (h : n ∈ words count bytes) :
    n < 2 ^ 32 := by
  induction count generalizing bytes with
  | zero => exact absurd h List.not_mem_nil
  | succ count ih =>
    rcases List.mem_cons.mp h with rfl | hmem
    · have hlt := ByteOrder.decode_lt .little (bytes.take 4)
      have hle : (bytes.take 4).length ≤ 4 := List.length_take_le _ _
      exact Nat.lt_of_lt_of_le hlt (Nat.pow_le_pow_right (by decide) hle)
    · exact ih hmem

/-- A table is the encoding of its integers. -/
theorem flatMap_words {count : ℕ} {bytes : Bytes} (h : 4 * count ≤ bytes.length) :
    (words count bytes).flatMap (ByteOrder.little.encode 4) = bytes.take (4 * count) := by
  induction count generalizing bytes with
  | zero => rfl
  | succ count ih =>
    have hfour : (bytes.take 4).length = 4 := by
      rw [List.length_take]
      omega
    have hword : ByteOrder.little.encode 4 (ByteOrder.little.decode (bytes.take 4))
        = bytes.take 4 := by
      have := ByteOrder.encode_decode .little (bytes.take 4)
      rwa [hfour] at this
    rw [words, List.flatMap_cons, hword, ih (by rw [List.length_drop]; omega),
      show 4 * (count + 1) = 4 + 4 * count by omega, List.take_add]

/-- The integers of a table are those that were encoded. -/
theorem words_flatMap {offsets : List ℕ} (h : ∀ n ∈ offsets, n < 2 ^ 32) (rest : Bytes) :
    words offsets.length (offsets.flatMap (ByteOrder.little.encode 4) ++ rest) = offsets := by
  induction offsets with
  | nil => rfl
  | cons n offsets ih =>
    have hfour : (ByteOrder.little.encode 4 n).length = 4 := ByteOrder.length_encode _ _ _
    rw [List.length_cons, words, List.flatMap_cons, List.append_assoc, List.take_left' hfour,
      List.drop_left' hfour, ih fun m hm => h m (List.mem_cons_of_mem _ hm),
      ByteOrder.decode_encode _ (h n List.mem_cons_self)]

/-- The first `count` integers of `width` bytes. -/
def integers (order : ByteOrder) (width : ℕ) : ℕ → Bytes → List ℕ
  | 0, _ => []
  | count + 1, bytes =>
    order.decode (bytes.take width) :: integers order width count (bytes.drop width)

theorem words_eq_integers (count : ℕ) (bytes : Bytes) :
    words count bytes = integers .little 4 count bytes := by
  induction count generalizing bytes with
  | zero => rfl
  | succ count ih => rw [words, integers, ih]

section

variable {s t : Stream} {order : ByteOrder} {found result : Array ℕ} {offsets : List ℕ}
  {width scale count raw offset : ℕ}

theorem uint_eq_ok (hwidth : Reader.isIntegerWidth width = true) :
    Reader.uint width order s = .ok raw t ↔ width ≤ s.ahead.length ∧
      raw = order.decode (s.ahead.take width) ∧ t = s.advance width := by
  rw [Reader.uint, if_pos hwidth]
  exact wordIn_eq_ok

theorem scaled_eq_ok :
    Reader.scaled raw scale = .ok offset ↔ raw * scale ≤ Word.max ∧ offset = raw * scale := by
  by_cases h : raw * scale ≤ Word.max <;> simp [Reader.scaled, Word.mul?, h, eq_comm]

theorem offsetsFrom_eq_ok (hwidth : Reader.isIntegerWidth width = true) :
    Reader.offsetsFrom width order scale count found s = .ok result t ↔
      width * count ≤ s.ahead.length ∧
      (∀ raw ∈ integers order width count s.ahead, raw * scale ≤ Word.max) ∧
      result = found ++ ((integers order width count s.ahead).map (· * scale)).toArray ∧
      t = s.advance (width * count) := by
  induction count generalizing found s with
  | zero => simp [Reader.offsetsFrom, pure_eq_ok, integers]
  | succ count ih =>
    have hsplit : width * (count + 1) = width + width * count := by
      rw [Nat.mul_succ, Nat.add_comm]
    simp only [Reader.offsetsFrom, bind_eq_ok, ofExcept_eq_ok, uint_eq_ok hwidth, scaled_eq_ok, ih,
      integers, List.forall_mem_cons, hsplit]
    constructor
    · rintro ⟨_, _, ⟨hlen, rfl, rfl⟩, _, _, ⟨⟨hfirst, rfl⟩, rfl⟩, hrest, hall, rfl, rfl⟩
      rw [Stream.ahead_advance] at hrest hall ⊢
      rw [List.length_drop] at hrest
      exact ⟨by omega, ⟨hfirst, hall⟩, by simp, Stream.advance_advance⟩
    · rintro ⟨hlen, ⟨hfirst, hall⟩, rfl, rfl⟩
      refine ⟨_, _, ⟨by omega, rfl, rfl⟩, _, _, ⟨⟨hfirst, rfl⟩, rfl⟩, ?_, ?_, ?_,
        Stream.advance_advance.symm⟩
      · rw [Stream.ahead_advance, List.length_drop]
        omega
      · rwa [Stream.ahead_advance]
      · rw [Stream.ahead_advance]
        simp

/-- **A table of scaled offsets is read exactly when it is there** and every scaled offset is a
word, as the integers that it consists of times the scale. -/
theorem scaledTable_eq_ok (hwidth : Reader.isIntegerWidth width = true) :
    Reader.offsetTable ⟨count⟩ width order scale s = .ok offsets t ↔
      width * count ≤ s.ahead.length ∧
      (∀ raw ∈ integers order width count s.ahead, raw * scale ≤ Word.max) ∧
      offsets = (integers order width count s.ahead).map (· * scale) ∧
      t = s.advance (width * count) := by
  simp only [Reader.offsetTable, bind_eq_ok, pure_eq_ok, offsetsFrom_eq_ok hwidth]
  constructor
  · rintro ⟨_, _, ⟨hlen, hall, rfl, rfl⟩, rfl, rfl⟩
    exact ⟨hlen, hall, by simp, rfl⟩
  · rintro ⟨hlen, hall, rfl, rfl⟩
    exact ⟨_, _, ⟨hlen, hall, rfl, rfl⟩, by simp, rfl⟩

/-- **A table of 4-byte offsets is read exactly when it is there**, as the integers that it
consists of. -/
theorem offsetTable_eq_ok :
    Reader.offsetTable ⟨count⟩ 4 .little 1 s = .ok offsets t ↔
      4 * count ≤ s.ahead.length ∧ offsets = words count s.ahead ∧ t = s.advance (4 * count) := by
  have hwidth : Reader.isIntegerWidth 4 = true := rfl
  have hall : ∀ raw ∈ integers .little 4 count s.ahead, raw * 1 ≤ Word.max := by
    intro raw hraw
    rw [← words_eq_integers] at hraw
    have hlt := lt_of_mem_words hraw
    rw [Word.max_eq]
    omega
  rw [scaledTable_eq_ok hwidth, words_eq_integers]
  simp only [Nat.mul_one, List.map_id'] at hall ⊢
  tauto

theorem keeps_offsetsFrom (width : ℕ) (order : ByteOrder) (scale count : ℕ) (found : Array ℕ) :
    Keeps Stream.source (Reader.offsetsFrom width order scale count found) := by
  induction count generalizing found with
  | zero => exact keeps_pure _
  | succ count ih =>
    exact (keeps_uint _ _).bind fun _ => (keeps_ofExcept _).bind fun _ => ih _

theorem keeps_offsetTable (count : EntryCount) (width : ℕ) (order : ByteOrder) (scale : ℕ) :
    Keeps Stream.source (Reader.offsetTable count width order scale) :=
  (keeps_offsetsFrom _ _ _ _ _).bind fun _ => keeps_pure _

/-- The offsets of a table are as many as were counted, and have 32 bits. -/
theorem ensures_offsetTable {source : Bytes × ByteOrder × Option ℕ} (c : EntryCount) :
    Ensures Stream.source source
      (fun offsets => offsets.length = c.value ∧ ∀ n ∈ offsets, n < 2 ^ 32)
      (Reader.offsetTable c 4 .little 1) := by
  refine (keeps_offsetTable _ _ _ _).ensures fun s offsets t h => ?_
  obtain ⟨-, rfl, -⟩ := offsetTable_eq_ok.mp h
  exact ⟨length_words _ _, fun n hn => lt_of_mem_words hn⟩

end

/-! ### Directories that are stored under a codec -/

theorem keeps_content (stored decoded : ℕ) (codec : Codec) :
    Keeps Stream.source (Reader.content stored decoded codec) := by
  intro s
  unfold after Reader.content
  dsimp only
  cases ContentReader.make (Feed.ofStream s stored) decoded codec with
  | error e => rfl
  | ok r =>
    dsimp only
    cases r.readAll <;> rfl

theorem keeps_decodeBlock (start stored decoded : ℕ) (codec : Codec) :
    Keeps Stream.source (Reader.decodeBlock start stored decoded codec) :=
  (keeps_checkRange _ _ _).bind fun _ => Keeps.guard <|
    (keeps_seek _).bind fun _ => keeps_content _ _ _

theorem keeps_openDirectory (start stored decoded : ℕ) (codec : Codec) :
    Keeps Stream.source (Reader.openDirectory start stored decoded codec) :=
  (keeps_decodeBlock _ _ _ _).bind fun _ => Keeps.guard <|
    keeps_order.bind fun _ => keeps_pure _

end Tables

end Packfile
