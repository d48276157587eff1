import Packfile.Proofs.Fields
import Packfile.Proofs.Likeness

/-!
# Names in a block

Many directories keep their names together in one block, each with a zero behind it, and refer to
them by the places where they start. Nothing binds these places to names as they were once written:
they come in any order, two of them may be the same, one may lead into the middle of a name, and the
last name need not have a zero. So a name is said by its place alone. It is what the block holds from
there up to a zero, or up to the end of the block.

## Why the stream does not show

The names are read one after the other, each byte by byte from a stream that the name before has
left somewhere, and that goes on behind the block. Each of them begins with a move to its place, and
none is read further than the block goes. What comes out is therefore `Names.resolve` of the block
and the places, one after the other and up to the first place that lies outside, and takes nothing
else from the stream. Storage that fails does not show either, as long as it delivers the block.

## Main definitions

* `Names.IsNameAt` — the bytes of the name at a place
* `Names.resolve` — a name as a function of the block and its place

## Main results

* `Names.outcome_namesFromBlob` — names are read as the block and the places say
* `Names.namesFromBlob_exact` — when they are read, and which they are
-/

namespace Packfile

open Run Reading

variable {s t : Stream} {blob : Bytes} {name : String} {names : List String} {places : List ℕ}
  {start size place limit : ℕ}

namespace Names

/-! ### Names by their places -/

/-- The bytes of the name at a place of a block: from there on, up to a zero or to the end of the
block. -/
structure IsNameAt (blob : Bytes) (place : ℕ) (found : Bytes) : Prop where
  /-- The place lies in the block. -/
  place_lt : place < blob.length
  /-- The bytes stand there. -/
  stands : found <+: blob.drop place
  /-- There is no zero among them. -/
  zero_not_mem : (0 : UInt8) ∉ found
  /-- What stands behind them, if anything, is a zero. -/
  ended : ∀ b, blob[place + found.length]? = some b → b = 0

/-- Behind the bytes before the first zero is that zero, or nothing. -/
theorem eq_zero_of_getElem?_beforeZero {bytes : Bytes} {b : UInt8}
    (h : bytes[(Reader.beforeZero bytes).length]? = some b) : b = 0 := by
  induction bytes with
  | nil => simp at h
  | cons first bytes ih =>
    rw [Reader.beforeZero, List.takeWhile_cons] at h
    by_cases hfirst : first = 0
    · subst hfirst
      simpa using h.symm
    · rw [if_pos (by simpa using hfirst), List.length_cons, List.getElem?_cons_succ] at h
      exact ih h

/-- At each place of a block there is a name. -/
theorem isNameAt_beforeZero (h : place < blob.length) :
    IsNameAt blob place (Reader.beforeZero (blob.drop place)) where
  place_lt := h
  stands := List.takeWhile_prefix _
  zero_not_mem := zero_not_mem_beforeZero _
  ended b hb := by
    rw [← List.getElem?_drop] at hb
    exact eq_zero_of_getElem?_beforeZero hb

/-- The name at a place of a block. -/
def resolve (blob : Bytes) (place : ℕ) : Except Error String :=
  if blob.length ≤ place then .error (.exceeds "name offset" place blob.length)
  else .ok (Utf8.decode (Reader.beforeZero (blob.drop place)))

theorem resolve_eq_ok : resolve blob place = .ok name ↔
    place < blob.length ∧ name = Utf8.decode (Reader.beforeZero (blob.drop place)) := by
  by_cases h : blob.length ≤ place
  · simp [resolve, h]
  · simp [resolve, h, Nat.lt_of_not_le h, eq_comm]

/-- Names are found at places that all lie in the block. -/
theorem mapM_resolve_eq_ok : places.mapM (resolve blob) = .ok names ↔
    (∀ place ∈ places, place < blob.length) ∧
      names = places.map fun place => Utf8.decode (Reader.beforeZero (blob.drop place)) := by
  induction places generalizing names with
  | nil => simp [except_pure_eq_ok]
  | cons place places ih =>
    simp only [List.mapM_cons, except_bind_eq_ok, except_pure_eq_ok, resolve_eq_ok, ih,
      List.forall_mem_cons, List.map_cons]
    constructor
    · rintro ⟨_, ⟨hplace, rfl⟩, _, ⟨hplaces, rfl⟩, rfl⟩
      exact ⟨⟨hplace, hplaces⟩, rfl⟩
    · rintro ⟨⟨hplace, hplaces⟩, rfl⟩
      exact ⟨_, ⟨hplace, rfl⟩, _, ⟨hplaces, rfl⟩, rfl⟩

/-! ### Names in streams -/

/-- Within a limit that leaves only bytes that are there, no name is too long. -/
theorem exists_terminatedBytes_of_le (h : limit ≤ s.ahead.length) :
    ∃ t, Reader.terminatedBytes (some limit) s
      = .ok (Reader.beforeZero (s.ahead.take limit)) t := by
  have hwindow : (window (some limit) s.ahead).length = limit := by
    rw [window, List.length_take, Nat.min_eq_left h]
  have hle : (Reader.beforeZero (s.ahead.take limit)).length ≤ limit :=
    Nat.le_trans (List.takeWhile_prefix _).length_le (Nat.le_of_eq hwindow)
  by_cases hzero : (Reader.beforeZero (s.ahead.take limit)).length < limit
  · exact ⟨_, terminatedBytes_of_zero rfl (by rwa [hwindow])⟩
  · refine ⟨_, terminatedBytes_of_limit rfl (by rwa [hwindow]) (congrArg some ?_)⟩
    exact Nat.le_antisymm (Nat.le_of_not_lt hzero) hle

section

variable (hfit : start + size ≤ s.length) (hmax : start + size ≤ Word.max)
include hfit hmax

/-- A name is read as the block and its place say, wherever the stream was left. -/
theorem outcome_nameInBlob (hdelivers : s.Delivers (start + size)) (place : ℕ) :
    ((Reader.nameInBlob start size place).outcome s).1
      = resolve ((s.bytes.drop start).take size) place := by
  rw [resolve, Stream.length_range hfit]
  by_cases hplace : size ≤ place
  · rw [if_pos hplace, Reader.nameInBlob, if_pos hplace]
    rfl
  · rw [if_neg hplace]
    -- what the limit leaves of the stream is what the block has from the place on
    have hahead : size - place ≤ (Stream.ahead { s with position := start + place }).length :=
      Stream.Delivers.le_length_ahead
        (Stream.Delivers.mono hdelivers (show start + place + (size - place) ≤ _ by omega))
        (show start + place + (size - place) ≤ s.length by omega)
    have hwindow : (Stream.ahead { s with position := start + place }).take (size - place)
        = ((s.bytes.drop start).take size).drop place := by
      rw [Stream.take_ahead hahead, List.drop_take, List.drop_drop]
    obtain ⟨t, ht⟩ := exists_terminatedBytes_of_le hahead
    rw [hwindow] at ht
    refine Reader.outcome_eq_ok.mpr ⟨t, ?_⟩
    rw [Reader.nameInBlob, guard_eq_ok]
    simp only [bind_eq_ok, liftExcept_eq_ok, seek_eq_ok, Reader.terminatedString, pure_eq_ok]
    exact ⟨hplace, start + place, s, ⟨Checked.sum_of_le (by omega), rfl⟩, (), _,
      ⟨by omega, rfl⟩, size - place, _, ⟨Checked.difference_of_le (by omega), rfl⟩,
      _, t, ht, rfl, rfl⟩

/-- **Names are read as the block and the places say.** -/
theorem outcome_namesFromBlob (hdelivers : s.Delivers (start + size)) (places : List ℕ) :
    ((Reader.namesFromBlob start size places).outcome s).1
      = places.mapM (resolve ((s.bytes.drop start).take size)) := by
  have hcheck : Reader.checkRange "name table" start size s = .ok () s :=
    checkRange_eq_ok.mpr ⟨hfit, hmax, rfl⟩
  have hnames : ((places.mapM (Reader.nameInBlob start size)).outcome s).1
      = places.mapM (resolve ((s.bytes.drop start).take size)) := by
    refine Reader.fst_outcome_mapM (P := fun t => t.source = s.source) (fun place _ t ht => ?_)
      (fun place _ => (keeps_nameInBlob start size place).preserves (· = s.source)) rfl
    have hbytes := Stream.bytes_of_source ht
    have hdelivers' : t.Delivers (start + size) := by
      rw [Stream.Delivers, Stream.failAt_of_source ht]
      exact hdelivers
    rw [outcome_nameInBlob (by rwa [Stream.length_of_source ht]) hmax hdelivers', hbytes]
  rw [← hnames, Reader.outcome, Reader.outcome, Reader.namesFromBlob, bind_of_ok hcheck]

end

/-- Names are read only if their block lies in the stream. -/
theorem le_length_of_namesFromBlob
    (h : ((Reader.namesFromBlob start size places).outcome s).1 = .ok names) :
    start + size ≤ s.length := by
  obtain ⟨t, ht⟩ := Reader.outcome_eq_ok.mp h
  obtain ⟨_, _, hcheck, -⟩ := bind_eq_ok.mp (show (Reader.checkRange _ _ _ >>= _) s = _ from ht)
  exact (checkRange_eq_ok.mp hcheck).1

/-- **Names are exactly what their block holds.** From storage that delivers the block, as healthy
storage does, they are read if the block lies in the stream and the places in the block. Each name
is then what stands at its place up to the first zero or to the end of the block, and is read alike
without the others. Any other stream with the same block gives the same names, or the same error. -/
theorem namesFromBlob_exact (hs : s.length ≤ Word.max) (hdelivers : s.Delivers (start + size))
    (places : List ℕ) :
    ((∃ names, ((Reader.namesFromBlob start size places).outcome s).1 = .ok names) ↔
      start + size ≤ s.length ∧ ∀ place ∈ places, place < size) ∧
    (∀ names, ((Reader.namesFromBlob start size places).outcome s).1 = .ok names →
      List.Forall₂ (fun place name =>
        (∃ found, IsNameAt ((s.bytes.drop start).take size) place found ∧
          name = Utf8.decode found) ∧
        ((Reader.namesFromBlob start size [place]).outcome s).1 = .ok [name]) places names) ∧
    ∀ t : Stream, start + size ≤ s.length → start + size ≤ t.length → t.Delivers (start + size) →
      (t.bytes.drop start).take size = (s.bytes.drop start).take size →
        ((Reader.namesFromBlob start size places).outcome t).1
          = ((Reader.namesFromBlob start size places).outcome s).1 := by
  refine ⟨⟨fun ⟨names, h⟩ => ?_, fun ⟨hfit, hplaces⟩ => ?_⟩, fun names h => ?_,
    fun t hfit hfit' hdelivers' hsame => ?_⟩
  · have hfit := le_length_of_namesFromBlob h
    rw [outcome_namesFromBlob hfit (Nat.le_trans hfit hs) hdelivers, mapM_resolve_eq_ok,
      Stream.length_range hfit] at h
    exact ⟨hfit, h.1⟩
  · rw [outcome_namesFromBlob hfit (Nat.le_trans hfit hs) hdelivers]
    exact ⟨_, mapM_resolve_eq_ok.mpr ⟨by rwa [Stream.length_range hfit], rfl⟩⟩
  · have hfit := le_length_of_namesFromBlob h
    have hresolved := outcome_namesFromBlob hfit (Nat.le_trans hfit hs) hdelivers
    rw [hresolved, mapM_resolve_eq_ok] at h
    obtain ⟨hplaces, rfl⟩ := h
    rw [List.forall₂_map_right_iff, List.forall₂_same]
    intro place hplace
    refine ⟨⟨_, isNameAt_beforeZero (hplaces place hplace), rfl⟩, ?_⟩
    rw [hresolved, mapM_resolve_eq_ok]
    exact ⟨List.forall_mem_singleton.mpr (hplaces place hplace), rfl⟩
  · have hmax := Nat.le_trans hfit hs
    rw [outcome_namesFromBlob hfit hmax hdelivers, outcome_namesFromBlob hfit' hmax hdelivers',
      hsame]

/-- The block `ab`, zero, a byte that is no character, `c`, between other bytes. The storage fails
right behind it, and the stream was left there. -/
def sharedNames : Stream where
  bytes := [9, 9, 97, 98, 0, 0xFF, 99, 100, 0]
  position := 8
  order := .big
  failAt := some 7

/-- The same block at the end of a stream. -/
def lastNames : Stream := .ofBytes [0, 0, 97, 98, 0, 0xFF, 99]

/-- The last name has no zero, one name is a part of another, one is asked for twice and one is
empty. A place right behind the block is refused. -/
theorem namesFromBlob_exact_overlapping :
    sharedNames.length ≤ Word.max ∧ sharedNames.Delivers (2 + 5) ∧
      ((Reader.namesFromBlob 2 5 [3, 0, 1, 0, 2]).outcome lastNames).1
        = .ok ["\uFFFDc", "ab", "b", "ab", ""] ∧
      ((Reader.namesFromBlob 2 5 [1]).outcome sharedNames).1 = .ok ["b"] ∧
      ∀ names, ((Reader.namesFromBlob 2 5 [0, 5]).outcome sharedNames).1 ≠ .ok names := by
  have hs : sharedNames.length ≤ Word.max := by decide
  have hdelivers : sharedNames.Delivers (2 + 5) := by
    rintro limit ⟨⟩
    exact Nat.le_refl _
  have hnames : ((Reader.namesFromBlob 2 5 [3, 0, 1, 0, 2]).outcome sharedNames).1
      = .ok ["\uFFFDc", "ab", "b", "ab", ""] := by
    decide +kernel
  obtain ⟨-, hexact, hsame⟩ := namesFromBlob_exact hs hdelivers [3, 0, 1, 0, 2]
  obtain ⟨hread, -, -⟩ := namesFromBlob_exact hs hdelivers [0, 5]
  refine ⟨hs, hdelivers, ?_, ?_, fun names h => ?_⟩
  · rw [hsame lastNames (by decide) (by decide) (fun _ hlimit => nomatch hlimit) (by decide)]
    exact hnames
  · exact (of_getElem? (i := 2) (hexact _ hnames) rfl rfl).2
  · exact absurd ((hread.mp ⟨names, h⟩).2 5 (by simp)) (by decide)

end Names

end Packfile
