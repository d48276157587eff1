import Packfile.Format
import Packfile.Listing.Hints
import Packfile.Listing.Lengths
import Packfile.Listing.Naming
import Packfile.Proofs.Contents

/-!
# From decoded entries to a listing

Behind every decoder stand the same last steps: hints and generated names where a directory has
none, then the order that is wanted, and then the check that every entry lies in its part. None of
them invents an entry or moves one's data, and an order in which offsets do not fall is kept.

## Main definitions

* `Session.started` — the session in which every decode starts

## Main results

* `Format.readDirectory_eq_ok` — a directory is what its decoder finds, ordered and checked
* `Listing.finish_eq_ok`, `Listing.arrange_of_rising`
* `Listing.forall₂_of_updateEach`, `Listing.updateEach_of_forall`
* `Listing.of_sniffHint`, `Listing.exists_sniffHint` — a hint is all that changes
* `Listing.forall₂_generate` — a name is all that changes
-/

namespace Packfile

namespace Listing

open Run Reading

variable {entries found : List Entry} {e e' : Entry} {sorted : Bool} {s t : Stream}

/-! ### Order -/

theorem perm_arrange (sorted : Bool) (entries : List Entry) :
    (arrange sorted entries).Perm entries := by
  cases sorted with
  | false => exact List.Perm.refl _
  | true => exact List.mergeSort_perm _ _

/-- Entries of one part whose offsets do not fall are in order, whether it is wanted or not. -/
theorem arrange_of_rising (source : Location) (hsource : ∀ e ∈ entries, e.source = source)
    (hrising : entries.Pairwise fun a b => a.offset ≤ b.offset) :
    arrange sorted entries = entries := by
  have hpairwise : entries.Pairwise fun a b => precedes a b = true := by
    refine hrising.imp_of_mem ?_
    intro a b ha hb hle
    rw [precedes, hsource a ha, hsource b hb, beq_self_eq_true, Bool.true_and,
      decide_eq_true hle, Bool.or_true]
  cases sorted with
  | false => rfl
  | true => exact List.mergeSort_of_pairwise hpairwise

/-! ### Bounds -/

theorem checkBounds_eq_ok {u : Unit} :
    checkBounds e = .ok u ↔ e.offset ≤ e.source.length ∧ e.stop ≤ e.source.length := by
  rw [checkBounds]
  by_cases ho : e.source.length < e.offset
  · simp [ho, Nat.not_le.mpr ho]
  · by_cases hs : e.source.length < e.stop
    · simp [ho, hs, Nat.not_le.mpr hs]
    · simp [ho, hs, Nat.not_lt.mp ho, Nat.not_lt.mp hs]

theorem validate_eq_ok {u : Unit} : validate entries = .ok u ↔
    ∀ e ∈ entries, e.offset ≤ e.source.length ∧ e.stop ≤ e.source.length := by
  induction entries with
  | nil => simp [validate]
  | cons e entries ih =>
    rw [List.forall_mem_cons, ← ih, ← checkBounds_eq_ok (u := ()), validate]
    cases checkBounds e with
    | error error => simp
    | ok _ => simp

/-- A listing is finished exactly when every entry lies in its part. -/
theorem finish_eq_ok : finish sorted entries = .ok found ↔
    found = arrange sorted entries ∧
      ∀ e ∈ entries, e.offset ≤ e.source.length ∧ e.stop ≤ e.source.length := by
  have hmem : (∀ e ∈ arrange sorted entries, e.offset ≤ e.source.length ∧ e.stop ≤ e.source.length)
      ↔ ∀ e ∈ entries, e.offset ≤ e.source.length ∧ e.stop ≤ e.source.length := by
    simp only [(perm_arrange sorted entries).mem_iff]
  rw [← hmem, ← validate_eq_ok (u := ()), finish]
  cases validate (arrange sorted entries) with
  | error error => simp
  | ok _ => simp [eq_comm]

/-! ### Updates in turn -/

theorem orFail_eq_ok {result : List Entry × Option Error} :
    orFail result = .ok found ↔ result = (found, none) := by
  obtain ⟨entries, _ | error⟩ := result <;> simp [orFail]

section

variable {update : Entry → Reader Entry}

theorem attempt_eq_ok {α : Type} {body : Reader α} {result : Except Error α} :
    Reader.attempt body s = .ok result t ↔
      (∃ a, body s = .ok a t ∧ result = .ok a) ∨ ∃ e, body s = .error e t ∧ result = .error e := by
  rw [Reader.attempt]
  cases body s with
  | ok a u =>
    simp only [EStateM.Result.ok.injEq, reduceCtorEq, false_and, exists_false, or_false]
    exact ⟨fun ⟨h, hu⟩ => ⟨a, ⟨rfl, hu⟩, h.symm⟩, fun ⟨_, ⟨ha, hu⟩, h⟩ => ⟨by rw [h, ha], hu⟩⟩
  | error e u =>
    simp only [EStateM.Result.ok.injEq, EStateM.Result.error.injEq, reduceCtorEq, false_and,
      exists_false, false_or]
    exact ⟨fun ⟨h, hu⟩ => ⟨e, ⟨rfl, hu⟩, h.symm⟩, fun ⟨_, ⟨he, hu⟩, h⟩ => ⟨by rw [h, he], hu⟩⟩

/-- When no update has failed, each entry has been updated. -/
theorem forall₂_of_updateEach (h : updateEach update entries s = .ok (found, none) t) :
    List.Forall₂ (fun e e' => ∃ u v, update e u = .ok e' v) entries found := by
  induction entries generalizing found s with
  | nil =>
    rw [updateEach, pure_eq_ok] at h
    cases h.1
    exact .nil
  | cons e entries ih =>
    simp only [updateEach, bind_eq_ok] at h
    obtain ⟨result, u, hresult, h⟩ := h
    rcases attempt_eq_ok.mp hresult with ⟨e', he', rfl⟩ | ⟨error, -, rfl⟩
    · simp only [bind_eq_ok, pure_eq_ok, Prod.mk.injEq] at h
      obtain ⟨⟨rest, failure⟩, v, hrest, ⟨rfl, rfl⟩, rfl⟩ := h
      exact .cons ⟨s, u, he'⟩ (ih hrest)
    · rw [pure_eq_ok] at h
      cases h.1

/-- Updates that cannot fail succeed in turn. -/
theorem updateEach_of_forall {I : Stream → Prop} {rel : Entry → Entry → Prop}
    (hupdate : ∀ e s, I s → ∃ e' t, update e s = .ok e' t ∧ rel e e' ∧ I t) (hs : I s) :
    ∃ found t, updateEach update entries s = .ok (found, none) t ∧
      List.Forall₂ rel entries found ∧ I t := by
  induction entries generalizing s with
  | nil => exact ⟨[], s, rfl, .nil, hs⟩
  | cons e entries ih =>
    obtain ⟨e', u, he', hrel, hu⟩ := hupdate e s hs
    obtain ⟨found, t, hfound, hall, ht⟩ := ih hu
    refine ⟨e' :: found, t, ?_, .cons hrel hall, ht⟩
    have hattempt : Reader.attempt (update e) s = .ok (.ok e') u :=
      attempt_eq_ok.mpr (.inl ⟨e', he', rfl⟩)
    rw [updateEach, bind_of_ok hattempt]
    exact bind_of_ok hfound

theorem keeps_updateEach (hupdate : ∀ e, Keeps Stream.source (update e)) (entries : List Entry) :
    Keeps Stream.source (updateEach update entries) := by
  induction entries with
  | nil => exact keeps_pure _
  | cons e entries ih =>
    rw [updateEach]
    refine Keeps.bind ?_ fun result => ?_
    · intro s
      have h := hupdate e s
      unfold after at h ⊢
      rw [Reader.attempt]
      cases hbody : update e s <;> rw [hbody] at h <;> exact h
    · cases result with
      | error error => exact keeps_pure _
      | ok e' => exact ih.bind fun _ => keeps_pure _

theorem ensures_updateEach {source : Bytes × ByteOrder × Option ℕ}
    (hupdate : ∀ e, Keeps Stream.source (update e)) (entries : List Entry) :
    Ensures Stream.source source
      (fun result => ∀ found, result = (found, none) →
        List.Forall₂ (fun e e' => ∃ u v, update e u = .ok e' v) entries found)
      (updateEach update entries) := by
  refine (keeps_updateEach hupdate entries).ensures fun s result t h found hresult => ?_
  subst hresult
  exact forall₂_of_updateEach h

end

/-! ### Hints -/

/-- A hint is all that changes. -/
theorem of_sniffHint (h : sniffHint e s = .ok e' t) : ∃ hint, e' = { e with hint } := by
  rw [sniffHint] at h
  split at h
  · cases h
    exact ⟨e.hint, rfl⟩
  · simp only [bind_eq_ok] at h
    obtain ⟨_, _, -, h⟩ := h
    split at h
    · cases h
      exact ⟨e.hint, rfl⟩
    · simp only [bind_eq_ok] at h
      obtain ⟨_, _, -, header, _, -, h⟩ := h
      rcases hextension : Signature.extensionOf? header with _ | extension
      · rw [hextension] at h
        cases h
        exact ⟨e.hint, rfl⟩
      · rw [hextension] at h
        cases h
        exact ⟨some extension, rfl⟩

/-- On storage that does not fail a hint can always be looked for: an entry that does not lie in the
stream gets none. -/
theorem exists_sniffHint (hs : s.failAt = none) :
    ∃ e' t, sniffHint e s = .ok e' t ∧ (∃ hint, e' = { e with hint }) ∧ t.source = s.source := by
  suffices h : ∃ e' t, sniffHint e s = .ok e' t ∧ t.source = s.source by
    obtain ⟨e', t, he', ht⟩ := h
    exact ⟨e', t, he', of_sniffHint he', ht⟩
  rw [sniffHint]
  split
  · exact ⟨e, s, rfl, rfl⟩
  · have hlength : Reader.length s = .ok s.length s := length_eq_ok.mpr ⟨rfl, rfl⟩
    rw [bind_of_ok hlength]
    split
    · exact ⟨e, s, rfl, rfl⟩
    · next hwidth =>
      simp only [Bool.or_eq_true, decide_eq_true_eq, Bool.not_eq_true', not_or,
        Bool.not_eq_false] at hwidth
      obtain ⟨hfit, -⟩ := inRange_iff.mp hwidth.2
      have hseek : Reader.seek e.offset s = .ok () { s with position := e.offset } :=
        seek_eq_ok.mpr ⟨by omega, rfl⟩
      have hahead : min e.stored Signature.reach
          ≤ ({ s with position := e.offset } : Stream).ahead.length := by
        rw [Stream.ahead, hs, List.length_drop]
        rw [Stream.length] at hfit
        dsimp only
        omega
      rw [bind_of_ok hseek, bind_of_ok (bytes_eq_ok.mpr ⟨hahead, rfl, rfl⟩)]
      cases Signature.extensionOf? (({ s with position := e.offset } : Stream).ahead.take
          (min e.stored Signature.reach)) with
      | some extension => exact ⟨_, _, rfl, rfl⟩
      | none => exact ⟨_, _, rfl, rfl⟩

/-- Looking for hints on storage that does not fail never fails. -/
theorem exists_sniffHints (entries : List Entry) (hs : s.failAt = none) :
    ∃ found t, sniffHints entries s = .ok (found, none) t ∧
      List.Forall₂ (fun e e' => ∃ hint, e' = { e with hint }) entries found ∧
        t.source = s.source := by
  refine updateEach_of_forall (I := fun t => t.source = s.source) ?_ rfl
  intro e u hu
  have hhealthy : u.failAt = none := by
    rw [show u.failAt = s.failAt from congrArg (fun i => i.2.2) hu]
    exact hs
  obtain ⟨e', t, he', hrel, ht⟩ := exists_sniffHint (e := e) hhealthy
  exact ⟨e', t, he', hrel, ht.trans hu⟩

theorem keeps_sniffHint (e : Entry) : Keeps Stream.source (sniffHint e) := by
  refine Keeps.ite (keeps_pure _) (keeps_length.bind fun _ => Keeps.ite (keeps_pure _) ?_)
  refine (keeps_seek _).bind fun _ => (keeps_bytes _).bind fun header => ?_
  cases Signature.extensionOf? header with
  | some extension => exact keeps_pure _
  | none => exact keeps_pure _

/-! ### Lengths that entries state -/

theorem keeps_scanLength (field : LengthField) (e : Entry) :
    Keeps Stream.source (scanLength field e) := by
  refine (keeps_checkRange _ _ _).bind fun _ => (keeps_seek _).bind fun _ => ?_
  refine (keeps_uint _ _).bind fun stated => (keeps_liftExcept _).bind fun most => ?_
  cases Word.add? stated field.excluded with
  | some length => exact keeps_pure _
  | none => exact keeps_throw _

/-- The length of an entry is the number in its field, and what that leaves out. -/
theorem of_scanLength {field : LengthField} (h : scanLength field e s = .ok e' t) :
    ∃ stated, stated < 256 ^ field.width ∧ e' = e.withStored (stated + field.excluded) := by
  simp only [scanLength, bind_eq_ok] at h
  obtain ⟨_, _, -, _, _, -, stated, _, hstated, _, u, -, h⟩ := h
  refine ⟨stated, lt_of_uint hstated, ?_⟩
  cases hadd : Word.add? stated field.excluded with
  | some length =>
    simp only [hadd, pure_eq_ok] at h
    obtain ⟨rfl, -⟩ := Word.add?_eq_some.mp hadd
    exact h.1
  | none =>
    simp only [hadd] at h
    exact (throw_eq_ok.mp h).elim

/-! ### Names -/

theorem forall₂_generateFrom (extension : String) (taken : List String) (index : ℕ)
    (entries : List Entry) :
    List.Forall₂ (fun e e' => ∃ name, e' = e.rename name) entries
      (generateFrom extension taken index entries) := by
  induction entries generalizing taken index with
  | nil => exact .nil
  | cons e entries ih =>
    rw [generateFrom]
    split
    · next name hname =>
      refine .cons ⟨name, ?_⟩ (ih _ _)
      rw [Entry.rename, ← hname]
    · exact .cons ⟨_, rfl⟩ (ih _ _)

/-- A name is all that changes, and every entry has one. -/
theorem forall₂_generate (extension : String) (entries : List Entry) :
    List.Forall₂ (fun e e' => ∃ name, e' = e.rename name) entries (generate extension entries) :=
  forall₂_generateFrom extension _ _ entries

/-! ### What is not changed -/

theorem map_data_of_hints
    (h : List.Forall₂ (fun e e' => ∃ hint, e' = { e with hint }) entries found) :
    found.map Entry.data = entries.map Entry.data := by
  induction h with
  | nil => rfl
  | cons he _ ih =>
    obtain ⟨hint, rfl⟩ := he
    rw [List.map_cons, List.map_cons, ih]
    rfl

theorem map_data_generate (extension : String) (entries : List Entry) :
    (generate extension entries).map Entry.data = entries.map Entry.data := by
  generalize hfound : generate extension entries = found
  have h := forall₂_generate extension entries
  rw [hfound] at h
  clear hfound
  induction h with
  | nil => rfl
  | cons he _ ih =>
    obtain ⟨name, rfl⟩ := he
    rw [List.map_cons, List.map_cons, ih]
    rfl

/-- Whatever is known of data is known of entries with the same data. -/
theorem exists_of_map_data (h : found.map Entry.data = entries.map Entry.data) (he : e ∈ found) :
    ∃ e' ∈ entries, e.data = e'.data := by
  have hmem : e.data ∈ entries.map Entry.data := by
    rw [← h]
    exact List.mem_map_of_mem he
  obtain ⟨e', he', hdata⟩ := List.mem_map.mp hmem
  exact ⟨e', he', hdata.symm⟩

/-- The last steps of the formats without names: every entry has a name then, and its data are those
that were found. -/
theorem ensures_named {i : (Bytes × ByteOrder × Option ℕ) × Options × FileTree}
    (extension : String) (entries : List Entry) :
    Ensures Session.input i
      (fun found => found.map Entry.data = entries.map Entry.data ∧
        ∀ e ∈ found, ∃ name, e.name = some name)
      (do
        let hinted ← sniffHints entries
        let found ← Decode.ofReader (Reader.ofExcept (orFail hinted))
        return generate extension found) := by
  refine (ensures_liftReader (ensures_updateEach keeps_sniffHint entries)).bind fun hinted h => ?_
  refine (ensures_ofReader ensures_ofExcept).bind fun found hfound => ensures_pure ⟨?_, ?_⟩
  · have hhints := (h found (orFail_eq_ok.mp hfound)).imp
      fun e e' ⟨u, v, hupdate⟩ => of_sniffHint hupdate
    rw [map_data_generate, map_data_of_hints hhints]
  · intro e he
    obtain ⟨e', -, name, rfl⟩ := exists_of_forall₂ (forall₂_generate extension found) he
    exact ⟨name, rfl⟩

end Listing

/-! ### Directories -/

namespace Session

/-- The session in which a decode starts. -/
def started (x : Session) : Session :=
  { x with
    stream := { x.stream with position := 0 }
    context := { x.context with palettes := [] } }

@[simp] theorem input_started (x : Session) : x.started.input = x.input := rfl

@[simp] theorem warnings_started (x : Session) : x.started.warnings = x.warnings := rfl

end Session

namespace Format

open Run Reading

/-- The decoder is run from the start of the stream, with no palettes left from before. -/
theorem readDirectory_eq (format : Format) (source : Location) (x : Session) :
    format.readDirectory source x = (do
      let entries ← format.decode source
      let options ← Decode.options
      Decode.ofReader (Reader.ofExcept (Listing.finish options.sortByOffset entries)) :
        Decode (List Entry)) x.started := by
  have hclear : Decode.clearPalettes x
      = .ok () { x with context := { x.context with palettes := [] } } := rfl
  have hseek : (liftM (Reader.seek 0) : Decode Unit)
      { x with context := { x.context with palettes := [] } } = .ok () x.started :=
    liftReader_eq_ok.mpr ⟨_, seek_eq_ok.mpr ⟨Nat.zero_le _, rfl⟩, rfl⟩
  rw [readDirectory, bind_of_ok hclear, bind_of_ok hseek]

/-- **A directory is what the decoder finds**, from the start of the stream, put in order and held
against its parts. -/
theorem readDirectory_eq_ok {format : Format} {source : Location} {x y : Session}
    {entries : List Entry} :
    format.readDirectory source x = .ok entries y ↔
      ∃ found, format.decode source x.started = .ok found y ∧
        Listing.finish y.context.options.sortByOffset found = .ok entries := by
  simp only [readDirectory_eq, bind_eq_ok, options_eq_ok, ofReader_eq_ok, ofExcept_eq_ok]
  constructor
  · rintro ⟨found, y, hfound, _, _, ⟨rfl, rfl⟩, _, ⟨hfinish, rfl⟩, rfl⟩
    exact ⟨found, hfound, hfinish⟩
  · rintro ⟨found, hfound, hfinish⟩
    exact ⟨found, y, hfound, _, _, ⟨rfl, rfl⟩, _, ⟨hfinish, rfl⟩, rfl⟩

/-- What a decoder fails with, its directory fails with. -/
theorem readDirectory_of_error {format : Format} {source : Location} {x y : Session} {e : Error}
    (h : format.decode source x.started = .error e y) :
    format.readDirectory source x = .error e y := by
  rw [readDirectory_eq]
  exact bind_of_error h

/-- Entries that lie in their parts are let out as the decoder found them, if no other order is
wanted. -/
theorem readDirectory_of_decode {format : Format} {source : Location} {x y : Session}
    {entries : List Entry} (h : format.decode source x.started = .ok entries y)
    (hinput : y.input = x.input) (hsort : x.context.options.sortByOffset = false)
    (hfit : ∀ e ∈ entries, e.offset + e.stored ≤ e.source.length) :
    format.readDirectory source x = .ok entries y := by
  have hoptions : y.context.options.sortByOffset = false := by
    rw [show y.context.options = x.context.options from congrArg (fun input => input.2.1) hinput]
    exact hsort
  refine readDirectory_eq_ok.mpr ⟨entries, h, Listing.finish_eq_ok.mpr ⟨?_, ?_⟩⟩
  · rw [hoptions]
    rfl
  · intro e he
    have hstop := hfit e he
    exact ⟨Nat.le_trans (Nat.le_add_right _ _) hstop, Nat.le_trans (Nat.min_le_left _ _) hstop⟩

end Format

end Packfile
