import Mathlib.Data.List.Perm.Subperm
import Packfile.Proofs.Decoders
import Packfile.Proofs.LikeDecoders
import Packfile.Proofs.OffsetTables

/-!
# Computations that stay within bounds

Wherever a decoder adds, subtracts or multiplies numbers of its directory, cuts a number down to a
narrower field or takes an element of a list by its index, it fails with `Error.overflow` if the
result is out of bounds. A computation is *safe* if it never does. Most steps are safe because they
compute nothing; the others are safe because of a check made elsewhere, often in another function,
and `Safe` carries the outcome of such checks along: it is `Run.Ensures` with safety added, and goes
through a `do` block in the same way.

## What has no bounds to leave

Some operations need no check of their own, because what they work on has no indices here: a list of
lengths is computed by going down the list of offsets (`Listing.lengths`), a count is the recursion
over it, and a signature is compared with the bytes that are there. The saturating operations of
`Packfile.Word` stay within a word by definition. Lengths and indices have the 64 bits that offsets
have, so none is cut down when it serves as the other.

## Main definitions

* `Run.Safe` — computations that ensure something and never overflow
* `TreeWalk.Fits` — the invariant of a walk over folders that keeps its counts within a word

## Main results

* `Run.Safe.bind` — the sequence of two steps
* `Walks.safe_readUntil`, `Walks.safe_walkTree` — the walks without a declared count
-/

namespace Packfile

/-! ### Safe computations -/

namespace Run

variable {σ ν α β : Type} {view : σ → ν} {i : ν} {P Q : α → Prop} {R : β → Prop}
  {x : EStateM Error σ α} {f : α → EStateM Error σ β}

/-- From a state that shows `i`, the computation ensures `P`, and it does not overflow. -/
structure Safe (view : σ → ν) (i : ν) (P : α → Prop) (x : EStateM Error σ α) : Prop where
  /-- What is known of the state that is left and of what is yielded. -/
  ensures : Ensures view i P x
  /-- No computation leaves its bounds. -/
  no_overflow : ∀ s, view s = i → ∀ e t, x s = .error e t → e ≠ .overflow

theorem Safe.mono (h : Safe view i P x) (hPQ : ∀ a, P a → Q a) : Safe view i Q x :=
  ⟨h.ensures.mono hPQ, h.no_overflow⟩

/-- What is known of a computation besides may be added. -/
theorem Safe.and (h : Safe view i P x) (hQ : Ensures view i Q x) :
    Safe view i (fun a => P a ∧ Q a) x :=
  ⟨fun s hs => ⟨(hQ s hs).1, fun a t ha => ⟨(h.ensures s hs).2 a t ha, (hQ s hs).2 a t ha⟩⟩,
    h.no_overflow⟩

/-- A computation that never fails, or only in its own way. -/
theorem Ensures.safe (h : Ensures view i P x)
    (hx : ∀ s e t, x s = .error e t → e ≠ .overflow) : Safe view i P x :=
  ⟨h, fun s _ => hx s⟩

theorem Keeps.safe (h : Keeps view x) (hx : ∀ s e t, x s = .error e t → e ≠ .overflow) :
    Safe view i (fun _ => True) x :=
  (h.ensures fun _ _ _ _ => trivial).safe hx

theorem safe_pure {a : α} (h : P a) : Safe view i P (pure a : EStateM Error σ α) :=
  (ensures_pure h).safe fun _ _ _ h => nomatch h

theorem safe_throw {e : Error} (he : e ≠ .overflow) :
    Safe view i P (throw e : EStateM Error σ α) := by
  refine (ensures_throw e).safe fun s e' t h => ?_
  cases h
  exact he

theorem safe_get {view : σ → ν} {i : ν} : Safe view i (fun _ => True) (get : EStateM Error σ σ) :=
  keeps_get.safe fun _ _ _ h => nomatch h

theorem Safe.bind (hx : Safe view i P x) (hf : ∀ a, P a → Safe view i R (f a)) :
    Safe view i R (x >>= f) := by
  refine ⟨hx.ensures.bind fun a ha => (hf a ha).ensures, fun s hs e t h => ?_⟩
  rcases bind_eq_error.mp h with h | ⟨a, u, hok, h⟩
  · exact hx.no_overflow s hs e t h
  · obtain ⟨hu, hP⟩ := hx.ensures.of_ok hs hok
    exact (hf a hP).no_overflow u hu e t h

theorem Safe.ite {c : Prop} [Decidable c] {x y : EStateM Error σ α} (hx : c → Safe view i P x)
    (hy : ¬ c → Safe view i P y) : Safe view i P (if c then x else y) := by
  by_cases hc : c
  · rw [if_pos hc]
    exact hx hc
  · rw [if_neg hc]
    exact hy hc

/-- Behind a check its condition is known to be false. -/
theorem Safe.guard {c : Prop} [Decidable c] {e : Error} {f : Unit → EStateM Error σ β}
    (he : e ≠ .overflow) (hf : ¬ c → Safe view i R (f ())) :
    Safe view i R (if c then (throw e : EStateM Error σ Unit) >>= f else f ()) :=
  Safe.ite (fun _ => (safe_throw (P := fun _ => False) he).bind fun _ h => h.elim) hf

/-- A step that is taken or not, in front of what comes next. -/
theorem Safe.optional {c : Prop} [Decidable c] {step : EStateM Error σ α}
    {rest : EStateM Error σ β} (hstep : Safe view i P step) (hrest : Safe view i R rest) :
    Safe view i R (if c then step >>= fun _ => rest else rest) :=
  Safe.ite (fun _ => hstep.bind fun _ _ => hrest) fun _ => hrest

theorem safe_mapM {f : α → EStateM Error σ β} {xs : List α} {S : α → β → Prop}
    (hf : ∀ a ∈ xs, Safe view i (S a) (f a)) :
    Safe view i (fun ys => ys.length = xs.length ∧ ∀ y ∈ ys, ∃ x ∈ xs, S x y) (xs.mapM f) := by
  refine ⟨ensures_mapM fun a ha => (hf a ha).ensures, ?_⟩
  suffices h : Safe view i (fun _ => True) (xs.mapM f) from h.no_overflow
  induction xs with
  | nil => exact safe_pure trivial
  | cons x xs ih =>
    rw [List.mapM_cons]
    refine (hf x List.mem_cons_self).bind fun y _ => ?_
    exact (ih fun a ha => hf a (List.mem_cons_of_mem _ ha)).bind fun _ _ => safe_pure trivial

end Run

open Run

/-! ### Single reads -/

namespace Reading

variable {α β : Type} {P : α → Prop} {R : β → Prop} {src : Bytes × ByteOrder × Option ℕ}
  {result : Except Error α} {a : α}

theorem safe_ofExcept (h : result ≠ .error .overflow) :
    Safe Stream.source src (fun a => result = .ok a) (Reader.ofExcept result) := by
  refine ensures_ofExcept.safe fun s e t he => ?_
  rintro rfl
  cases result with
  | ok a => cases he
  | error e =>
    cases he
    exact h rfl

/-- A computation that is known to stay within its bounds. -/
theorem Safe.value {f : α → Reader β} (h : result = .ok a) (hf : Safe Stream.source src R (f a)) :
    Safe Stream.source src R ((liftM result : Reader α) >>= f) := by
  subst h
  exact hf

theorem safe_offset : Safe Stream.source src (fun _ => True) Reader.offset :=
  keeps_offset.safe fun _ _ _ h => nomatch h

theorem safe_length : Safe Stream.source src (· = src.1.length) Reader.length := by
  refine Ensures.safe (fun s hs => ⟨(keeps_length s).trans hs, fun n t h => ?_⟩) fun _ _ _ h =>
    nomatch h
  rw [(length_eq_ok.mp h).1, ← hs]
  rfl

theorem safe_remaining : Safe Stream.source src (fun _ => True) Reader.remaining :=
  keeps_remaining.safe fun _ _ _ h => nomatch h

theorem safe_order : Safe Stream.source src (fun _ => True) Reader.order :=
  keeps_order.safe fun _ _ _ h => nomatch h

theorem safe_seek (p : ℕ) : Safe Stream.source src (fun _ => True) (Reader.seek p) :=
  safe_length.bind fun _ _ => Safe.guard (by simp) fun _ =>
    Keeps.safe (fun _ => rfl) fun _ _ _ h => nomatch h

theorem safe_skip (k : ℕ) : Safe Stream.source src (fun _ => True) (Reader.skip k) :=
  safe_offset.bind fun _ _ => safe_seek _

theorem safe_checkRange (what : String) (start size : ℕ) :
    Safe Stream.source src (fun _ => start + size ≤ src.1.length ∧ start + size ≤ Word.max)
      (Reader.checkRange what start size) := by
  have hsafe : Safe Stream.source src (fun _ => True) (Reader.checkRange what start size) :=
    safe_length.bind fun _ _ =>
      Safe.ite (fun _ => safe_throw (by simp [Reader.rangeError])) fun _ => safe_pure trivial
  exact ⟨ensures_checkRange what start size, hsafe.no_overflow⟩

theorem safe_exactly (k : ℕ) : Safe Stream.source src (fun _ => True) (Reader.exactly k) := by
  refine (keeps_exactly k).safe fun s e t h => ?_
  rw [Reader.exactly] at h
  split_ifs at h <;> cases h <;> simp

theorem safe_wordIn (order : ByteOrder) (width : ℕ) :
    Safe Stream.source src (· < 256 ^ width) (Reader.wordIn order width) := by
  have hsafe : Safe Stream.source src (fun _ => True) (Reader.wordIn order width) :=
    (safe_exactly width).bind fun _ _ => safe_pure trivial
  exact ⟨(keeps_wordIn _ _).ensures fun _ _ _ h => lt_of_wordIn h, hsafe.no_overflow⟩

theorem safe_u8 : Safe Stream.source src (fun _ => True) Reader.u8 :=
  (safe_wordIn _ _).mono fun _ _ => trivial

theorem safe_u16 : Safe Stream.source src (· < 2 ^ 16) Reader.u16 :=
  safe_order.bind fun _ _ => (safe_wordIn _ 2).mono fun n h => by omega

theorem safe_u32 : Safe Stream.source src (· < 2 ^ 32) Reader.u32 :=
  safe_order.bind fun _ _ => (safe_wordIn _ 4).mono fun n h => by omega

theorem safe_uint (width : ℕ) (order : ByteOrder) :
    Safe Stream.source src (fun _ => True) (Reader.uint width order) :=
  Safe.ite (fun _ => (safe_wordIn _ _).mono fun _ _ => trivial) fun _ => safe_throw (by simp)

/-- As many bytes are read as were asked for. -/
theorem safe_bytes (k : ℕ) : Safe Stream.source src (·.length = k) (Reader.bytes k) := by
  have hsafe : Safe Stream.source src (fun _ => True) (Reader.bytes k) :=
    safe_remaining.bind fun _ _ => Safe.guard (by simp) fun _ => safe_exactly k
  refine ⟨(keeps_bytes k).ensures fun s found t h => ?_, hsafe.no_overflow⟩
  obtain ⟨hlen, rfl, -⟩ := bytes_eq_ok.mp h
  rw [List.length_take, Nat.min_eq_left hlen]

theorem safe_fixedString (width : ℕ) :
    Safe Stream.source src (fun _ => True) (Reader.fixedString width) := by
  rw [fixedString_eq]
  exact (safe_bytes width).bind fun _ _ => safe_pure trivial

theorem safe_leadingBytes (width : ℕ) :
    Safe Stream.source src (fun _ => True) (Reader.leadingBytes width) :=
  (safe_seek 0).bind fun _ _ => safe_length.bind fun _ _ => (safe_bytes _).mono fun _ _ => trivial

theorem safe_terminatedString (limit : Option ℕ) :
    Safe Stream.source src (fun _ => True) (Reader.terminatedString limit) := by
  have hbytes : Safe Stream.source src (fun _ => True) (Reader.terminatedBytes limit) := by
    refine (Names.keeps_terminatedBytes limit).safe fun s e t h => ?_
    unfold Reader.terminatedBytes at h
    dsimp only at h
    split_ifs at h <;> cases h <;> simp
  exact hbytes.bind fun _ _ => safe_pure trivial

theorem safe_asRecord {body : Reader α} (h : Safe Stream.source src P body) :
    Safe Stream.source src P (Reader.asRecord body) := by
  refine ⟨ensures_asRecord h.ensures, fun s hs e t he => ?_⟩
  rw [Reader.asRecord] at he
  cases hbody : body s with
  | ok a u => simp [hbody] at he
  | error e' u =>
    have hne := h.no_overflow s hs e' u hbody
    cases e' <;> simp [hbody] at he <;> obtain ⟨rfl, -⟩ := he <;> simp_all

/-! ### Blocks under a codec -/

theorem undo_ne_overflow (codec : Codec) (feed : Feed) : codec.undo feed ≠ .error .overflow := by
  induction codec generalizing feed with
  | nil => simp [Codec.undo]
  | cons transform codec ih =>
    rw [Codec.undo]
    cases hkey : transform.keyError? with
    | none => exact ih _
    | some e =>
      cases transform <;> simp [Transform.keyError?] at hkey
      · simp [← hkey.2]
      · simp [← hkey.2]

theorem readAll_ne_overflow (r : ContentReader) : r.readAll ≠ .error .overflow := by
  rw [ContentReader.readAll]
  split
  · simp
  · split
    · simp
    · split <;> simp
    · split <;> simp

theorem safe_content (stored decoded : ℕ) (codec : Codec) :
    Safe Stream.source src (fun _ => True) (Reader.content stored decoded codec) := by
  refine (Tables.keeps_content stored decoded codec).safe fun s e t h => ?_
  rintro rfl
  rw [Reader.content, ContentReader.make] at h
  dsimp only at h
  cases hundo : codec.undo (Feed.ofStream s stored) with
  | error e =>
    simp only [hundo, EStateM.Result.error.injEq] at h
    exact undo_ne_overflow codec _ (h.1 ▸ hundo)
  | ok feed =>
    cases hread : (⟨feed, decoded⟩ : ContentReader).readAll with
    | error e =>
      simp only [hundo, hread, EStateM.Result.error.injEq] at h
      exact readAll_ne_overflow _ (h.1 ▸ hread)
    | ok found => simp [hundo, hread] at h

theorem safe_openDirectory (start stored decoded : ℕ) (codec : Codec) :
    Safe Stream.source src (fun _ => True) (Reader.openDirectory start stored decoded codec) := by
  have hblock : Safe Stream.source src (fun _ => True)
      (Reader.decodeBlock start stored decoded codec) :=
    (safe_checkRange _ _ _).bind fun _ _ => Safe.guard (by simp) fun _ =>
      (safe_seek _).bind fun _ _ => safe_content _ _ _
  exact hblock.bind fun _ _ => Safe.guard (by simp) fun _ =>
    safe_order.bind fun _ _ => safe_pure trivial

/-! ### Names and offsets -/

/-- The place of a name is compared with the size of its block first, and the end of the block is a
word. -/
theorem safe_nameInBlob {start size : ℕ} (h : start + size ≤ Word.max) (relative : ℕ) :
    Safe Stream.source src (fun _ => True) (Reader.nameInBlob start size relative) := by
  rw [Reader.nameInBlob]
  refine Safe.guard (by simp) fun hrelative => Safe.value (Checked.sum_of_le (by omega)) ?_
  refine (safe_seek _).bind fun _ _ => Safe.value (Checked.difference_of_le (by omega)) ?_
  exact safe_terminatedString _

theorem safe_namesFromBlob (start size : ℕ) (offsets : List ℕ) :
    Safe Stream.source src (fun _ => True) (Reader.namesFromBlob start size offsets) :=
  (safe_checkRange _ _ _).bind fun _ h =>
    (safe_mapM fun relative _ => safe_nameInBlob h.2 relative).mono fun _ _ => trivial

theorem scaled_ne_overflow (raw scale : ℕ) : Reader.scaled raw scale ≠ .error .overflow := by
  intro h
  cases (Tables.scaled_eq_error.mp h).2

theorem safe_offsetTable (c : EntryCount) :
    Safe Stream.source src (fun offsets => offsets.length = c.value ∧ ∀ n ∈ offsets, n < 2 ^ 32)
      (Reader.offsetTable c 4 .little 1) := by
  have hfrom : ∀ (count : ℕ) (found : Array ℕ), Safe Stream.source src (fun _ => True)
      (Reader.offsetsFrom 4 .little 1 count found) := by
    intro count
    induction count with
    | zero => exact fun _ => safe_pure trivial
    | succ count ih =>
      exact fun _ => (safe_uint _ _).bind fun _ _ =>
        (safe_ofExcept (scaled_ne_overflow _ _)).bind fun _ _ => ih _
  have hsafe : Safe Stream.source src (fun _ => True) (Reader.offsetTable c 4 .little 1) :=
    (hfrom _ _).bind fun _ _ => safe_pure trivial
  exact ⟨Tables.ensures_offsetTable c, hsafe.no_overflow⟩

/-! ### Steps of a decode -/

variable {i : (Bytes × ByteOrder × Option ℕ) × Options × FileTree}

theorem safe_ofReader {body : Reader α} (h : Safe Stream.source i.1 P body) :
    Safe Session.input i P (Decode.ofReader body) := by
  refine ⟨ensures_ofReader h.ensures, fun x hx e y he => ?_⟩
  rw [Decode.ofReader] at he
  cases hbody : body x.stream with
  | ok a t => simp [hbody] at he
  | error e' t =>
    simp only [hbody, EStateM.Result.error.injEq] at he
    rw [← he.1]
    exact h.no_overflow x.stream (congrArg Prod.fst hx) e' t hbody

theorem safe_liftReader {body : Reader α} (h : Safe Stream.source i.1 P body) :
    Safe Session.input i P (liftM body : Decode α) := safe_ofReader h

/-- A computation that is known to stay within its bounds. -/
theorem Safe.value_decode {f : α → Decode β} (h : result = .ok a)
    (hf : Safe Session.input i R (f a)) :
    Safe Session.input i R ((liftM result : Decode α) >>= f) := by
  subst h
  exact hf

theorem safe_options : Safe Session.input i (· = i.2.1) Decode.options :=
  ensures_options.safe fun _ _ _ h => nomatch h

theorem safe_files : Safe Session.input i (· = i.2.2) Decode.files :=
  ensures_files.safe fun _ _ _ h => nomatch h

theorem safe_report (r : Report) : Safe Session.input i (fun _ => True) (Decode.report r) :=
  (keeps_report r).safe fun _ _ _ h => nomatch h

theorem safe_addPalette (palette : Palette) :
    Safe Session.input i (fun _ => True) (Decode.addPalette palette) :=
  (keeps_addPalette palette).safe fun _ _ _ h => nomatch h

theorem safe_names : Safe Session.input i (fun _ => True) Decode.names := by
  refine keeps_names.safe fun x e y h => ?_
  obtain ⟨z, hz, -⟩ := names_eq x
  rw [hz] at h
  cases h

theorem safe_checkCount (count recordSize available : ℕ) :
    Safe Session.input i (fun c => c = ⟨count⟩ ∧ count ≤ i.2.1.maxEntries)
      (Decode.checkCount count recordSize available) := by
  have hcheck : ∀ limit, EntryCount.check limit count recordSize available ≠ .error .overflow := by
    intro limit
    rw [EntryCount.check]
    dsimp only
    split
    · simp
    · split <;> simp
  have hsafe : Safe Session.input i (fun _ => True)
      (Decode.checkCount count recordSize available) :=
    safe_options.bind fun _ _ => safe_ofReader ((safe_ofExcept (hcheck _)).mono fun _ _ => trivial)
  exact ⟨ensures_checkCount count recordSize available, hsafe.no_overflow⟩

/-- The error of a full directory names a count that is a word. -/
theorem safe_checkRoom {found : ℕ} (h : found < Word.max) :
    Safe Session.input i (fun _ => found < i.2.1.maxEntries) (Decode.checkRoom found) := by
  have hsafe : Safe Session.input i (fun _ => True) (Decode.checkRoom found) :=
    safe_options.bind fun _ _ => Safe.ite
      (fun _ => Safe.value_decode (Checked.sum_of_le (by omega)) (safe_throw (by simp)))
      fun _ => safe_pure trivial
  exact ⟨ensures_checkRoom found, hsafe.no_overflow⟩

theorem safe_onStream {body : Decode α} {s : Stream}
    (h : Safe Session.input (s.source, i.2) P body) :
    Safe Session.input i (fun result => P result.1) (Decode.onStream s body) := by
  refine ⟨ensures_onStream h.ensures, fun x hx e y he => ?_⟩
  subst hx
  rw [Decode.onStream] at he
  cases hbody : body { x with stream := s } with
  | ok a z => simp [hbody] at he
  | error e' z =>
    simp only [hbody, EStateM.Result.error.injEq] at he
    rw [← he.1]
    exact h.no_overflow { x with stream := s } rfl e' z hbody

/-- An attempt never fails, and the error that it gives is no overflow either. -/
theorem safe_attempt {body : Decode α} (h : Safe Session.input i P body) :
    Safe Session.input i
      (fun result => (∀ a, result = .ok a → P a) ∧ result ≠ .error .overflow)
      (Decode.attempt body) := by
  have hne : Ensures Session.input i (fun result => result ≠ .error .overflow)
      (Decode.attempt body) := by
    intro x hx
    refine ⟨(ensures_attempt h.ensures x hx).1, fun result y hy => ?_⟩
    rintro rfl
    rw [Decode.attempt] at hy
    cases hbody : body x with
    | ok a z =>
      rw [hbody] at hy
      cases hy
    | error e z =>
      rw [hbody] at hy
      cases hy
      exact h.no_overflow x hx _ y hbody rfl
  refine Safe.and ((ensures_attempt h.ensures).safe fun x e y he => ?_) hne
  rw [Decode.attempt] at he
  cases hbody : body x <;> simp [hbody] at he

end Reading

open Reading

variable {α σ : Type} {i : (Bytes × ByteOrder × Option ℕ) × Options × FileTree}

/-! ### Counted tables -/

namespace Tables

variable {read : ℕ → Decode (RecordAction α)} {P : α → Prop} {c : EntryCount}

theorem safe_readTable
    (hread : ∀ index, Safe Session.input i (fun action => ∀ a, action = .entry a → P a)
      (read index)) :
    Safe Session.input i (fun result => result.length ≤ c.value ∧ ∀ a ∈ result, P a)
      (Decode.readTable c read) := by
  have hfrom : ∀ (count index : ℕ) (found : Array α), Safe Session.input i (fun _ => True)
      (Decode.tableFrom read count index found) := by
    intro count
    induction count with
    | zero => exact fun _ _ => safe_pure trivial
    | succ count ih =>
      refine fun index found => (safe_liftReader safe_offset).bind fun _ _ => ?_
      refine (hread index).bind fun action _ => ?_
      cases action with
      | finish => exact safe_pure trivial
      | skip => exact (safe_report _).bind fun _ _ => ih _ _
      | entry value => exact (safe_report _).bind fun _ _ => ih _ _
  have hsafe : Safe Session.input i (fun _ => True) (Decode.readTable c read) :=
    (hfrom _ _ _).bind fun _ _ => safe_pure trivial
  exact ⟨ensures_readTable fun index => (hread index).ensures, hsafe.no_overflow⟩

/-- A table of records that are entries one and all. -/
theorem safe_readEntries {body : ℕ → Reader α}
    (hbody : ∀ index, Safe Stream.source i.1 P (body index)) :
    Safe Session.input i (fun result => result.length ≤ c.value ∧ ∀ a ∈ result, P a)
      (Decode.readTable c fun index => return .entry (← Decode.ofReader (body index))) :=
  safe_readTable fun index => (safe_ofReader (hbody index)).bind fun a ha => safe_pure <| by
    rintro _ ⟨⟩
    exact ha

end Tables

/-! ### Walks -/

namespace Walks

/-- What a record reader hands on to itself may be needed to see that it is safe. Each round takes up
one record at most, so neither the index nor the number of entries gets beyond the rounds. -/
theorem safe_untilFrom {read : σ → ℕ → Decode (RecordAction α × σ)} {Inv : σ → Prop}
    (hread : ∀ state index, Inv state →
      Safe Session.input i (fun result => Inv result.2) (read state index))
    {stop recordSize rounds index : ℕ} {state : σ} {found : Array α} (hstate : Inv state)
    (hfound : found.size ≤ index) (hindex : index + rounds ≤ Word.max) :
    Safe Session.input i (fun _ => True)
      (Decode.untilFrom stop recordSize read rounds state index found) := by
  induction rounds generalizing state index found with
  | zero => exact safe_pure trivial
  | succ rounds ih =>
    refine (safe_liftReader safe_offset).bind fun offset _ => Safe.ite (fun _ => ?_) fun _ => ?_
    · exact Safe.optional (safe_report _) (safe_pure trivial)
    refine (safe_checkRoom (by omega)).bind fun _ _ => ?_
    refine (safe_attempt (hread state index hstate)).bind fun result ⟨hok, hne⟩ => ?_
    rcases result with e | ⟨action, next⟩
    · refine Safe.guard (fun he => hne (by rw [he])) fun _ => ?_
      exact (safe_report _).bind fun _ _ => safe_pure trivial
    · have hnext : Inv next := hok _ rfl
      have hrest : Safe Session.input i (fun _ => True)
          ((liftM (Checked.sum index 1) : Decode ℕ) >>= fun index =>
            Decode.untilFrom stop recordSize read rounds next index
              (Decode.keep found action)) := by
        refine Safe.value_decode (Checked.sum_of_le (by omega)) (ih hnext ?_ (by omega))
        have := Tables.size_keep_le found action
        omega
      cases action with
      | finish => exact safe_pure trivial
      | skip => exact (safe_report _).bind fun _ _ => hrest
      | entry value => exact (safe_report _).bind fun _ _ => hrest

/-- **A walk over records** is safe if its reader is, for there are fewer records than bytes. -/
theorem safe_readUntil {read : σ → ℕ → Decode (RecordAction α × σ)} {Inv : σ → Prop}
    (hread : ∀ state index, Inv state →
      Safe Session.input i (fun result => Inv result.2) (read state index))
    {stop recordSize : ℕ} {start : σ} (hstart : Inv start) (hsize : i.1.1.length < 2 ^ 63) :
    Safe Session.input i (fun _ => True) (Decode.readUntil stop recordSize start read) := by
  refine (safe_liftReader safe_length).bind fun length hlength => ?_
  refine (safe_liftReader safe_offset).bind fun offset _ => ?_
  have hmax := Word.max_eq
  have hrounds : 0 + (min stop length - offset + 2) ≤ Word.max := by omega
  refine (safe_untilFrom hread hstart ?_ hrounds).bind fun _ _ => safe_pure trivial
  exact Nat.le_refl 0

end Walks

/-! ### Folders inside folders -/

/-- A node whose table of nodes, if it has one, is at an offset of 32 bits. -/
def TreeNode.IsNarrow (node : TreeNode) : Prop :=
  ∀ name offset, node = .folder name offset → offset < 2 ^ 32

/-- What a walk has found, and the nodes of the folders around it that it has not come to, fit into
the tables it has been to: each of these is at an offset of its own and has less than `2 ^ 32`
nodes. -/
structure TreeWalk.Fits (pending : ℕ) (walk : TreeWalk) : Prop where
  nodup : walk.visited.Nodup
  narrow : ∀ offset ∈ walk.visited, offset < 2 ^ 32
  found_le : walk.found.size + pending ≤ walk.visited.length * (2 ^ 32 - 1)

/-- Numbers below a bound that are all different are not more than the bound. -/
theorem length_le_of_nodup {xs : List ℕ} {n : ℕ} (h : xs.Nodup) (hlt : ∀ x ∈ xs, x < n) :
    xs.length ≤ n := by
  have hsub : xs ⊆ List.range n := fun x hx => List.mem_range.mpr (hlt x hx)
  have hle := (h.subperm hsub).length_le
  rwa [List.length_range] at hle

namespace TreeWalk.Fits

variable {walk : TreeWalk} {pending : ℕ}

/-- The number of files found is far from the largest word. -/
theorem size_lt (h : walk.Fits pending) : walk.found.size < Word.max := by
  have hvisited := length_le_of_nodup h.nodup h.narrow
  have hle : walk.visited.length * (2 ^ 32 - 1) ≤ 2 ^ 32 * (2 ^ 32 - 1) :=
    Nat.mul_le_mul_right _ hvisited
  have hfound := h.found_le
  have hmax := Word.max_eq
  omega

/-- A file takes the place of a node that was pending. -/
theorem push (h : walk.Fits (pending + 1)) (e : Entry) :
    TreeWalk.Fits pending { walk with found := walk.found.push e } := by
  refine ⟨h.nodup, h.narrow, ?_⟩
  have hfound := h.found_le
  show (walk.found.push e).size + pending ≤ walk.visited.length * (2 ^ 32 - 1)
  rw [Array.size_push]
  omega

/-- A folder that is entered brings less than `2 ^ 32` nodes. -/
theorem enter (h : walk.Fits pending) {offset count : ℕ} (hnew : offset ∉ walk.visited)
    (hoffset : offset < 2 ^ 32) (hcount : count < 2 ^ 32) :
    TreeWalk.Fits (pending + count) { walk with visited := offset :: walk.visited } := by
  refine ⟨List.nodup_cons.mpr ⟨hnew, h.nodup⟩, fun n hn => ?_, ?_⟩
  · rcases List.mem_cons.mp hn with rfl | hn
    · exact hoffset
    · exact h.narrow n hn
  · have hfound := h.found_le
    show walk.found.size + (pending + count) ≤ (offset :: walk.visited).length * (2 ^ 32 - 1)
    rw [List.length_cons, Nat.succ_mul]
    omega

end TreeWalk.Fits

namespace Walks

variable {readFolder : ℕ → Decode (List TreeNode)} {walk : TreeWalk} {pending maxDepth : ℕ}

theorem safe_addFile (path name : String) (e : Entry) (hwalk : walk.Fits (pending + 1)) :
    Safe Session.input i (TreeWalk.Fits pending) (Decode.addFile path name e walk) := by
  have hassign : ∀ full, e.assignName full ≠ .error .overflow := by
    intro full
    rw [Entry.assignName]
    split <;> simp
  refine (safe_checkRoom hwalk.size_lt).bind fun _ _ => ?_
  refine (safe_ofReader (safe_ofExcept (hassign _))).bind fun e' _ => ?_
  exact (safe_report _).bind fun _ _ => safe_pure (hwalk.push e')

/-- The induction is on the levels that are left. Inside a folder it is on its nodes: each of them
was pending until it is its turn. -/
theorem safe_walkFolder
    (hread : ∀ offset, Safe Session.input i
      (fun nodes => nodes.length < 2 ^ 32 ∧ ∀ node ∈ nodes, node.IsNarrow) (readFolder offset))
    {levels depth offset : ℕ} {path : String} (hwalk : walk.Fits pending)
    (hoffset : offset < 2 ^ 32) (hdepth : depth + levels ≤ Word.max) :
    Safe Session.input i (TreeWalk.Fits pending)
      (Decode.walkFolder readFolder maxDepth levels depth path offset walk) := by
  induction levels generalizing depth path offset walk pending with
  | zero => exact safe_throw (by simp)
  | succ levels ih =>
    rw [Decode.walkFolder]
    refine Safe.guard (by simp) fun hnew => (hread offset).bind fun nodes hall => ?_
    obtain ⟨hcount, hnodes⟩ := hall
    have hentered := hwalk.enter (by simpa using hnew) hoffset hcount
    clear hcount hnew
    generalize ({ walk with visited := offset :: walk.visited } : TreeWalk) = walk at hentered
    induction nodes generalizing walk with
    | nil => exact safe_pure hentered
    | cons node nodes ihnodes =>
      rw [List.foldlM_cons]
      have hrest : ∀ node ∈ nodes, node.IsNarrow := fun node hnode =>
        hnodes node (List.mem_cons_of_mem _ hnode)
      refine Safe.bind (P := TreeWalk.Fits (pending + nodes.length)) ?_ fun walk hwalk =>
        ihnodes hrest walk hwalk
      cases node with
      | file name e => exact safe_addFile path name e hentered
      | folder name offset =>
        have hnarrow : offset < 2 ^ 32 := hnodes _ List.mem_cons_self name offset rfl
        refine Safe.value_decode (Checked.sum_of_le (by omega)) (ih ?_ hnarrow (by omega))
        have hfound := hentered.found_le
        rw [List.length_cons] at hfound
        exact ⟨hentered.nodup, hentered.narrow, by omega⟩

/-- **A walk over folders** is safe if its reader of folders is, whatever the caller allows. -/
theorem safe_walkTree
    (hread : ∀ offset, Safe Session.input i
      (fun nodes => nodes.length < 2 ^ 32 ∧ ∀ node ∈ nodes, node.IsNarrow) (readFolder offset))
    (rootName : String) {root : ℕ} (hroot : root < 2 ^ 32) (hdepth : maxDepth < Word.max) :
    Safe Session.input i (fun _ => True)
      (Decode.walkTree rootName root maxDepth readFolder) := by
  have hstart : TreeWalk.Fits 0 {} := ⟨List.nodup_nil, fun _ h => absurd h List.not_mem_nil, by simp⟩
  exact (safe_walkFolder hread hstart hroot (by omega)).bind fun _ _ => safe_pure trivial

end Walks

/-! ### Entries updated one by one -/

namespace Listing

variable {update : Entry → Reader Entry} {src : Bytes × ByteOrder × Option ℕ}

/-- The failure that is kept for later is no overflow either. -/
theorem safe_updateEach
    (hupdate : ∀ e, Safe Stream.source src (fun _ => True) (update e)) (entries : List Entry) :
    Safe Stream.source src (fun result => orFail result ≠ .error .overflow)
      (updateEach update entries) := by
  have hattempt : ∀ e, Safe Stream.source src (fun result => result ≠ .error .overflow)
      (Reader.attempt (update e)) := by
    intro e
    refine Ensures.safe (fun s hs => ?_) fun s error t h => ?_
    · have hafter : after (Reader.attempt (update e)) s = after (update e) s := by
        unfold after
        rw [Reader.attempt]
        cases update e s <;> rfl
      refine ⟨by rw [hafter]; exact ((hupdate e).ensures s hs).1, fun result t h => ?_⟩
      rintro rfl
      rw [Reader.attempt] at h
      cases hrun : update e s with
      | ok e' u => simp [hrun] at h
      | error error u =>
        simp only [hrun, EStateM.Result.ok.injEq, Except.error.injEq] at h
        exact (hupdate e).no_overflow s hs error u hrun h.1
    · rw [Reader.attempt] at h
      cases hrun : update e s <;> simp [hrun] at h
  induction entries with
  | nil => exact safe_pure (by simp [orFail])
  | cons e entries ih =>
    rw [updateEach]
    refine (hattempt e).bind fun result hresult => ?_
    rcases result with error | e'
    · exact safe_pure (by simpa [orFail] using hresult)
    · refine ih.bind fun result hrest => safe_pure ?_
      obtain ⟨rest, failure⟩ := result
      cases failure with
      | none => simp [orFail]
      | some error => simpa [orFail] using hrest

theorem safe_sniffHint (e : Entry) :
    Safe Stream.source src (fun _ => True) (sniffHint e) := by
  rw [sniffHint]
  refine Safe.ite (fun _ => safe_pure trivial) fun _ => safe_length.bind fun _ _ => ?_
  refine Safe.ite (fun _ => safe_pure trivial) fun _ => (safe_seek _).bind fun _ _ => ?_
  refine (safe_bytes _).bind fun header _ => ?_
  cases Signature.extensionOf? header with
  | some extension => exact safe_pure trivial
  | none => exact safe_pure trivial

theorem safe_scanLength {field : LengthField} (hfield : field.excluded ≤ Word.max) (e : Entry) :
    Safe Stream.source src (fun _ => True) (scanLength field e) := by
  refine (safe_checkRange _ _ _).bind fun _ _ => (safe_seek _).bind fun _ _ => ?_
  refine (safe_uint _ _).bind fun stated _ => Safe.value (Checked.difference_of_le hfield) ?_
  cases Word.add? stated field.excluded with
  | some length => exact safe_pure trivial
  | none => exact safe_throw (by simp)

/-- The last steps of the formats without names. -/
theorem safe_named (extension : String) (entries : List Entry) :
    Safe Session.input i (fun _ => True) (do
      let hinted ← sniffHints entries
      let found ← Decode.ofReader (Reader.ofExcept (orFail hinted))
      return generate extension found) := by
  refine (safe_liftReader (safe_updateEach safe_sniffHint entries)).bind fun hinted hne => ?_
  exact (safe_ofReader (safe_ofExcept hne)).bind fun _ _ => safe_pure trivial

theorem lengths_ne_overflow (offsets : List ℕ) (stop : ℕ) :
    lengths offsets stop ≠ .error .overflow := by
  intro h
  obtain ⟨front, offset, behind, -, -, -, hblamed⟩ := of_lengths_eq_error h
  cases hblamed

theorem finish_ne_overflow (sorted : Bool) (entries : List Entry) :
    finish sorted entries ≠ .error .overflow := by
  have hvalidate : ∀ entries, validate entries ≠ .error .overflow := by
    intro entries
    induction entries with
    | nil => simp [validate]
    | cons e entries ih =>
      rw [validate, checkBounds]
      split_ifs <;> simp [ih]
  rw [finish]
  have hne := hvalidate (arrange sorted entries)
  cases hcase : validate (arrange sorted entries) with
  | error e =>
    rw [hcase] at hne
    simpa using hne
  | ok u => simp

end Listing

end Packfile
