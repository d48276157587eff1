import Packfile.Proofs.LikeDecoders

/-!
# Failing storage is noticed

Storage that fails from some position on never makes a difference that goes unnoticed. A directory
that is read from healthy storage is read the same from the failing one, entry by entry, or reading
it ends with an error that says that the storage failed. The same holds of the content of an entry,
as a whole or in pieces of any size, through whatever codec.

For directories this is what it means that decoders are blind: the healthy stream and the failing
one are alike. For contents the argument is another one, because an open content is not the same on
both: its feed yields less. But feeds stay comparable through a codec, and a content that is read to
its declared length does not depend on what would have come behind.

## Main definitions

* `IntactOrFailed` — a value, or an error that says that the storage failed
* `ContentReader.copied` — what a copy in pieces yields

## Main results

* `Format.intact_or_failed` — directories and contents over failing storage
-/

namespace Packfile

open Run Reading

/-- The result is the value, or an error that says that the storage failed. -/
def IntactOrFailed {α : Type} (a : α) (result : Except Error α) : Prop :=
  result = .ok a ∨ ∃ e, result = .error e ∧ e.isStorageFailure = true

/-- The session on storage that fails from a position on. -/
def Session.failingFrom (x : Session) (limit : ℕ) : Session :=
  { x with stream := x.stream.failingFrom limit }

/-- The archive on storage that fails from a position on. Its parts are not affected. -/
def Archive.failingFrom (a : Archive) (limit : ℕ) : Archive :=
  { a with stream := a.stream.failingFrom limit }

/-! ### Directories -/

namespace Session

variable {failing placed : Prop} {env : Options × FileTree × NameTable} {x y : Session}

/-- Sessions that a reading of a directory may start from and end alike: it forgets the palettes, and
goes to the start of the stream. -/
structure Akin (failing : Prop) (env : Options × FileTree × NameTable) (x y : Session) : Prop where
  /-- The streams. -/
  stream_like : x.stream.Like failing False y.stream
  /-- The environment of the first. -/
  environment_left : x.environment = env
  /-- The environment of the second. -/
  environment_right : y.environment = env

theorem akin_failingFrom (hfailing : failing) (hx : x.stream.failAt = none) (limit : ℕ) :
    x.Akin failing x.environment (x.failingFrom limit) :=
  ⟨Stream.like_failingFrom hfailing hx, rfl, rfl⟩

end Session

namespace Format

variable {format : Format} {failing : Prop} {env : Options × FileTree × NameTable}

/-- What a blind decoder cannot see has no influence on the reading of a directory. -/
theorem IsBlind.readDirectory (h : format.IsBlind) (source : Location) :
    Coupled (Session.tolerance failing env) (Session.Akin failing env)
      (Session.Like failing False env) (format.readDirectory source) := by
  have hclear : Coupled (Session.tolerance failing env) (Session.Akin failing env)
      (Session.Like failing False env) Decode.clearPalettes := by
    refine coupled_modify fun x y hxy => ?_
    exact ⟨hxy.stream_like, hxy.environment_left, hxy.environment_right, rfl⟩
  refine hclear.bind fun _ => (alike_liftReader (alike_seek 0)).bind fun _ => ?_
  exact (h failing env source).bind fun _ => alike_options.bind fun _ =>
    alike_ofReader (alike_ofExcept _)

/-- A directory is intact on failing storage, or the storage is found to fail. -/
theorem IsBlind.directory_intact_or_failed (h : format.IsBlind) {source : Location} {x y : Session}
    {entries : List Entry} (hhealthy : x.stream.failAt = none)
    (hread : format.readDirectory source x = .ok entries y) (limit : ℕ) :
    IntactOrFailed entries
      (Decode.outcome (format.readDirectory source) (x.failingFrom limit)).1 := by
  have hakin : x.Akin True x.environment (x.failingFrom limit) :=
    Session.akin_failingFrom trivial hhealthy limit
  rcases (h.readDirectory source).ok_or_error hakin hread with ⟨z, hz, -⟩ | ⟨e, z, hz, -, he⟩
  · left
    rw [Decode.outcome, hz]
  · right
    refine ⟨e, ?_, he⟩
    rw [Decode.outcome, hz]

end Format

/-! ### Contents in pieces -/

namespace ContentReader

variable {r r' : ContentReader} {content : Bytes} {size : ℕ}

/-- What a copy in pieces of `size` bytes yields: the content, or the error that stopped it. -/
def copied (size : ℕ) (r : ContentReader) : Except Error Bytes :=
  match r.pieces size with
  | (content, none) => .ok content
  | (_, some e) => .error e

/-- What stops a copy is a failure to read. -/
theorem of_read_eq_error {count : ℕ} {e : Error} {rest : ContentReader}
    (h : r.read count = (.error e, rest)) : e.isStorageFailure = true := by
  rw [read] at h
  split at h
  · cases h
  · split at h
    · cases h
      rfl
    · dsimp only at h
      split at h
      · cases h
        rfl
      · cases h

/-- Behind the declared length nothing is read. -/
theorem read_of_remaining_eq_zero (h : r.remaining = 0) (count : ℕ) : r.read count = (.ok [], r) := by
  rw [read, if_pos h]

/-- A piece is what is next, and never empty before the declared length is reached. -/
theorem of_read_eq_ok {count : ℕ} {found : Bytes} {rest : ContentReader} (hcount : 0 < count)
    (hremaining : r.remaining ≠ 0) (h : r.read count = (.ok found, rest)) :
    found ≠ [] ∧ r.feed.bytes = found ++ rest.feed.bytes ∧
      r.remaining = found.length + rest.remaining := by
  rw [read, if_neg hremaining] at h
  cases hfailure : r.feed.failure? (min count r.remaining) with
  | some failure =>
    rw [Feed.read_of_failure hfailure] at h
    cases h
  | none =>
    rw [Feed.read_of_none hfailure] at h
    dsimp only at h
    split at h
    · cases h
    · next hempty =>
      cases h
      have hlen : (r.feed.bytes.take (min count r.remaining)).length ≤ r.remaining :=
        Nat.le_trans (List.length_take_le _ _) (Nat.min_le_right _ _)
      refine ⟨?_, (List.take_append_drop _ _).symm, by dsimp only; omega⟩
      intro hnil
      rw [hnil] at hempty
      simp only [List.isEmpty_nil, Bool.true_and, bne_iff_ne, ne_eq, Decidable.not_not] at hempty
      omega

/-- A piece in front of a content that is read as a whole is the front of such a content. -/
theorem readAll_of_read {count : ℕ} {found tail : Bytes} {rest : ContentReader} (hcount : 0 < count)
    (hremaining : r.remaining ≠ 0) (h : r.read count = (.ok found, rest))
    (hrest : rest.readAll = .ok tail) : r.readAll = .ok (found ++ tail) := by
  rw [read, if_neg hremaining] at h
  cases hfailure : r.feed.failure? (min count r.remaining) with
  | some failure =>
    rw [Feed.read_of_failure hfailure] at h
    cases h
  | none =>
    rw [Feed.read_of_none hfailure] at h
    dsimp only at h
    split at h
    · cases h
    · cases h
      rw [readAll_eq_ok] at hrest ⊢
      obtain ⟨hnone, hle, rfl⟩ := hrest
      simp only [List.length_drop, List.length_take] at hnone hle ⊢
      refine ⟨fun _ => ?_, by omega, ?_⟩
      · rw [Feed.failure?] at hfailure hnone ⊢
        cases hending : r.feed.ending with
        | finished => rfl
        | failed failure notice =>
          rw [hending] at hfailure hnone
          cases notice with
          | reached =>
            -- the piece did not take the last byte, and neither does the rest
            simp only [ite_eq_right_iff, reduceCtorEq, imp_false, List.length_drop] at *
            omega
          | started => exact hfailure
          | wanted =>
            have hasked : min count r.remaining ≠ 0 := by omega
            rw [bne_iff_ne.mpr hasked] at hfailure
            rw [bne_iff_ne.mpr hremaining]
            exact hfailure
      · have hall : r.remaining = min count r.remaining + (r.remaining - min count r.remaining) := by
          omega
        conv_rhs => rw [hall, List.take_add]
        congr 2
        omega

/-- What a copy has moved when it ends without an error is the whole content. -/
theorem readAll_of_piecesFrom (hsize : 0 < size) {rounds : ℕ} {done : Bytes}
    (hrounds : r.feed.bytes.length < rounds)
    (h : piecesFrom size rounds r done = (content, none)) :
    ∃ whole, r.readAll = .ok whole ∧ content = done ++ whole := by
  induction rounds generalizing r done with
  | zero => exact absurd hrounds (Nat.not_lt_zero _)
  | succ rounds ih =>
    rw [piecesFrom] at h
    by_cases hremaining : r.remaining = 0
    · rw [read_of_remaining_eq_zero hremaining] at h
      cases h
      exact ⟨[], by rw [readAll, if_pos hremaining], (List.append_nil _).symm⟩
    · cases hread : r.read size with
      | mk result rest =>
        rw [hread] at h
        cases result with
        | error e => cases h
        | ok found =>
          obtain ⟨hfound, hbytes, -⟩ := of_read_eq_ok hsize hremaining hread
          cases found with
          | nil => exact absurd rfl hfound
          | cons b found =>
            dsimp only at h
            have hlength := congrArg List.length hbytes
            rw [List.length_append, List.length_cons] at hlength
            obtain ⟨whole, hwhole, hcontent⟩ := ih (by omega) h
            refine ⟨b :: found ++ whole, readAll_of_read hsize hremaining hread hwhole, ?_⟩
            rw [hcontent, List.append_assoc]

/-- A copy that ends without an error has moved the beginning of the feed, as much as was declared. -/
theorem of_piecesFrom (hsize : 0 < size) {rounds : ℕ} {done : Bytes}
    (hrounds : r.feed.bytes.length < rounds)
    (h : piecesFrom size rounds r done = (content, none)) :
    content = done ++ r.feed.bytes.take r.remaining ∧ r.remaining ≤ r.feed.bytes.length := by
  obtain ⟨whole, hwhole, rfl⟩ := readAll_of_piecesFrom hsize hrounds h
  obtain ⟨rfl, hle⟩ := of_readAll hwhole
  exact ⟨rfl, hle⟩

theorem isStorageFailure_of_piecesFrom {rounds : ℕ} {done moved : Bytes} {e : Error}
    (h : piecesFrom size rounds r done = (moved, some e)) : e.isStorageFailure = true := by
  induction rounds generalizing r done with
  | zero => cases h
  | succ rounds ih =>
    rw [piecesFrom] at h
    cases hread : r.read size with
    | mk result rest =>
      rw [hread] at h
      cases result with
      | error e' =>
        cases h
        exact of_read_eq_error hread
      | ok found =>
        cases found with
        | nil => cases h
        | cons b found => exact ih h

/-- Contents of one length from comparable feeds are the same, or the second fails. -/
theorem readAll_intact_or_failed (hfeeds : r.feed.Comparable r'.feed)
    (hremaining : r'.remaining = r.remaining) (h : r.readAll = .ok content) :
    IntactOrFailed content r'.readAll := by
  obtain ⟨feed, n⟩ := r
  obtain ⟨feed', n'⟩ := r'
  obtain rfl : n' = n := hremaining
  cases h' : readAll ⟨feed', n'⟩ with
  | ok content' =>
    left
    rw [readAll_of_comparable hfeeds h h']
  | error e =>
    obtain ⟨failure, rfl⟩ := exists_of_readAll_eq_error h'
    exact .inr ⟨_, rfl, rfl⟩

/-- The same for copies in pieces. -/
theorem copied_intact_or_failed (hsize : 0 < size) (hfeeds : r.feed.Comparable r'.feed)
    (hremaining : r'.remaining = r.remaining) (h : r.copied size = .ok content) :
    IntactOrFailed content (r'.copied size) := by
  have hpieces : r.pieces size = (content, none) := by
    rw [copied] at h
    cases hp : r.pieces size with
    | mk moved stop =>
      rw [hp] at h
      cases stop with
      | none =>
        cases h
        rfl
      | some e => cases h
  obtain ⟨hcontent, hle⟩ := of_piecesFrom hsize (Nat.lt_succ_self _) hpieces
  rw [copied]
  cases hp : r'.pieces size with
  | mk moved stop =>
    cases stop with
    | some e => exact .inr ⟨e, rfl, isStorageFailure_of_piecesFrom hp⟩
    | none =>
      left
      obtain ⟨hmoved, hle'⟩ := of_piecesFrom hsize (Nat.lt_succ_self _) hp
      rw [hremaining] at hmoved hle'
      rw [hcontent, hmoved, hfeeds.take_eq hle hle']

end ContentReader

/-! ### Contents of archives -/

theorem Reading.openHere_eq_ok {e : Entry} {s t : Stream} {r : ContentReader} :
    Reader.openHere e s = .ok r t ↔
      e.offset + e.stored ≤ s.length ∧ e.offset + e.stored ≤ Word.max ∧
        ContentReader.make (Feed.ofStream { s with position := e.offset } e.stored) e.decoded e.codec
          = .ok r ∧ t = { s with position := e.offset } := by
  constructor
  · intro h
    obtain ⟨_, u, hrange, hrest⟩ := bind_eq_ok.mp h
    obtain ⟨hlength, hmax, rfl⟩ := checkRange_eq_ok.mp hrange
    obtain ⟨_, v, hseek, hmade⟩ := bind_eq_ok.mp hrest
    obtain ⟨-, rfl⟩ := seek_eq_ok.mp hseek
    split at hmade
    · cases hmade
    · next hmake =>
      cases hmade
      exact ⟨hlength, hmax, hmake, rfl⟩
  · rintro ⟨hlength, hmax, hmake, rfl⟩
    refine bind_eq_ok.mpr ⟨(), s, checkRange_eq_ok.mpr ⟨hlength, hmax, rfl⟩, ?_⟩
    refine bind_eq_ok.mpr ⟨(), _, seek_eq_ok.mpr ⟨by omega, rfl⟩, ?_⟩
    rw [hmake]

/-- What can be opened on healthy storage can be opened on failing storage, which is not asked for
anything yet. -/
theorem Reading.exists_openHere_failingFrom {e : Entry} {s t : Stream} {r : ContentReader}
    (hs : s.failAt = none) (limit : ℕ) (h : Reader.openHere e s = .ok r t) :
    ∃ r' t', Reader.openHere e (s.failingFrom limit) = .ok r' t' ∧
      r.feed.Comparable r'.feed ∧ r'.remaining = r.remaining := by
  obtain ⟨hlength, hmax, hmake, -⟩ := openHere_eq_ok.mp h
  have hfeeds := comparable_ofStream (s := { s with position := e.offset }) hs limit e.stored
  rw [ContentReader.make] at hmake
  rcases e.codec.undo_comparable hfeeds with ⟨error, hleft, -⟩ | ⟨f, g, hleft, hright, hfg⟩
  · rw [hleft] at hmake
    cases hmake
  · rw [hleft] at hmake
    cases hmake
    refine ⟨⟨g, e.decoded⟩, _, openHere_eq_ok.mpr ⟨hlength, hmax, ?_, rfl⟩, hfg, rfl⟩
    have hfeed : e.codec.undo
        (Feed.ofStream { s.failingFrom limit with position := e.offset } e.stored) = .ok g := hright
    rw [ContentReader.make, hfeed]

namespace Archive

variable {a : Archive} {files : FileTree} {index : ℕ} {e : Entry} {r : ContentReader}

theorem openEntry_eq_ok :
    (a.openEntry files index).1 = .ok (e, r) ↔
      a.entries[index]? = some e ∧ (a.openContent files e).1 = .ok r := by
  rw [openEntry]
  cases a.entries[index]? with
  | none => simp
  | some e' =>
    dsimp only
    constructor
    · intro h
      cases hopen : a.openContent files e' with
      | mk result b =>
        rw [hopen] at h
        cases result with
        | error error => cases h
        | ok r' =>
          cases h
          exact ⟨rfl, by rw [hopen]⟩
    · rintro ⟨he, h⟩
      cases he
      cases hopen : a.openContent files e with
      | mk result b =>
        rw [hopen] at h
        dsimp only at h
        subst h
        rfl

theorem openContent_eq_ok :
    (a.openContent files e).1 = .ok r ↔
      if e.source.isPrimary then ∃ t, Reader.openHere e a.stream = .ok r t
      else openPart files e = .ok r := by
  rw [openContent]
  split
  · rw [run, Reader.outcome]
    cases Reader.openHere e a.stream <;> simp
  · rfl

/-- An entry that can be opened on healthy storage can be opened on failing storage, and its content
yields the beginning of what it yielded. -/
theorem exists_openEntry_failingFrom (ha : a.stream.failAt = none) (limit : ℕ)
    (h : (a.openEntry files index).1 = .ok (e, r)) :
    ∃ r', ((a.failingFrom limit).openEntry files index).1 = .ok (e, r') ∧
      r.feed.Comparable r'.feed ∧ r'.remaining = r.remaining := by
  obtain ⟨hget, hopen⟩ := openEntry_eq_ok.mp h
  rw [openContent_eq_ok] at hopen
  split at hopen
  · next hprimary =>
    obtain ⟨t, ht⟩ := hopen
    obtain ⟨r', t', ht', hfeeds, hremaining⟩ := exists_openHere_failingFrom ha limit ht
    refine ⟨r', openEntry_eq_ok.mpr ⟨hget, ?_⟩, hfeeds, hremaining⟩
    rw [openContent_eq_ok, if_pos hprimary]
    exact ⟨t', ht'⟩
  · next hprimary =>
    refine ⟨r, openEntry_eq_ok.mpr ⟨hget, ?_⟩, .inl List.prefix_rfl, rfl⟩
    rw [openContent_eq_ok, if_neg hprimary]
    exact hopen

theorem readEntry_eq_ok {content : Bytes} :
    (a.readEntry files index).1 = .ok content ↔
      ∃ e r, (a.openEntry files index).1 = .ok (e, r) ∧ r.readAll = .ok content := by
  rw [readEntry]
  cases a.openEntry files index with
  | mk result b =>
    cases result with
    | error error => simp
    | ok opened => exact ⟨fun h => ⟨opened.1, opened.2, rfl, h⟩, fun ⟨_, _, ho, h⟩ => by
        cases ho
        exact h⟩

theorem readEntry_of_error {error : Error} (hopen : (a.openEntry files index).1 = .ok (e, r))
    (h : r.readAll = .error error) : (a.readEntry files index).1 = .error error := by
  rw [readEntry]
  cases ho : a.openEntry files index with
  | mk result b =>
    rw [ho] at hopen
    dsimp only at hopen
    subst hopen
    exact h

end Archive

/-! ### Directories and contents -/

namespace Format

/-- **Failing storage is noticed.** Whatever is read from a healthy stream is read the same from that
stream on storage that fails from `limit` on, or reading it ends with an error that says so: a
directory, by any decoder and in any session, and the content of any entry of an archive over the
stream, as a whole or in pieces of any size. -/
theorem intact_or_failed {format : Format} (hformat : format ∈ Registry.standard.formats)
    {x : Session} (hhealthy : x.stream.failAt = none) (limit : ℕ) :
    (∀ source entries y, format.readDirectory source x = .ok entries y →
      IntactOrFailed entries
        (Decode.outcome (format.readDirectory source) (x.failingFrom limit)).1) ∧
    ∀ a : Archive, a.stream.source = x.stream.source → ∀ files index,
      (∀ content, (a.readEntry files index).1 = .ok content →
        IntactOrFailed content ((a.failingFrom limit).readEntry files index).1) ∧
      ∀ e r, (a.openEntry files index).1 = .ok (e, r) →
        ∃ r', ((a.failingFrom limit).openEntry files index).1 = .ok (e, r') ∧
          ∀ size content, 0 < size → r.copied size = .ok content →
            IntactOrFailed content (r'.copied size) := by
  refine ⟨fun source entries y hread => ?_, fun a hsource files index => ?_⟩
  · exact (isBlind_of_mem hformat).directory_intact_or_failed hhealthy hread limit
  have ha : a.stream.failAt = none := by
    rw [← hhealthy]
    exact congrArg (fun s => s.2.2) hsource
  refine ⟨fun content hread => ?_, fun e r hopen => ?_⟩
  · obtain ⟨e, r, hopen, hcontent⟩ := Archive.readEntry_eq_ok.mp hread
    obtain ⟨r', hopen', hfeeds, hremaining⟩ := Archive.exists_openEntry_failingFrom ha limit hopen
    refine (ContentReader.readAll_intact_or_failed hfeeds hremaining hcontent).imp (fun h => ?_) ?_
    · exact Archive.readEntry_eq_ok.mpr ⟨e, r', hopen', h⟩
    · rintro ⟨error, herror, hstorage⟩
      exact ⟨error, Archive.readEntry_of_error hopen' herror, hstorage⟩
  · obtain ⟨r', hopen', hfeeds, hremaining⟩ := Archive.exists_openEntry_failingFrom ha limit hopen
    refine ⟨r', hopen', fun size content hsize hcopied => ?_⟩
    exact ContentReader.copied_intact_or_failed hsize hfeeds hremaining hcopied

/-- An archive of one entry of one byte, with its directory from position 9 on. -/
def packed : Session where
  stream := .ofBytes
    [0x4C, 0x55, 0x4D, 0x50, 9, 0, 0, 0, 0x41,
      0x61, 0, 0, 0, 0, 0, 0, 0, 0, 0, 0, 0, 1, 0, 0, 0]

/-- The archive that its directory describes. -/
def packedArchive : Archive where
  format := "lump"
  stream := packed.stream
  entries := [{ source := .memory 25, name := some "a", offset := 8, stored := 1 }]

theorem exists_readDirectory_packed : ∃ entries y,
    Lump.format.readDirectory (.memory 25) packed = .ok entries y :=
  exists_of_isOk (by decide +kernel)

/-- Storage that fails in the middle of the directory, or at the data, is noticed. -/
theorem intact_or_failed_packed :
    (∃ entries y, Lump.format.readDirectory (.memory 25) packed = .ok entries y ∧
      IntactOrFailed entries
        (Decode.outcome (Lump.format.readDirectory (.memory 25)) (packed.failingFrom 20)).1) ∧
    (packedArchive.readEntry .empty 0).1 = .ok [0x41] ∧
      IntactOrFailed [0x41] ((packedArchive.failingFrom 8).readEntry .empty 0).1 := by
  have hformat : Lump.format ∈ Registry.standard.formats := by simp [Registry.standard]
  obtain ⟨entries, y, h⟩ := exists_readDirectory_packed
  have hcontent : (packedArchive.readEntry .empty 0).1 = .ok [0x41] := by rfl
  refine ⟨⟨entries, y, h, ?_⟩, hcontent, ?_⟩
  · exact (intact_or_failed hformat (x := packed) rfl 20).1 _ _ _ h
  · exact ((intact_or_failed hformat (x := packed) rfl 8).2 packedArchive rfl .empty 0).1 _ hcontent

end Format

end Packfile
