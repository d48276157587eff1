import Packfile.Proofs.Fields
import Packfile.Proofs.Rereading
import Packfile.Proofs.XarcRoundTrip

/-!
# Contents that are copied verbatim

An encoder that keeps a content has two ways to come by it. It can read the content, through the
codec and up to its declared length, or it can copy what is stored, if that is said to be the
content. The first asks for `decoded` bytes and the second for `stored` bytes, and nothing makes an
entry say the same for both. So the two ways agree except for entries that are *skewed*: stored as
they are, but with two different lengths.

## What each of them needs

Both look at the same range first and then at the same bytes, so on any storage, whether it fails or
not, each comes down to one condition on how many of them can be had. Neither depends on where the
stream was left, which is why the contents of all edits can be compared with what is read from the
stream before the first of them is written.

## What is placed

What an encoder places is read off the archive that it writes: the record of an edit, which stands
at a place that its number tells, holds the range of the data. Nothing is asked of the names.

## Main definitions

* `EditedEntry.IsSkewed` — a content that is stored as it is, with another length
* `Xarc.placed` — the data of a record

## Main results

* `Xarc.exists_contentBytes_iff` — what is copied is what is read, unless it is skewed
* `Xarc.placed_of_encode` — the same of an archive that is written
-/

namespace Packfile

open Run Reading

/-! ### Contents from any storage -/

section

variable {e : Entry} {s t u : Stream} {content : Bytes} {start size stored decoded : ℕ}

theorem Stream.goto_of_source (h : u.source = s.source) (position : ℕ) :
    ({ u with position } : Stream) = { s with position } := by
  obtain ⟨bytes, _, order, failAt⟩ := u
  cases h
  rfl

/-- Where a stream delivers anything, a read that starts there does not fail. -/
theorem Feed.failure?_ofStream (h : 0 < (s.ahead.take stored).length) (count : ℕ) :
    (Feed.ofStream s stored).failure? count = none := by
  have hempty : (s.ahead.take stored).isEmpty = false := by
    rw [List.isEmpty_eq_false_iff, ne_eq, ← List.length_eq_zero_iff]
    omega
  rw [Feed.ofStream]
  split_ifs
  · rw [Feed.failure?]
    dsimp only
    rw [hempty, if_neg Bool.false_ne_true]
  · rfl

namespace Reading

/-- A content that is stored as it is ends where the declared length does. -/
theorem content_identity_eq_ok : Reader.content stored decoded [] s = .ok content t ↔
    decoded ≤ stored ∧ decoded ≤ s.ahead.length ∧ content = s.ahead.take decoded ∧
      t = s.advance decoded := by
  have hbytes : (Feed.ofStream s stored).bytes = s.ahead.take stored := Feed.bytes_ofStream s stored
  have hread : ∀ found, (ContentReader.mk (Feed.ofStream s stored) decoded).readAll = .ok found ↔
      decoded ≤ stored ∧ decoded ≤ s.ahead.length ∧ found = s.ahead.take decoded := by
    intro found
    rw [ContentReader.readAll_eq_ok]
    dsimp only
    rw [hbytes, List.length_take, Nat.le_min, List.take_take, and_assoc]
    constructor
    · rintro ⟨-, hstored, hahead, rfl⟩
      exact ⟨hstored, hahead, by rw [Nat.min_eq_left hstored]⟩
    · rintro ⟨hstored, hahead, rfl⟩
      refine ⟨fun hne => Feed.failure?_ofStream ?_ _, hstored, hahead, ?_⟩
      · rw [List.length_take]
        omega
      · rw [Nat.min_eq_left hstored]
  rw [Reader.content, ContentReader.make, Codec.undo]
  dsimp only
  cases hall : (ContentReader.mk (Feed.ofStream s stored) decoded).readAll with
  | error error =>
    constructor
    · rintro ⟨⟩
    · rintro ⟨hstored, hahead, hcontent, -⟩
      have hok := (hread content).mpr ⟨hstored, hahead, hcontent⟩
      rw [hall] at hok
      cases hok
  | ok found =>
    obtain ⟨hstored, hahead, hfound⟩ := (hread found).mp hall
    have hdrawn : Reader.drawn [] decoded (Feed.ofStream s stored) = decoded := by
      rw [Reader.drawn, hbytes, List.length_take]
      exact Nat.min_eq_left (Nat.le_min.mpr ⟨hstored, hahead⟩)
    rw [hdrawn, EStateM.Result.ok.injEq, ← hfound]
    constructor
    · rintro ⟨rfl, rfl⟩
      exact ⟨hstored, hahead, rfl, rfl⟩
    · rintro ⟨-, -, rfl, rfl⟩
      exact ⟨rfl, rfl⟩

theorem exists_preserve_iff : (∃ t, Reader.preserve start size s = .ok content t) ↔
    start + size ≤ s.length ∧ start + size ≤ Word.max ∧
      size ≤ ({ s with position := start } : Stream).ahead.length ∧
      content = ({ s with position := start } : Stream).ahead.take size := by
  simp only [preserve_eq_ok, exists_and_left, exists_eq, and_true]

theorem exists_keep_contentBytes_iff (hcodec : e.codec = [])
    (hprimary : e.source.isPrimary = true) :
    (∃ t, (EditedEntry.keep e).contentBytes s = .ok content t) ↔
      e.offset + e.stored ≤ s.length ∧ e.offset + e.stored ≤ Word.max ∧ e.decoded ≤ e.stored ∧
        e.decoded ≤ ({ s with position := e.offset } : Stream).ahead.length ∧
        content = ({ s with position := e.offset } : Stream).ahead.take e.decoded := by
  simp only [keep_contentBytes_eq_ok, hcodec, hprimary, content_identity_eq_ok, exists_and_left,
    exists_eq, and_true, true_and]

end Reading

end

/-! ### Two ways to keep a content -/

/-- An edit keeps a content that is stored as it is in the archive that was opened, but is said to
have another length. -/
structure EditedEntry.IsSkewed (e : EditedEntry) : Prop where
  kept : e.content = .kept
  codec_eq : e.entry.codec = []
  isPrimary : e.entry.source.isPrimary = true
  decoded_ne : e.entry.decoded ≠ e.entry.stored

namespace EditedEntry

variable {e : EditedEntry} {s u v : Stream} {content : Bytes}

theorem eq_keep (h : e.content = .kept) : e = .keep e.entry := by
  obtain ⟨entry, _⟩ := e
  cases h
  rfl

/-- Which content is read does not depend on where the stream was left. -/
theorem exists_contentBytes_of_source (hsource : u.source = s.source)
    (h : e.contentBytes u = .ok content v) : ∃ w, e.contentBytes s = .ok content w := by
  cases hcontent : e.content with
  | replaced bytes =>
    rw [contentBytes, hcontent] at h ⊢
    obtain ⟨rfl, -⟩ := pure_eq_ok.mp h
    exact ⟨s, rfl⟩
  | kept =>
    rw [eq_keep hcontent, keep_contentBytes_eq_ok] at h
    rw [eq_keep hcontent]
    simp only [keep_contentBytes_eq_ok]
    rw [Stream.goto_of_source hsource, Stream.length_of_source hsource] at h
    exact ⟨v, h⟩

end EditedEntry

namespace Xarc

variable {e : EditedEntry} {edits : List EditedEntry} {s t u v : Stream}
  {content copied out : Bytes} {records : List Record} {names : List String}
  {contents : List Bytes} {index : ℕ}

/-- What is not copied is read: a new content, one that has a codec, or one of another part. -/
theorem contentBytes_of_read
    (h : ¬(e.content = .kept ∧ e.entry.codec = [] ∧ e.entry.source.isPrimary = true)) :
    contentBytes e = e.contentBytes := by
  rw [contentBytes]
  cases hcontent : e.content with
  | replaced bytes => rw [EditedEntry.contentBytes, hcontent]
  | kept =>
    have hread : ¬(e.entry.codec.isIdentity && e.entry.source.isPrimary) = true := by
      rw [Bool.and_eq_true, Codec.isIdentity, List.isEmpty_iff]
      exact fun hcopied => h ⟨hcontent, hcopied⟩
    dsimp only
    rw [if_neg hread]

/-- **What is copied is what is read**, unless it is skewed, and the one fails whenever the other
does. -/
theorem exists_contentBytes_iff (h : ¬e.IsSkewed) :
    (∃ t, contentBytes e s = .ok content t) ↔ ∃ t, e.contentBytes s = .ok content t := by
  by_cases hcopied : e.content = .kept ∧ e.entry.codec = [] ∧ e.entry.source.isPrimary = true
  · obtain ⟨hkept, hcodec, hprimary⟩ := hcopied
    have hdecoded : e.entry.decoded = e.entry.stored := by
      by_contra hne
      exact h ⟨hkept, hcodec, hprimary, hne⟩
    rw [contentBytes_of_copied hkept hcodec hprimary, EditedEntry.eq_keep hkept]
    rw [exists_preserve_iff, exists_keep_contentBytes_iff hcodec hprimary, hdecoded]
    simp only [EditedEntry.keep, Nat.le_refl, true_and]
  · rw [contentBytes_of_read hcopied]

/-- Of a skewed content all that is stored is copied. -/
theorem length_of_isSkewed (h : e.IsSkewed) (hcopied : contentBytes e s = .ok copied t) :
    copied.length = e.entry.stored := by
  rw [contentBytes_of_copied h.kept h.codec_eq h.isPrimary] at hcopied
  obtain ⟨-, -, hsize, rfl, -⟩ := preserve_eq_ok.mp hcopied
  exact List.length_take_of_le hsize

/-- Of a skewed content that is copied, as much is read as its declared length says, and nothing if
that is the longer one. -/
theorem exists_contentBytes_iff_of_isSkewed (h : e.IsSkewed)
    (hcopied : contentBytes e s = .ok copied t) :
    (∃ u, e.contentBytes s = .ok content u) ↔
      e.entry.decoded < e.entry.stored ∧ content = copied.take e.entry.decoded := by
  rw [contentBytes_of_copied h.kept h.codec_eq h.isPrimary] at hcopied
  obtain ⟨hlength, hmax, hsize, rfl, -⟩ := preserve_eq_ok.mp hcopied
  rw [EditedEntry.eq_keep h.kept, exists_keep_contentBytes_iff h.codec_eq h.isPrimary]
  have hne := h.decoded_ne
  dsimp only [EditedEntry.keep]
  constructor
  · rintro ⟨-, -, hle, -, rfl⟩
    exact ⟨by omega, by rw [List.take_take, Nat.min_eq_left hle]⟩
  · rintro ⟨hlt, rfl⟩
    exact ⟨hlength, hmax, hlt.le, by omega, by rw [List.take_take, Nat.min_eq_left hlt.le]⟩

/-- What is written for an edit does not depend on where the stream was left. -/
theorem exists_contentBytes_of_source (hsource : u.source = s.source)
    (h : contentBytes e u = .ok content v) : ∃ w, contentBytes e s = .ok content w := by
  by_cases hcopied : e.content = .kept ∧ e.entry.codec = [] ∧ e.entry.source.isPrimary = true
  · obtain ⟨hkept, hcodec, hprimary⟩ := hcopied
    rw [contentBytes_of_copied hkept hcodec hprimary] at h ⊢
    rw [preserve_eq_ok, Stream.goto_of_source hsource, Stream.length_of_source hsource] at h
    exact exists_preserve_iff.mpr ⟨h.1, h.2.1, h.2.2.1, h.2.2.2.1⟩
  · rw [contentBytes_of_read hcopied] at h ⊢
    exact EditedEntry.exists_contentBytes_of_source hsource h

/-! ### What is placed -/

/-- The data that the record with a number points to. -/
def placed (out : Bytes) (index : ℕ) : Bytes :=
  let record := headerSize + recordSize * index
  (out.drop (ByteOrder.little.field 4 out record)).take (ByteOrder.little.field 4 out (record + 4))

/-- Each record points to the content that is in step with it. -/
theorem placed_of_layout (h : HasLayout out records names contents)
    (hcontent : contents[index]? = some content) : placed out index = content := by
  obtain ⟨hindex, -⟩ := List.getElem?_eq_some_iff.mp hcontent
  have hlength : records.length = contents.length := by
    have := congrArg List.length h.places_eq
    rwa [List.length_map, length_dataPlaces] at this
  obtain ⟨r, hr⟩ : ∃ r, records[index]? = some r :=
    ⟨_, List.getElem?_eq_getElem (hlength ▸ hindex)⟩
  have hplace : (dataPlaces (dataStart records names) contents)[index]?
      = some (r.offset, r.length) := by
    rw [← h.places_eq, List.getElem?_map, hr, Option.map_some]
  obtain ⟨hdata, -, -⟩ := of_getElem? (forall₂_dataPlaces h.drop_eq.2.2) hplace hcontent
  obtain ⟨behind, hbehind⟩ := Tables.drop_flatMap length_recordBytes hr
    (names.flatMap Names.terminated ++ dataBytes (dataStart records names) contents)
  rw [← h.drop_eq.1, List.drop_drop] at hbehind
  simp only [recordBytes, List.flatMap_cons, List.append_assoc] at hbehind
  have hnarrow := h.narrow r (List.mem_of_getElem? hr)
  have hoffset := ByteOrder.field_of_drop hnarrow.offset_lt hbehind
  have hbehind' := congrArg (List.drop 4) hbehind
  rw [List.drop_drop, List.drop_left' (ByteOrder.length_encode ..)] at hbehind'
  have hsize := ByteOrder.field_of_drop hnarrow.length_lt hbehind'
  rw [placed, hoffset, hsize, hdata]

/-- An archive that is written places for each edit what was copied or read for it. -/
theorem exists_contentBytes_of_encode (h : encode edits s = .ok out t)
    (he : edits[index]? = some e) : ∃ u, contentBytes e s = .ok (placed out index) u := by
  -- the stream may be left anywhere between two edits, but it stays over the same bytes
  have hedits : ∀ e ∈ edits, ∀ u v content, u.source = s.source →
      contentBytes e u = .ok content v →
        (∃ w, contentBytes e s = .ok content w) ∧ v.source = s.source := by
    intro e _ u v content hu hread
    exact ⟨exists_contentBytes_of_source hu hread, ((keeps_copiedBytes e).of_ok hread).trans hu⟩
  obtain ⟨records, names, contents, hlayout, -, -, hall⟩ :=
    hasLayout_of_encode (P := fun e content => ∃ w, contentBytes e s = .ok content w) hedits rfl h
  obtain ⟨hindex, -⟩ := List.getElem?_eq_some_iff.mp he
  have hcontent := List.getElem?_eq_getElem (hall.length_eq ▸ hindex)
  rw [placed_of_layout hlayout hcontent]
  exact of_getElem? hall he hcontent

/-- **What an encoder places is what is read**, for every edit that is not skewed: the data that its
record points to are its content, and no archive is written if its content cannot be read. For an
edit that is skewed, all that is stored is placed, while its content is the front of that or cannot
be read. -/
theorem placed_of_encode (he : edits[index]? = some e) :
    (¬e.IsSkewed →
      (∀ content u out t, e.contentBytes s = .ok content u → encode edits s = .ok out t →
        placed out index = content) ∧
      ∀ error u, e.contentBytes s = .error error u → ∃ failure t,
        encode edits s = .error failure t) ∧
      (e.IsSkewed → ∀ out t, encode edits s = .ok out t →
        (placed out index).length = e.entry.stored ∧
          ∀ content, (∃ u, e.contentBytes s = .ok content u) ↔
            e.entry.decoded < e.entry.stored ∧
              content = (placed out index).take e.entry.decoded) := by
  refine ⟨fun hplain => ⟨?_, ?_⟩, ?_⟩
  · intro content u out t hread hout
    obtain ⟨v, hv⟩ := (exists_contentBytes_iff hplain).mp (exists_contentBytes_of_encode hout he)
    rw [hread] at hv
    cases hv
    rfl
  · intro error u hread
    cases hout : encode edits s with
    | error failure t => exact ⟨failure, t, rfl⟩
    | ok out t =>
      obtain ⟨v, hv⟩ := (exists_contentBytes_iff hplain).mp (exists_contentBytes_of_encode hout he)
      rw [hread] at hv
      cases hv
  · intro hskewed out t hout
    obtain ⟨v, hv⟩ := exists_contentBytes_of_encode hout he
    exact ⟨length_of_isSkewed hskewed hv, fun content =>
      exists_contentBytes_iff_of_isSkewed hskewed hv⟩

/-- An edit that keeps an entry of which two bytes are stored, with a declared length. -/
def twoStored (decoded : ℕ) : EditedEntry :=
  .keep { source := .memory 2, name := some "a", offset := 0, stored := 2, decoded }

/-- With the right length, what is placed is the content. -/
theorem placed_of_encode_two : ∃ out t, encode [twoStored 2] (.ofBytes [0x68, 0x69]) = .ok out t ∧
    placed out 0 = [0x68, 0x69] := by
  have hplain : ¬(twoStored 2).IsSkewed := fun h => h.decoded_ne rfl
  obtain ⟨hplaced, -⟩ := (placed_of_encode (s := .ofBytes [0x68, 0x69])
    (show [twoStored 2][0]? = some (twoStored 2) from rfl)).1 hplain
  obtain ⟨out, t, hout⟩ : ∃ out t, encode [twoStored 2] (.ofBytes [0x68, 0x69]) = .ok out t :=
    ⟨_, _, rfl⟩
  obtain ⟨u, hread⟩ : ∃ u, (twoStored 2).contentBytes (.ofBytes [0x68, 0x69])
      = .ok [0x68, 0x69] u := ⟨_, rfl⟩
  exact ⟨out, t, hout, hplaced _ u out t hread hout⟩

/-- With a shorter one, two bytes are placed where the content has one, and with a longer one an
archive is written although the content cannot be read. -/
theorem placed_ne_content_two :
    (∃ out t u, encode [twoStored 1] (.ofBytes [0x68, 0x69]) = .ok out t ∧
      placed out 0 = [0x68, 0x69] ∧
      (twoStored 1).contentBytes (.ofBytes [0x68, 0x69]) = .ok [0x68] u) ∧
    (∃ out t error u, encode [twoStored 3] (.ofBytes [0x68, 0x69]) = .ok out t ∧
      (twoStored 3).contentBytes (.ofBytes [0x68, 0x69]) = .error error u) :=
  ⟨⟨_, _, _, rfl, rfl, rfl⟩, ⟨_, _, _, _, rfl, rfl⟩⟩

end Xarc

end Packfile
