import Packfile.Archive
import Packfile.Edit
import Packfile.Buffer
import Packfile.Proofs.Reading

/-!
# Contents as functions of bytes

On storage that does not fail, what an entry reads as depends on the entry and on the bytes of its
part, and on nothing else: not on where the stream was left, not on what was read before.
`Entry.contentIn` is that function, and the two ways of reading a content are shown to be it.

## What is read

A content that is read has the declared length, since a feed that ends before it is an error. When
no step of the codec is a compression, lengths do not change on the way, so a content that lies in
its part and declares its stored length is read without an error.

## Main definitions

* `Entry.contentIn` — the content of an entry in the bytes of its part
* `Entry.data` — what it depends on
* `Archive.HasPart` — the bytes that an entry of an archive refers to
* `Codec.HasKeys` — codecs whose keys can be used

## Main results

* `Archive.openEntry_eq`, `Archive.readEntry_eq` — reading from an archive
* `Reading.contentBytes_eq_ok`, `Reading.preserve_eq_ok` — reading for an archive that is written
* `Entry.length_of_contentIn`, `Entry.contentIn_of_uncompressed`
-/

namespace Packfile

/-! ### Codecs without compression -/

namespace Codec

variable {codec : Codec} {feed result : Feed}

/-- Every key has a length that its cipher takes. -/
def HasKeys (codec : Codec) : Prop := ∀ transform ∈ codec, transform.keyError? = none

instance (codec : Codec) : Decidable codec.HasKeys :=
  inferInstanceAs (Decidable (∀ transform ∈ codec, transform.keyError? = none))

theorem exists_undo (h : codec.HasKeys) (feed : Feed) : ∃ result, codec.undo feed = .ok result := by
  induction codec generalizing feed with
  | nil => exact ⟨feed, rfl⟩
  | cons transform codec ih =>
    rw [undo, h transform List.mem_cons_self]
    exact ih (fun t ht => h t (List.mem_cons_of_mem _ ht)) _

/-- A cipher changes neither the number of bytes nor what is behind them. -/
theorem undo_of_isCompression {transform : Transform} (h : transform.isCompression = false)
    (feed : Feed) : (transform.undo feed).bytes.length = feed.bytes.length ∧
      (transform.undo feed).ending = feed.ending := by
  cases transform with
  | xor key => exact ⟨Xor.length_apply _ _, rfl⟩
  | rc4 key => exact ⟨Rc4.length_apply _ _, rfl⟩
  | zlib => cases h
  | deflate => cases h

theorem of_undo (hcodec : codec.isCompressed = false) (h : codec.undo feed = .ok result) :
    result.bytes.length = feed.bytes.length ∧ result.ending = feed.ending := by
  induction codec generalizing feed with
  | nil =>
    cases h
    exact ⟨rfl, rfl⟩
  | cons transform codec ih =>
    rw [isCompressed, List.any_cons, Bool.or_eq_false_iff] at hcodec
    rw [undo] at h
    split at h
    · cases h
    · have htransform := undo_of_isCompression hcodec.1 feed
      have hrest := ih hcodec.2 h
      exact ⟨hrest.1.trans htransform.1, hrest.2.trans htransform.2⟩

end Codec

/-! ### Whole contents -/

namespace ContentReader

variable {bytes content : Bytes} {n : ℕ}

theorem readAll_finished (h : n ≤ bytes.length) :
    readAll ⟨⟨bytes, .finished⟩, n⟩ = .ok (bytes.take n) :=
  readAll_eq_ok.mpr ⟨fun _ => rfl, h, rfl⟩

/-- What is read as a whole has the length that was declared. -/
theorem length_of_readAll {r : ContentReader} (h : r.readAll = .ok content) :
    content.length = r.remaining := by
  obtain ⟨-, hle, rfl⟩ := readAll_eq_ok.mp h
  rw [List.length_take, Nat.min_eq_left hle]

end ContentReader

namespace Entry

variable {e : Entry} {bytes content : Bytes}

/-- The bytes of an entry's part that the entry stores. -/
def storedIn (e : Entry) (bytes : Bytes) : Bytes := (bytes.drop e.offset).take e.stored

/-- The content of an entry, not read yet, in the bytes of its part. -/
def readerIn (e : Entry) (bytes : Bytes) : Except Error ContentReader :=
  ContentReader.make ⟨e.storedIn bytes, .finished⟩ e.decoded e.codec

/-- How many bytes of the stream it takes to read the content. -/
def drawnIn (e : Entry) (bytes : Bytes) : ℕ :=
  Reader.drawn e.codec e.decoded ⟨e.storedIn bytes, .finished⟩

/-- The content of an entry in the bytes of its part. -/
def contentIn (e : Entry) (bytes : Bytes) : Except Error Bytes :=
  match e.readerIn bytes with
  | .error error => .error error
  | .ok r => r.readAll

/-- Everything about an entry that its content depends on. -/
def data (e : Entry) : Location × ℕ × ℕ × ℕ × Codec :=
  (e.source, e.offset, e.stored, e.decoded, e.codec)

/-- The entry lies in a part of the given bytes, and no offset in it is beyond the largest word. -/
structure FitsIn (e : Entry) (bytes : Bytes) : Prop where
  /-- The data end in the part. -/
  stop_le : e.offset + e.stored ≤ bytes.length
  /-- The data end below the largest word. -/
  stop_le_max : e.offset + e.stored ≤ Word.max

theorem length_storedIn (h : e.offset + e.stored ≤ bytes.length) :
    (e.storedIn bytes).length = e.stored := by
  rw [storedIn, List.length_take, List.length_drop, Nat.min_eq_left (by omega)]

theorem remaining_of_readerIn {r : ContentReader} (h : e.readerIn bytes = .ok r) :
    r.remaining = e.decoded := by
  rw [readerIn, ContentReader.make] at h
  split at h
  · cases h
  · cases h
    rfl

/-- A content has the declared length. -/
theorem length_of_contentIn (h : e.contentIn bytes = .ok content) :
    content.length = e.decoded := by
  rw [contentIn] at h
  split at h
  · cases h
  · next r hr => exact (ContentReader.length_of_readAll h).trans (remaining_of_readerIn hr)

theorem exists_readerIn (h : e.codec.HasKeys) (bytes : Bytes) :
    ∃ r, e.readerIn bytes = .ok r := by
  obtain ⟨feed, hfeed⟩ := Codec.exists_undo h ⟨e.storedIn bytes, .finished⟩
  exact ⟨_, by rw [readerIn, ContentReader.make, hfeed]⟩

/-- An entry without compression that declares what it stores can be read. -/
theorem exists_contentIn (hkeys : e.codec.HasKeys) (hcodec : e.codec.isCompressed = false)
    (hdecoded : e.decoded = e.stored) (hfit : e.offset + e.stored ≤ bytes.length) :
    ∃ content, e.contentIn bytes = .ok content := by
  obtain ⟨⟨found, ending⟩, hfeed⟩ := Codec.exists_undo hkeys ⟨e.storedIn bytes, .finished⟩
  obtain ⟨hlength, hending⟩ := Codec.of_undo hcodec hfeed
  dsimp only at hlength hending
  subst hending
  rw [length_storedIn hfit] at hlength
  refine ⟨found.take e.decoded, ?_⟩
  rw [contentIn, readerIn, ContentReader.make, hfeed]
  exact ContentReader.readAll_finished (by omega)

/-- Without a codec the content is what is stored. -/
theorem contentIn_of_identity (hcodec : e.codec = []) (hdecoded : e.decoded = e.stored)
    (hfit : e.offset + e.stored ≤ bytes.length) : e.contentIn bytes = .ok (e.storedIn bytes) := by
  rw [contentIn, readerIn, ContentReader.make, hcodec, Codec.undo]
  dsimp only
  have hlength := length_storedIn hfit
  rw [hdecoded, ContentReader.readAll_finished (by omega), List.take_of_length_le (by omega)]

end Entry

/-! ### Reading from an archive -/

theorem Feed.ofStream_of_healthy {s : Stream} {size : ℕ} (h : s.failAt = none) :
    Feed.ofStream s size = ⟨(s.bytes.drop s.position).take size, .finished⟩ := by
  simp [ofStream, Stream.ahead, Stream.failsAfter, h]

namespace Reading

open Run

variable {e : Entry} {s t : Stream} {bytes content : Bytes} {u : Unit}

/-- The content of an entry that lies in the stream is opened, from any position. -/
theorem openHere_eq (hs : s.failAt = none) (hfit : e.FitsIn s.bytes) :
    Reader.openHere e s = match e.readerIn s.bytes with
      | .error error => .error error { s with position := e.offset }
      | .ok r => .ok r { s with position := e.offset } := by
  have hcheck : Reader.checkRange "entry" e.offset e.stored s = .ok () s :=
    checkRange_eq_ok.mpr ⟨hfit.stop_le, hfit.stop_le_max, rfl⟩
  have hseek : Reader.seek e.offset s = .ok () { s with position := e.offset } :=
    seek_eq_ok.mpr ⟨by have := hfit.stop_le; rw [Stream.length]; omega, rfl⟩
  have hfeed : Feed.ofStream { s with position := e.offset } e.stored
      = ⟨e.storedIn s.bytes, .finished⟩ := Feed.ofStream_of_healthy hs
  rw [Reader.openHere, bind_of_ok hcheck]
  refine (bind_of_ok hseek).trans ?_
  rw [Entry.readerIn]
  cases hmake : ContentReader.make ⟨e.storedIn s.bytes, .finished⟩ e.decoded e.codec with
  | error error => simp only [hfeed, hmake]
  | ok r => simp only [hfeed, hmake]

/-- An entry is written under the name that it has. -/
theorem name_eq_ok {e : EditedEntry} {name : String} :
    e.name = .ok name ↔ e.entry.name = some name := by
  rw [EditedEntry.name, Entry.writtenName]
  cases e.entry.name <;> simp

/-- The content of an entry is read from its place, wherever the stream was left. -/
theorem keep_contentBytes_eq_ok : (EditedEntry.keep e).contentBytes s = .ok content t ↔
    e.source.isPrimary = true ∧ e.offset + e.stored ≤ s.length ∧
      e.offset + e.stored ≤ Word.max ∧
      Reader.content e.stored e.decoded e.codec { s with position := e.offset }
        = .ok content t := by
  cases hp : e.source.isPrimary with
  | false => simp [EditedEntry.contentBytes, EditedEntry.keep, hp, bind_eq_ok, throw_eq_ok]
  | true =>
    simp only [EditedEntry.contentBytes, EditedEntry.keep, hp, Bool.not_true, Bool.false_eq_true,
      if_false, bind_eq_ok, checkRange_eq_ok, seek_eq_ok, true_and]
    constructor
    · rintro ⟨_, s, ⟨hlength, hmax, rfl⟩, _, _, ⟨-, rfl⟩, h⟩
      exact ⟨hlength, hmax, h⟩
    · rintro ⟨hlength, hmax, h⟩
      exact ⟨(), s, ⟨hlength, hmax, rfl⟩, (), _, ⟨by omega, rfl⟩, h⟩

/-- The content of an entry in the stream, read for an archive that is written. -/
theorem contentBytes_eq_ok (hs : s.IsOver bytes) :
    (EditedEntry.keep e).contentBytes s = .ok content t ↔
      e.source.isPrimary = true ∧ e.FitsIn bytes ∧ e.contentIn bytes = .ok content ∧
        t = { s with position := e.offset + e.drawnIn bytes } := by
  have hfeed : Feed.ofStream { s with position := e.offset } e.stored
      = ⟨e.storedIn bytes, .finished⟩ := by
    rw [Entry.storedIn, ← hs.holds]
    exact Feed.ofStream_of_healthy hs.healthy
  have hcontent : Reader.content e.stored e.decoded e.codec { s with position := e.offset }
      = .ok content t ↔ e.contentIn bytes = .ok content ∧
        t = { s with position := e.offset + e.drawnIn bytes } := by
    rw [Reader.content, Entry.contentIn, Entry.readerIn]
    dsimp only
    rw [hfeed]
    cases ContentReader.make ⟨e.storedIn bytes, .finished⟩ e.decoded e.codec with
    | error error => simp
    | ok r =>
      dsimp only
      cases r.readAll with
      | error error => simp
      | ok found => simp [Stream.advance, Entry.drawnIn, eq_comm]
  rw [keep_contentBytes_eq_ok, hcontent, hs.length_eq]
  constructor
  · rintro ⟨hprimary, hlength, hmax, h⟩
    exact ⟨hprimary, ⟨hlength, hmax⟩, h⟩
  · rintro ⟨hprimary, hfit, h⟩
    exact ⟨hprimary, hfit.stop_le, hfit.stop_le_max, h⟩

/-- A range is copied if it lies in the stream and the storage delivers all of it. -/
theorem preserve_eq_ok {start size : ℕ} :
    Reader.preserve start size s = .ok content t ↔
      start + size ≤ s.length ∧ start + size ≤ Word.max ∧
        size ≤ ({ s with position := start } : Stream).ahead.length ∧
        content = ({ s with position := start } : Stream).ahead.take size ∧
        t = { s with position := start + size } := by
  rw [Reader.preserve, bind_eq_ok]
  constructor
  · rintro ⟨⟨found, failure⟩, v, hfound, h⟩
    rw [Reader.preserved] at hfound
    cases failure with
    | some error => exact absurd h (by simp [throw_eq_ok])
    | none =>
      obtain ⟨rfl, rfl⟩ := pure_eq_ok.mp h
      dsimp only at hfound
      split_ifs at hfound with hrange hsize
      · cases hfound
      · obtain ⟨hlength, hmax⟩ := inRange_iff.mp (by simpa using hrange)
        cases hfound
        refine ⟨hlength, hmax, ?_, rfl, ?_⟩
        · rw [List.length_take] at hsize
          omega
        · rw [hsize]
          rfl
      · cases hfound
      · cases hfound
  · rintro ⟨hlength, hmax, hsize, rfl, rfl⟩
    refine ⟨(_, none), _, ?_, rfl⟩
    rw [Reader.preserved, inRange_iff.mpr ⟨hlength, hmax⟩]
    dsimp only
    rw [Bool.not_true, if_neg Bool.false_ne_true, List.length_take_of_le hsize, if_pos rfl]
    rfl

/-- A range that is copied lies in the stream, and is copied as it is. -/
theorem of_preserve {start size : ℕ} {found : Bytes} (hs : s.IsOver bytes)
    (h : Reader.preserve start size s = .ok found t) :
    found = (bytes.drop start).take size ∧ t.IsOver bytes := by
  obtain ⟨-, -, -, rfl, rfl⟩ := preserve_eq_ok.mp h
  refine ⟨?_, Stream.isOver_goto hs⟩
  rw [(Stream.isOver_goto hs).ahead_eq]

end Reading

namespace Archive

variable {a : Archive} {files : FileTree} {e : Entry} {bytes : Bytes} {index : ℕ}

/-- The part that an entry lies in has the given bytes, on storage that does not fail: it is the
stream of the archive, or one of the files. -/
inductive HasPart (a : Archive) (files : FileTree) (e : Entry) (bytes : Bytes) : Prop where
  /-- The entry lies in the archive that was opened. -/
  | primary (isPrimary : e.source.isPrimary = true) (healthy : a.stream.failAt = none)
    (holds : a.stream.bytes = bytes)
  /-- The entry lies in another file. -/
  | other (isOther : e.source.isPrimary = false) (path : String) (hpath : e.source.path = some path)
    (hread : files.read path = .ok bytes)

theorem openContent_eq (hpart : a.HasPart files e bytes) (hfit : e.FitsIn bytes) :
    (a.openContent files e).1 = e.readerIn bytes := by
  cases hpart with
  | primary isPrimary healthy holds =>
    subst holds
    rw [openContent, if_pos isPrimary, run, Reader.outcome, Reading.openHere_eq healthy hfit]
    cases e.readerIn a.stream.bytes <;> rfl
  | other isOther path hpath hread =>
    have hfile : Stream.ofFile files path = .ok (Stream.ofBytes bytes) := by
      rw [Stream.ofFile, hread]
    rw [openContent, if_neg (by rw [isOther]; decide), openPart, hpath]
    dsimp only
    rw [hfile]
    dsimp only
    rw [show Reader.openHere e (Stream.ofBytes bytes) = match e.readerIn bytes with
      | .error error => .error error { Stream.ofBytes bytes with position := e.offset }
      | .ok r => .ok r { Stream.ofBytes bytes with position := e.offset }
      from Reading.openHere_eq rfl hfit]
    cases e.readerIn bytes <;> rfl

/-- **Opening depends on the entry and the bytes of its part alone.** -/
theorem openEntry_eq (hget : a.entries[index]? = some e) (hpart : a.HasPart files e bytes)
    (hfit : e.FitsIn bytes) :
    (a.openEntry files index).1 = (e.readerIn bytes).map fun r => (e, r) := by
  have h := openContent_eq hpart hfit
  rw [openEntry, hget]
  dsimp only
  rcases hopen : a.openContent files e with ⟨result, a'⟩
  rw [hopen] at h
  dsimp only at h
  subst h
  cases e.readerIn bytes <;> rfl

/-- **Reading depends on the entry and the bytes of its part alone.** -/
theorem readEntry_eq (hget : a.entries[index]? = some e) (hpart : a.HasPart files e bytes)
    (hfit : e.FitsIn bytes) : (a.readEntry files index).1 = e.contentIn bytes := by
  have h := openEntry_eq hget hpart hfit
  rw [readEntry, Entry.contentIn]
  rcases hopen : a.openEntry files index with ⟨result, a'⟩
  rw [hopen] at h
  dsimp only at h
  subst h
  cases e.readerIn bytes <;> rfl

theorem readEntry_of_isOver (hover : a.stream.IsOver bytes) (hget : a.entries[index]? = some e)
    (hprimary : e.source.isPrimary = true) (hfit : e.FitsIn bytes) :
    (a.readEntry files index).1 = e.contentIn bytes :=
  readEntry_eq hget (.primary hprimary hover.healthy hover.holds) hfit

end Archive

end Packfile
