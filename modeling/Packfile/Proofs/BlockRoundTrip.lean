import Packfile.Proofs.Contents
import Packfile.Proofs.Inflation
import Packfile.Proofs.Truncation
import Packfile.Walk.Offsets

/-!
# Blocks are decoded to what they were encoded from

Encoding does the transforms of a codec from the last to the first, and decoding undoes them from
the first to the last. Each transform takes back its own, so the codec does, by induction on the
list: the block that the rest of the codec made is what the first transform is undone to. No
transform has to know what the others are, so they may come in any order and any number.

## What is assumed

The compressors are parameters. All that is assumed of them is that what they make inflates to what
they were given; `Compressors.inverts_default` says that the library's own are of that kind. A codec
with a key that its cipher does not take neither encodes nor decodes anything.

## Main definitions

* `Compressors.Invert` — what is assumed of the compressors

## Main results

* `Codec.undo_encode` — undoing a codec restores what was encoded, as one feed
* `Codec.decodeBlock_encode` — the same for blocks inside a stream
-/

namespace Packfile

open Run Reading

/-- What each of the compressors makes inflates to what it was given. -/
structure Compressors.Invert (compressors : Compressors) : Prop where
  /-- The compressor with zlib framing. -/
  zlib : Zlib.Inverts compressors.zlib
  /-- The compressor without framing. -/
  deflate : ∀ data, ∃ rest, Deflate.inflate (compressors.deflate data) = (data, .complete rest)

theorem Compressors.invert_default : Compressors.Invert {} where
  zlib := Zlib.inverts_compress
  deflate := by
    intro data
    have h := Deflate.inflate_store data []
    rw [List.append_nil] at h
    exact ⟨[], h⟩

/-- Data that inflate in full are all there is. -/
theorem Feed.inflate_of_complete {decompress : Bytes → Bytes × Deflate.Ending}
    {input content rest : Bytes} (h : decompress input = (content, .complete rest)) :
    Feed.inflate decompress ⟨input, .finished⟩ = ⟨content, .finished⟩ := by
  simp only [inflate, inPieces, h]

/-- A transform that was done is undone. -/
theorem Transform.undo_apply {compressors : Compressors} (hcompress : compressors.Invert)
    (transform : Transform) (bytes : Bytes) :
    transform.undo ⟨transform.apply bytes compressors, .finished⟩ = ⟨bytes, .finished⟩ := by
  cases transform with
  | xor key => rw [apply, undo, Feed.xor, Xor.apply_apply]
  | rc4 key => rw [apply, undo, Feed.rc4, Rc4.apply_apply]
  | zlib =>
    obtain ⟨rest, h⟩ := hcompress.zlib bytes
    exact Feed.inflate_of_complete h
  | deflate =>
    obtain ⟨rest, h⟩ := hcompress.deflate bytes
    exact Feed.inflate_of_complete h

/-! ### Keys -/

namespace Codec

variable {compressors : Compressors} {codec : Codec} {content block : Bytes}

theorem hasKeys_iff : codec.HasKeys ↔
    (∀ key, .xor key ∈ codec → key ≠ []) ∧
      ∀ key, .rc4 key ∈ codec → 1 ≤ key.length ∧ key.length ≤ 256 := by
  constructor
  · intro h
    refine ⟨fun key hmem => ?_, fun key hmem => ?_⟩
    · have := h _ hmem
      simpa [Transform.keyError?] using this
    · have := h _ hmem
      simpa [Transform.keyError?, Rc4.isKeyLength] using this
  · rintro ⟨hxor, hrc4⟩ transform hmem
    cases transform with
    | xor key => simpa [Transform.keyError?] using hxor key hmem
    | rc4 key => simpa [Transform.keyError?, Rc4.isKeyLength] using hrc4 key hmem
    | zlib => rfl
    | deflate => rfl

/-- Only a codec with usable keys is undone. -/
theorem hasKeys_of_undo {feed result : Feed} (h : codec.undo feed = .ok result) :
    codec.HasKeys := by
  induction codec generalizing feed with
  | nil =>
    intro transform hmem
    cases hmem
  | cons transform codec ih =>
    rw [undo] at h
    split at h
    · cases h
    · next hkey => exact List.forall_mem_cons.mpr ⟨hkey, ih h⟩

/-- Only a codec with usable keys encodes anything. -/
theorem hasKeys_of_encode (h : codec.encode content compressors = .ok block) :
    codec.HasKeys := by
  induction codec generalizing block with
  | nil =>
    intro transform hmem
    cases hmem
  | cons transform codec ih =>
    rw [encode] at h
    split at h
    · cases h
    · next hblock =>
      split at h
      · cases h
      · next hkey => exact List.forall_mem_cons.mpr ⟨hkey, ih hblock⟩

/-! ### Encoding, and undoing it -/

theorem exists_encode (h : codec.HasKeys) (content : Bytes) (compressors : Compressors) :
    ∃ block, codec.encode content compressors = .ok block := by
  induction codec with
  | nil => exact ⟨content, rfl⟩
  | cons transform codec ih =>
    obtain ⟨hkey, hkeys⟩ := List.forall_mem_cons.mp h
    obtain ⟨block, hblock⟩ := ih hkeys
    exact ⟨transform.apply block compressors, by rw [encode, hblock, hkey]⟩

/-- **What was encoded is decoded**, whatever the transforms are and in whatever order. -/
theorem undo_encode (hcompress : compressors.Invert)
    (h : codec.encode content compressors = .ok block) :
    codec.undo ⟨block, .finished⟩ = .ok ⟨content, .finished⟩ := by
  induction codec generalizing block with
  | nil =>
    cases h
    rfl
  | cons transform codec ih =>
    rw [encode] at h
    split at h
    · cases h
    · next inner hinner =>
      split at h
      · cases h
      · next hkey =>
        cases h
        rw [undo, hkey, Transform.undo_apply hcompress]
        exact ih hinner

end Codec

/-! ### Blocks inside a stream -/

section

variable {codec : Codec} {s : Stream} {block rest content : Bytes} {start : ℕ}

/-- A stream that does not fail before the end of a block feeds the block. -/
theorem Feed.ofStream_of_drop (h : s.bytes.drop start = block ++ rest)
    (hfail : ∀ limit ∈ s.failAt, start + block.length ≤ limit) :
    Feed.ofStream { s with position := start } block.length = ⟨block, .finished⟩ := by
  have hahead : (Stream.ahead { s with position := start }).take block.length = block := by
    rw [Stream.ahead]
    dsimp only
    rw [h]
    cases hlimit : s.failAt with
    | none => exact List.take_left
    | some limit =>
      have := hfail limit hlimit
      dsimp only
      rw [List.take_take, Nat.min_eq_left (by omega), List.take_left]
  rw [Feed.ofStream, hahead]
  simp

/-- A block of a stream that its codec turns into a content is decoded to that content. -/
theorem Reading.decodeBlock_of_drop (h : s.bytes.drop start = block ++ rest)
    (hfit : start + block.length ≤ s.length) (hmax : start + block.length ≤ Word.max)
    (hfail : ∀ limit ∈ s.failAt, start + block.length ≤ limit)
    (hundo : codec.undo ⟨block, .finished⟩ = .ok ⟨content, .finished⟩) :
    Reader.decodeBlock start block.length content.length codec s = .ok content
      (Stream.advance { s with position := start }
        (Reader.drawn codec content.length ⟨block, .finished⟩)) := by
  have hdeclared : ¬ (!codec.isCompressed && decide (block.length < content.length)) = true := by
    cases hcodec : codec.isCompressed with
    | true => simp
    | false =>
      have hlength := (Codec.of_undo hcodec hundo).1
      simpa using Nat.le_of_eq hlength
  have hcontent : Reader.content block.length content.length codec { s with position := start }
      = .ok content (Stream.advance { s with position := start }
          (Reader.drawn codec content.length ⟨block, .finished⟩)) := by
    rw [Reader.content, Feed.ofStream_of_drop h hfail, ContentReader.make, hundo]
    dsimp only
    rw [ContentReader.readAll_finished (Nat.le_refl _), List.take_length]
  have hcheck : Reader.checkRange "block range" start block.length s = .ok () s :=
    checkRange_eq_ok.mpr ⟨hfit, hmax, rfl⟩
  rw [Reader.decodeBlock, bind_of_ok hcheck, guard_eq_ok]
  exact ⟨hdeclared, bind_eq_ok.mpr ⟨(), _, seek_eq_ok.mpr ⟨by omega, rfl⟩, hcontent⟩⟩

/-- A directory in a stream that its codec turns into a content is opened as that content, in the
byte order of the stream. -/
theorem Reading.exists_openDirectory (h : s.bytes.drop start = block ++ rest)
    (hfit : start + block.length ≤ s.length) (hmax : start + block.length ≤ Word.max)
    (hfail : ∀ limit ∈ s.failAt, start + block.length ≤ limit)
    (hundo : codec.undo ⟨block, .finished⟩ = .ok ⟨content, .finished⟩) :
    ∃ t, Reader.openDirectory start block.length content.length codec s
      = .ok { bytes := content, order := s.order } t ∧ t.source = s.source := by
  refine ⟨Stream.advance { s with position := start }
    (Reader.drawn codec content.length ⟨block, .finished⟩), ?_, rfl⟩
  rw [Reader.openDirectory, bind_of_ok (decodeBlock_of_drop h hfit hmax hfail hundo), guard_eq_ok]
  exact ⟨by simp, bind_eq_ok.mpr ⟨s.order, _, order_eq_ok.mpr ⟨rfl, rfl⟩, rfl⟩⟩

/-- A directory that was opened is the beginning of what its codec makes of the block, which lies in
the stream. -/
theorem Reading.of_openDirectory {stored decoded : ℕ} {directory t : Stream}
    (h : Reader.openDirectory start stored decoded codec s = .ok directory t) :
    start + stored ≤ s.length ∧ t.source = s.source ∧ ∃ feed,
      codec.undo (Feed.ofStream { s with position := start } stored) = .ok feed ∧
        decoded ≤ feed.bytes.length ∧
          directory = { bytes := feed.bytes.take decoded, order := s.order } := by
  rw [Reader.openDirectory] at h
  obtain ⟨found, u, hblock, h⟩ := bind_eq_ok.mp h
  rw [Reader.decodeBlock] at hblock
  obtain ⟨_, v, hrange, hguard⟩ := bind_eq_ok.mp hblock
  obtain ⟨hstop, -, rfl⟩ := checkRange_eq_ok.mp hrange
  obtain ⟨-, hbody⟩ := guard_eq_ok.mp hguard
  obtain ⟨_, w, hseek, hcontent⟩ := bind_eq_ok.mp hbody
  obtain ⟨-, rfl⟩ := seek_eq_ok.mp hseek
  rw [Reader.content, ContentReader.make] at hcontent
  cases hundo : codec.undo (Feed.ofStream { v with position := start } stored) with
  | error e =>
    simp only [hundo] at hcontent
    cases hcontent
  | ok feed =>
    simp only [hundo] at hcontent
    cases hread : ContentReader.readAll ⟨feed, decoded⟩ with
    | error e =>
      simp only [hread] at hcontent
      cases hcontent
    | ok content =>
      simp only [hread] at hcontent
      obtain ⟨rfl, hlength⟩ := ContentReader.of_readAll hread
      cases hcontent
      obtain ⟨-, hopen⟩ := guard_eq_ok.mp h
      simp only [bind_eq_ok, order_eq_ok, pure_eq_ok] at hopen
      obtain ⟨_, _, ⟨rfl, rfl⟩, rfl, rfl⟩ := hopen
      exact ⟨hstop, rfl, feed, rfl, hlength, rfl⟩

/-- The content of an entry is what its codec makes of what it stores. -/
theorem Entry.contentIn_of_undo {e : Entry} {bytes : Bytes} (hstored : e.storedIn bytes = block)
    (hdecoded : e.decoded = content.length)
    (hundo : e.codec.undo ⟨block, .finished⟩ = .ok ⟨content, .finished⟩) :
    e.contentIn bytes = .ok content := by
  have hreader : e.readerIn bytes = .ok ⟨⟨content, .finished⟩, content.length⟩ := by
    rw [readerIn, hstored, ContentReader.make, hundo, hdecoded]
  rw [contentIn, hreader]
  dsimp only
  rw [ContentReader.readAll_finished (Nat.le_refl _), List.take_length]

/-- A block is decoded only by a codec with usable keys. -/
theorem Reading.hasKeys_of_decodeBlock {stored decoded : ℕ} {t : Stream}
    (h : Reader.decodeBlock start stored decoded codec s = .ok content t) : codec.HasKeys := by
  rw [Reader.decodeBlock] at h
  obtain ⟨_, _, -, h⟩ := bind_eq_ok.mp h
  obtain ⟨-, h⟩ := guard_eq_ok.mp h
  obtain ⟨_, u, -, h⟩ := bind_eq_ok.mp h
  rw [Reader.content, ContentReader.make] at h
  cases hundo : codec.undo (Feed.ofStream u stored) with
  | error e =>
    rw [hundo] at h
    cases h
  | ok feed => exact Codec.hasKeys_of_undo hundo

/-- **Blocks round-trip.** With usable keys every content has a block, and wherever a stream holds
that block, decoding it gives the content. With a key that cannot be used, nothing is encoded and
nothing is decoded. -/
theorem Codec.decodeBlock_encode {compressors : Compressors} (hcompress : compressors.Invert)
    (codec : Codec) (content : Bytes) :
    (((∀ key, .xor key ∈ codec → key ≠ []) ∧
        ∀ key, .rc4 key ∈ codec → 1 ≤ key.length ∧ key.length ≤ 256) →
      ∃ block, codec.encode content compressors = .ok block ∧
        ∀ (s : Stream) (front back : Bytes), s.bytes = front ++ block ++ back →
          s.length ≤ Word.max → (∀ limit ∈ s.failAt, front.length + block.length ≤ limit) →
          ∃ t, Reader.decodeBlock front.length block.length content.length codec s
            = .ok content t) ∧
    ((.xor [] ∈ codec ∨ ∃ key, .rc4 key ∈ codec ∧ ¬ (1 ≤ key.length ∧ key.length ≤ 256)) →
      (∃ e, codec.encode content compressors = .error e) ∧
        ∀ (s : Stream) (start stored decoded : ℕ),
          ∃ e t, Reader.decodeBlock start stored decoded codec s = .error e t) := by
  constructor
  · intro hkeys
    obtain ⟨block, hblock⟩ := exists_encode (hasKeys_iff.mpr hkeys) content compressors
    refine ⟨block, hblock, ?_⟩
    intro s front back hs hmax hfail
    have hdrop : s.bytes.drop front.length = block ++ back := by
      rw [hs, List.append_assoc, List.drop_left]
    have hfit : front.length + block.length ≤ s.length := by
      rw [Stream.length, hs, List.length_append, List.length_append]
      omega
    exact ⟨_, decodeBlock_of_drop hdrop hfit (Nat.le_trans hfit hmax) hfail
      (undo_encode hcompress hblock)⟩
  · intro hbad
    have hkeys : ¬ codec.HasKeys := by
      rw [hasKeys_iff]
      rintro ⟨hxor, hrc4⟩
      rcases hbad with hmem | ⟨key, hmem, hlength⟩
      · exact hxor [] hmem rfl
      · exact hlength (hrc4 key hmem)
    constructor
    · cases hencode : codec.encode content compressors with
      | error e => exact ⟨e, rfl⟩
      | ok block => exact absurd (hasKeys_of_encode hencode) hkeys
    · intro s start stored decoded
      cases hdecode : Reader.decodeBlock start stored decoded codec s with
      | error e t => exact ⟨e, t, rfl⟩
      | ok found t => exact absurd (hasKeys_of_decodeBlock hdecode) hkeys

end

namespace Codec

/-- Two ciphers and two compressions, the first transform to be undone being a cipher. -/
def sealedTwice : Codec := [.rc4 [0x4B, 0x65, 0x79], .zlib, .xor [0x5A, 0xA5], .deflate]

/-- The block of three bytes is decoded from the middle of a stream, and with an empty key in front
nothing is. -/
theorem decodeBlock_encode_sealedTwice : Compressors.Invert {} ∧
    (∃ block t, sealedTwice.encode [104, 105, 0] = .ok block ∧
      Reader.decodeBlock 2 block.length 3 sealedTwice (.ofBytes ([1, 2] ++ block ++ [3]))
        = .ok [104, 105, 0] t) ∧
    ∃ e, Codec.encode (.rc4 [] :: sealedTwice) [104, 105, 0] = .error e := by
  refine ⟨Compressors.invert_default, ?_, ?_⟩
  · obtain ⟨block, hblock, hdecode⟩ :=
      (decodeBlock_encode Compressors.invert_default sealedTwice [104, 105, 0]).1
        (hasKeys_iff.mp (by decide))
    have hlength : block.length = 19 := by
      have hevaluated : (sealedTwice.encode [104, 105, 0]).toOption.map List.length = some 19 := by
        decide +kernel
      rw [hblock] at hevaluated
      exact Option.some.inj hevaluated
    have hmax : (Stream.ofBytes ([1, 2] ++ block ++ [3])).length ≤ Word.max := by
      rw [Stream.length, Stream.ofBytes, List.length_append, List.length_append, hlength]
      decide
    obtain ⟨t, ht⟩ := hdecode (.ofBytes ([1, 2] ++ block ++ [3])) [1, 2] [3] rfl hmax
      (fun limit hlimit => by cases hlimit)
    exact ⟨block, t, hblock, ht⟩
  · exact ((decodeBlock_encode Compressors.invert_default (.rc4 [] :: sealedTwice)
      [104, 105, 0]).2 (Or.inr ⟨[], List.mem_cons_self, by decide⟩)).1

end Codec

end Packfile
