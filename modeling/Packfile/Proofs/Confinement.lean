import Packfile.Proofs.BlockRoundTrip
import Packfile.Proofs.Tables

/-!
# A block depends on its range and on nothing else

A block is decoded through a stream that holds other things in front of it and behind it. What comes
out is nevertheless a function of the range alone: `Codec.blockOf` says which, and takes nothing but
what the range feeds. So neither the bytes around the range matter, nor how many there are, nor
where the stream was left.

## The range and its storage

The range is said by its place and its size, and two streams agree on it if they hold the same bytes
there. Storage that fails inside the range is part of what is read, so it has to fail at the same
places of it. It may fail anywhere else: a stream is never asked for more than the range.

## The declared length

A block that is decoded has the declared length exactly, for each of two reasons that do not depend
on each other. Nothing behind the declared length is asked for, and a content that ends before it is
an error. That leaves the check with which a directory is opened with nothing to find.

## Main definitions

* `Stream.AgreesOn` — two streams cannot be told apart inside a range
* `Codec.blockOf` — what a block comes to, from the feed of its range

## Main results

* `Stream.AgreesOn.ofStream_eq` — such streams feed the same
* `Reading.outcome_decodeBlock` — a block is a function of what its range feeds
* `Reading.decodeBlock_confined` — its length, its range, and what becomes of a range outside
-/

namespace Packfile

open Run Reading

variable {s t : Stream} {start size stored decoded : ℕ} {codec : Codec} {block : Bytes}

/-! ### Ranges of a stream -/

namespace Stream

/-- A read that starts at a position fails. -/
def FailsAt (s : Stream) (position : ℕ) : Prop := ∃ limit ∈ s.failAt, limit ≤ position

/-- Two streams hold the same bytes in a range, and their storage fails at the same places of it. -/
structure AgreesOn (s t : Stream) (start size : ℕ) : Prop where
  bytes_eq : (s.bytes.drop start).take size = (t.bytes.drop start).take size
  fails_iff : ∀ position, start ≤ position → position < start + size →
    (s.FailsAt position ↔ t.FailsAt position)

/-- How many bytes of a range the storage delivers, if the stream has them. -/
def reach (s : Stream) (start size : ℕ) : ℕ :=
  match s.failAt with
  | none => size
  | some limit => min size (limit - start)

theorem reach_le (s : Stream) (start size : ℕ) : s.reach start size ≤ size := by
  rw [reach]
  split
  · exact Nat.le_refl _
  · exact Nat.min_le_left _ _

/-- Inside a range the storage fails from its reach on, and not before. -/
theorem failsAt_iff_reach_le {k : ℕ} (h : k < size) :
    s.FailsAt (start + k) ↔ s.reach start size ≤ k := by
  rw [FailsAt, reach]
  cases s.failAt with
  | none => simpa using h
  | some limit =>
    simp only [Option.mem_def, Option.some.injEq, exists_eq_left']
    omega

/-- Of streams that agree on a range the storage delivers equally much of it. -/
theorem AgreesOn.reach_eq (h : s.AgreesOn t start size) :
    s.reach start size = t.reach start size := by
  have hreach : ∀ k < size, s.reach start size ≤ k ↔ t.reach start size ≤ k := by
    intro k hk
    rw [← failsAt_iff_reach_le hk, ← failsAt_iff_reach_le hk]
    exact h.fails_iff _ (Nat.le_add_right _ _) (Nat.add_lt_add_left hk _)
  have hs := reach_le s start size
  have ht := reach_le t start size
  -- the shorter reach, if there is one, lies inside the range
  rcases Nat.lt_trichotomy (s.reach start size) (t.reach start size) with hlt | heq | hgt
  · exact absurd ((hreach _ (Nat.lt_of_lt_of_le hlt ht)).mp (Nat.le_refl _)) (Nat.not_le.mpr hlt)
  · exact heq
  · exact absurd ((hreach _ (Nat.lt_of_lt_of_le hgt hs)).mpr (Nat.le_refl _)) (Nat.not_le.mpr hgt)

end Stream

/-- A range that lies in the stream feeds what the storage delivers of it. -/
theorem Feed.ofStream_of_le (h : start + size ≤ s.length) :
    Feed.ofStream { s with position := start } size =
      ⟨((s.bytes.drop start).take size).take (s.reach start size),
        if s.reach start size < size then .failed .disk .started else .finished⟩ := by
  have hahead : (Stream.ahead { s with position := start }).take size
      = ((s.bytes.drop start).take size).take (s.reach start size) := by
    rw [Stream.ahead, Stream.reach]
    cases s.failAt with
    | none => rw [List.take_take, Nat.min_self]
    | some limit =>
      dsimp only
      rw [List.take_take, List.take_take, Nat.min_eq_left (Nat.min_le_left _ _)]
  have hlength : (((s.bytes.drop start).take size).take (s.reach start size)).length
      = s.reach start size := by
    rw [List.length_take, Stream.length_range h]
    exact Nat.min_eq_left (Stream.reach_le _ _ _)
  rw [Feed.ofStream, hahead, hlength]
  by_cases hshort : s.reach start size < size
  · have hfails : Stream.failsAfter { s with position := start } (s.reach start size) = true := by
      obtain ⟨limit, hlimit, hle⟩ := (Stream.failsAt_iff_reach_le hshort).mpr (Nat.le_refl _)
      rw [Stream.failsAfter, Option.mem_def.mp hlimit]
      exact decide_eq_true hle
    simp only [hshort, hfails, decide_true, Bool.and_self, if_true]
  · simp only [hshort, decide_false, Bool.false_and, Bool.false_eq_true, if_false]

/-- Streams that agree on a range feed the same from it. -/
theorem Stream.AgreesOn.ofStream_eq (h : s.AgreesOn t start size) (hs : start + size ≤ s.length)
    (ht : start + size ≤ t.length) :
    Feed.ofStream { s with position := start } size
      = Feed.ofStream { t with position := start } size := by
  rw [Feed.ofStream_of_le hs, Feed.ofStream_of_le ht, h.bytes_eq, h.reach_eq]

/-! ### Blocks as functions of a feed -/

/-- What a block of declared length `decoded` comes to, from what its range of `stored` bytes
feeds. -/
def Codec.blockOf (codec : Codec) (stored decoded : ℕ) (feed : Feed) : Except Error Bytes :=
  if !codec.isCompressed && stored < decoded then
    .error (.exceeds "decoded block length" decoded stored)
  else match ContentReader.make feed decoded codec with
    | .error e => .error e
    | .ok r => r.readAll

/-- A block has the declared length. -/
theorem Codec.length_of_blockOf {feed : Feed} (h : codec.blockOf stored decoded feed = .ok block) :
    block.length = decoded := by
  rw [blockOf] at h
  split at h
  · cases h
  · rw [ContentReader.make] at h
    cases hundo : codec.undo feed with
    | error e => simp only [hundo, reduceCtorEq] at h
    | ok result =>
      simp only [hundo] at h
      exact ContentReader.length_of_readAll h

namespace Reading

/-- A range that does not lie in the stream is refused before anything is read. -/
theorem decodeBlock_of_lt (h : s.length < start + stored) (decoded : ℕ) (codec : Codec) :
    Reader.decodeBlock start stored decoded codec s
      = .error (Reader.rangeError "block range" s.length start stored) s := by
  have hrange : Reader.inRange s.length start stored = false := by
    rw [Bool.eq_false_iff, ne_eq, inRange_iff]
    omega
  have hcheck : Reader.checkRange "block range" start stored s
      = .error (Reader.rangeError "block range" s.length start stored) s := by
    rw [Reader.checkRange, bind_of_ok (length_eq_ok.mpr ⟨rfl, rfl⟩), hrange]
    rfl
  rw [Reader.decodeBlock, bind_of_error hcheck]

/-- **A block is a function of what its range feeds.** -/
theorem outcome_decodeBlock (hfit : start + stored ≤ s.length) (hmax : start + stored ≤ Word.max)
    (decoded : ℕ) (codec : Codec) :
    ((Reader.decodeBlock start stored decoded codec).outcome s).1
      = codec.blockOf stored decoded (Feed.ofStream { s with position := start } stored) := by
  have hcheck : Reader.checkRange "block range" start stored s = .ok () s :=
    checkRange_eq_ok.mpr ⟨hfit, hmax, rfl⟩
  have hseek : Reader.seek start s = .ok () { s with position := start } :=
    seek_eq_ok.mpr ⟨by omega, rfl⟩
  by_cases hdeclared : (!codec.isCompressed && decide (stored < decoded)) = true
  · have hdecode : Reader.decodeBlock start stored decoded codec s
        = .error (.exceeds "decoded block length" decoded stored) s := by
      rw [Reader.decodeBlock, bind_of_ok hcheck, if_pos hdeclared]
      rfl
    rw [Reader.outcome, hdecode, Codec.blockOf, if_pos hdeclared]
  · have hdecode : Reader.decodeBlock start stored decoded codec s
        = Reader.content stored decoded codec { s with position := start } := by
      rw [Reader.decodeBlock, bind_of_ok hcheck, if_neg hdeclared]
      exact bind_of_ok hseek
    rw [Reader.outcome, hdecode, Codec.blockOf, if_neg hdeclared, Reader.content]
    cases ContentReader.make (Feed.ofStream { s with position := start } stored) decoded codec with
    | error e => rfl
    | ok r =>
      dsimp only
      cases r.readAll <;> rfl

/-- A block that is decoded has the declared length. -/
theorem length_of_decodeBlock (h : Reader.decodeBlock start stored decoded codec s = .ok block t) :
    block.length = decoded := by
  obtain ⟨_, _, hcheck, -⟩ := bind_eq_ok.mp (show (Reader.checkRange _ _ _ >>= _) s = _ from h)
  obtain ⟨hfit, hmax, -⟩ := checkRange_eq_ok.mp hcheck
  have hblock := outcome_decodeBlock hfit hmax decoded codec
  rw [Reader.outcome, h] at hblock
  exact Codec.length_of_blockOf hblock.symm

/-- A directory is opened whenever its block is decoded, and fails the way its block does. -/
theorem openDirectory_eq (start stored decoded : ℕ) (codec : Codec) (s : Stream) :
    Reader.openDirectory start stored decoded codec s =
      match Reader.decodeBlock start stored decoded codec s with
      | .ok block t => .ok { bytes := block, order := s.order } t
      | .error e t => .error e t := by
  cases h : Reader.decodeBlock start stored decoded codec s with
  | error e t => rw [Reader.openDirectory, bind_of_error h]
  | ok block t =>
    have hlength := length_of_decodeBlock h
    have horder : t.order = s.order :=
      congrArg (fun source : Bytes × ByteOrder × Option ℕ => source.2.1)
        ((Tables.keeps_decodeBlock _ _ _ _).of_ok h)
    rw [Reader.openDirectory, bind_of_ok h, if_neg (by simp [hlength]), ← horder]
    exact bind_of_ok (order_eq_ok.mpr ⟨rfl, rfl⟩)

/-- **Blocks are confined to their range.** A block that is decoded has the declared length, so that
opening a directory never finds another one. Streams that agree on the range and contain it give the
same block or the same error. A range outside the stream is an error, and the stream stays where it
was. -/
theorem decodeBlock_confined (start stored decoded : ℕ) (codec : Codec)
    (hs : s.length ≤ Word.max) :
    (∀ block u, Reader.decodeBlock start stored decoded codec s = .ok block u →
      block.length = decoded) ∧
    (Reader.openDirectory start stored decoded codec s =
      match Reader.decodeBlock start stored decoded codec s with
      | .ok block u => .ok { bytes := block, order := s.order } u
      | .error e u => .error e u) ∧
    (∀ t : Stream, start + stored ≤ s.length → start + stored ≤ t.length →
      s.AgreesOn t start stored →
        ((Reader.decodeBlock start stored decoded codec).outcome s).1
          = ((Reader.decodeBlock start stored decoded codec).outcome t).1) ∧
    (s.length < start + stored → Reader.decodeBlock start stored decoded codec s
      = .error (Reader.rangeError "block range" s.length start stored) s) := by
  refine ⟨fun block u h => length_of_decodeBlock h, openDirectory_eq _ _ _ _ _,
    fun t hfit hfit' hagree => ?_, fun h => decodeBlock_of_lt h _ _⟩
  have hmax := Nat.le_trans hfit hs
  rw [outcome_decodeBlock hfit hmax, outcome_decodeBlock hfit' hmax,
    hagree.ofStream_eq hfit hfit']

/-- A block of two bytes that is compressed and then enciphered. -/
def sealedBlock : Bytes := (Xor.mk [0x5A] 0).apply (Zlib.compress [104, 105])

/-- The block between two bytes. -/
def plainSurroundings : Stream := .ofBytes ([9] ++ sealedBlock ++ [9])

/-- The block between other bytes, on storage that fails right behind it, with the position in the
middle of it. -/
def otherSurroundings : Stream :=
  { bytes := [7] ++ sealedBlock ++ [1, 2, 3], position := 5, order := .big, failAt := some 14 }

/-- The block is decoded from both streams alike, and two bytes come out. -/
theorem decodeBlock_confined_surrounded :
    plainSurroundings.length ≤ Word.max ∧ plainSurroundings.AgreesOn otherSurroundings 1 13 ∧
      ((Reader.decodeBlock 1 13 2 [.xor [0x5A], .zlib]).outcome otherSurroundings).1
        = .ok [104, 105] := by
  have hlength : plainSurroundings.length ≤ Word.max := by decide
  have hagree : plainSurroundings.AgreesOn otherSurroundings 1 13 := by
    refine ⟨by decide +kernel, fun position _ hstop => iff_of_false ?_ ?_⟩
    · rintro ⟨limit, hlimit, -⟩
      cases hlimit
    · rintro ⟨limit, hlimit, hle⟩
      cases hlimit
      omega
  have hplain : ((Reader.decodeBlock 1 13 2 [.xor [0x5A], .zlib]).outcome plainSurroundings).1
      = .ok [104, 105] := by
    decide +kernel
  obtain ⟨-, -, hsame, -⟩ := decodeBlock_confined 1 13 2 [.xor [0x5A], .zlib] hlength
  refine ⟨hlength, hagree, ?_⟩
  rw [← hsame otherSurroundings (by decide) (by decide) hagree]
  exact hplain

end Reading

end Packfile
