import Packfile.Proofs.Fields

/-!
# Streams that are driven by checked steps

Whoever reads a stream decides from what has been read, and from what has failed, what to read next.
`Script` is such a reader as a tree: at each node one step is taken, and the answer or the error of
the step chooses the branch. A block after which the position is put back, fields that are read as
one record, and a part of the stream that is read as a stream of its own are nodes with a script
inside, so that they may stand in each other to any depth.

## What a script can do

The steps of `Script.Operation` are all that a reader is offered but one, which is to move the
storage itself to any position. What stands at a node is what the library does there: `Script.run`
is made of the readers of `Packfile.Reader`, and of `Reader.restoring`, `Reader.asRecord` and
`Reader.slice` for the nodes with a script inside. A part has a copy of its bytes, so it makes no
difference when it is read, and its script stands for all that is ever done to it.

## Why no step leads out

A position is reached in two ways. Moves are compared with the length before they are made. Reads
move behind what they have found, and nothing is found beyond the end (`Stream.length_ahead_le`).
Both ask for a position inside the stream to begin with, which is the invariant.

## Main definitions

* `Script`, `Script.Operation`, `Script.run` — what drives a stream
* `Script.visits` — the states that a stream and its parts go through
* `Stream.IsWithin` — a stream with the bytes of another one, at a position inside

## Main results

* `Script.Operation.preserves_run`, `Script.preserves_run` — one step, and then a script
* `Reading.of_slice`, `Reading.of_slice_eq_error` — a part, and what cutting it out leaves
* `Script.isWithin_of_mem_visits`, `Script.stays_inside` — no step leads out of its stream
-/

namespace Packfile

open Run Reading

/-! ### Inside a stream -/

/-- The contents and the failures of the storage are those of `origin`, and the position is not
beyond the end. -/
structure Stream.IsWithin (origin s : Stream) : Prop where
  /-- The bytes are the same. -/
  bytes : s.bytes = origin.bytes
  /-- The storage fails where it did. -/
  failAt : s.failAt = origin.failAt
  /-- The next read starts inside, or at the end. -/
  inside : s.position ≤ s.length

namespace Stream.IsWithin

variable {origin s t : Stream} {k p : ℕ}

theorem refl (h : s.position ≤ s.length) : s.IsWithin s := ⟨rfl, rfl, h⟩

theorem of_start (h : s.position = 0) : s.IsWithin s := refl (h ▸ Nat.zero_le _)

theorem goto (h : origin.IsWithin s) (hp : p ≤ s.length) :
    origin.IsWithin { s with position := p } := ⟨h.bytes, h.failAt, hp⟩

/-- Behind what the storage delivers is still the stream. -/
theorem advance (h : origin.IsWithin s) (hk : k ≤ s.ahead.length) :
    origin.IsWithin (s.advance k) := by
  have hahead := s.length_ahead_le
  have hinside := h.inside
  rw [remaining] at hahead
  exact h.goto (by omega)

theorem exhausted (h : origin.IsWithin s) : origin.IsWithin s.exhausted := by
  unfold Stream.exhausted
  split
  · exact h.goto (Nat.le_refl _)
  · exact h.advance (Nat.le_refl _)

theorem length_eq (h : origin.IsWithin s) : s.length = origin.length :=
  congrArg List.length h.bytes

end Stream.IsWithin

/-! ### Scripts -/

/-- What a step answers. -/
inductive Script.Answer where
  /-- It has been done. -/
  | done
  /-- A number. -/
  | number (n : ℕ)
  /-- A byte order. -/
  | order (order : ByteOrder)
  /-- Bytes. -/
  | bytes (content : Bytes)
  /-- A text. -/
  | text (text : String)
  deriving DecidableEq, Repr

/-- The steps without a script inside. -/
inductive Script.Operation where
  /-- Asks for the position. -/
  | offset
  /-- Asks for the length. -/
  | length
  /-- Asks how much is left. -/
  | remaining
  /-- Asks for the byte order. -/
  | order
  /-- Changes the byte order. -/
  | setOrder (order : ByteOrder)
  /-- Moves to a position. -/
  | seek (position : ℕ)
  /-- Moves by a signed distance. -/
  | shift (distance : ℤ)
  /-- Moves forward. -/
  | skip (count : ℕ)
  /-- Checks a range. -/
  | checkRange (what : String) (start size : ℕ)
  /-- Reads a byte. -/
  | u8
  /-- Reads a 16-bit integer. -/
  | u16
  /-- Reads a 32-bit integer. -/
  | u32
  /-- Reads a 64-bit integer. -/
  | u64
  /-- Reads an integer in a stated order. -/
  | wordIn (order : ByteOrder) (width : ℕ)
  /-- Reads an integer of a width that is known at run time. -/
  | uint (width : ℕ) (order : ByteOrder)
  /-- Reads bytes. -/
  | bytes (count : ℕ)
  /-- Reads a text from a field. -/
  | fixedString (width : ℕ)
  /-- Reads bytes up to a zero. -/
  | terminatedBytes (limit : Option ℕ)
  /-- Reads a text up to a zero. -/
  | terminatedString (limit : Option ℕ)
  /-- Reads what one read of the storage delivers. -/
  | pull (count : ℕ)
  deriving DecidableEq, Repr

/-- The steps that stand around a script. -/
inductive Script.Block where
  /-- The position is put back in any case. -/
  | restoring
  /-- The fields of a record are read, and the position is put back if one cannot be read. -/
  | record
  deriving DecidableEq, Repr

/-- What drives a stream. -/
inductive Script where
  /-- Ends, with a value or an error. -/
  | done (result : Except Error Script.Answer)
  /-- Takes a step. -/
  | call (operation : Script.Operation) (next : Except Error Script.Answer → Script)
  /-- Runs a script inside a block. -/
  | block (kind : Script.Block) (body : Script) (next : Except Error Script.Answer → Script)
  /-- Cuts out a part and runs a script over it. -/
  | part (start size : ℕ) (body : Script) (next : Except Error Script.Answer → Script)

namespace Script

/-- What the library does at a step. -/
def Operation.run : Operation → Reader Answer
  | offset => return .number (← Reader.offset)
  | length => return .number (← Reader.length)
  | remaining => return .number (← Reader.remaining)
  | order => return .order (← Reader.order)
  | setOrder o => do Reader.setOrder o; return .done
  | seek position => do Reader.seek position; return .done
  | shift distance => do Reader.shift distance; return .done
  | skip count => do Reader.skip count; return .done
  | checkRange what start size => do Reader.checkRange what start size; return .done
  | u8 => return .number (← Reader.u8)
  | u16 => return .number (← Reader.u16)
  | u32 => return .number (← Reader.u32)
  | u64 => return .number (← Reader.u64)
  | wordIn o width => return .number (← Reader.wordIn o width)
  | uint width o => return .number (← Reader.uint width o)
  | bytes count => return .bytes (← Reader.bytes count)
  | fixedString width => return .text (← Reader.fixedString width)
  | terminatedBytes limit => return .bytes (← Reader.terminatedBytes limit)
  | terminatedString limit => return .text (← Reader.terminatedString limit)
  | pull count => return .bytes (← Reader.pull count)

/-- What the library does around a script. -/
def Block.around : Block → Reader Answer → Reader Answer
  | restoring, body => Reader.restoring body
  | record, body => Reader.asRecord body

/-- Goes on after a success and after a failure. -/
def andThen {α β : Type} (body : Reader α) (next : Except Error α → Reader β) : Reader β :=
  fun s => next (body.outcome s).1 (after body s)

/-- What the library does in a script. -/
def run : Script → Reader Answer
  | done result => Reader.ofExcept result
  | call operation next => andThen operation.run fun result => (next result).run
  | block kind body next => andThen (kind.around body.run) fun result => (next result).run
  | part start size body next => andThen (Reader.slice start size) fun
    | .ok inner => (next (body.run.outcome inner).1).run
    | .error e => (next (.error e)).run

/-- The states after each step of a script, each of them with the stream that it is a state of: the
stream of the script itself, or one of its parts, or a part of a part. -/
def visits (origin : Stream) : Script → Stream → List (Stream × Stream)
  | done _, _ => []
  | call operation next, s =>
    (origin, after operation.run s)
      :: (next (operation.run.outcome s).1).visits origin (after operation.run s)
  | block kind body next, s =>
    body.visits origin s ++ (origin, after (kind.around body.run) s)
      :: (next ((kind.around body.run).outcome s).1).visits origin
        (after (kind.around body.run) s)
  | part start size body next, s =>
    (origin, after (Reader.slice start size) s) ::
      match ((Reader.slice start size).outcome s).1 with
      | .ok inner => (inner, inner) :: body.visits inner inner
        ++ (next (body.run.outcome inner).1).visits origin (after (Reader.slice start size) s)
      | .error e => (next (.error e)).visits origin (after (Reader.slice start size) s)

end Script

/-! ### Single steps -/

namespace Reading

variable {α β : Type} {origin s t : Stream} {k p start size : ℕ} {e : Error} {u : Unit}

theorem preserves_of_keeps {body : Reader α} (h : Keeps id body) :
    Preserves origin.IsWithin body := h.preserves origin.IsWithin

theorem of_seek_eq_error (h : Reader.seek p s = .error e t) : t = s := by
  rw [seek_eq] at h
  split at h <;> cases h
  rfl

theorem preserves_seek (p : ℕ) : Preserves origin.IsWithin (Reader.seek p) := by
  intro s hs
  rw [after, seek_eq]
  split_ifs with hp
  · exact hs
  · exact hs.goto (by omega)

/-- A signed move either has no target or is a move to its target. -/
theorem shift_eq (d : ℤ) (s : Stream) : Reader.shift d s =
    match Word.shift? s.position d with
    | none => .error (.exceeds "relative seek" s.position s.length) s
    | some target => Reader.seek target s := by
  rw [Reader.shift, bind_of_ok (offset_eq_ok.mpr ⟨rfl, rfl⟩)]
  cases Word.shift? s.position d <;> rfl

theorem of_shift_eq_error {d : ℤ} (h : Reader.shift d s = .error e t) : t = s := by
  rw [shift_eq] at h
  split at h
  · cases h
    rfl
  · exact of_seek_eq_error h

theorem preserves_shift (d : ℤ) : Preserves origin.IsWithin (Reader.shift d) := by
  intro s hs
  rw [after, shift_eq]
  cases Word.shift? s.position d with
  | none => exact hs
  | some target => exact preserves_seek target s hs

theorem of_skip_eq_error (h : Reader.skip k s = .error e t) : t = s := of_seek_eq_error h

theorem preserves_skip (k : ℕ) : Preserves origin.IsWithin (Reader.skip k) :=
  fun s hs => preserves_seek (Word.satAdd s.position k) s hs

theorem of_checkRange_eq_error {what : String}
    (h : Reader.checkRange what start size s = .error e t) : t = s := by
  have hkeeps : id (after (Reader.checkRange what start size) s) = id s := keeps_checkRange _ _ _ s
  rwa [after, h] at hkeeps

/-- A read that asks for more than is left is refused before anything is read. -/
theorem bytes_of_lt (h : s.remaining < k) :
    Reader.bytes k s = .error (.exceeds "read length" k s.remaining) s := by
  rw [Reader.bytes, bind_of_ok (remaining_eq_ok.mpr ⟨rfl, rfl⟩), if_pos h]
  rfl

/-- A read that is cut short has consumed all that it could get. -/
theorem of_exactly_eq_error (h : Reader.exactly k s = .error e t) :
    s.ahead.length < k ∧ t = s.exhausted := by
  unfold Reader.exactly at h
  dsimp only at h
  rw [List.length_take] at h
  split_ifs at h <;> cases h <;> exact ⟨by omega, rfl⟩

/-- Bytes are refused, or the storage fails behind some of them. -/
theorem of_bytes_eq_error (h : Reader.bytes k s = .error e t) :
    (s.remaining < k ∧ t = s) ∨
      (s.failAt.isSome ∧ s.ahead.length < k ∧ t = s.advance s.ahead.length) := by
  by_cases hk : s.remaining < k
  · rw [bytes_of_lt hk] at h
    cases h
    exact .inl ⟨hk, rfl⟩
  · rw [Reader.bytes, bind_of_ok (remaining_eq_ok.mpr ⟨rfl, rfl⟩), if_neg hk] at h
    obtain ⟨hshort, rfl⟩ := of_exactly_eq_error h
    cases hfail : s.failAt with
    | none =>
      rw [Stream.ahead, hfail, List.length_drop] at hshort
      rw [Stream.remaining, Stream.length] at hk
      omega
    | some limit => exact .inr ⟨rfl, hshort, by rw [Stream.exhausted, hfail]⟩

theorem preserves_exactly (k : ℕ) : Preserves origin.IsWithin (Reader.exactly k) := by
  intro s hs
  unfold after Reader.exactly
  dsimp only
  split_ifs with hfound
  · rw [List.length_take] at hfound
    exact hs.advance (by omega)
  · exact hs.exhausted
  · exact hs.exhausted

theorem preserves_wordIn (o : ByteOrder) (width : ℕ) :
    Preserves origin.IsWithin (Reader.wordIn o width) :=
  (preserves_exactly width).bind fun _ => preserves_of_keeps (keeps_pure _)

theorem preserves_inOrder (width : ℕ) :
    Preserves origin.IsWithin (do Reader.wordIn (← Reader.order) width) :=
  (preserves_of_keeps keeps_order).bind fun _ => preserves_wordIn _ _

theorem preserves_uint (width : ℕ) (o : ByteOrder) :
    Preserves origin.IsWithin (Reader.uint width o) := by
  unfold Reader.uint
  split
  · exact preserves_wordIn _ _
  · exact preserves_of_keeps (keeps_throw _)

theorem preserves_bytes (k : ℕ) : Preserves origin.IsWithin (Reader.bytes k) := by
  refine (preserves_of_keeps keeps_remaining).bind fun left => ?_
  dsimp only
  split
  · exact preserves_of_keeps fun _ => rfl
  · exact preserves_exactly k

theorem preserves_fixedString (width : ℕ) :
    Preserves origin.IsWithin (Reader.fixedString width) := by
  rw [fixedString_eq]
  exact (preserves_bytes width).bind fun _ => preserves_of_keeps (keeps_pure _)

theorem preserves_terminatedBytes (limit : Option ℕ) :
    Preserves origin.IsWithin (Reader.terminatedBytes limit) := by
  intro s hs
  have hfound : ∀ window : Bytes, (Reader.beforeZero window).length ≤ window.length :=
    fun window => (List.takeWhile_sublist _).length_le
  unfold after Reader.terminatedBytes
  cases limit with
  | none =>
    have := hfound s.ahead
    dsimp only
    split_ifs
    · exact hs.advance (by omega)
    · exact hs.advance (by omega)
    · exact (hs.advance (by omega)).exhausted
    · exact (hs.advance (by omega)).exhausted
  | some l =>
    have := hfound (s.ahead.take l)
    have := List.length_take_le' l s.ahead
    dsimp only
    split_ifs
    · exact hs.advance (by omega)
    · exact hs.advance (by omega)
    · exact (hs.advance (by omega)).exhausted
    · exact (hs.advance (by omega)).exhausted

theorem preserves_pull (k : ℕ) : Preserves origin.IsWithin (Reader.pull k) := by
  intro s hs
  unfold after Reader.pull
  dsimp only
  split_ifs
  · exact hs
  · exact hs.advance (List.length_take_le' _ _)

/-! ### Blocks, records and parts -/

theorem after_restoring (body : Reader α) (s : Stream) :
    after (Reader.restoring body) s = { after body s with position := s.position } := by
  unfold after Reader.restoring
  cases body s <;> rfl

/-- A block goes back to where it started, and what it did to the stream besides is that of its
body. -/
theorem preserves_restoring {body : Reader α} (h : Preserves origin.IsWithin body) :
    Preserves origin.IsWithin (Reader.restoring body) := by
  intro s hs
  have hlength : s.length = (after body s).length := hs.length_eq.trans (h s hs).length_eq.symm
  rw [after_restoring]
  exact (h s hs).goto (hlength ▸ hs.inside)

theorem after_asRecord (body : Reader α) (s : Stream) :
    after (Reader.asRecord body) s = after body s ∨
      after (Reader.asRecord body) s = { after body s with position := s.position } := by
  unfold after Reader.asRecord
  cases body s with
  | ok a t => exact .inl rfl
  | error e t => cases e <;> exact .inr rfl

theorem preserves_asRecord {body : Reader α} (h : Preserves origin.IsWithin body) :
    Preserves origin.IsWithin (Reader.asRecord body) := by
  intro s hs
  rcases after_asRecord body s with hafter | hafter
  · rw [hafter]
    exact h s hs
  · rw [hafter, ← after_restoring]
    exact preserves_restoring h s hs

/-- A part holds the bytes of its range, at its start, and does not fail. The stream that it was cut
out of has moved to the end of the range. -/
theorem of_slice {inner : Stream} (h : Reader.slice start size s = .ok inner t) :
    start + size ≤ s.length ∧
      inner = { bytes := (s.bytes.drop start).take size, order := s.order } ∧
        t = { s with position := start + size } := by
  simp only [Reader.slice, bind_eq_ok, checkRange_eq_ok, seek_eq_ok, bytes_eq_ok, order_eq_ok,
    pure_eq_ok] at h
  obtain ⟨-, _, ⟨hrange, -, rfl⟩, -, _, ⟨-, rfl⟩, _, _, ⟨hlength, rfl, rfl⟩, _, _, ⟨rfl, rfl⟩, rfl,
    rfl⟩ := h
  exact ⟨hrange, by rw [Stream.take_ahead hlength]; rfl, rfl⟩

/-- If there is no part, the stream has not moved, or the storage failed inside the range and the
stream is inside the range. -/
theorem of_slice_eq_error (h : Reader.slice start size s = .error e t) : t = s ∨ ∃ k < size,
    start + size ≤ s.length ∧ s.failAt.isSome ∧ t = { s with position := start + k } := by
  rw [Reader.slice] at h
  rcases bind_eq_error.mp h with hcheck | ⟨_, u, hcheck, hrest⟩
  · exact .inl (of_checkRange_eq_error hcheck)
  obtain ⟨hrange, -, rfl⟩ := checkRange_eq_ok.mp hcheck
  rcases bind_eq_error.mp hrest with hseek | ⟨_, v, hseek, hread⟩
  · exact .inl (of_seek_eq_error hseek)
  obtain ⟨-, rfl⟩ := seek_eq_ok.mp hseek
  rcases bind_eq_error.mp hread with hbytes | ⟨_, w, -, hend⟩
  -- the range has been checked, so that its bytes are not refused for their number
  · rcases of_bytes_eq_error hbytes with ⟨hleft, -⟩ | ⟨hfail, hshort, rfl⟩
    · simp only [Stream.remaining, Stream.length] at hleft hrange
      omega
    · exact .inr ⟨_, hshort, hrange, hfail, rfl⟩
  · cases hend

theorem preserves_slice (start size : ℕ) : Preserves origin.IsWithin (Reader.slice start size) :=
  (preserves_of_keeps (keeps_checkRange _ _ _)).bind fun _ => (preserves_seek start).bind fun _ =>
    (preserves_bytes size).bind fun _ => (preserves_of_keeps keeps_order).bind fun _ =>
      preserves_of_keeps (keeps_pure _)

end Reading

namespace Script

variable {origin s : Stream} {α β : Type}

/-- **One step.** No operation leads out of the stream. -/
theorem Operation.preserves_run (operation : Operation) :
    Preserves origin.IsWithin operation.run := by
  have hanswer : ∀ {α : Type} {body : Reader α} (f : α → Answer), Preserves origin.IsWithin body →
      Preserves origin.IsWithin (body >>= fun a => pure (f a)) :=
    fun f h => h.bind fun _ => preserves_of_keeps (keeps_pure _)
  cases operation with
  | offset => exact hanswer _ (preserves_of_keeps keeps_offset)
  | length => exact hanswer _ (preserves_of_keeps keeps_length)
  | remaining => exact hanswer _ (preserves_of_keeps keeps_remaining)
  | order => exact hanswer _ (preserves_of_keeps keeps_order)
  | setOrder o => exact hanswer _ fun s hs => ⟨hs.bytes, hs.failAt, hs.inside⟩
  | seek p => exact hanswer _ (preserves_seek p)
  | shift d => exact hanswer _ (preserves_shift d)
  | skip k => exact hanswer _ (preserves_skip k)
  | checkRange what start size => exact hanswer _ (preserves_of_keeps (keeps_checkRange _ _ _))
  | u8 => exact hanswer _ (preserves_wordIn _ _)
  | u16 => exact hanswer _ (preserves_inOrder 2)
  | u32 => exact hanswer _ (preserves_inOrder 4)
  | u64 => exact hanswer _ (preserves_inOrder 8)
  | wordIn o width => exact hanswer _ (preserves_wordIn o width)
  | uint width o => exact hanswer _ (preserves_uint width o)
  | bytes k => exact hanswer _ (preserves_bytes k)
  | fixedString width => exact hanswer _ (preserves_fixedString width)
  | terminatedBytes limit => exact hanswer _ (preserves_terminatedBytes limit)
  | terminatedString limit =>
    exact hanswer _ ((preserves_terminatedBytes limit).bind fun _ =>
      preserves_of_keeps (keeps_pure _))
  | pull k => exact hanswer _ (preserves_pull k)

theorem Block.preserves_around (kind : Block) {body : Reader Answer}
    (h : Preserves origin.IsWithin body) : Preserves origin.IsWithin (kind.around body) := by
  cases kind with
  | restoring => exact preserves_restoring h
  | record => exact preserves_asRecord h

theorem preserves_andThen {body : Reader α} {next : Except Error α → Reader β}
    (hbody : Preserves origin.IsWithin body)
    (hnext : ∀ result, Preserves origin.IsWithin (next result)) :
    Preserves origin.IsWithin (andThen body next) :=
  fun s hs => hnext _ _ (hbody s hs)

/-- A script leaves its stream inside, whatever it has done. -/
theorem preserves_run (script : Script) : Preserves origin.IsWithin script.run := by
  induction script generalizing origin with
  | done result => exact preserves_of_keeps (keeps_ofExcept _)
  | call operation next ih => exact preserves_andThen operation.preserves_run fun _ => ih _
  | block kind body next hbody ih =>
    exact preserves_andThen (kind.preserves_around hbody) fun _ => ih _
  | part start size body next _ ih =>
    rw [run]
    refine preserves_andThen (preserves_slice start size) fun result => ?_
    cases result with
    | ok inner => exact ih _
    | error e => exact ih _

/-- **A run.** After each of its steps a script is inside its stream, and so is the script of a
part, a block or a record in it. -/
theorem isWithin_of_mem_visits (script : Script) (hs : origin.IsWithin s) :
    ∀ visit ∈ script.visits origin s, visit.1.IsWithin visit.2 := by
  induction script generalizing origin s with
  | done result => exact fun _ h => absurd h List.not_mem_nil
  | call operation next ih =>
    have hstep := operation.preserves_run s hs
    rintro visit (_ | ⟨_, h⟩)
    · exact hstep
    · exact ih _ hstep visit h
  | block kind body next hbody ih =>
    have hstep := kind.preserves_around body.preserves_run s hs
    intro visit h
    rcases List.mem_append.mp h with hin | (_ | ⟨_, hbehind⟩)
    · exact hbody hs visit hin
    · exact hstep
    · exact ih _ hstep visit hbehind
  | part start size body next hbody ih =>
    have hstep := preserves_slice start size s hs
    intro visit h
    rw [visits] at h
    rcases List.mem_cons.mp h with rfl | h
    · exact hstep
    cases hresult : ((Reader.slice start size).outcome s).1 with
    | ok inner =>
      rw [hresult] at h
      obtain ⟨t, hslice⟩ := Reader.outcome_eq_ok.mp hresult
      obtain ⟨-, rfl, -⟩ := of_slice hslice
      -- the part is the origin of what its script visits
      have hinner := Stream.IsWithin.of_start
        (s := { bytes := (s.bytes.drop start).take size, order := s.order }) rfl
      rcases List.mem_append.mp h with (_ | ⟨_, hin⟩) | hbehind
      · exact hinner
      · exact hbody hinner visit hin
      · exact ih _ hstep visit hbehind
    | error e =>
      rw [hresult] at h
      exact ih _ hstep visit h

/-- **No step leads out of the stream.** A script starts at a position inside its stream, on storage
that may fail from some position on. After each step, also inside blocks and parts, the position is
at most the length, and the bytes are what they were. A move or a check that fails does not move,
and neither does a read that asks for more than is left. A block that restores the position does so
whatever is in it. A part holds exactly the bytes of its range, and whatever its script does, the
outer script goes on at the end of the range, with nothing else changed. -/
theorem stays_inside (script : Script) {s : Stream} (hs : s.position ≤ s.length) :
    (∀ visit ∈ script.visits s s, visit.1.IsWithin visit.2) ∧
    s.IsWithin (after script.run s) ∧
    (∀ p t e u, Reader.seek p t = .error e u → u = t) ∧
    (∀ d t e u, Reader.shift d t = .error e u → u = t) ∧
    (∀ k t e u, Reader.skip k t = .error e u → u = t) ∧
    (∀ what start size t e u, Reader.checkRange what start size t = .error e u → u = t) ∧
    (∀ k t, t.remaining < k →
      Reader.bytes k t = .error (.exceeds "read length" k t.remaining) t) ∧
    (∀ {α : Type} (body : Reader α) t, (after (Reader.restoring body) t).position = t.position) ∧
    (∀ start size t inner u, Reader.slice start size t = .ok inner u → start + size ≤ t.length ∧
      inner = { bytes := (t.bytes.drop start).take size, order := t.order } ∧
      ∀ body next, (part start size body next).run t
        = (next (body.run.outcome inner).1).run { t with position := start + size }) ∧
    (∀ start size t e u, Reader.slice start size t = .error e u → u = t ∨ ∃ k < size,
      start + size ≤ t.length ∧ t.failAt.isSome ∧ u = { t with position := start + k }) := by
  have hwithin := Stream.IsWithin.refl hs
  refine ⟨script.isWithin_of_mem_visits hwithin, script.preserves_run s hwithin,
    fun _ _ _ _ => of_seek_eq_error, fun _ _ _ _ => of_shift_eq_error,
    fun _ _ _ _ => of_skip_eq_error, fun _ _ _ _ _ _ => of_checkRange_eq_error,
    fun _ _ => bytes_of_lt, fun body t => by rw [after_restoring], ?_,
    fun _ _ _ _ _ => of_slice_eq_error⟩
  intro start size t inner u hslice
  obtain ⟨hrange, hinner, rfl⟩ := of_slice hslice
  refine ⟨hrange, hinner, fun body next => ?_⟩
  rw [run, andThen, after_of_ok hslice, Reader.outcome_eq_ok.mpr ⟨_, hslice⟩]

/-- Six bytes on storage that fails at the last of them. -/
def shakyStream : Stream := { bytes := [1, 2, 3, 4, 5, 6], failAt := some 5 }

/-- A script that goes wrong wherever it can. In a block it skips too far, reads an integer that is
longer than its part, moves in front of the start of the part, and reads the byte that cannot be
had. Behind the block it asks for more than is left. -/
def tour : Script :=
  .call (.seek 1) fun _ =>
    .block .restoring
      (.call (.skip 100) fun _ =>
        .part 1 4 (.call .u64 fun _ => .call (.shift (-9)) fun result => .done result) fun _ =>
          .call (.bytes 1) fun result => .done result)
      fun _ => .call (.bytes 6) fun result => .done result

/-- Where the steps of the tour lead, in the stream and in its part of four bytes. -/
theorem stays_inside_tour :
    (tour.visits shakyStream shakyStream).map (fun visit => (visit.1.length, visit.2.position))
      = [(6, 1), (6, 1), (6, 5), (4, 0), (4, 4), (4, 4), (6, 5), (6, 1), (6, 1)] ∧
    ∀ visit ∈ tour.visits shakyStream shakyStream, visit.1.IsWithin visit.2 :=
  ⟨by decide +kernel, (stays_inside tour (s := shakyStream) (Nat.zero_le 6)).1⟩

end Script

end Packfile
