import Mathlib.Tactic.SplitIfs
import Packfile.Proofs.Integers
import Packfile.Proofs.Runs
import Packfile.Walk.Count

/-!
# What single reads do

One lemma for each of the operations that the decoders are made of, saying exactly when it succeeds,
what it yields and where it leaves the stream. All of them speak of `Stream.ahead`, the bytes that
the storage can still deliver, so a field is read by splitting it off the front of `ahead`.

`Stream.source` is everything about a stream but its position, and no read changes it.

## Main definitions

* `Stream.source`, `Session.input` — what readers and decoders leave alone
* `Stream.IsOver` — a healthy little-endian stream over given bytes, at any position

## Main results

* `Reader.fst_outcome_mapM` — a read for each element of a list
* `Reading.exactly_eq_ok`, `wordIn_eq_ok`, `bytes_eq_ok`, `seek_eq_ok`, `checkRange_eq_ok`
* `Reading.liftReader_eq_ok`, `checkCount_eq_ok` — steps of a decode
* `Reading.keeps_exactly`, `Reading.ensures_checkRange` and their kin
-/

namespace Packfile

namespace Stream

/-- Everything about a stream but its position. -/
def source (s : Stream) : Bytes × ByteOrder × Option Nat := (s.bytes, s.order, s.failAt)

/-- The stream holds `bytes`, on storage that does not fail, and its integers are little-endian. Its
position may be anywhere. -/
structure IsOver (s : Stream) (bytes : Bytes) : Prop where
  /-- The contents. -/
  holds : s.bytes = bytes
  /-- The storage does not fail. -/
  healthy : s.failAt = none
  /-- Integers are little-endian. -/
  little : s.order = .little

variable {s t : Stream} {bytes : Bytes} {p k l : ℕ}

theorem isOver_ofBytes (bytes : Bytes) : (ofBytes bytes).IsOver bytes := ⟨rfl, rfl, rfl⟩

theorem IsOver.of_source (h : s.IsOver bytes) (hst : t.source = s.source) : t.IsOver bytes := by
  simp only [source, Prod.mk.injEq] at hst
  exact ⟨hst.1.trans h.holds, hst.2.2.trans h.healthy, hst.2.1.trans h.little⟩

theorem IsOver.source_eq (h : s.IsOver bytes) : s.source = (bytes, .little, none) := by
  rw [source, h.holds, h.little, h.healthy]

theorem IsOver.length_eq (h : s.IsOver bytes) : s.length = bytes.length := by
  rw [length, h.holds]

theorem IsOver.ahead_eq (h : s.IsOver bytes) : s.ahead = bytes.drop s.position := by
  rw [ahead, h.healthy, h.holds]

/-- A range of the stream holds as many bytes as it is said to. -/
theorem length_range (h : p + k ≤ s.length) : ((s.bytes.drop p).take k).length = k := by
  rw [length] at h
  rw [List.length_take, List.length_drop]
  omega

@[simp] theorem length_advance : (s.advance k).length = s.length := rfl

@[simp] theorem position_advance : (s.advance k).position = s.position + k := rfl

theorem advance_advance : (s.advance k).advance l = s.advance (k + l) := by
  simp [advance, Nat.add_assoc]

@[simp] theorem advance_zero : s.advance 0 = s := rfl

theorem isOver_advance (h : s.IsOver bytes) : (s.advance k).IsOver bytes := h.of_source rfl

theorem isOver_goto (h : s.IsOver bytes) : ({ s with position := p } : Stream).IsOver bytes :=
  h.of_source rfl

/-- At its start, a stream over bytes is the one that is made of them. -/
theorem eq_ofBytes_of_isOver (h : s.IsOver bytes) :
    ({ s with position := 0 } : Stream) = .ofBytes bytes := by
  rw [Stream.ofBytes, ← h.holds, ← h.little, ← h.healthy]

/-- Reading takes bytes off the front of what is ahead. -/
@[simp] theorem ahead_advance : (s.advance k).ahead = s.ahead.drop k := by
  cases h : s.failAt with
  | none => simp [ahead, advance, h, List.drop_drop]
  | some limit =>
    simp only [ahead, advance, h, List.drop_take, List.drop_drop]
    congr 1
    omega

theorem source_exhausted (s : Stream) : s.exhausted.source = s.source := by
  unfold exhausted
  split <;> rfl

theorem length_ahead_le : s.ahead.length ≤ s.remaining := by
  cases h : s.failAt with
  | none => simp [ahead, remaining, length, h]
  | some limit =>
    simp only [ahead, remaining, length, h, List.length_take, List.length_drop]
    omega

end Stream

namespace Session

/-- What a decode leaves alone: the stream up to its position, what the caller allows, and the
files. -/
def input (t : Session) : (Bytes × ByteOrder × Option Nat) × Options × FileTree :=
  (t.stream.source, t.context.options, t.files)

theorem source_of_input {t u : Session} (h : u.input = t.input) :
    u.stream.source = t.stream.source := congrArg Prod.fst h

theorem input_of_source (t : Session) {s : Stream} (h : s.source = t.stream.source) :
    ({ t with stream := s } : Session).input = t.input := by
  simp [input, h]

end Session

theorem Reader.outcome_eq_ok {α : Type} {body : Reader α} {s : Stream} {a : α} :
    (body.outcome s).1 = .ok a ↔ ∃ t, body s = .ok a t := by
  rw [Reader.outcome]
  cases body s <;> simp

theorem Reader.outcome_eq_error {α : Type} {body : Reader α} {s : Stream} {e : Error} :
    (body.outcome s).1 = .error e ↔ ∃ t, body s = .error e t := by
  rw [Reader.outcome]
  cases body s <;> simp

open Run in
/-- Reads whose results do not depend on the states that they leave come, one after the other, to
their results one after the other. -/
theorem Reader.fst_outcome_mapM {α β : Type} {body : α → Reader β} {f : α → Except Error β}
    {P : Stream → Prop} {s : Stream} {xs : List α}
    (hf : ∀ x ∈ xs, ∀ t, P t → ((body x).outcome t).1 = f x)
    (hP : ∀ x ∈ xs, Preserves P (body x)) (hs : P s) :
    ((xs.mapM body).outcome s).1 = xs.mapM f := by
  induction xs generalizing s with
  | nil => rfl
  | cons x xs ih =>
    rw [List.mapM_cons, List.mapM_cons, ← hf x List.mem_cons_self s hs]
    cases hbody : body x s with
    | error e t =>
      rw [Reader.outcome, Reader.outcome, bind_of_error hbody, hbody]
      rfl
    | ok b t =>
      have ht : P t := by
        rw [← after_of_ok hbody]
        exact hP x List.mem_cons_self s hs
      have hrest := ih (fun y hy => hf y (List.mem_cons_of_mem _ hy))
        (fun y hy => hP y (List.mem_cons_of_mem _ hy)) ht
      rw [← hrest, Reader.outcome, Reader.outcome, Reader.outcome, bind_of_ok hbody, hbody]
      cases hxs : xs.mapM body t with
      | error e u =>
        rw [bind_of_error hxs]
        rfl
      | ok bs u =>
        rw [bind_of_ok hxs]
        rfl

namespace Reading

open Run

variable {α : Type} {s t : Stream} {order : ByteOrder} {p k n start size : ℕ} {b : Bytes} {u : Unit}

/-! ### Results without reading -/

theorem ofExcept_eq_ok {result : Except Error α} {a : α} :
    Reader.ofExcept result s = .ok a t ↔ result = .ok a ∧ t = s := by
  cases result <;> simp [Reader.ofExcept, eq_comm]

theorem ofExcept_eq_error {result : Except Error α} {e : Error} :
    Reader.ofExcept result s = .error e t ↔ result = .error e ∧ t = s := by
  cases result <;> simp [Reader.ofExcept, eq_comm]

theorem liftExcept_eq_ok {result : Except Error α} {a : α} :
    (liftM result : Reader α) s = .ok a t ↔ result = .ok a ∧ t = s := ofExcept_eq_ok

theorem offset_eq_ok : Reader.offset s = .ok n t ↔ n = s.position ∧ t = s := by
  simp only [Reader.offset, bind_eq_ok, get_eq_ok, pure_eq_ok]
  exact ⟨fun ⟨_, _, ⟨rfl, rfl⟩, hn, ht⟩ => ⟨hn, ht⟩, fun ⟨hn, ht⟩ => ⟨s, s, ⟨rfl, rfl⟩, hn, ht⟩⟩

theorem length_eq_ok : Reader.length s = .ok n t ↔ n = s.length ∧ t = s := by
  simp only [Reader.length, bind_eq_ok, get_eq_ok, pure_eq_ok]
  exact ⟨fun ⟨_, _, ⟨rfl, rfl⟩, hn, ht⟩ => ⟨hn, ht⟩, fun ⟨hn, ht⟩ => ⟨s, s, ⟨rfl, rfl⟩, hn, ht⟩⟩

theorem remaining_eq_ok : Reader.remaining s = .ok n t ↔ n = s.remaining ∧ t = s := by
  simp only [Reader.remaining, bind_eq_ok, get_eq_ok, pure_eq_ok]
  exact ⟨fun ⟨_, _, ⟨rfl, rfl⟩, hn, ht⟩ => ⟨hn, ht⟩, fun ⟨hn, ht⟩ => ⟨s, s, ⟨rfl, rfl⟩, hn, ht⟩⟩

theorem order_eq_ok : Reader.order s = .ok order t ↔ order = s.order ∧ t = s := by
  simp only [Reader.order, bind_eq_ok, get_eq_ok, pure_eq_ok]
  exact ⟨fun ⟨_, _, ⟨rfl, rfl⟩, hn, ht⟩ => ⟨hn, ht⟩, fun ⟨hn, ht⟩ => ⟨s, s, ⟨rfl, rfl⟩, hn, ht⟩⟩

/-! ### Moving -/

theorem seek_eq (p : ℕ) (s : Stream) : Reader.seek p s =
    if s.length < p then .error (.exceeds "seek offset" p s.length) s
    else .ok () { s with position := p } := by
  rw [Reader.seek, bind_of_ok (length_eq_ok.mpr ⟨rfl, rfl⟩)]
  split <;> rfl

theorem seek_eq_ok :
    Reader.seek p s = .ok u t ↔ p ≤ s.length ∧ t = { s with position := p } := by
  rw [seek_eq]
  split
  · constructor
    · intro h
      cases h
    · rintro ⟨hp, -⟩
      omega
  · constructor
    · intro h
      cases h
      exact ⟨by omega, rfl⟩
    · rintro ⟨-, rfl⟩
      rfl

theorem skip_eq_ok :
    Reader.skip k s = .ok u t ↔ Word.satAdd s.position k ≤ s.length ∧
      t = { s with position := Word.satAdd s.position k } := by
  simp only [Reader.skip, bind_eq_ok, offset_eq_ok]
  constructor
  · rintro ⟨_, _, ⟨rfl, rfl⟩, h⟩
    exact seek_eq_ok.mp h
  · intro h
    exact ⟨_, _, ⟨rfl, rfl⟩, seek_eq_ok.mpr h⟩

theorem inRange_iff {length : ℕ} :
    Reader.inRange length start size = true ↔ start + size ≤ length ∧ start + size ≤ Word.max := by
  rw [Reader.inRange]
  cases h : Word.add? start size with
  | some stop =>
    obtain ⟨rfl, hmax⟩ := Word.add?_eq_some.mp h
    simp [hmax]
  | none =>
    have hmax : ¬ start + size ≤ Word.max := by
      intro hle
      simp [Word.add?, hle] at h
    simp [hmax]

theorem checkRange_eq_ok {what : String} :
    Reader.checkRange what start size s = .ok u t ↔
      start + size ≤ s.length ∧ start + size ≤ Word.max ∧ t = s := by
  simp only [Reader.checkRange, bind_eq_ok, length_eq_ok]
  constructor
  · rintro ⟨_, s, ⟨rfl, rfl⟩, h⟩
    cases hr : Reader.inRange s.length start size with
    | false => simp [hr, throw_eq_ok] at h
    | true =>
      simp only [hr, Bool.not_true, Bool.false_eq_true, if_false, pure_eq_ok] at h
      exact ⟨(inRange_iff.mp hr).1, (inRange_iff.mp hr).2, h.2⟩
  · rintro ⟨hlen, hmax, rfl⟩
    refine ⟨_, _, ⟨rfl, rfl⟩, ?_⟩
    simp [inRange_iff.mpr ⟨hlen, hmax⟩, pure_eq_ok]

/-! ### Reading -/

theorem exactly_eq_ok :
    Reader.exactly k s = .ok b t ↔
      k ≤ s.ahead.length ∧ b = s.ahead.take k ∧ t = s.advance k := by
  by_cases hk : k ≤ s.ahead.length
  · simp [Reader.exactly, hk, eq_comm]
  · simp only [Reader.exactly, List.length_take]
    rw [if_neg (by omega)]
    split <;> simp [hk]

theorem wordIn_eq_ok {w : ℕ} :
    Reader.wordIn order w s = .ok n t ↔
      w ≤ s.ahead.length ∧ n = order.decode (s.ahead.take w) ∧ t = s.advance w := by
  simp only [Reader.wordIn, bind_eq_ok, exactly_eq_ok, pure_eq_ok]
  constructor
  · rintro ⟨_, _, ⟨hw, rfl, rfl⟩, rfl, rfl⟩
    exact ⟨hw, rfl, rfl⟩
  · rintro ⟨hw, rfl, rfl⟩
    exact ⟨_, _, ⟨hw, rfl, rfl⟩, rfl, rfl⟩

theorem u8_eq_ok :
    Reader.u8 s = .ok n t ↔
      1 ≤ s.ahead.length ∧ n = ByteOrder.little.decode (s.ahead.take 1) ∧ t = s.advance 1 :=
  wordIn_eq_ok

theorem u16_eq_ok :
    Reader.u16 s = .ok n t ↔
      2 ≤ s.ahead.length ∧ n = s.order.decode (s.ahead.take 2) ∧ t = s.advance 2 := by
  simp only [Reader.u16, bind_eq_ok, order_eq_ok, wordIn_eq_ok]
  exact ⟨fun ⟨_, _, ⟨rfl, rfl⟩, h⟩ => h, fun h => ⟨_, _, ⟨rfl, rfl⟩, h⟩⟩

theorem u32_eq_ok :
    Reader.u32 s = .ok n t ↔
      4 ≤ s.ahead.length ∧ n = s.order.decode (s.ahead.take 4) ∧ t = s.advance 4 := by
  simp only [Reader.u32, bind_eq_ok, order_eq_ok, wordIn_eq_ok]
  exact ⟨fun ⟨_, _, ⟨rfl, rfl⟩, h⟩ => h, fun h => ⟨_, _, ⟨rfl, rfl⟩, h⟩⟩

theorem bytes_eq_ok :
    Reader.bytes k s = .ok b t ↔
      k ≤ s.ahead.length ∧ b = s.ahead.take k ∧ t = s.advance k := by
  simp only [Reader.bytes, bind_eq_ok, remaining_eq_ok]
  constructor
  · rintro ⟨_, _, ⟨rfl, rfl⟩, h⟩
    rw [guard_eq_ok] at h
    exact exactly_eq_ok.mp h.2
  · intro h
    refine ⟨_, _, ⟨rfl, rfl⟩, ?_⟩
    rw [guard_eq_ok]
    have := s.length_ahead_le
    exact ⟨by omega, exactly_eq_ok.mpr h⟩

/-- The part of a field before its first zero lies in the field. -/
theorem slice_zeroIndex (field : Bytes) :
    Checked.slice field 0 (Reader.zeroIndex field) = .ok (Reader.beforeZero field) := by
  have hindex : Reader.zeroIndex field = field.findIdx fun b => !(b != 0) := by
    unfold Reader.zeroIndex
    congr
    funext b
    cases h : b == 0 <;> simp [bne, h]
  have hle : Reader.zeroIndex field ≤ field.length := List.findIdx_le_length
  rw [Checked.slice_of_le (Nat.zero_le _) hle, List.drop_zero, Nat.sub_zero, hindex,
    Reader.beforeZero, List.takeWhile_eq_take_findIdx_not]

theorem fixedString_eq (width : ℕ) : Reader.fixedString width =
    Reader.bytes width >>= fun field => pure (Utf8.decode (Reader.beforeZero field)) := by
  unfold Reader.fixedString
  simp only [slice_zeroIndex]
  rfl

theorem fixedString_eq_ok {text : String} :
    Reader.fixedString k s = .ok text t ↔
      k ≤ s.ahead.length ∧ text = Utf8.decode (Reader.beforeZero (s.ahead.take k)) ∧
        t = s.advance k := by
  simp only [fixedString_eq, bind_eq_ok, bytes_eq_ok, pure_eq_ok]
  constructor
  · rintro ⟨_, _, ⟨hk, rfl, rfl⟩, rfl, rfl⟩
    exact ⟨hk, rfl, rfl⟩
  · rintro ⟨hk, rfl, rfl⟩
    exact ⟨_, _, ⟨hk, rfl, rfl⟩, rfl, rfl⟩

/-- An integer is bounded by the width of its field. -/
theorem lt_of_wordIn {w : ℕ} (h : Reader.wordIn order w s = .ok n t) : n < 256 ^ w := by
  obtain ⟨hlen, rfl, -⟩ := wordIn_eq_ok.mp h
  have := ByteOrder.decode_lt order (s.ahead.take w)
  rwa [List.length_take, Nat.min_eq_left hlen] at this

theorem lt_of_uint {w : ℕ} (h : Reader.uint w order s = .ok n t) : n < 256 ^ w := by
  rw [Reader.uint] at h
  split at h
  · exact lt_of_wordIn h
  · exact (throw_eq_ok.mp h).elim

/-- An integer of four bytes is below `2 ^ 32`. -/
theorem lt_of_u32 (h : Reader.u32 s = .ok n t) : n < 2 ^ 32 := by
  simp only [Reader.u32, bind_eq_ok] at h
  obtain ⟨_, _, -, h⟩ := h
  exact lt_of_wordIn h

/-- A little-endian integer in front of what is ahead is read. -/
theorem u32_of_ahead {rest : Bytes} (horder : s.order = .little) (hn : n < 2 ^ 32)
    (h : s.ahead = ByteOrder.little.encode 4 n ++ rest) : Reader.u32 s = .ok n (s.advance 4) := by
  rw [u32_eq_ok, h, horder]
  refine ⟨by simp, ?_, rfl⟩
  rw [List.take_left' (ByteOrder.length_encode _ _ _)]
  exact (ByteOrder.decode_encode _ hn).symm

/-- Behind an integer is what followed it. -/
theorem ahead_of_word {w : ℕ} {rest : Bytes} (h : s.ahead = order.encode w n ++ rest) :
    (s.advance w).ahead = rest := by
  rw [Stream.ahead_advance, h, List.drop_left' (ByteOrder.length_encode _ _ _)]

/-! ### Records -/

theorem asRecord_eq_ok {body : Reader α} {a : α} :
    Reader.asRecord body s = .ok a t ↔ body s = .ok a t := by
  rw [Reader.asRecord]
  cases body s with
  | ok b u => exact Iff.rfl
  | error e u => cases e <;> simp

/-! ### Steps of a decode -/

variable {x y : Session}

theorem ofReader_eq_ok {body : Reader α} {a : α} :
    Decode.ofReader body x = .ok a y ↔ ∃ t, body x.stream = .ok a t ∧ y = { x with stream := t } := by
  rw [Decode.ofReader]
  cases h : body x.stream with
  | ok a' t =>
    constructor
    · intro hy
      cases hy
      exact ⟨t, rfl, rfl⟩
    · rintro ⟨_, hb, rfl⟩
      cases hb
      rfl
  | error e t => simp

theorem liftReader_eq_ok {body : Reader α} {a : α} :
    (liftM body : Decode α) x = .ok a y ↔
      ∃ t, body x.stream = .ok a t ∧ y = { x with stream := t } := ofReader_eq_ok

theorem liftOffset_eq_ok :
    (liftM Reader.offset : Decode ℕ) x = .ok n y ↔ n = x.stream.position ∧ y = x := by
  simp only [liftReader_eq_ok, offset_eq_ok]
  exact ⟨fun ⟨_, ⟨hn, rfl⟩, hy⟩ => ⟨hn, hy⟩, fun ⟨hn, hy⟩ => ⟨_, ⟨hn, rfl⟩, hy⟩⟩

theorem liftLength_eq_ok :
    (liftM Reader.length : Decode ℕ) x = .ok n y ↔ n = x.stream.length ∧ y = x := by
  simp only [liftReader_eq_ok, length_eq_ok]
  exact ⟨fun ⟨_, ⟨hn, rfl⟩, hy⟩ => ⟨hn, hy⟩, fun ⟨hn, hy⟩ => ⟨_, ⟨hn, rfl⟩, hy⟩⟩

theorem liftRemaining_eq_ok :
    (liftM Reader.remaining : Decode ℕ) x = .ok n y ↔ n = x.stream.remaining ∧ y = x := by
  simp only [liftReader_eq_ok, remaining_eq_ok]
  exact ⟨fun ⟨_, ⟨hn, rfl⟩, hy⟩ => ⟨hn, hy⟩, fun ⟨hn, hy⟩ => ⟨_, ⟨hn, rfl⟩, hy⟩⟩

theorem liftExcept_decode_eq_ok {result : Except Error α} {a : α} :
    (liftM result : Decode α) x = .ok a y ↔ result = .ok a ∧ y = x := by
  show Decode.ofReader (Reader.ofExcept result) x = .ok a y ↔ _
  simp only [ofReader_eq_ok, ofExcept_eq_ok]
  exact ⟨fun ⟨_, ⟨h, rfl⟩, hy⟩ => ⟨h, hy⟩, fun ⟨h, hy⟩ => ⟨_, ⟨h, rfl⟩, hy⟩⟩

theorem options_eq_ok {o : Options} :
    Decode.options x = .ok o y ↔ o = x.context.options ∧ y = x := by
  simp only [Decode.options, bind_eq_ok, get_eq_ok, pure_eq_ok]
  exact ⟨fun ⟨_, _, ⟨rfl, rfl⟩, hn, ht⟩ => ⟨hn, ht⟩, fun ⟨hn, ht⟩ => ⟨x, x, ⟨rfl, rfl⟩, hn, ht⟩⟩

theorem files_eq_ok {files : FileTree} :
    Decode.files x = .ok files y ↔ files = x.files ∧ y = x := by
  simp only [Decode.files, bind_eq_ok, get_eq_ok, pure_eq_ok]
  exact ⟨fun ⟨_, _, ⟨rfl, rfl⟩, hn, ht⟩ => ⟨hn, ht⟩, fun ⟨hn, ht⟩ => ⟨x, x, ⟨rfl, rfl⟩, hn, ht⟩⟩

theorem report_eq_ok {r : Report} :
    Decode.report r x = .ok u y ↔ y = { x with reports := x.reports.push r } := modify_eq_ok

/-- A computation over another stream leaves the stream of the session where it was. -/
theorem onStream_eq_ok {body : Decode α} {result : α × Stream} :
    Decode.onStream s body x = .ok result y ↔
      ∃ z, body { x with stream := s } = .ok result.1 z ∧ result.2 = z.stream ∧
        y = { z with stream := x.stream } := by
  rw [Decode.onStream]
  cases h : body { x with stream := s } with
  | ok a z =>
    constructor
    · intro hy
      cases hy
      exact ⟨z, rfl, rfl, rfl⟩
    · rintro ⟨_, hb, hstream, rfl⟩
      cases hb
      exact congrArg (EStateM.Result.ok · _) (Prod.ext rfl hstream.symm)
  | error e z => simp

/-- A count passes when it is within the limit and its records fit. -/
theorem check_eq_ok {limit count recordSize available : ℕ} {c : EntryCount} :
    EntryCount.check limit count recordSize available = .ok c ↔
      count ≤ limit ∧ Word.satMul count recordSize ≤ available ∧ c = ⟨count⟩ := by
  rw [EntryCount.check]
  by_cases hl : limit < count
  · rw [if_pos hl]
    constructor
    · rintro ⟨⟩
    · rintro ⟨h, -⟩
      omega
  · rw [if_neg hl]
    by_cases ha : available < Word.satMul count recordSize
    · simp only [ha, if_true]
      constructor
      · rintro ⟨⟩
      · rintro ⟨-, h, -⟩
        omega
    · simp only [ha, if_false, Except.ok.injEq]
      exact ⟨fun h => ⟨by omega, by omega, h.symm⟩, fun h => h.2.2.symm⟩

theorem checkCount_eq_ok {count recordSize available : ℕ} {c : EntryCount} :
    Decode.checkCount count recordSize available x = .ok c y ↔
      count ≤ x.context.options.maxEntries ∧ Word.satMul count recordSize ≤ available ∧
        c = ⟨count⟩ ∧ y = x := by
  simp only [Decode.checkCount, bind_eq_ok, options_eq_ok, ofReader_eq_ok, ofExcept_eq_ok,
    check_eq_ok]
  constructor
  · rintro ⟨_, _, ⟨rfl, rfl⟩, _, ⟨⟨hl, ha, rfl⟩, rfl⟩, rfl⟩
    exact ⟨hl, ha, rfl, rfl⟩
  · rintro ⟨hl, ha, rfl, rfl⟩
    exact ⟨_, _, ⟨rfl, rfl⟩, _, ⟨⟨hl, ha, rfl⟩, rfl⟩, rfl⟩

/-- A count within the limit passes, if there is room for its records. -/
theorem checkCount_of_le {count recordSize available : ℕ}
    (hcount : count ≤ x.context.options.maxEntries) (hroom : recordSize * count ≤ available) :
    Decode.checkCount count recordSize available x = .ok ⟨count⟩ x := by
  rw [Nat.mul_comm] at hroom
  exact checkCount_eq_ok.mpr ⟨hcount, Nat.le_trans (Nat.min_le_left _ _) hroom, rfl, rfl⟩

/-- A count within the limit fails, if there is no room for its records. -/
theorem checkCount_of_lt {count recordSize available : ℕ}
    (hcount : count ≤ x.context.options.maxEntries)
    (hroom : available < Word.satMul count recordSize) :
    Decode.checkCount count recordSize available x
      = .error (.exceeds "directory size" (Word.satMul count recordSize) available) x := by
  have hcheck : EntryCount.check x.context.options.maxEntries count recordSize available
      = .error (.exceeds "directory size" (Word.satMul count recordSize) available) := by
    rw [EntryCount.check, if_neg (Nat.not_lt.mpr hcount)]
    exact if_pos hroom
  rw [Decode.checkCount, bind_of_ok (options_eq_ok.mpr ⟨rfl, rfl⟩), hcheck]
  rfl

/-- There is room for another entry while fewer are found than are allowed. -/
theorem checkRoom_eq_ok {found : ℕ} :
    Decode.checkRoom found x = .ok u y ↔ found < x.context.options.maxEntries ∧ y = x := by
  simp only [Decode.checkRoom, bind_eq_ok, options_eq_ok]
  constructor
  · rintro ⟨_, _, ⟨rfl, rfl⟩, h⟩
    split_ifs at h with hfull
    · simp only [bind_eq_ok, throw_eq_ok, exists_false, and_false] at h
    · exact ⟨by omega, (pure_eq_ok.mp h).2⟩
  · rintro ⟨hroom, rfl⟩
    refine ⟨_, _, ⟨rfl, rfl⟩, ?_⟩
    rw [if_neg (by omega)]
    rfl

/-! ### What reads leave alone -/

section

variable {ν : Type} {view : Stream → ν}

theorem keeps_offset : Keeps view Reader.offset := keeps_get.bind fun _ => keeps_pure _

theorem keeps_length : Keeps view Reader.length := keeps_get.bind fun _ => keeps_pure _

theorem keeps_remaining : Keeps view Reader.remaining := keeps_get.bind fun _ => keeps_pure _

theorem keeps_order : Keeps view Reader.order := keeps_get.bind fun _ => keeps_pure _

theorem keeps_ofExcept (result : Except Error α) : Keeps view (Reader.ofExcept result) := by
  intro s
  cases result <;> rfl

theorem keeps_liftExcept (result : Except Error α) : Keeps view (liftM result : Reader α) :=
  keeps_ofExcept result

theorem keeps_checkRange (what : String) (start size : ℕ) :
    Keeps view (Reader.checkRange what start size) :=
  keeps_length.bind fun _ => Keeps.ite (keeps_throw _) (keeps_pure _)

end

theorem keeps_seek (p : ℕ) : Keeps Stream.source (Reader.seek p) :=
  keeps_length.bind fun _ => Keeps.guard fun _ => rfl

theorem keeps_skip (k : ℕ) : Keeps Stream.source (Reader.skip k) :=
  keeps_offset.bind fun _ => keeps_seek _

/-- A read that fails has moved the stream, and done nothing else to it. -/
theorem keeps_exactly (k : ℕ) : Keeps Stream.source (Reader.exactly k) := by
  intro s
  unfold after Reader.exactly
  dsimp only
  split_ifs
  · rfl
  · exact s.source_exhausted
  · exact s.source_exhausted

theorem keeps_wordIn (order : ByteOrder) (width : ℕ) :
    Keeps Stream.source (Reader.wordIn order width) :=
  (keeps_exactly width).bind fun _ => keeps_pure _

theorem keeps_u8 : Keeps Stream.source Reader.u8 := keeps_wordIn _ _

theorem keeps_u16 : Keeps Stream.source Reader.u16 := keeps_order.bind fun _ => keeps_wordIn _ _

theorem keeps_u32 : Keeps Stream.source Reader.u32 := keeps_order.bind fun _ => keeps_wordIn _ _

theorem keeps_uint (width : ℕ) (order : ByteOrder) :
    Keeps Stream.source (Reader.uint width order) :=
  Keeps.ite (keeps_wordIn _ _) (keeps_throw _)

theorem keeps_bytes (k : ℕ) : Keeps Stream.source (Reader.bytes k) :=
  keeps_remaining.bind fun _ => Keeps.guard (keeps_exactly k)

theorem keeps_fixedString (width : ℕ) : Keeps Stream.source (Reader.fixedString width) := by
  rw [fixedString_eq]
  exact (keeps_bytes width).bind fun _ => keeps_pure _

theorem source_after_asRecord (body : Reader α) (s : Stream) :
    (after (Reader.asRecord body) s).source = (after body s).source := by
  unfold after
  rw [Reader.asRecord]
  cases body s with
  | ok a t => rfl
  | error e t => cases e <;> rfl

theorem keeps_asRecord {body : Reader α} (h : Keeps Stream.source body) :
    Keeps Stream.source (Reader.asRecord body) :=
  fun s => (source_after_asRecord body s).trans (h s)

theorem after_ofReader (body : Reader α) (x : Session) :
    after (Decode.ofReader body) x = { x with stream := after body x.stream } := by
  unfold after
  rw [Decode.ofReader]
  cases body x.stream <;> rfl

/-- A reader that keeps the source of its stream keeps the input of a session. -/
theorem keeps_ofReader {body : Reader α} (h : Keeps Stream.source body) :
    Keeps Session.input (Decode.ofReader body) := by
  intro x
  rw [after_ofReader]
  exact Prod.ext (h x.stream) rfl

theorem keeps_liftReader {body : Reader α} (h : Keeps Stream.source body) :
    Keeps Session.input (liftM body : Decode α) := keeps_ofReader h

theorem keeps_liftExcept_decode (result : Except Error α) :
    Keeps Session.input (liftM result : Decode α) := keeps_ofReader (keeps_ofExcept result)

theorem keeps_options : Keeps Session.input Decode.options := keeps_get.bind fun _ => keeps_pure _

theorem keeps_report (r : Report) : Keeps Session.input (Decode.report r) := fun _ => rfl

theorem keeps_checkCount (count recordSize available : ℕ) :
    Keeps Session.input (Decode.checkCount count recordSize available) :=
  keeps_options.bind fun _ => keeps_ofReader (keeps_ofExcept _)

theorem keeps_checkRoom (found : ℕ) : Keeps Session.input (Decode.checkRoom found) :=
  keeps_options.bind fun _ =>
    Keeps.ite ((keeps_liftExcept_decode _).bind fun _ => keeps_throw _) (keeps_pure _)

theorem keeps_files : Keeps Session.input Decode.files := keeps_get.bind fun _ => keeps_pure _

theorem keeps_addPalette (palette : Palette) : Keeps Session.input (Decode.addPalette palette) :=
  fun _ => rfl

/-- Loading the name table fills the cache, and may warn. -/
theorem keeps_names : Keeps Session.input Decode.names := by
  have hdone : ∀ table : NameTable, Keeps Session.input (do
      modify fun session : Session =>
        { session with context := { session.context with names := some table } }
      return table : Decode NameTable) :=
    fun _ => Keeps.bind (keeps_modify fun _ => rfl) fun _ => keeps_pure _
  refine keeps_get.bind fun session => ?_
  cases session.context.names with
  | some table => exact keeps_pure _
  | none =>
    dsimp only
    cases session.context.options.nameTable with
    | none => exact (keeps_pure _).bind hdone
    | some path =>
      dsimp only
      cases NameTable.load? session.files path with
      | some table => exact (keeps_pure _).bind hdone
      | none => exact (keeps_report _).bind fun _ => (keeps_pure _).bind hdone

/-! ### What reads ensure -/

section

variable {source : Bytes × ByteOrder × Option ℕ} {P : α → Prop}
  {i : (Bytes × ByteOrder × Option ℕ) × Options × FileTree}

theorem ensures_ofExcept {result : Except Error α} :
    Ensures Stream.source source (fun a => result = .ok a) (Reader.ofExcept result) :=
  (keeps_ofExcept result).ensures fun _ _ _ h => (ofExcept_eq_ok.mp h).1

theorem ensures_liftExcept {result : Except Error α} :
    Ensures Stream.source source (fun a => result = .ok a) (liftM result : Reader α) :=
  ensures_ofExcept

theorem ensures_u32 : Ensures Stream.source source (· < 2 ^ 32) Reader.u32 :=
  keeps_u32.ensures fun _ _ _ h => lt_of_u32 h

theorem ensures_checkRange (what : String) (start size : ℕ) :
    Ensures Stream.source source
      (fun _ => start + size ≤ source.1.length ∧ start + size ≤ Word.max)
      (Reader.checkRange what start size) := by
  intro s hs
  refine ⟨(keeps_checkRange what start size s).trans hs, fun _ t h => ?_⟩
  obtain ⟨hlen, hmax, -⟩ := checkRange_eq_ok.mp h
  rw [← hs]
  exact ⟨hlen, hmax⟩

theorem ensures_asRecord {body : Reader α} (h : Ensures Stream.source source P body) :
    Ensures Stream.source source P (Reader.asRecord body) :=
  fun s hs => ⟨(source_after_asRecord body s).trans (h s hs).1,
    fun a t ha => (h s hs).2 a t (asRecord_eq_ok.mp ha)⟩

theorem ensures_ofReader {body : Reader α} (h : Ensures Stream.source i.1 P body) :
    Ensures Session.input i P (Decode.ofReader body) := by
  intro x hx
  obtain ⟨hview, hP⟩ := h x.stream (congrArg Prod.fst hx)
  constructor
  · rw [after_ofReader]
    show ((after body x.stream).source, x.input.2) = i
    rw [hview, hx]
  · intro a y hy
    obtain ⟨t, ht, -⟩ := ofReader_eq_ok.mp hy
    exact hP a t ht

theorem ensures_liftReader {body : Reader α} (h : Ensures Stream.source i.1 P body) :
    Ensures Session.input i P (liftM body : Decode α) := ensures_ofReader h

theorem ensures_options : Ensures Session.input i (· = i.2.1) Decode.options := by
  intro x hx
  refine ⟨(keeps_options x).trans hx, fun o y h => ?_⟩
  rw [(options_eq_ok.mp h).1, ← hx]
  rfl

theorem ensures_files : Ensures Session.input i (· = i.2.2) Decode.files := by
  intro x hx
  refine ⟨(keeps_files x).trans hx, fun files y h => ?_⟩
  simp only [Decode.files, bind_eq_ok, get_eq_ok, pure_eq_ok] at h
  obtain ⟨_, _, ⟨rfl, rfl⟩, rfl, -⟩ := h
  rw [← hx]
  rfl

/-- A count that passes is the declared one, and within the limit. -/
theorem ensures_checkCount (count recordSize available : ℕ) :
    Ensures Session.input i (fun c => c = ⟨count⟩ ∧ count ≤ i.2.1.maxEntries)
      (Decode.checkCount count recordSize available) := by
  intro x hx
  refine ⟨(keeps_checkCount count recordSize available x).trans hx, fun c y h => ?_⟩
  obtain ⟨hle, -, hc, -⟩ := checkCount_eq_ok.mp h
  rw [← hx]
  exact ⟨hc, hle⟩

/-- Behind the check there is room for another entry. -/
theorem ensures_checkRoom (found : ℕ) :
    Ensures Session.input i (fun _ => found < i.2.1.maxEntries) (Decode.checkRoom found) := by
  intro x hx
  refine ⟨(keeps_checkRoom found x).trans hx, fun _ y h => ?_⟩
  rw [← hx]
  exact (checkRoom_eq_ok.mp h).1

theorem after_onStream (body : Decode α) (s : Stream) (x : Session) :
    after (Decode.onStream s body) x
      = { after body { x with stream := s } with stream := x.stream } := by
  unfold after
  rw [Decode.onStream]
  cases body { x with stream := s } <;> rfl

/-- A computation over another stream ensures what it does over its own. -/
theorem ensures_onStream {body : Decode α} {s : Stream}
    (h : Ensures Session.input (s.source, i.2) P body) :
    Ensures Session.input i (fun result => P result.1) (Decode.onStream s body) := by
  intro x hx
  subst hx
  obtain ⟨hview, hP⟩ := h { x with stream := s } rfl
  constructor
  · rw [after_onStream]
    show (x.stream.source, (after body { x with stream := s }).input.2) = x.input
    rw [hview]
    rfl
  · intro result y hy
    obtain ⟨z, hz, -⟩ := onStream_eq_ok.mp hy
    exact hP result.1 z hz

theorem after_attempt (body : Decode α) (x : Session) :
    after (Decode.attempt body) x = after body x := by
  unfold after
  rw [Decode.attempt]
  cases body x <;> rfl

/-- The error of an attempt is a value like any other. -/
theorem ensures_attempt {body : Decode α} (h : Ensures Session.input i P body) :
    Ensures Session.input i (fun result => ∀ a, result = .ok a → P a) (Decode.attempt body) := by
  intro x hx
  obtain ⟨hview, hP⟩ := h x hx
  refine ⟨by rwa [after_attempt], fun result y hy a ha => ?_⟩
  subst ha
  rw [Decode.attempt] at hy
  cases hbody : body x with
  | ok b z =>
    rw [hbody] at hy
    cases hy
    exact hP a y hbody
  | error e z =>
    rw [hbody] at hy
    cases hy

end

end Reading

end Packfile
