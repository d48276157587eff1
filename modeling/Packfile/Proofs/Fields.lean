import Packfile.Proofs.Names

/-!
# Fields at fixed places

What a decoder should have refused is said of the bytes of an archive and not of a run over them:
that the integer at one place does not go with the integer at another. `ByteOrder.field` is the
integer at a place, for every place, and a read that has succeeded has yielded it. A place beyond
the end holds some number too, and a statement that such a number must not matter has to ask for the
place to be there.

In the other direction, bytes that have been written in front of what is ahead are read back one
field at a time, in the byte order of the stream.

## Main definitions

* `ByteOrder.field` — the integer at a place of a byte string
* `Stream.Delivers` — storage that holds out up to a position
* `Names.padded` — a name in a field of a given width

## Main results

* `Reading.of_u8`, `of_u16`, `of_u32`, `of_fixedString` — what a read has seen
* `Reading.u8_of_cons`, `wordIn_of_append`, `bytes_of_append`, `fixedString_of_append`,
  `fixedString_of_padded` — what will be read
-/

namespace Packfile

/-- The integer in the `width` bytes of a byte string from a place on. -/
def ByteOrder.field (order : ByteOrder) (width : ℕ) (bytes : Bytes) (place : ℕ) : ℕ :=
  order.decode ((bytes.drop place).take width)

/-- A field holds no more than its width can. -/
theorem ByteOrder.field_lt (order : ByteOrder) (width : ℕ) (bytes : Bytes) (place : ℕ) :
    order.field width bytes place < 256 ^ width := by
  refine Nat.lt_of_lt_of_le (order.decode_lt _) (Nat.pow_le_pow_right (by decide) ?_)
  exact List.length_take_le _ _

/-- Where an integer was written, it is in the field. -/
theorem ByteOrder.field_of_drop {order : ByteOrder} {width n place : ℕ} {bytes rest : Bytes}
    (hn : n < 256 ^ width) (h : bytes.drop place = order.encode width n ++ rest) :
    order.field width bytes place = n := by
  rw [field, h, List.take_left' (order.length_encode width n), order.decode_encode hn]

/-- The sum of two fields of 4 bytes fits into a word. -/
theorem ByteOrder.satAdd_field (order : ByteOrder) (bytes : Bytes) (place place' : ℕ) :
    Word.satAdd (order.field 4 bytes place) (order.field 4 bytes place')
      = order.field 4 bytes place + order.field 4 bytes place' := by
  have hmax := Word.max_eq
  have hlt := order.field_lt 4 bytes place
  have hlt' := order.field_lt 4 bytes place'
  exact Word.satAdd_of_le (by omega)

/-- A field whose flags are all among the first `count` has no other. -/
theorem testBit_eq_false_of_le {flags count bit : ℕ} (h : flags < 2 ^ count) (hbit : count ≤ bit) :
    flags.testBit bit = false :=
  Nat.testBit_lt_two_pow (Nat.lt_of_lt_of_le h (Nat.pow_le_pow_right Nat.two_pos hbit))

namespace Names

/-- A name as it is written into a field of `width` bytes. -/
def padded (width : ℕ) (name : String) : Bytes :=
  Utf8.encode name ++ List.replicate (width - (Utf8.encode name).length) 0

theorem length_padded {width : ℕ} {name : String} (h : (Utf8.encode name).length ≤ width) :
    (padded width name).length = width := by
  rw [padded, List.length_append, List.length_replicate]
  omega

end Names

namespace Stream

variable {s t : Stream} {k : ℕ}

theorem bytes_of_source (h : t.source = s.source) : t.bytes = s.bytes := congrArg Prod.fst h

theorem order_of_source (h : t.source = s.source) : t.order = s.order :=
  congrArg (fun source => source.2.1) h

theorem failAt_of_source (h : t.source = s.source) : t.failAt = s.failAt :=
  congrArg (fun source => source.2.2) h

theorem length_of_source (h : t.source = s.source) : t.length = s.length :=
  congrArg List.length (bytes_of_source h)

/-- On storage that does not fail, what can be read from a position on is what the bytes say. -/
theorem ahead_goto (h : s.failAt = none) (p : ℕ) :
    ({ s with position := p } : Stream).ahead = s.bytes.drop p := by
  rw [ahead, h]

/-- What can be read is what the bytes say, up to where the storage fails. -/
theorem take_ahead (h : k ≤ s.ahead.length) :
    s.ahead.take k = (s.bytes.drop s.position).take k := by
  cases hfail : s.failAt with
  | none => rw [ahead, hfail]
  | some limit =>
    rw [ahead, hfail, List.length_take] at h
    rw [ahead, hfail, List.take_take, Nat.min_eq_left (by omega)]

/-- The storage under a stream holds out up to a position. -/
def Delivers (s : Stream) (position : ℕ) : Prop := ∀ limit ∈ s.failAt, position ≤ limit

theorem Delivers.mono {p q : ℕ} (h : s.Delivers q) (hpq : p ≤ q) : s.Delivers p :=
  fun limit hlimit => Nat.le_trans hpq (h limit hlimit)

/-- Bytes that are there and delivered can be read. -/
theorem Delivers.le_length_ahead (h : s.Delivers (s.position + k))
    (hfit : s.position + k ≤ s.length) : k ≤ s.ahead.length := by
  rw [length] at hfit
  cases hlimit : s.failAt with
  | none =>
    rw [ahead, hlimit, List.length_drop]
    omega
  | some limit =>
    have hle := h limit hlimit
    rw [ahead, hlimit, List.length_take, List.length_drop]
    omega

/-- Behind a byte that was read there is still the stream, its end included. -/
theorem position_add_le_of_pos (hk : 0 < k) (h : k ≤ s.ahead.length) :
    s.position + k ≤ s.length := by
  have hahead := s.length_ahead_le
  rw [remaining] at hahead
  omega

end Stream

namespace Reading

open Run

variable {s t : Stream} {k n : ℕ} {text : String} {rest : Bytes}

/-! ### The start of a stream -/

/-- From the start of a stream a skip leads to the position that it says. -/
theorem skip_start_eq_ok {u : Unit} (hstart : s.position = 0) (hk : k ≤ Word.max) :
    Reader.skip k s = .ok u t ↔ k ≤ s.length ∧ t = { s with position := k } := by
  have hadd : Word.satAdd s.position k = k := by
    rw [hstart, Word.satAdd_of_le (by omega), Nat.zero_add]
  rw [skip_eq_ok, hadd]

/-! ### Readers inside a decode -/

/-- Several reads in turn are one read of a decode. -/
theorem liftReader_bind {α β : Type} (body : Reader α) (f : α → Reader β) :
    (liftM (body >>= f) : Decode β) = (liftM body : Decode α) >>= fun a => liftM (f a) := by
  funext x
  show Decode.ofReader (body >>= f) x = (Decode.ofReader body >>= fun a => Decode.ofReader (f a)) x
  cases h : body x.stream with
  | ok a t =>
    rw [Decode.ofReader, bind_of_ok h, bind_of_ok (ofReader_eq_ok.mpr ⟨t, h, rfl⟩), Decode.ofReader]
  | error e t =>
    have hlift : Decode.ofReader body x = .error e { x with stream := t } := by
      rw [Decode.ofReader, h]
    rw [Decode.ofReader, bind_of_error h, bind_of_error hlift]

/-! ### What a read has seen -/

theorem of_u8 (h : Reader.u8 s = .ok n t) : s.position + 1 ≤ s.length ∧
    n = ByteOrder.little.field 1 s.bytes s.position ∧ t = s.advance 1 := by
  obtain ⟨hlen, rfl, rfl⟩ := u8_eq_ok.mp h
  refine ⟨Stream.position_add_le_of_pos Nat.one_pos hlen, ?_, rfl⟩
  rw [ByteOrder.field, Stream.take_ahead hlen]

theorem of_u16 (h : Reader.u16 s = .ok n t) : s.position + 2 ≤ s.length ∧
    n = s.order.field 2 s.bytes s.position ∧ t = s.advance 2 := by
  obtain ⟨hlen, rfl, rfl⟩ := u16_eq_ok.mp h
  refine ⟨Stream.position_add_le_of_pos Nat.two_pos hlen, ?_, rfl⟩
  rw [ByteOrder.field, Stream.take_ahead hlen]

theorem of_u32 (h : Reader.u32 s = .ok n t) : s.position + 4 ≤ s.length ∧
    n = s.order.field 4 s.bytes s.position ∧ t = s.advance 4 := by
  obtain ⟨hlen, rfl, rfl⟩ := u32_eq_ok.mp h
  refine ⟨Stream.position_add_le_of_pos (by decide) hlen, ?_, rfl⟩
  rw [ByteOrder.field, Stream.take_ahead hlen]

/-- A name without room may be read behind the end, so that the position in front of it has to be
known. -/
theorem of_fixedString (hposition : k = 0 → s.position ≤ s.length)
    (h : Reader.fixedString k s = .ok text t) : s.position + k ≤ s.length ∧
      text = Utf8.decode (Reader.beforeZero ((s.bytes.drop s.position).take k)) ∧
        t = s.advance k := by
  obtain ⟨hlen, rfl, rfl⟩ := fixedString_eq_ok.mp h
  refine ⟨?_, by rw [Stream.take_ahead hlen], rfl⟩
  rcases Nat.eq_zero_or_pos k with hzero | hpos
  · have := hposition hzero
    omega
  · exact Stream.position_add_le_of_pos hpos hlen

/-! ### What will be read -/

theorem u8_of_cons {b : UInt8} (h : s.ahead = b :: rest) :
    Reader.u8 s = .ok b.toNat (s.advance 1) := by
  rw [u8_eq_ok, h]
  refine ⟨by simp, ?_, rfl⟩
  simp [ByteOrder.decode, ByteOrder.number]

/-- An integer in front of what is ahead is read. -/
theorem wordIn_of_append {order : ByteOrder} {width : ℕ} (hn : n < 256 ^ width)
    (h : s.ahead = order.encode width n ++ rest) :
    Reader.wordIn order width s = .ok n (s.advance width) := by
  rw [wordIn_eq_ok, h]
  refine ⟨by simp, ?_, rfl⟩
  rw [List.take_left' (ByteOrder.length_encode _ _ _)]
  exact (ByteOrder.decode_encode _ hn).symm

theorem u16_of_append (hn : n < 2 ^ 16) (h : s.ahead = s.order.encode 2 n ++ rest) :
    Reader.u16 s = .ok n (s.advance 2) :=
  wordIn_of_append hn h

theorem u32_of_append (hn : n < 2 ^ 32) (h : s.ahead = s.order.encode 4 n ++ rest) :
    Reader.u32 s = .ok n (s.advance 4) :=
  wordIn_of_append hn h

theorem u64_of_append (hn : n < 2 ^ 64) (h : s.ahead = s.order.encode 8 n ++ rest) :
    Reader.u64 s = .ok n (s.advance 8) :=
  wordIn_of_append hn h

theorem bytes_of_append (data : Bytes) (h : s.ahead = data ++ rest) :
    Reader.bytes data.length s = .ok data (s.advance data.length) := by
  rw [bytes_eq_ok, h]
  exact ⟨by simp, List.take_left.symm, rfl⟩

theorem beforeZero_eq_self {field : Bytes} (h : (0 : UInt8) ∉ field) :
    Reader.beforeZero field = field := by
  rw [Reader.beforeZero, List.takeWhile_eq_self_iff]
  intro b hb
  exact bne_iff_ne.mpr fun hzero => h (hzero ▸ hb)

/-- A name that fills its field. -/
theorem fixedString_of_append (hplain : Utf8.IsPlain text)
    (h : s.ahead = Utf8.encode text ++ rest) :
    Reader.fixedString (Utf8.encode text).length s
      = .ok text (s.advance (Utf8.encode text).length) := by
  rw [fixedString_eq_ok, h]
  refine ⟨by simp, ?_, rfl⟩
  rw [List.take_left, beforeZero_eq_self (Utf8.zero_not_mem_encode hplain), Utf8.decode_encode]

/-- A name in a field that is filled up with zeros. -/
theorem fixedString_of_padded (hplain : Utf8.IsPlain text) (hk : (Utf8.encode text).length ≤ k)
    (h : s.ahead = Names.padded k text ++ rest) :
    Reader.fixedString k s = .ok text (s.advance k) := by
  rw [fixedString_eq_ok, h]
  have hlength := Names.length_padded hk
  refine ⟨by rw [List.length_append, hlength]; omega, ?_, rfl⟩
  rw [List.take_left' hlength]
  have hplain := Utf8.zero_not_mem_encode hplain
  -- either the name fills the field, or a zero stands behind it
  cases hpad : k - (Utf8.encode text).length with
  | zero =>
    rw [Names.padded, hpad, List.replicate_zero, List.append_nil, beforeZero_eq_self hplain,
      Utf8.decode_encode]
  | succ count =>
    rw [Names.padded, hpad, List.replicate_succ, Names.beforeZero_append hplain,
      Utf8.decode_encode]

theorem ahead_of_padded (hk : (Utf8.encode text).length ≤ k)
    (h : s.ahead = Names.padded k text ++ rest) : (s.advance k).ahead = rest := by
  rw [Stream.ahead_advance, h, List.drop_left' (Names.length_padded hk)]

end Reading

end Packfile
