import Mathlib.Data.List.TakeWhile
import Mathlib.Tactic.Ring
import Packfile.Proofs.Reading
import Packfile.Walk.Offsets

/-!
# Names between texts and bytes

Names are written as UTF-8 with a zero behind them, and read leniently up to a zero. A name without
a zero character survives this, and every name that is read is of that kind.

## The lenient reading

`Utf8.decode` is total and `Utf8.encode` is not onto, so only one of the two compositions is the
identity. `next_encodeChar` is the step: the four lengths of a character are four cases, and in each
of them the leading byte announces exactly the bytes that follow. The narrowed ranges behind E0, ED,
F0 and F4 are met because the encoder writes neither overlong forms nor surrogates.

## Main definitions

* `Utf8.IsPlain` — texts without a zero character
* `Names.terminated`, `Names.starts` — names as they are written one after the other

## Main results

* `Utf8.decode_encode` — a text is read back
* `Utf8.isPlain_decode` — bytes without a zero are read as a plain text
* `Names.namesFromBlob_of_starts`, `Names.of_namesFromBlob` — blocks of names
-/

namespace Packfile

namespace Utf8

/-- The text has no zero character, so a zero can mark its end. -/
def IsPlain (text : String) : Prop := Char.ofNat 0 ∉ text.toList

instance (text : String) : Decidable (IsPlain text) :=
  inferInstanceAs (Decidable (Char.ofNat 0 ∉ text.toList))

/-! ### Reading back -/

theorem toNat_ofNat_of_lt {n : ℕ} (h : n < 256) : (UInt8.ofNat n).toNat = n := by
  rw [UInt8.toNat_ofNat', Nat.mod_eq_of_lt h]

/-- A byte in the range that is expected continues the character. -/
theorem collect_succ {low high : UInt8} {count bits n : ℕ} {rest : Bytes} (hn : n < 256)
    (hlow : low.toNat ≤ n) (hhigh : n ≤ high.toNat) :
    collect low high (count + 1) bits (UInt8.ofNat n :: rest)
      = collect 0x80 0xBF count (64 * bits + n % 64) rest := by
  have hb : (UInt8.ofNat n).toNat = n := toNat_ofNat_of_lt hn
  have hle : low ≤ UInt8.ofNat n ∧ UInt8.ofNat n ≤ high := by
    rw [UInt8.le_iff_toNat_le, UInt8.le_iff_toNat_le, hb]
    exact ⟨hlow, hhigh⟩
  rw [collect, if_pos hle, hb]

/-- A byte in the full range continues the character. -/
theorem collect_tail {count bits n : ℕ} {rest : Bytes} (hn : n < 64) :
    collect 0x80 0xBF (count + 1) bits (UInt8.ofNat (n + 128) :: rest)
      = collect 0x80 0xBF count (64 * bits + n) rest := by
  rw [collect_succ (by omega) (by show 128 ≤ _; omega) (by show _ ≤ 191; omega)]
  congr 2
  omega

theorem next_of_lead {b : UInt8} {lead : Lead} {rest rest' : Bytes} {v : ℕ}
    (hlead : lead? b = some lead)
    (hcollect : collect lead.low lead.high lead.tail lead.bits rest = (some v, rest')) :
    next b rest = (Char.ofNat v, rest') := by
  rw [next, hlead]
  simp only [hcollect]

/-- The code point of a character is no surrogate. -/
theorem toNat_char_lt (c : Char) :
    c.val.toNat < 0xD800 ∨ 0xDFFF < c.val.toNat ∧ c.val.toNat < 0x110000 := c.valid

theorem lead?_two {n : ℕ} (h₁ : 0xC2 ≤ n) (h₂ : n < 0xE0) :
    lead? (UInt8.ofNat n) = some ⟨1, 0x80, 0xBF, n - 0xC0⟩ := by
  simp only [lead?, toNat_ofNat_of_lt (show n < 256 by omega)]
  rw [if_neg (by omega), if_neg (by omega), if_pos (by omega)]

/-- Behind a leading byte of three-byte characters the range of the next byte is narrowed at both
ends, against overlong forms and against surrogates. -/
theorem lead?_three {n : ℕ} (h₁ : 0xE0 ≤ n) (h₂ : n < 0xF0) :
    ∃ low high : UInt8, lead? (UInt8.ofNat n) = some ⟨2, low, high, n - 0xE0⟩ ∧
      low.toNat = (if n = 0xE0 then 0xA0 else 0x80) ∧
      high.toNat = (if n = 0xED then 0x9F else 0xBF) := by
  simp only [lead?, toNat_ofNat_of_lt (show n < 256 by omega)]
  rw [if_neg (by omega), if_neg (by omega), if_neg (by omega)]
  by_cases h : n = 0xE0
  · subst h
    exact ⟨0xA0, 0xBF, rfl, rfl, rfl⟩
  · by_cases h' : n = 0xED
    · subst h'
      exact ⟨0x80, 0x9F, rfl, rfl, rfl⟩
    · rw [if_neg h, if_neg h', if_pos h₂]
      exact ⟨0x80, 0xBF, rfl, by rw [if_neg h]; rfl, by rw [if_neg h']; rfl⟩

/-- Behind a leading byte of four-byte characters the range is narrowed against overlong forms and
against numbers that are no code point. -/
theorem lead?_four {n : ℕ} (h₁ : 0xF0 ≤ n) (h₂ : n ≤ 0xF4) :
    ∃ low high : UInt8, lead? (UInt8.ofNat n) = some ⟨3, low, high, n - 0xF0⟩ ∧
      low.toNat = (if n = 0xF0 then 0x90 else 0x80) ∧
      high.toNat = (if n = 0xF4 then 0x8F else 0xBF) := by
  simp only [lead?, toNat_ofNat_of_lt (show n < 256 by omega)]
  rw [if_neg (by omega), if_neg (by omega), if_neg (by omega), if_neg (by omega), if_neg (by omega),
    if_neg (by omega)]
  by_cases h : n = 0xF0
  · subst h
    exact ⟨0x90, 0xBF, rfl, rfl, rfl⟩
  · by_cases h' : n = 0xF4
    · subst h'
      exact ⟨0x80, 0x8F, rfl, rfl, rfl⟩
    · rw [if_neg h, if_pos (by omega)]
      exact ⟨0x80, 0xBF, rfl, by rw [if_neg h]; rfl, by rw [if_neg h']; rfl⟩

/-- A character that was written is the next one that is read. -/
theorem next_encodeChar (c : Char) (rest : Bytes) :
    ∃ b tail, String.utf8EncodeChar c ++ rest = b :: tail ∧ next b tail = (c, rest) := by
  have hc := toNat_char_lt c
  have hv : Char.ofNat c.val.toNat = c := Char.ofNat_toNat c
  simp only [String.utf8EncodeChar]
  generalize c.val.toNat = v at hc hv
  split
  · -- one byte
    refine ⟨_, rest, rfl, ?_⟩
    have hlead : lead? (UInt8.ofNat v) = some ⟨0, 0x80, 0xBF, v⟩ := by
      simp only [lead?, toNat_ofNat_of_lt (show v < 256 by omega)]
      rw [if_pos (by omega)]
    rw [next_of_lead hlead rfl, hv]
  split
  · -- two bytes
    refine ⟨_, UInt8.ofNat (v % 64 + 128) :: rest, rfl, ?_⟩
    refine (next_of_lead (lead?_two (by omega) (by omega)) (v := v) ?_).trans (by rw [hv])
    rw [collect_tail (by omega), collect]
    congr 2
    dsimp only
    omega
  split
  · -- three bytes
    refine ⟨_, UInt8.ofNat (v / 64 % 64 + 128) :: UInt8.ofNat (v % 64 + 128) :: rest, rfl, ?_⟩
    obtain ⟨low, high, hlead, hlow, hhigh⟩ :=
      lead?_three (n := v / 4096 % 16 + 224) (by omega) (by omega)
    refine (next_of_lead hlead (v := v) ?_).trans (by rw [hv])
    rw [collect_succ (by omega) (by rw [hlow]; split <;> omega) (by rw [hhigh]; split <;> omega),
      collect_tail (by omega), collect]
    congr 2
    dsimp only
    omega
  · -- four bytes
    refine ⟨_, UInt8.ofNat (v / 4096 % 64 + 128) :: UInt8.ofNat (v / 64 % 64 + 128) ::
      UInt8.ofNat (v % 64 + 128) :: rest, rfl, ?_⟩
    obtain ⟨low, high, hlead, hlow, hhigh⟩ :=
      lead?_four (n := v / 262144 % 8 + 240) (by omega) (by omega)
    refine (next_of_lead hlead (v := v) ?_).trans (by rw [hv])
    rw [collect_succ (by omega) (by rw [hlow]; split <;> omega) (by rw [hhigh]; split <;> omega),
      collect_tail (by omega), collect_tail (by omega), collect]
    congr 2
    dsimp only
    omega

theorem chars_flatMap (cs : List Char) : chars (cs.flatMap String.utf8EncodeChar) = cs := by
  induction cs with
  | nil => rw [List.flatMap_nil, chars]
  | cons c cs ih =>
    obtain ⟨b, tail, hb, hnext⟩ := next_encodeChar c (cs.flatMap String.utf8EncodeChar)
    rw [List.flatMap_cons, hb, chars, hnext, ih]

/-- **A text is read back.** -/
theorem decode_encode (text : String) : decode (encode text) = text := by
  rw [decode, encode, chars_flatMap, String.ofList_toList]

/-! ### Zeros -/

theorem zero_not_mem_encodeChar {c : Char} (hc : c ≠ Char.ofNat 0) :
    (0 : UInt8) ∉ String.utf8EncodeChar c := by
  have hv : c.val.toNat ≠ 0 := by
    intro h
    exact hc (by rw [← Char.ofNat_toNat c]; exact congrArg Char.ofNat h)
  have hb : ∀ n, 0 < n → n < 256 → (0 : UInt8) ≠ UInt8.ofNat n := by
    intro n hpos hlt h
    have := congrArg UInt8.toNat h
    rw [toNat_ofNat_of_lt hlt] at this
    exact absurd this.symm (Nat.ne_of_gt hpos)
  have hlt := toNat_char_lt c
  simp only [String.utf8EncodeChar]
  generalize c.val.toNat = v at hv hlt
  intro hmem
  split at hmem
  · rw [List.mem_singleton] at hmem
    exact hb v (by omega) (by omega) hmem
  split at hmem
  · simp only [List.mem_cons, List.not_mem_nil, or_false] at hmem
    rcases hmem with h | h <;> exact hb _ (by omega) (by omega) h
  split at hmem
  · simp only [List.mem_cons, List.not_mem_nil, or_false] at hmem
    rcases hmem with h | h | h <;> exact hb _ (by omega) (by omega) h
  · simp only [List.mem_cons, List.not_mem_nil, or_false] at hmem
    rcases hmem with h | h | h | h <;> exact hb _ (by omega) (by omega) h

/-- A plain text is written without a zero. -/
theorem zero_not_mem_encode {text : String} (h : IsPlain text) : (0 : UInt8) ∉ encode text := by
  intro hmem
  obtain ⟨c, hc, hzero⟩ := List.mem_flatMap.mp hmem
  refine zero_not_mem_encodeChar ?_ hzero
  rintro rfl
  exact h hc

/-- What is left after continuation bytes is a part of what was there. -/
theorem collect_suffix (low high : UInt8) (count bits : ℕ) (rest : Bytes) :
    (collect low high count bits rest).2 <:+ rest := by
  fun_induction collect low high count bits rest with
  | case1 => exact List.suffix_refl _
  | case2 => exact List.suffix_refl _
  | case3 low high count bits b rest _ ih => exact ih.trans (List.suffix_cons b rest)
  | case4 => exact List.suffix_refl _

theorem next_suffix (b : UInt8) (rest : Bytes) : (next b rest).2 <:+ rest := by
  rw [next]
  cases lead? b with
  | none => exact List.suffix_refl _
  | some lead =>
    have h := collect_suffix lead.low lead.high lead.tail lead.bits rest
    dsimp only
    split
    · next heq => rwa [heq] at h
    · next heq => rwa [heq] at h

/-- Continuation bytes fill the places behind the bits that are there. -/
theorem collect_bounds {count bits v : ℕ} {rest rest' : Bytes}
    (h : collect 0x80 0xBF count bits rest = (some v, rest')) :
    bits * 64 ^ count ≤ v ∧ v < (bits + 1) * 64 ^ count := by
  induction count generalizing bits rest with
  | zero =>
    rw [collect] at h
    cases h
    omega
  | succ count ih =>
    cases rest with
    | nil => simp [collect] at h
    | cons b rest =>
      rw [collect] at h
      split at h
      · have hv := ih h
        have hlt : b.toNat % 64 < 64 := Nat.mod_lt _ (by decide)
        rw [Nat.pow_succ]
        constructor
        · calc bits * (64 ^ count * 64) = 64 * bits * 64 ^ count := by ring
            _ ≤ (64 * bits + b.toNat % 64) * 64 ^ count :=
              Nat.mul_le_mul_right _ (Nat.le_add_right _ _)
            _ ≤ v := hv.1
        · calc v < (64 * bits + b.toNat % 64 + 1) * 64 ^ count := hv.2
            _ ≤ (64 * bits + 64) * 64 ^ count := Nat.mul_le_mul_right _ (by omega)
            _ = (bits + 1) * (64 ^ count * 64) := by ring
      · simp at h

/-- The first continuation byte is one of those that the leading byte admits. -/
theorem exists_of_collect {low high : UInt8} {count bits v : ℕ} {rest rest' : Bytes}
    (h : collect low high (count + 1) bits rest = (some v, rest')) :
    ∃ n, low.toNat ≤ n ∧ n ≤ high.toNat ∧ (64 * bits + n % 64) * 64 ^ count ≤ v ∧
      v < (64 * bits + n % 64 + 1) * 64 ^ count := by
  cases rest with
  | nil => simp [collect] at h
  | cons b rest =>
    rw [collect] at h
    split at h
    · next hle =>
      exact ⟨b.toNat, UInt8.le_iff_toNat_le.mp hle.1, UInt8.le_iff_toNat_le.mp hle.2,
        collect_bounds h⟩
    · simp at h

theorem toNat_ofNat_char {v : ℕ} (hv : v.isValidChar) : (Char.ofNat v).toNat = v := by
  rw [Char.ofNat, dif_pos hv]
  rfl

theorem ofNat_ne_zero {v : ℕ} (hpos : 0 < v) (hv : v < 0xD800 ∨ 0xDFFF < v ∧ v < 0x110000) :
    Char.ofNat v ≠ Char.ofNat 0 := by
  intro h
  have hval := congrArg Char.toNat h
  rw [toNat_ofNat_char hv] at hval
  exact Nat.ne_of_gt hpos hval

/-- What a leading byte announces is a character, and not the zero one: a zero byte announces
itself, and the narrowed ranges leave out everything that is no code point. -/
theorem lead?_sound {b : UInt8} {lead : Lead} (h : lead? b = some lead) :
    (lead.tail = 0 ∧ lead.bits = b.toNat ∧ b.toNat < 0x80) ∨
      ∃ count, lead.tail = count + 1 ∧ ∀ n v, lead.low.toNat ≤ n → n ≤ lead.high.toNat →
        (64 * lead.bits + n % 64) * 64 ^ count ≤ v →
        v < (64 * lead.bits + n % 64 + 1) * 64 ^ count →
        0 < v ∧ (v < 0xD800 ∨ 0xDFFF < v ∧ v < 0x110000) := by
  simp only [lead?] at h
  split_ifs at h <;> cases h
  · exact .inl ⟨rfl, rfl, by assumption⟩
  all_goals
    refine .inr ⟨_, rfl, fun n v hlow hhigh h₁ h₂ => ?_⟩
    simp only [UInt8.reduceToNat] at hlow hhigh
    dsimp only at h₁ h₂
    omega

/-- Only the zero byte is read as the zero character. -/
theorem next_ne_zero {b : UInt8} (hb : b ≠ 0) (rest : Bytes) :
    (next b rest).1 ≠ Char.ofNat 0 := by
  have hreplacement : replacement ≠ Char.ofNat 0 := by decide
  rw [next]
  cases hlead : lead? b with
  | none => exact hreplacement
  | some lead =>
    dsimp only
    split
    · next v rest' hcollect =>
      obtain ⟨htail, hbits, hlt⟩ | ⟨count, htail, hsound⟩ := lead?_sound hlead
      · rw [htail, collect, hbits] at hcollect
        cases hcollect
        refine ofNat_ne_zero ?_ (by omega)
        rw [Nat.pos_iff_ne_zero]
        exact fun h => hb (UInt8.toNat_inj.mp h)
      · rw [htail] at hcollect
        obtain ⟨n, hlow, hhigh, h₁, h₂⟩ := exists_of_collect hcollect
        obtain ⟨hpos, hv⟩ := hsound n v hlow hhigh h₁ h₂
        exact ofNat_ne_zero hpos hv
    · exact hreplacement

theorem zero_not_mem_chars {bytes : Bytes} (h : (0 : UInt8) ∉ bytes) :
    Char.ofNat 0 ∉ chars bytes := by
  fun_induction chars bytes with
  | case1 => exact List.not_mem_nil
  | case2 b rest ih =>
    rw [List.mem_cons, not_or] at h ⊢
    refine ⟨(next_ne_zero (Ne.symm h.1) rest).symm, ih fun hmem => h.2 ?_⟩
    exact (next_suffix b rest).subset hmem

/-- Bytes without a zero are read as a plain text. -/
theorem isPlain_decode {bytes : Bytes} (h : (0 : UInt8) ∉ bytes) : IsPlain (decode bytes) := by
  rw [IsPlain, decode, String.toList_ofList]
  exact zero_not_mem_chars h

/-- Only nothing is read as an empty text. -/
theorem decode_eq_empty {bytes : Bytes} : decode bytes = "" ↔ bytes = [] := by
  cases bytes with
  | nil => simp [decode, chars]
  | cons b rest => simp [decode, chars]

end Utf8

/-! ### Names in streams -/

namespace Names

open Run Reading

variable {s t : Stream} {bytes rest : Bytes} {name : String} {names : List String}
  {limit start size relative k : ℕ}

/-- A name as it is written. -/
def terminated (name : String) : Bytes := Utf8.encode name ++ [0]

/-- Where names start that are written one after the other, the first at `k`. -/
def starts : ℕ → List String → List ℕ
  | _, [] => []
  | k, name :: names => k :: starts (k + (terminated name).length) names

theorem beforeZero_append (h : (0 : UInt8) ∉ bytes) :
    Reader.beforeZero (bytes ++ 0 :: rest) = bytes := by
  induction bytes with
  | nil => rfl
  | cons b bytes ih =>
    rw [List.mem_cons, not_or] at h
    rw [Reader.beforeZero, List.cons_append,
      List.takeWhile_cons_of_pos (p := (· != 0)) (bne_iff_ne.mpr (Ne.symm h.1))]
    exact congrArg (b :: ·) (ih h.2)

theorem zero_not_mem_beforeZero (bytes : Bytes) : (0 : UInt8) ∉ Reader.beforeZero bytes := by
  intro h
  have := List.mem_takeWhile_imp h
  simp at this

/-- A name in front of what is ahead is read, when a limit leaves room for its zero. -/
theorem terminatedString_of_ahead {limit : Option ℕ} (hplain : Utf8.IsPlain name)
    (h : s.ahead = terminated name ++ rest) (hlimit : ∀ l ∈ limit, (terminated name).length ≤ l) :
    Reader.terminatedString limit s = .ok name (s.advance (terminated name).length) := by
  have hfound : ∀ behind, Reader.beforeZero (Utf8.encode name ++ 0 :: behind) = Utf8.encode name :=
    fun _ => beforeZero_append (Utf8.zero_not_mem_encode hplain)
  have hahead : s.ahead = Utf8.encode name ++ 0 :: rest := by
    rw [h, terminated, List.append_assoc]
    rfl
  have hlength : (terminated name).length = (Utf8.encode name).length + 1 := by
    rw [terminated, List.length_append, List.length_singleton]
  have hbytes : Reader.terminatedBytes limit s
      = .ok (Utf8.encode name) (s.advance (terminated name).length) := by
    cases limit with
    | none =>
      simp only [Reader.terminatedBytes, hahead, hfound]
      rw [if_pos (by simp), hlength]
    | some l =>
      -- what the limit leaves still holds the name and its zero
      have hwindow : s.ahead.take l
          = Utf8.encode name ++ 0 :: rest.take (l - (terminated name).length) := by
        rw [h, List.take_append, List.take_of_length_le (hlimit l rfl), terminated,
          List.append_assoc]
        rfl
      simp only [Reader.terminatedBytes, hwindow, hfound]
      rw [if_pos (by simp), hlength]
  simp only [Reader.terminatedString, bind_eq_ok, pure_eq_ok, hbytes]
  exact ⟨_, _, rfl, (Utf8.decode_encode name).symm, rfl⟩

theorem of_terminatedBytes {limit : Option ℕ} {found : Bytes}
    (h : Reader.terminatedBytes limit s = .ok found t) : (0 : UInt8) ∉ found := by
  unfold Reader.terminatedBytes at h
  dsimp only at h
  split_ifs at h <;> cases h <;> exact zero_not_mem_beforeZero _

theorem of_terminatedString {limit : Option ℕ} (h : Reader.terminatedString limit s = .ok name t) :
    Utf8.IsPlain name := by
  simp only [Reader.terminatedString, bind_eq_ok, pure_eq_ok] at h
  obtain ⟨found, _, hfound, rfl, -⟩ := h
  exact Utf8.isPlain_decode (of_terminatedBytes hfound)

/-- A name inside a block is read, from any position of the stream. -/
theorem nameInBlob_of_drop (hs : s.IsOver bytes) (hplain : Utf8.IsPlain name)
    (hfit : start + size ≤ bytes.length) (hmax : start + size ≤ Word.max)
    (hsize : relative + (terminated name).length ≤ size)
    (hat : bytes.drop (start + relative) = terminated name ++ rest) :
    ∃ t, Reader.nameInBlob start size relative s = .ok name t ∧ t.IsOver bytes := by
  have hpos : 0 < (terminated name).length := by simp [terminated]
  have hseek : ({ s with position := start + relative } : Stream).ahead
      = terminated name ++ rest := by
    rw [(Stream.isOver_goto hs).ahead_eq, ← hat]
  refine ⟨Stream.advance { s with position := start + relative } (terminated name).length, ?_,
    Stream.isOver_advance (Stream.isOver_goto hs)⟩
  rw [Reader.nameInBlob, guard_eq_ok]
  refine ⟨by omega, ?_⟩
  simp only [bind_eq_ok, liftExcept_eq_ok, seek_eq_ok]
  exact ⟨start + relative, s, ⟨Checked.sum_of_le (by omega), rfl⟩, (), _,
    ⟨by rw [hs.length_eq]; omega, rfl⟩, size - relative, _,
    ⟨Checked.difference_of_le (by omega), rfl⟩,
    terminatedString_of_ahead hplain hseek fun _ hlimit => by cases hlimit; omega⟩

theorem of_nameInBlob (h : Reader.nameInBlob start size relative s = .ok name t) :
    Utf8.IsPlain name := by
  rw [Reader.nameInBlob, guard_eq_ok] at h
  simp only [bind_eq_ok] at h
  obtain ⟨-, _, _, -, _, _, -, _, _, -, h⟩ := h
  exact of_terminatedString h

theorem forall₂_starts (hplain : ∀ name ∈ names, Utf8.IsPlain name)
    (hfit : start + size ≤ bytes.length) (hmax : start + size ≤ Word.max)
    (hsize : k + (names.flatMap terminated).length ≤ size)
    (hat : bytes.drop (start + k) = names.flatMap terminated ++ rest) :
    List.Forall₂ (fun relative name => ∀ s : Stream, s.IsOver bytes →
      ∃ t, Reader.nameInBlob start size relative s = .ok name t ∧ t.IsOver bytes)
      (starts k names) names := by
  induction names generalizing k with
  | nil => exact .nil
  | cons name names ih =>
    rw [List.flatMap_cons, List.length_append] at hsize
    rw [List.flatMap_cons, List.append_assoc] at hat
    refine .cons ?_ (ih (fun n hn => hplain n (List.mem_cons_of_mem _ hn)) (by omega) ?_)
    · intro s hs
      exact nameInBlob_of_drop hs (hplain name List.mem_cons_self) hfit hmax (by omega) hat
    · rw [← Nat.add_assoc, ← List.drop_drop, hat, List.drop_left]

/-- **A block of names is read back.** -/
theorem namesFromBlob_of_starts (start size : ℕ) (hs : s.IsOver bytes)
    (hplain : ∀ name ∈ names, Utf8.IsPlain name)
    (hfit : start + size ≤ bytes.length) (hmax : start + size ≤ Word.max)
    (hsize : (names.flatMap terminated).length ≤ size)
    (hat : bytes.drop start = names.flatMap terminated ++ rest) :
    ∃ t, Reader.namesFromBlob start size (starts 0 names) s = .ok names t ∧ t.IsOver bytes := by
  obtain ⟨t, ht, hover⟩ := mapM_of_forall₂
    (forall₂_starts (k := 0) hplain hfit hmax (by omega) hat) hs
  refine ⟨t, ?_, hover⟩
  simp only [Reader.namesFromBlob, bind_eq_ok, checkRange_eq_ok]
  exact ⟨(), s, ⟨by rwa [hs.length_eq], hmax, rfl⟩, ht⟩

theorem keeps_terminatedBytes (limit : Option ℕ) :
    Keeps Stream.source (Reader.terminatedBytes limit) := by
  intro s
  unfold after Reader.terminatedBytes
  dsimp only
  split_ifs
  · rfl
  · rfl
  · exact Stream.source_exhausted _
  · exact Stream.source_exhausted _

theorem keeps_nameInBlob (start size relative : ℕ) :
    Keeps Stream.source (Reader.nameInBlob start size relative) := by
  rw [Reader.nameInBlob]
  refine Keeps.guard ?_
  exact (keeps_liftExcept _).bind fun _ => (keeps_seek _).bind fun _ =>
    (keeps_liftExcept _).bind fun _ => (keeps_terminatedBytes _).bind fun _ => keeps_pure _

/-- Names that are read from a block are plain, and there is one for each place. -/
theorem ensures_namesFromBlob {source : Bytes × ByteOrder × Option ℕ} (start size : ℕ)
    (offsets : List ℕ) :
    Ensures Stream.source source
      (fun names => names.length = offsets.length ∧ ∀ name ∈ names, Utf8.IsPlain name)
      (Reader.namesFromBlob start size offsets) := by
  refine (keeps_checkRange _ _ _).then fun _ => ?_
  have hname : ∀ relative ∈ offsets, Ensures Stream.source source Utf8.IsPlain
      (Reader.nameInBlob start size relative) :=
    fun relative _ => (keeps_nameInBlob _ _ _).ensures fun _ _ _ h => of_nameInBlob h
  refine (ensures_mapM hname).mono fun names ⟨hlength, hnames⟩ => ⟨hlength, fun name hmem => ?_⟩
  obtain ⟨_, -, hplain⟩ := hnames name hmem
  exact hplain

end Names

end Packfile
