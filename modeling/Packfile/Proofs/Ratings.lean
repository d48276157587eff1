import Packfile.Proofs.OfsRoundTrip
import Packfile.Proofs.TreReading
import Packfile.Registry

/-!
# What makes a format a candidate

A rating ticks off checks of different weights, and the standard threshold is the weight of a magic.
The other checks of a format weigh less than that together, the extension of the file included, so a
format reaches the threshold by its magic or not at all. But a rating that fails scores nothing, and
it fails when the numbers behind the magic are not all there. So a format with a magic is a candidate
for exactly the streams that start with it and are long enough for its header; a TRE header has to
parse besides. The format without a magic is a candidate for exactly the streams that start with a
consistent table of offsets.

## How it is shown

For each format there are two lemmas. `ensures_rate` says what the total of a rating that succeeds
has to do with the magic: the card `Weighs` the magic, whatever the numbers behind it are.
`succeeds_rate` says for which streams a rating succeeds. `Format.isCandidate_iff_of_weighs` puts the
two together.

## Main definitions

* `ScoreCard.Weighs` — cards that reach the weight of a magic exactly if there is one
* `Format.confidence`, `Format.IsCandidate` — the score of a stream, and whether it is enough
* `Format.IsPure` — scoring leaves the stream as it was
* `Registry.candidates` — the formats that reach the threshold of a registry
* `Ofs.HasTable`, `Tre.HasHeader` — what stands in for a magic, and for more than a magic

## Main results

* `Format.score_eq` — scoring never fails and leaves the stream as it was
* `Xarc.isCandidate_iff` and its kin — the candidates, by content
-/

namespace Packfile

open Run Reading

/-! ### Whether a run succeeds -/

namespace Run

variable {ε σ ν α β : Type} {x : EStateM ε σ α} {f : α → EStateM ε σ β} {s t : σ} {a : α}

/-- The run ends with a value. -/
def Succeeds (x : EStateM ε σ α) (s : σ) : Prop := ∃ a t, x s = .ok a t

theorem succeeds_pure (a : α) (s : σ) : Succeeds (pure a : EStateM ε σ α) s := ⟨a, s, rfl⟩

theorem succeeds_bind (h : x s = .ok a t) : Succeeds (x >>= f) s ↔ Succeeds (f a) t := by
  rw [Succeeds, Succeeds, bind_of_ok h]

theorem succeeds_bind_iff :
    Succeeds (x >>= f) s ↔ ∃ a t, x s = .ok a t ∧ Succeeds (f a) t := by
  constructor
  · rintro ⟨b, u, h⟩
    obtain ⟨a, t, hx, hf⟩ := bind_eq_ok.mp h
    exact ⟨a, t, hx, b, u, hf⟩
  · rintro ⟨a, t, hx, hf⟩
    rwa [succeeds_bind hx]

theorem Succeeds.bind (h : x s = .ok a t) (hf : Succeeds (f a) t) : Succeeds (x >>= f) s :=
  (succeeds_bind h).mpr hf

/-- A check in front of what comes next lets it pass or not. -/
theorem succeeds_guard {c : Prop} [Decidable c] {e : ε} {f : Unit → EStateM ε σ β} :
    Succeeds (if c then (throw e : EStateM ε σ Unit) >>= f else f ()) s ↔ ¬ c ∧ Succeeds (f ()) s := by
  simp only [Succeeds, guard_eq_ok, exists_and_left]

theorem Succeeds.of_bind (h : Succeeds (x >>= f) s) : Succeeds x s := by
  obtain ⟨_, _, h⟩ := h
  obtain ⟨a, t, hx, -⟩ := bind_eq_ok.mp h
  exact ⟨a, t, hx⟩

/-- What ensures something whatever is in view keeps what is in view. -/
theorem Ensures.keeps {view : σ → ν} {P : ν → α → Prop} (h : ∀ i, Ensures view i (P i) x) :
    Keeps view x := fun s => (h (view s) s rfl).1

end Run

/-! ### Cards -/

namespace ScoreCard

variable {M : Prop} {n k : ℕ} {card : ScoreCard}

/-- With the magic the card reaches the weight of a magic. Without it there are `others` on it at
most. -/
structure Weighs (M : Prop) (others : ℕ) (card : ScoreCard) : Prop where
  /-- With the magic. -/
  le_total : M → magicWeight ≤ card.total
  /-- Without the magic. -/
  total_le : ¬ M → card.total ≤ others

theorem weighs_blank : blank.Weighs False 0 := ⟨False.elim, fun _ => Nat.le_refl 0⟩

theorem total_check (card : ScoreCard) (passed : Bool) (weight : ℕ) :
    (card.check passed weight).total =
      if passed then min (card.total + weight) maxTotal else card.total := by
  cases passed <;> rfl

/-- A check that has nothing to do with the magic adds its weight to the others. -/
theorem Weighs.check (h : card.Weighs M n) (passed : Bool) (weight : ℕ) :
    (card.check passed weight).Weighs M (n + weight) := by
  have hmax : magicWeight ≤ maxTotal := by decide
  refine ⟨fun hM => ?_, fun hM => ?_⟩
  · have := h.le_total hM
    rw [total_check]
    split <;> omega
  · have := h.total_le hM
    rw [total_check]
    split <;> omega

/-- A check that is worth a magic. -/
theorem Weighs.decisive (h : card.Weighs False n) (passed : Bool) :
    (card.check passed magicWeight).Weighs (passed = true) n := by
  have hmax : magicWeight ≤ maxTotal := by decide
  have htotal := h.total_le not_false
  cases passed with
  | true =>
    refine ⟨fun _ => ?_, fun hn => absurd rfl hn⟩
    rw [total_check, if_pos rfl]
    omega
  | false => exact ⟨fun hM => absurd hM Bool.false_ne_true, fun _ => htotal⟩

/-- The check for the magic itself. -/
theorem Weighs.magic (h : card.Weighs False n) (found expected : Bytes) :
    (card.magic found expected).Weighs (found = expected) n := by
  have hdecisive := h.decisive (found == expected)
  rwa [beq_iff_eq] at hdecisive

theorem Weighs.extension (h : card.Weighs M n) (source : Location) (extensions : List String) :
    (card.extension source extensions).Weighs M (n + extensionWeight) := h.check _ _

theorem Weighs.sensible (h : card.Weighs M n) (passed : Bool) :
    (card.sensible passed).Weighs M (n + sensibleWeight) := h.check _ _

theorem Weighs.mono (h : card.Weighs M n) (hle : n ≤ k) : card.Weighs M k :=
  ⟨h.le_total, fun hM => Nat.le_trans (h.total_le hM) hle⟩

/-- The magic decides as long as the others weigh less. -/
theorem Weighs.le_total_iff (h : card.Weighs M n) (hn : n < magicWeight) :
    magicWeight ≤ card.total ↔ M := by
  refine ⟨fun hle => ?_, h.le_total⟩
  by_contra hM
  exact Nat.not_lt.mpr hle (Nat.lt_of_le_of_lt (h.total_le hM) hn)

end ScoreCard

/-! ### Scores -/

/-- The confidence that the stream is in the format. -/
def Format.confidence (format : Format) (source : Location) (s : Stream) : Confidence :=
  match format.score source s with
  | .ok confidence _ => confidence
  | .error _ _ => .zero

/-- The formats of a registry that reach its threshold, in the order of the registry. -/
def Registry.candidates (registry : Registry) (source : Location) (s : Stream) : List Format :=
  registry.formats.filter fun format => (format.confidence source s).reaches registry.threshold

namespace Format

variable {format : Format} {source : Location} {s : Stream} {bytes : Bytes} {M : Prop} {n size : ℕ}

/-- The confidence reaches the standard threshold. -/
def IsCandidate (format : Format) (source : Location) (s : Stream) : Prop :=
  (format.confidence source s).reaches Registry.standard.threshold = true
/-- The confidence is what the card shows, and none if there is no card. -/
theorem confidence_eq : format.confidence source s =
    match format.rate source s with
    | .ok card _ => card.confidence
    | .error _ _ => .zero := by
  rw [confidence, score, Reader.score, Reader.restoring]
  cases format.rate source s <;> rfl

/-- Scoring never fails, and leaves the stream as it was. -/
theorem score_eq (h : Keeps Stream.source (format.rate source)) (s : Stream) :
    format.score source s = .ok (format.confidence source s) s := by
  have hback (t : Stream) (ht : t.source = s.source) :
      ({ t with position := s.position } : Stream) = s := by
    simp only [Stream.source, Prod.mk.injEq] at ht
    obtain ⟨hbytes, horder, hfail⟩ := ht
    obtain ⟨bytes, position, order, failAt⟩ := s
    simp only [hbytes, horder, hfail]
  have hafter := h s
  unfold after at hafter
  rw [confidence_eq, score, Reader.score, Reader.restoring]
  cases hrate : format.rate source s with
  | ok card t =>
    rw [hrate] at hafter
    exact congrArg _ (hback t hafter)
  | error e t =>
    rw [hrate] at hafter
    exact congrArg _ (hback t hafter)

/-- Scoring leaves every stream as it was. -/
def IsPure (format : Format) : Prop :=
  ∀ source s, format.score source s = .ok (format.confidence source s) s

theorem isCandidate_iff :
    format.IsCandidate source s ↔
      ∃ card t, format.rate source s = .ok card t ∧ ScoreCard.magicWeight ≤ card.total := by
  have hmagic : ScoreCard.magicWeight = 50 := rfl
  have hthreshold : Registry.standard.threshold = 50 := rfl
  rw [IsCandidate, confidence_eq, Confidence.reaches, decide_eq_true_iff]
  cases hrate : format.rate source s with
  | ok card t =>
    have hmin : 50 ≤ min card.total 100 ↔ 50 ≤ card.total := by omega
    simp only [ScoreCard.confidence, Confidence.ofNat, hmagic, hthreshold, hmin]
    exact ⟨fun h => ⟨card, t, rfl, h⟩, fun ⟨_, _, heq, h⟩ => by
      cases heq
      exact h⟩
  | error e t => simp [Confidence.zero, hthreshold]

/-- A format whose card weighs the magic is a candidate for the streams that have it and that can be
rated at all. -/
theorem isCandidate_iff_of_weighs (hs : s.IsOver bytes)
    (hweighs : Ensures Stream.source (bytes, .little, none) (ScoreCard.Weighs M n)
      (format.rate source)) (hn : n < ScoreCard.magicWeight) :
    format.IsCandidate source s ↔ M ∧ Succeeds (format.rate source) s := by
  rw [isCandidate_iff]
  constructor
  · rintro ⟨card, t, hrate, hle⟩
    have hcard := (hweighs.of_ok hs.source_eq hrate).2
    exact ⟨(hcard.le_total_iff hn).mp hle, card, t, hrate⟩
  · rintro ⟨hM, card, t, hrate⟩
    have hcard := (hweighs.of_ok hs.source_eq hrate).2
    exact ⟨card, t, hrate, (hcard.le_total_iff hn).mpr hM⟩

end Format

/-! ### The bytes at the start -/

namespace Reading

variable {s : Stream} {bytes : Bytes} {w : ℕ}

theorem ahead_prefix (s : Stream) : s.ahead <+: s.bytes.drop s.position := by
  unfold Stream.ahead
  split
  · exact List.prefix_rfl
  · exact List.take_prefix _ _

/-- The bytes at the start are what the stream starts with, on any storage that delivers them. -/
theorem ensures_leadingBytes (view : Bytes × ByteOrder × Option ℕ) (w : ℕ) :
    Ensures Stream.source view (· = view.1.take w) (Reader.leadingBytes w) := by
  intro s hs
  have hkeeps : Keeps Stream.source (Reader.leadingBytes w) :=
    (keeps_seek 0).bind fun _ => keeps_length.bind fun _ => keeps_bytes _
  refine ⟨(hkeeps s).trans hs, fun found t h => ?_⟩
  simp only [Reader.leadingBytes, bind_eq_ok, seek_eq_ok, length_eq_ok, bytes_eq_ok] at h
  obtain ⟨_, _, ⟨-, rfl⟩, _, _, ⟨rfl, rfl⟩, hlen, rfl, -⟩ := h
  rw [← hs]
  obtain ⟨tail, htail⟩ := ahead_prefix { s with position := 0 }
  rw [List.drop_zero] at htail
  rw [← List.take_append_of_le_length hlen, htail]
  show s.bytes.take (min s.bytes.length w) = s.bytes.take w
  rw [Nat.min_comm, ← List.take_take, List.take_length]

end Reading

/-! ### Rating healthy streams -/

namespace Stream

variable {s : Stream} {bytes : Bytes} {p w : ℕ}

/-- The healthy little-endian stream over `bytes` at a position. -/
def healthyAt (bytes : Bytes) (p : ℕ) : Stream := { ofBytes bytes with position := p }

theorem IsOver.eq_healthyAt (hs : s.IsOver bytes) : s = healthyAt bytes s.position := by
  obtain ⟨bytes, position, order, failAt⟩ := s
  obtain ⟨rfl, rfl, rfl⟩ := hs
  rfl

theorem isOver_healthyAt (bytes : Bytes) (p : ℕ) : (healthyAt bytes p).IsOver bytes :=
  ⟨rfl, rfl, rfl⟩

@[simp] theorem ahead_healthyAt : (healthyAt bytes p).ahead = bytes.drop p := rfl

@[simp] theorem advance_healthyAt : (healthyAt bytes p).advance w = healthyAt bytes (p + w) := rfl

@[simp] theorem length_healthyAt : (healthyAt bytes p).length = bytes.length := rfl

end Stream

namespace Reading

open Packfile.Stream

variable {bytes : Bytes} {p w : ℕ} {α : Type} {f : ℕ → Reader α} {a b : ℕ}

theorem seek_healthyAt (h : w ≤ bytes.length) :
    Reader.seek w (healthyAt bytes p) = .ok () (healthyAt bytes w) :=
  seek_eq_ok.mpr ⟨h, rfl⟩

theorem leadingBytes_healthyAt (w : ℕ) :
    Reader.leadingBytes w (healthyAt bytes p)
      = .ok (bytes.take w) (healthyAt bytes (min bytes.length w)) := by
  rw [Reader.leadingBytes, bind_of_ok (seek_healthyAt (Nat.zero_le _)),
    bind_of_ok (length_eq_ok.mpr ⟨rfl, rfl⟩), length_healthyAt]
  refine bytes_eq_ok.mpr ⟨?_, ?_, ?_⟩
  · exact Nat.min_le_left _ _
  · rw [ahead_healthyAt, List.drop_zero, Nat.min_comm, ← List.take_take, List.take_length]
  · rw [advance_healthyAt, Nat.zero_add]

theorem decode_take_lt (w : ℕ) (found : Bytes) :
    ByteOrder.little.decode (found.take w) < 256 ^ w :=
  Nat.lt_of_lt_of_le (ByteOrder.decode_lt .little _)
    (Nat.pow_le_pow_right (by decide) (List.length_take_le _ _))

/-- The integer of a width at a position. -/
def wordAt (bytes : Bytes) (p w : ℕ) : ℕ := ByteOrder.little.decode ((bytes.drop p).take w)

theorem wordAt_lt (bytes : Bytes) (p w : ℕ) : wordAt bytes p w < 256 ^ w := decode_take_lt w _

/-- An integer is read if it is there. -/
theorem succeeds_bind_word {body : Reader ℕ} (hw : 0 < w)
    (hbody : ∀ n t, body (healthyAt bytes p) = .ok n t ↔
      w ≤ (bytes.drop p).length ∧ n = wordAt bytes p w ∧ t = healthyAt bytes (p + w)) :
    Succeeds (body >>= f) (healthyAt bytes p) ↔
      p + w ≤ bytes.length ∧ Succeeds (f (wordAt bytes p w)) (healthyAt bytes (p + w)) := by
  rw [List.length_drop] at hbody
  constructor
  · intro h
    obtain ⟨n, t, hn⟩ := h.of_bind
    obtain ⟨hle, rfl, rfl⟩ := (hbody _ _).mp hn
    exact ⟨by omega, (succeeds_bind hn).mp h⟩
  · rintro ⟨hle, h⟩
    exact .bind ((hbody _ _).mpr ⟨by omega, rfl, rfl⟩) h

theorem succeeds_bind_u8 : Succeeds (Reader.u8 >>= f) (healthyAt bytes p) ↔
    p + 1 ≤ bytes.length ∧ Succeeds (f (wordAt bytes p 1)) (healthyAt bytes (p + 1)) :=
  succeeds_bind_word (by decide) fun _ _ => u8_eq_ok

theorem succeeds_bind_u16 : Succeeds (Reader.u16 >>= f) (healthyAt bytes p) ↔
    p + 2 ≤ bytes.length ∧ Succeeds (f (wordAt bytes p 2)) (healthyAt bytes (p + 2)) :=
  succeeds_bind_word (by decide) fun _ _ => u16_eq_ok

theorem succeeds_bind_u32 : Succeeds (Reader.u32 >>= f) (healthyAt bytes p) ↔
    p + 4 ≤ bytes.length ∧ Succeeds (f (wordAt bytes p 4)) (healthyAt bytes (p + 4)) :=
  succeeds_bind_word (by decide) fun _ _ => u32_eq_ok

theorem succeeds_bind_little32 : Succeeds (Reader.little32 >>= f) (healthyAt bytes p) ↔
    p + 4 ≤ bytes.length ∧ Succeeds (f (wordAt bytes p 4)) (healthyAt bytes (p + 4)) :=
  succeeds_bind_word (by decide) fun _ _ => wordIn_eq_ok

theorem succeeds_bind_length : Succeeds (Reader.length >>= f) (healthyAt bytes p) ↔
    Succeeds (f bytes.length) (healthyAt bytes p) :=
  succeeds_bind (length_eq_ok.mpr ⟨rfl, rfl⟩)

variable {s : Stream}

theorem succeeds_asRecord {body : Reader α} :
    Succeeds (Reader.asRecord body) s ↔ Succeeds body s := by
  simp only [Succeeds, asRecord_eq_ok]

theorem succeeds_bind_product (h : a * b ≤ Word.max) :
    Succeeds ((liftM (Checked.product a b) : Reader ℕ) >>= f) s ↔ Succeeds (f (a * b)) s :=
  succeeds_bind (liftExcept_eq_ok.mpr ⟨Checked.product_of_le h, rfl⟩)

theorem succeeds_bind_sum (h : a + b ≤ Word.max) :
    Succeeds ((liftM (Checked.sum a b) : Reader ℕ) >>= f) s ↔ Succeeds (f (a + b)) s :=
  succeeds_bind (liftExcept_eq_ok.mpr ⟨Checked.sum_of_le h, rfl⟩)

theorem succeeds_bind_difference (h : b ≤ a) :
    Succeeds ((liftM (Checked.difference a b) : Reader ℕ) >>= f) s ↔ Succeeds (f (a - b)) s :=
  succeeds_bind (liftExcept_eq_ok.mpr ⟨Checked.difference_of_le h, rfl⟩)

end Reading

/-! ### Formats with a magic of four bytes -/

section

variable {source : Location} {view : Bytes × ByteOrder × Option ℕ} {bytes : Bytes} {p : ℕ}
  {s : Stream}

/-- What an extension and three sensible numbers weigh. No format has more than that besides its
magic. -/
def ScoreCard.otherChecks : ℕ := extensionWeight + 3 * sensibleWeight

open ScoreCard Packfile.Stream

/-- A format whose magic decides is a candidate for the streams that start with the magic and are
long enough to be rated. -/
theorem Format.isCandidate_iff_of_magic {format : Format} {magic : Bytes} {size : ℕ}
    (hs : s.IsOver bytes)
    (hweighs : ∀ view, Ensures Stream.source view
      (Weighs (view.1.take magic.length = magic) otherChecks) (format.rate source))
    (hrate : ∀ p, Succeeds (format.rate source) (healthyAt bytes p) ↔ size ≤ bytes.length) :
    format.IsCandidate source s ↔ magic <+: bytes ∧ size ≤ bytes.length := by
  rw [isCandidate_iff_of_weighs hs (hweighs _) (by decide), hs.eq_healthyAt, hrate,
    List.prefix_iff_eq_take, @eq_comm _ magic]

namespace Lump

theorem ensures_rate : Ensures Stream.source view
    (Weighs (view.1.take magic.length = magic) otherChecks) (rate source) := by
  refine (ensures_leadingBytes view 4).bind fun found hfound => ?_
  subst hfound
  refine keeps_u32.then fun _ => keeps_length.then fun _ => ensures_pure ?_
  exact (((weighs_blank.magic _ _).extension _ _).sensible _).mono (by decide)

theorem succeeds_rate : Succeeds (rate source) (healthyAt bytes p) ↔ 8 ≤ bytes.length := by
  rw [rate, succeeds_bind (leadingBytes_healthyAt 4), succeeds_bind_u32, succeeds_bind_length]
  refine ⟨fun ⟨h, _⟩ => by omega, fun h => ⟨by omega, succeeds_pure _ _⟩⟩

theorem isCandidate_iff (hs : s.IsOver bytes) :
    format.IsCandidate source s ↔ magic <+: bytes ∧ 8 ≤ bytes.length :=
  Format.isCandidate_iff_of_magic hs (fun _ => ensures_rate) fun _ => succeeds_rate

end Lump

namespace Sprb

theorem ensures_rate : Ensures Stream.source view
    (Weighs (view.1.take magic.length = magic) otherChecks) (rate source) := by
  refine (ensures_leadingBytes view 4).bind fun found hfound => ?_
  subst hfound
  refine keeps_u16.then fun _ => keeps_u16.then fun _ => (keeps_liftExcept _).then fun _ =>
    (keeps_liftExcept _).then fun _ => (keeps_liftExcept _).then fun _ =>
    (keeps_liftExcept _).then fun _ => keeps_length.then fun _ => ensures_pure ?_
  exact (((weighs_blank.magic _ _).extension _ _).sensible _).mono (by decide)

theorem succeeds_rate : Succeeds (rate source) (healthyAt bytes p) ↔ 8 ≤ bytes.length := by
  rw [rate, succeeds_bind (leadingBytes_healthyAt 4), succeeds_bind_u16, succeeds_bind_u16]
  -- two numbers of 16 bits do not get near the greatest word
  have hmax := Word.max_eq
  have hslots := wordAt_lt bytes (min bytes.length 4) 2
  have hpalettes := wordAt_lt bytes (min bytes.length 4 + 2) 2
  rw [succeeds_bind_product (by rw [paletteSize]; omega), succeeds_bind_product (by omega),
    succeeds_bind_sum (by rw [headerSize, paletteSize]; omega),
    succeeds_bind_sum (by rw [headerSize, paletteSize]; omega), succeeds_bind_length]
  exact ⟨fun ⟨_, h, _⟩ => by omega, fun h => ⟨by omega, by omega, succeeds_pure _ _⟩⟩

theorem isCandidate_iff (hs : s.IsOver bytes) :
    format.IsCandidate source s ↔ magic <+: bytes ∧ 8 ≤ bytes.length :=
  Format.isCandidate_iff_of_magic hs (fun _ => ensures_rate) fun _ => succeeds_rate

end Sprb

namespace Dtre

theorem ensures_rate : Ensures Stream.source view
    (Weighs (view.1.take magic.length = magic) otherChecks) (rate source) := by
  refine (ensures_leadingBytes view 4).bind fun found hfound => ?_
  subst hfound
  have hcard (fits : Bool) :=
    ((weighs_blank.magic (view.1.take 4) magic).extension source extensions).sensible fits
  refine keeps_u32.then fun root => (keeps_liftExcept _).then fun stop =>
    keeps_length.then fun length => .ite (fun _ => ensures_pure ?_) fun _ => ?_
  · exact (hcard _).mono (by decide)
  · refine (keeps_seek _).then fun _ => keeps_u8.then fun kind => ensures_pure ?_
    exact ((hcard _).sensible _).mono (by decide)

theorem succeeds_rate : Succeeds (rate source) (healthyAt bytes p) ↔ 8 ≤ bytes.length := by
  rw [rate, succeeds_bind (leadingBytes_healthyAt 4), succeeds_bind_u32]
  have hmax := Word.max_eq
  have hroot := wordAt_lt bytes (min bytes.length 4) 4
  generalize wordAt bytes (min bytes.length 4) 4 = root at *
  rw [succeeds_bind_sum (by rw [minNodeSize]; omega), succeeds_bind_length]
  refine ⟨fun ⟨h, _⟩ => by omega, fun h => ⟨by omega, ?_⟩⟩
  -- the kind of the root is only read if there is a root
  by_cases hfits : root + minNodeSize ≤ bytes.length
  · have hroot : root + 1 ≤ bytes.length := by
      rw [minNodeSize] at hfits
      omega
    simp only [hfits, decide_true, Bool.not_true, Bool.false_eq_true, if_false]
    rw [succeeds_bind (seek_healthyAt (by omega)), succeeds_bind_u8]
    exact ⟨hroot, succeeds_pure _ _⟩
  · simp only [hfits, decide_false, Bool.not_false, if_true]
    exact succeeds_pure _ _

theorem isCandidate_iff (hs : s.IsOver bytes) :
    format.IsCandidate source s ↔ magic <+: bytes ∧ 8 ≤ bytes.length :=
  Format.isCandidate_iff_of_magic hs (fun _ => ensures_rate) fun _ => succeeds_rate

end Dtre

namespace Spk

theorem ensures_rate : Ensures Stream.source view
    (Weighs (view.1.take magic.length = magic) otherChecks) (rate source) := by
  refine (ensures_leadingBytes view 4).bind fun found hfound => ?_
  subst hfound
  refine keeps_u16.then fun _ => keeps_u16.then fun _ => keeps_u32.then fun _ =>
    (keeps_liftExcept _).then fun _ => (keeps_liftExcept _).then fun _ =>
    (keeps_liftExcept _).then fun _ => (keeps_liftExcept _).then fun _ =>
    keeps_length.then fun _ => ensures_pure ?_
  exact ((((weighs_blank.magic _ _).extension _ _).sensible _).sensible _).mono (by decide)

theorem succeeds_rate : Succeeds (rate source) (healthyAt bytes p) ↔ 12 ≤ bytes.length := by
  rw [rate, succeeds_bind (leadingBytes_healthyAt 4), succeeds_bind_u16, succeeds_bind_u16,
    succeeds_bind_u32]
  have hmax := Word.max_eq
  have hfolders := wordAt_lt bytes (min bytes.length 4 + 2) 2
  have hfiles := wordAt_lt bytes (min bytes.length 4 + 2 + 2) 4
  rw [succeeds_bind_product (by rw [folderSize]; omega),
    succeeds_bind_product (by rw [fileSize]; omega),
    succeeds_bind_sum (by rw [headerSize, folderSize]; omega),
    succeeds_bind_sum (by rw [headerSize, folderSize, fileSize]; omega), succeeds_bind_length]
  exact ⟨fun ⟨_, _, h, _⟩ => by omega,
    fun h => ⟨by omega, by omega, by omega, succeeds_pure _ _⟩⟩

theorem isCandidate_iff (hs : s.IsOver bytes) :
    format.IsCandidate source s ↔ magic <+: bytes ∧ 12 ≤ bytes.length :=
  Format.isCandidate_iff_of_magic hs (fun _ => ensures_rate) fun _ => succeeds_rate

end Spk

namespace Rpak

theorem ensures_rate : Ensures Stream.source view
    (Weighs (view.1.take magic.length = magic) otherChecks) (rate source) := by
  refine (ensures_leadingBytes view 4).bind fun found hfound => ?_
  subst hfound
  refine keeps_u32.then fun _ => keeps_u32.then fun _ => keeps_u32.then fun _ =>
    (keeps_liftExcept _).then fun _ => (keeps_liftExcept _).then fun _ =>
    keeps_length.then fun _ => ensures_pure ?_
  exact (((((weighs_blank.magic _ _).extension _ _).sensible _).sensible _).sensible _).mono
    (by decide)

theorem succeeds_rate : Succeeds (rate source) (healthyAt bytes p) ↔ 16 ≤ bytes.length := by
  rw [rate, succeeds_bind (leadingBytes_healthyAt 4), succeeds_bind_u32, succeeds_bind_u32,
    succeeds_bind_u32]
  have hmax := Word.max_eq
  have hcount := wordAt_lt bytes (min bytes.length 4 + 4) 4
  have hdirectory := wordAt_lt bytes (min bytes.length 4 + 4 + 4) 4
  rw [succeeds_bind_product (by rw [slotSize]; omega),
    succeeds_bind_sum (by rw [headerSize]; omega), succeeds_bind_length]
  exact ⟨fun ⟨_, _, h, _⟩ => by omega,
    fun h => ⟨by omega, by omega, by omega, succeeds_pure _ _⟩⟩

theorem isCandidate_iff (hs : s.IsOver bytes) :
    format.IsCandidate source s ↔ magic <+: bytes ∧ 16 ≤ bytes.length :=
  Format.isCandidate_iff_of_magic hs (fun _ => ensures_rate) fun _ => succeeds_rate

end Rpak

namespace Xarc

theorem ensures_rate : Ensures Stream.source view
    (Weighs (view.1.take magic.length = magic) otherChecks) (rate source) := by
  refine (ensures_leadingBytes view 4).bind fun found hfound => ?_
  subst hfound
  have hcard (fits : Bool) :=
    ((weighs_blank.magic (view.1.take 4) magic).extension source extensions).sensible fits
  refine keeps_u32.then fun count => keeps_length.then fun length =>
    (keeps_liftExcept _).then fun table => (keeps_liftExcept _).then fun blobStart =>
    .ite (fun _ => ensures_pure ?_) fun _ => ?_
  · exact (hcard _).mono (by decide)
  · refine keeps_u32.then fun offset => keeps_u32.then fun size => (keeps_liftExcept _).then fun _ =>
      keeps_u32.then fun nameOffset => (keeps_liftExcept _).then fun _ => ensures_pure ?_
    exact (((hcard _).sensible _).sensible _).mono (by decide)

theorem succeeds_rate : Succeeds (rate source) (healthyAt bytes p) ↔ 8 ≤ bytes.length := by
  rw [rate, succeeds_bind (leadingBytes_healthyAt 4), succeeds_bind_u32, succeeds_bind_length]
  have hmax := Word.max_eq
  have hcount := wordAt_lt bytes (min bytes.length 4) 4
  generalize wordAt bytes (min bytes.length 4) 4 = count at *
  rw [succeeds_bind_product (by rw [recordSize]; omega),
    succeeds_bind_sum (by rw [headerSize, recordSize]; omega)]
  refine ⟨fun ⟨h, _⟩ => by omega, fun h => ⟨by omega, ?_⟩⟩
  -- a first record is only read if there is one
  by_cases hnone : (count = 0 || bytes.length < headerSize + count * recordSize) = true
  · rw [if_pos hnone]
    exact succeeds_pure _ _
  · rw [if_neg hnone]
    rw [Bool.or_eq_true, decide_eq_true_eq, decide_eq_true_eq, not_or, headerSize, recordSize]
      at hnone
    have hoffset := wordAt_lt bytes (min bytes.length 4 + 4) 4
    have hsize := wordAt_lt bytes (min bytes.length 4 + 4 + 4) 4
    refine succeeds_bind_u32.mpr ⟨by omega, succeeds_bind_u32.mpr ⟨by omega, ?_⟩⟩
    rw [succeeds_bind_sum (by omega)]
    refine succeeds_bind_u32.mpr ⟨by omega, ?_⟩
    rw [succeeds_bind_difference (by rw [headerSize, recordSize]; omega)]
    exact succeeds_pure _ _

theorem isCandidate_iff (hs : s.IsOver bytes) :
    format.IsCandidate source s ↔ magic <+: bytes ∧ 8 ≤ bytes.length :=
  Format.isCandidate_iff_of_magic hs (fun _ => ensures_rate) fun _ => succeeds_rate

end Xarc

end

/-! ### A magic with a header behind it -/

namespace Tre

open ScoreCard Packfile.Stream

variable {source : Location} {view : Bytes × ByteOrder × Option ℕ} {bytes : Bytes} {p : ℕ}
  {s : Stream}

/-- A byte string starts with a header: the magic, and two known compressions in the words that say
how the blocks of records and of names are compressed. -/
structure HasHeader (bytes : Bytes) : Prop where
  /-- The magic is there. -/
  starts : magic <+: bytes
  /-- The header is all there. -/
  fits : headerSize ≤ bytes.length
  /-- The compression of the records is known. -/
  records : ∃ c : Compression, wordAt bytes 16 4 = c.code
  /-- The compression of the names is known. -/
  names : ∃ c : Compression, wordAt bytes 24 4 = c.code

theorem Compression.ofCode?_eq_some {n : ℕ} {c : Compression} :
    Compression.ofCode? n = some c ↔ n = c.code := by
  refine ⟨fun h => ?_, fun h => h ▸ ofCode?_code c⟩
  unfold ofCode? at h
  split_ifs at h with hnone hzlib
  · cases h
    exact hnone
  · cases h
    exact hzlib

theorem treCompression_eq_ok {t : Stream} {c : Compression} :
    Reader.treCompression s = .ok c t ↔ 4 ≤ s.ahead.length ∧
      ByteOrder.little.decode (s.ahead.take 4) = c.code ∧ t = s.advance 4 := by
  simp only [Reader.treCompression, bind_eq_ok, offset_eq_ok, Reader.little32, wordIn_eq_ok]
  constructor
  · rintro ⟨_, _, ⟨rfl, rfl⟩, code, _, ⟨hlen, hword, rfl⟩, h⟩
    cases hcode : Compression.ofCode? code with
    | some compression =>
      rw [hcode, pure_eq_ok] at h
      obtain ⟨rfl, rfl⟩ := h
      exact ⟨hlen, hword.symm.trans (Compression.ofCode?_eq_some.mp hcode), rfl⟩
    | none =>
      rw [hcode] at h
      exact (throw_eq_ok.mp h).elim
  · rintro ⟨hlen, hcode, rfl⟩
    refine ⟨_, _, ⟨rfl, rfl⟩, _, _, ⟨hlen, rfl, rfl⟩, ?_⟩
    rw [hcode, Compression.ofCode?_code]
    rfl

theorem succeeds_bind_treCompression {α : Type} {f : Compression → Reader α} :
    Succeeds (Reader.treCompression >>= f) (healthyAt bytes p) ↔ p + 4 ≤ bytes.length ∧
      ∃ c : Compression, wordAt bytes p 4 = c.code ∧ Succeeds (f c) (healthyAt bytes (p + 4)) := by
  rw [succeeds_bind_iff]
  simp only [treCompression_eq_ok, ahead_healthyAt, advance_healthyAt, List.length_drop]
  constructor
  · rintro ⟨c, _, ⟨hlen, hcode, rfl⟩, h⟩
    exact ⟨by omega, c, hcode, h⟩
  · rintro ⟨hlen, c, hcode, h⟩
    exact ⟨c, _, ⟨by omega, hcode, rfl⟩, h⟩

/-- A header is read from the streams that start with one. -/
theorem succeeds_treHeader : Succeeds Reader.treHeader (healthyAt bytes 0) ↔ HasHeader bytes := by
  have hmagic : Reader.exactly magic.length (healthyAt bytes 0)
      = .ok (bytes.take 8) (healthyAt bytes 8) ↔ 8 ≤ bytes.length := by
    rw [exactly_eq_ok]
    exact ⟨fun h => h.1, fun h => ⟨h, rfl, rfl⟩⟩
  rw [Reader.treHeader, succeeds_asRecord, succeeds_bind (offset_eq_ok.mpr ⟨rfl, rfl⟩)]
  constructor
  · intro h
    have hlen : 8 ≤ bytes.length := by
      obtain ⟨found, t, hfound⟩ := h.of_bind
      exact (exactly_eq_ok.mp hfound).1
    rw [succeeds_bind (hmagic.mpr hlen), succeeds_guard] at h
    obtain ⟨hfound, h⟩ := h
    simp only [succeeds_bind_little32, succeeds_bind_treCompression] at h
    obtain ⟨-, -, -, c, hc, -, -, c', hc', -, hfits, -⟩ := h
    refine ⟨?_, hfits, ⟨c, hc⟩, ⟨c', hc'⟩⟩
    rw [bne_iff_ne, ne_eq, Decidable.not_not] at hfound
    exact List.prefix_iff_eq_take.mpr hfound.symm
  · rintro ⟨hstarts, hfits, ⟨c, hc⟩, ⟨c', hc'⟩⟩
    rw [headerSize] at hfits
    rw [succeeds_bind (hmagic.mpr (by omega)), succeeds_guard]
    refine ⟨?_, ?_⟩
    · rw [bne_iff_ne, ne_eq, Decidable.not_not]
      exact (List.prefix_iff_eq_take.mp hstarts).symm
    · simp only [succeeds_bind_little32, succeeds_bind_treCompression]
      exact ⟨by omega, by omega, by omega, c, hc, by omega, by omega, c', hc', by omega, by omega,
        succeeds_pure _ _⟩

theorem ensures_rate : Ensures Stream.source view
    (Weighs (view.1.take magic.length = magic) otherChecks) (rate source) := by
  refine (ensures_leadingBytes view 8).bind fun found hfound => ?_
  subst hfound
  have hcard := (weighs_blank.extension source extensions).magic (view.1.take magic.length) magic
  refine .ite (fun _ => ensures_pure ?_) fun _ => ?_
  · exact hcard.mono (by decide)
  · refine (keeps_seek _).then fun _ => keeps_treHeader.then fun header => keeps_length.then fun _ =>
      (keeps_liftExcept _).then fun _ => (keeps_liftExcept _).then fun _ => ensures_pure ?_
    exact (((hcard.sensible _).sensible _).sensible _).mono (by decide)

/-- A stream with the magic is rated if it has a header. -/
theorem succeeds_rate (h : magic <+: bytes) :
    Succeeds (rate source) (healthyAt bytes p) ↔ HasHeader bytes := by
  have hmagic : ¬ (bytes.take magic.length != magic) = true := by
    rw [bne_iff_ne, ne_eq, Decidable.not_not]
    exact (List.prefix_iff_eq_take.mp h).symm
  rw [rate]
  dsimp only
  rw [succeeds_bind (leadingBytes_healthyAt magic.length), if_neg hmagic,
    succeeds_bind (seek_healthyAt (Nat.zero_le _)), ← succeeds_treHeader]
  refine ⟨Succeeds.of_bind, fun ⟨header, t, hheader⟩ => .bind hheader ?_⟩
  have hsource := (isOver_healthyAt bytes 0).source_eq
  obtain ⟨-, hnarrow⟩ := ensures_treHeader.of_ok hsource hheader
  have hrecords := hnarrow.records_lt
  have hmax := Word.max_eq
  refine .bind (length_eq_ok.mpr ⟨rfl, rfl⟩) ?_
  rw [succeeds_bind_product (by rw [recordSize]; omega)]
  exact .bind (liftExcept_eq_ok.mpr ⟨hnarrow.offsets_eq.2, rfl⟩) (succeeds_pure _ _)

theorem isCandidate_iff (hs : s.IsOver bytes) :
    format.IsCandidate source s ↔ HasHeader bytes := by
  rw [Format.isCandidate_iff_of_weighs hs ensures_rate (by decide), hs.eq_healthyAt,
    eq_comm, ← List.prefix_iff_eq_take]
  exact ⟨fun ⟨hmagic, h⟩ => (succeeds_rate hmagic).mp h,
    fun h => ⟨h.starts, (succeeds_rate h.starts).mpr h⟩⟩

end Tre

/-! ### A table in place of a magic -/

namespace Ofs

open ScoreCard Packfile.Stream

variable {source : Location} {bytes : Bytes} {p count : ℕ} {s : Stream}

/-- A byte string starts with a table of whole offsets that do not fall, from the end of the table
to the end of the byte string. -/
structure HasTable (bytes : Bytes) : Prop where
  /-- The first offset is there. -/
  first_le : 4 ≤ bytes.length
  /-- The first offset counts at least itself. -/
  le_first : 4 ≤ ByteOrder.little.decode (bytes.take 4)
  /-- The table consists of whole offsets. -/
  dvd_first : ByteOrder.little.decode (bytes.take 4) % 4 = 0
  /-- The table is there. -/
  table_le : ByteOrder.little.decode (bytes.take 4) ≤ bytes.length
  /-- The offsets do not fall. -/
  rising : (table bytes).IsChain (· ≤ ·)
  /-- The last offset is the end. -/
  end_eq : tableEnd bytes = bytes.length

/-- Offsets that are there are read, as far as they do not fall. -/
theorem exists_lastOfRising (previous : ℕ) (h : p + 4 * count ≤ bytes.length) :
    ∃ last? t, lastOfRising count previous (healthyAt bytes p) = .ok last? t ∧
      ∀ last, last? = some last ↔
        (previous :: Tables.words count (bytes.drop p)).IsChain (· ≤ ·) ∧
          (Tables.words count (bytes.drop p)).getLastD previous = last := by
  induction count generalizing p previous with
  | zero => exact ⟨some previous, healthyAt bytes p, rfl, by simp [Tables.words]⟩
  | succ count ih =>
    have hword : Reader.u32 (healthyAt bytes p)
        = .ok (wordAt bytes p 4) (healthyAt bytes (p + 4)) := by
      refine u32_eq_ok.mpr ⟨?_, rfl, rfl⟩
      rw [ahead_healthyAt, List.length_drop]
      omega
    have hwords : Tables.words (count + 1) (bytes.drop p)
        = wordAt bytes p 4 :: Tables.words count (bytes.drop (p + 4)) := by
      rw [Tables.words, List.drop_drop]
      rfl
    rw [lastOfRising, bind_of_ok hword, hwords]
    by_cases hfalls : wordAt bytes p 4 < previous
    · rw [if_pos hfalls]
      refine ⟨none, _, rfl, fun last => ?_⟩
      rw [List.isChain_cons_cons]
      simp only [reduceCtorEq, Nat.not_le.mpr hfalls, false_and]
    · rw [if_neg hfalls]
      obtain ⟨last?, t, hrest, hlast⟩ := ih (p := p + 4) (wordAt bytes p 4) (by omega)
      refine ⟨last?, t, hrest, fun last => ?_⟩
      rw [hlast, List.isChain_cons_cons, List.getLastD_cons]
      simp only [Nat.not_lt.mp hfalls, true_and]

theorem isMalformed_iff {first length : ℕ} :
    (decide (first < offsetSize) || first % offsetSize != 0 || decide (length < first)) = true ↔
      ¬ (4 ≤ first ∧ first % 4 = 0 ∧ first ≤ length) := by
  rw [Bool.or_eq_true, Bool.or_eq_true, decide_eq_true_eq, decide_eq_true_eq, bne_iff_ne, offsetSize]
  omega

/-- The check passes for the streams that start with a consistent table. -/
theorem isConsistent_iff : (∃ t, isConsistent (healthyAt bytes p) = .ok true t) ↔ HasTable bytes := by
  rw [isConsistent, bind_of_ok (seek_healthyAt (Nat.zero_le _))]
  by_cases hlen : 4 ≤ bytes.length
  swap
  · constructor
    · rintro ⟨t, h⟩
      obtain ⟨_, _, hword, -⟩ := bind_eq_ok.mp h
      exact absurd (u32_eq_ok.mp hword).1 hlen
    · intro h
      exact absurd h.first_le hlen
  have hword : Reader.u32 (healthyAt bytes 0)
      = .ok (ByteOrder.little.decode (bytes.take 4)) (healthyAt bytes 4) :=
    u32_eq_ok.mpr ⟨hlen, rfl, rfl⟩
  rw [bind_of_ok hword, bind_of_ok (length_eq_ok.mpr ⟨rfl, rfl⟩), length_healthyAt]
  by_cases hfirst : 4 ≤ ByteOrder.little.decode (bytes.take 4) ∧
      ByteOrder.little.decode (bytes.take 4) % 4 = 0 ∧
      ByteOrder.little.decode (bytes.take 4) ≤ bytes.length
  swap
  · rw [if_pos (isMalformed_iff.mpr hfirst)]
    constructor
    · rintro ⟨t, h⟩
      exact absurd (pure_eq_ok.mp h).1 Bool.true_eq_false_eq_False
    · intro h
      exact absurd ⟨h.le_first, h.dvd_first, h.table_le⟩ hfirst
  rw [if_neg fun h => isMalformed_iff.mp h hfirst]
  obtain ⟨hle, hdvd, hfits⟩ := hfirst
  have hroom : 4 + 4 * (ByteOrder.little.decode (bytes.take 4) / 4 - 1) ≤ bytes.length := by omega
  obtain ⟨last?, t, hlast?, hlast⟩ :=
    exists_lastOfRising (ByteOrder.little.decode (bytes.take 4)) hroom
  have hend : (Tables.words (ByteOrder.little.decode (bytes.take 4) / 4 - 1)
      (bytes.drop 4)).getLastD (ByteOrder.little.decode (bytes.take 4)) = tableEnd bytes := by
    rw [tableEnd, table_eq_cons hle, List.getLastD_cons]
  rw [← table_eq_cons hle, hend] at hlast
  rw [offsetSize, bind_of_ok hlast?]
  simp only [pure_eq_ok, @eq_comm _ true, beq_iff_eq, hlast]
  constructor
  · rintro ⟨_, ⟨hrising, hend⟩, -⟩
    exact ⟨hlen, hle, hdvd, hfits, hrising, hend⟩
  · intro h
    exact ⟨t, ⟨h.rising, h.end_eq⟩, rfl⟩

theorem isCandidate_iff (hs : s.IsOver bytes) :
    format.IsCandidate source s ↔ HasTable bytes := by
  rw [← isConsistent_iff (p := s.position), Format.isCandidate_iff, hs.eq_healthyAt]
  show (∃ card t, rate source _ = .ok card t ∧ _) ↔ _
  simp only [rate, bind_eq_ok, pure_eq_ok]
  have hblank := weighs_blank.extension source extensions
  have hcard (passed : Bool) := (hblank.decisive passed).le_total_iff (by decide)
  constructor
  · rintro ⟨_, t, ⟨passed, _, hpassed, rfl, rfl⟩, hle⟩
    rw [(hcard passed).mp hle] at hpassed
    exact ⟨_, hpassed⟩
  · rintro ⟨t, hpassed⟩
    exact ⟨_, t, ⟨true, t, hpassed, rfl, rfl⟩, (hcard true).mpr rfl⟩

theorem keeps_lastOfRising (count previous : ℕ) :
    Keeps Stream.source (lastOfRising count previous) := by
  induction count generalizing previous with
  | zero => exact keeps_pure _
  | succ count ih => exact keeps_u32.bind fun _ => Keeps.ite (keeps_pure _) (ih _)

theorem keeps_rate : Keeps Stream.source (rate source) := by
  have hconsistent : Keeps Stream.source isConsistent :=
    (keeps_seek 0).bind fun _ => keeps_u32.bind fun _ => keeps_length.bind fun _ =>
      Keeps.ite (keeps_pure _) ((keeps_lastOfRising _ _).bind fun _ => keeps_pure _)
  exact hconsistent.bind fun _ => keeps_pure _

end Ofs

/-! ### All ratings -/

/-- No rating changes more of a stream than its position. -/
theorem Format.keeps_rate_of_mem {format : Format} (h : format ∈ Registry.standard.formats)
    (source : Location) : Keeps Stream.source (format.rate source) := by
  simp only [Registry.standard, List.mem_cons, List.not_mem_nil, or_false] at h
  rcases h with rfl | rfl | rfl | rfl | rfl | rfl | rfl | rfl
  · exact Ensures.keeps fun _ => Xarc.ensures_rate
  · exact Ofs.keeps_rate
  · exact Ensures.keeps fun _ => Dtre.ensures_rate
  · exact Ensures.keeps fun _ => Tre.ensures_rate
  · exact Ensures.keeps fun _ => Rpak.ensures_rate
  · exact Ensures.keeps fun _ => Spk.ensures_rate
  · exact Ensures.keeps fun _ => Sprb.ensures_rate
  · exact Ensures.keeps fun _ => Lump.ensures_rate

theorem Format.isPure_of_mem {format : Format} (h : format ∈ Registry.standard.formats) :
    format.IsPure := fun source s => score_eq (keeps_rate_of_mem h source) s

end Packfile
