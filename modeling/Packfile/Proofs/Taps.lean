import Mathlib.Data.List.Infix
import Packfile.Codec.Tap
import Packfile.Proofs.Contents
import Packfile.Proofs.Truncation

/-!
# What can be pulled from a tap

However a tap is read, what its reads return is the beginning of one byte string, its `yield`. One
read takes the front off the yield; a failed read may lose some of it, but only from the end. So two
runs over one source can differ in how far they get and in nothing else.

## The step that has to be right

The yield of a layer is computed from that of the layer below and from the layer's own state. What a
read does to the layer below is known from the induction, so for each layer there is one thing to
show: that its state has moved on by as many bytes as the layer below has. For a cipher this is
`Cipher.apply_append`. For a limit it is that no more was returned than was left. For a decompressor
it is that what it has made of the input taken so far stands whatever input follows.

## Without compression

`Tap.IsPlain` taps have sources, limits and ciphers only. They never fail and lose nothing, and each
answers a read with at least one byte as long as there are any.

## Main definitions

* `Tap.yield`, `ContentTap.content` — everything that can still be pulled
* `Tap.IsPlain` — taps that do not decompress

## Main results

* `Tap.Reads.append_yield_prefix`, `Tap.Reads.of_isPlain` — one read
* `ContentTap.Runs.pulled_prefix`, `ContentTap.Runs.remaining_eq` — any number of them
* `ContentTap.Runs.pulled_eq` — when they have pulled everything
-/

namespace Packfile

theorem Framing.decompress_prefix (framing : Framing) {short long : Bytes} (h : short <+: long) :
    (framing.decompress short).1 <+: (framing.decompress long).1 := by
  cases framing with
  | zlib => exact Zlib.decompress_prefix h
  | bare => exact Deflate.inflate_prefix h

theorem received_map {ε : Type} {f : Bytes → Bytes} (hf : f [] = []) (result : Except ε Bytes) :
    received (result.map f) = f (received result) := by
  cases result with
  | ok found => rfl
  | error e => exact hf.symm

/-! ### One read of a tap -/

namespace Tap

variable {t t' inner inner' : Tap} {count left left' given : ℕ} {taken : Bytes}
  {result : Except ReadFailure Bytes} {framing : Framing}

/-- Everything that can still be pulled. -/
def yield : Tap → Bytes
  | source left => left
  | limit left inner => inner.yield.take left
  | cipher state inner => (state.apply inner.yield).1
  | inflate framing taken given inner => (framing.decompress (taken ++ inner.yield)).1.drop given
  | broken => []

/-- A decompressor yields no more if less is to come. -/
theorem yield_inflate_prefix (framing : Framing) (taken : Bytes) (given : ℕ) {a b : Bytes}
    (h : a <+: b) : (framing.decompress (taken ++ a)).1.drop given
      <+: (framing.decompress (taken ++ b)).1.drop given :=
  (framing.decompress_prefix ((List.prefix_append_right_inj taken).mpr h)).drop given

theorem Reads.length_le (h : t.Reads count result t') : (received result).length ≤ count := by
  induction h with
  | source size hsize hsome =>
    rw [received, List.length_take]
    omega
  | reached => exact Nat.zero_le _
  | limit hleft h ih => exact Nat.le_trans ih (Nat.min_le_left _ _)
  | cipher h ih =>
    rw [received_map (by rw [Cipher.apply_nil]), Cipher.length_apply]
    exact ih
  | refill hasked h hrest ih ihrest => exact ihrest
  | deliver size hsize hdata hthere hsome =>
    rw [received, List.length_take]
    omega
  | corrupt hdata => exact Nat.zero_le _
  | incomplete hcount hasked hend hdata hgiven ih => exact Nat.zero_le _
  | failed h ih => exact Nat.zero_le _
  | broken => exact Nat.zero_le _

/-- **A read takes the front off what can be pulled**, and may lose some of the end. -/
theorem Reads.append_yield_prefix (h : t.Reads count result t') :
    received result ++ t'.yield <+: t.yield := by
  induction h with
  | source size hsize hsome =>
    rw [received, yield, yield, List.take_append_drop]
  | reached => exact List.nil_prefix
  | @limit left count inner inner' result hleft h ih =>
    have hlength : (received result).length ≤ left :=
      Nat.le_trans h.length_le (Nat.min_le_right _ _)
    have hfront : (received result ++ inner'.yield).take left
        = received result ++ inner'.yield.take (left - (received result).length) := by
      rw [List.take_append, List.take_of_length_le hlength]
    rw [yield, yield, ← hfront]
    exact ih.take left
  | @cipher state count inner inner' result h ih =>
    have hpieces := congrArg Prod.fst (state.apply_append (received result) inner'.yield)
    dsimp only at hpieces
    rw [received_map (by rw [Cipher.apply_nil]), yield, yield, ← hpieces]
    exact state.apply_prefix ih
  | @refill framing taken found given asked count inner inner' t result hasked h hrest ih ihrest =>
    refine ihrest.trans ?_
    rw [yield, yield, List.append_assoc]
    exact yield_inflate_prefix framing taken given ih
  | @deliver framing taken content ending given count inner size hsize hdata hthere hsome =>
    -- What was made of the input taken so far is the beginning of what all of it decodes to.
    have hmade : content <+: (framing.decompress (taken ++ inner.yield)).1 := by
      have := framing.decompress_prefix (List.prefix_append taken inner.yield)
      rwa [hdata] at this
    obtain ⟨tail, htail⟩ := hmade
    rw [received, yield, yield, ← htail]
    have hfound : (content.drop given).take size = ((content ++ tail).drop given).take size := by
      rw [List.drop_append_of_le_length (by omega), List.take_append_of_le_length]
      rw [List.length_drop]
      omega
    rw [hfound, ← List.drop_drop, List.take_append_drop]
  | corrupt hdata => exact List.nil_prefix
  | @incomplete framing taken content given asked count inner inner' _ _ _ _ _ ih =>
    exact yield_inflate_prefix framing taken given ih
  | @failed framing taken given asked count inner inner' failure h ih =>
    exact yield_inflate_prefix framing taken given ih
  | broken => exact List.nil_prefix

/-- What is left of a limit is what it was, less what was returned. -/
theorem Reads.remaining_eq
    (h : (Tap.limit left inner).Reads count result (Tap.limit left' inner')) :
    left' + (received result).length = left := by
  cases h with
  | reached => rfl
  | limit hleft h =>
    have hlength := Nat.le_trans h.length_le (Nat.min_le_right _ _)
    omega

/-! ### Taps that do not decompress -/

/-- Sources, limits and ciphers. -/
def IsPlain : Tap → Prop
  | source _ => True
  | limit _ inner => inner.IsPlain
  | cipher _ inner => inner.IsPlain
  | inflate _ _ _ _ => False
  | broken => False

/-- **Without compression a read succeeds and loses nothing**, and returns nothing only if it asks
for nothing or nothing is left. -/
theorem Reads.of_isPlain (h : t.Reads count result t') (ht : t.IsPlain) :
    ∃ found, result = .ok found ∧ t'.IsPlain ∧ found ++ t'.yield = t.yield ∧
      (found = [] → count = 0 ∨ t.yield = []) := by
  induction h with
  | @source left count size hsize hsome =>
    refine ⟨left.take size, rfl, trivial, List.take_append_drop _ _, ?_⟩
    intro hempty
    rcases List.take_eq_nil_iff.mp hempty with hzero | hnil
    · exact hsome hzero
    · exact .inr hnil
  | @reached inner count => exact ⟨[], rfl, ht, rfl, fun _ => .inr rfl⟩
  | @limit left count inner inner' result hleft h ih =>
    obtain ⟨found, rfl, hplain, hyield, hsome⟩ := ih ht
    have hlength : found.length ≤ left := Nat.le_trans h.length_le (Nat.min_le_right _ _)
    refine ⟨found, rfl, hplain, ?_, ?_⟩
    · rw [yield, yield, ← hyield, List.take_append, List.take_of_length_le hlength]
      rfl
    · intro hempty
      rcases hsome hempty with hzero | hnil
      · exact .inl (by omega)
      · rw [yield, hnil, List.take_nil]
        exact .inr rfl
  | @cipher state count inner inner' result h ih =>
    obtain ⟨found, rfl, hplain, hyield, hsome⟩ := ih ht
    refine ⟨(state.apply found).1, rfl, hplain, ?_, ?_⟩
    · rw [yield, yield, ← hyield, Cipher.apply_append]
      rfl
    · intro hempty
      have hfound : found = [] := by
        rw [← List.length_eq_zero_iff, ← state.length_apply, hempty]
        rfl
      refine (hsome hfound).imp_right fun hnil => ?_
      rw [yield, hnil, Cipher.apply_nil]
  | refill => exact ht.elim
  | deliver => exact ht.elim
  | corrupt => exact ht.elim
  | incomplete => exact ht.elim
  | failed => exact ht.elim
  | broken => exact ht.elim

end Tap

/-! ### Runs over content -/

namespace ContentTap

variable {c c' : ContentTap} {count : ℕ} {result : Except Error Bytes}
  {reads : List (ℕ × Except Error Bytes)}

/-- Everything that can still be pulled. -/
def content (c : ContentTap) : Bytes := c.inner.yield.take c.remaining

theorem pulled_cons (count : ℕ) (result : Except Error Bytes)
    (reads : List (ℕ × Except Error Bytes)) :
    pulled ((count, result) :: reads) = received result ++ pulled reads := rfl

/-- Every read is one of the limit. -/
theorem Reads.exists_limit (h : c.Reads count result c') :
    ∃ r : Except ReadFailure Bytes, received result = received r ∧
      (Tap.limit c.remaining c.inner).Reads count r (Tap.limit c'.remaining c'.inner) := by
  cases h with
  | found h hsome => exact ⟨_, rfl, h⟩
  | endedEarly h hcount hremaining => exact ⟨_, rfl, h⟩
  | failed h => exact ⟨_, rfl, h⟩

theorem Reads.append_content_prefix (h : c.Reads count result c') :
    received result ++ c'.content <+: c.content := by
  obtain ⟨r, hr, h⟩ := h.exists_limit
  rw [hr]
  exact h.append_yield_prefix

theorem Reads.remaining_eq (h : c.Reads count result c') :
    c'.remaining + (received result).length = c.remaining := by
  obtain ⟨r, hr, h⟩ := h.exists_limit
  rw [hr]
  exact h.remaining_eq

theorem Runs.append_content_prefix (h : c.Runs reads c') :
    pulled reads ++ c'.content <+: c.content := by
  induction h with
  | nil => exact List.prefix_rfl
  | cons h hrest ih =>
    rw [pulled_cons, List.append_assoc]
    exact ((List.prefix_append_right_inj _).mpr ih).trans h.append_content_prefix

/-- **What the reads of a run return is the beginning of one byte string**, whatever they ask. -/
theorem Runs.pulled_prefix (h : c.Runs reads c') : pulled reads <+: c.content :=
  (List.prefix_append _ _).trans h.append_content_prefix

/-- **The bytes left are the declared ones, less the bytes returned.** -/
theorem Runs.remaining_eq (h : c.Runs reads c') :
    c'.remaining + (pulled reads).length = c.remaining := by
  induction h with
  | nil => rfl
  | cons h hrest ih =>
    have := h.remaining_eq
    rw [pulled_cons, List.length_append]
    omega

/-! ### Runs without compression -/

theorem Reads.of_isPlain (h : c.Reads count result c') (hc : c.inner.IsPlain) :
    c'.inner.IsPlain ∧ received result ++ c'.content = c.content ∧
      (received result = [] → count = 0 ∨ c.content = []) := by
  obtain ⟨r, hr, h⟩ := h.exists_limit
  obtain ⟨found, rfl, hplain, hyield, hsome⟩ := h.of_isPlain hc
  rw [hr]
  exact ⟨hplain, hyield, hsome⟩

/-- A run that asks for something and gets nothing has pulled everything. -/
theorem Runs.pulled_eq_of_mem (h : c.Runs reads c') (hc : c.inner.IsPlain)
    {read : ℕ × Except Error Bytes} (hmem : read ∈ reads) (hasked : read.1 ≠ 0)
    (hnothing : received read.2 = []) : pulled reads = c.content := by
  induction h with
  | nil => cases hmem
  | @cons c c' c'' count result reads h hrest ih =>
    obtain ⟨hplain, hcontent, hsome⟩ := h.of_isPlain hc
    rcases List.mem_cons.mp hmem with rfl | hmem
    · have hempty : c.content = [] := (hsome hnothing).resolve_left hasked
      have hprefix := Runs.pulled_prefix (hrest.cons h)
      rw [hempty] at hprefix ⊢
      exact List.prefix_nil.mp hprefix
    · rw [pulled_cons, ih hplain hmem, hcontent]

/-- Reads that are never answered by nothing return at least one byte each. -/
theorem length_le_pulled (h : ∀ read ∈ reads, read.1 ≠ 0 → received read.2 ≠ []) :
    reads.countP (·.1 ≠ 0) ≤ (pulled reads).length := by
  induction reads with
  | nil => exact Nat.zero_le _
  | cons read reads ih =>
    obtain ⟨hread, hreads⟩ := List.forall_mem_cons.mp h
    have := ih hreads
    rw [pulled_cons, List.length_append, List.countP_cons]
    split
    · next hasked =>
      have := List.length_pos_iff.mpr (hread (by simpa using hasked))
      omega
    · omega

/-- **A run that asks often enough pulls everything.** -/
theorem Runs.pulled_eq_of_countP (h : c.Runs reads c') (hc : c.inner.IsPlain)
    (hcount : c.content.length ≤ reads.countP (·.1 ≠ 0)) : pulled reads = c.content := by
  by_cases hnothing : ∃ read ∈ reads, read.1 ≠ 0 ∧ received read.2 = []
  · obtain ⟨read, hmem, hasked, hread⟩ := hnothing
    exact h.pulled_eq_of_mem hc hmem hasked hread
  · push Not at hnothing
    exact h.pulled_prefix.eq_of_length_le (Nat.le_trans hcount (length_le_pulled hnothing))

end ContentTap

/-! ### What codecs put on a source -/

namespace Codec

variable {codec : Codec} {t t' : Tap}

theorem exists_tap (h : codec.HasKeys) (t : Tap) : ∃ t', codec.tap t = .ok t' := by
  induction codec generalizing t with
  | nil => exact ⟨t, rfl⟩
  | cons transform codec ih =>
    rw [tap, h transform List.mem_cons_self]
    exact ih (fun transform hmem => h transform (List.mem_cons_of_mem _ hmem)) _

/-- Ciphers make no tap decompress, and change no length. -/
theorem of_tap (hcodec : codec.isCompressed = false) (h : codec.tap t = .ok t') (ht : t.IsPlain) :
    t'.IsPlain ∧ t'.yield.length = t.yield.length := by
  induction codec generalizing t with
  | nil =>
    cases h
    exact ⟨ht, rfl⟩
  | cons transform codec ih =>
    rw [isCompressed, List.any_cons, Bool.or_eq_false_iff] at hcodec
    rw [tap] at h
    split at h
    · cases h
    · cases transform with
      | xor key =>
        obtain ⟨hplain, hlength⟩ := ih hcodec.2 h ht
        exact ⟨hplain, hlength.trans (Cipher.length_apply _ _)⟩
      | rc4 key =>
        obtain ⟨hplain, hlength⟩ := ih hcodec.2 h ht
        exact ⟨hplain, hlength.trans (Cipher.length_apply _ _)⟩
      | zlib => cases hcodec.1
      | deflate => cases hcodec.1

end Codec

namespace ContentTap

variable {codec : Codec} {source : Bytes} {stored decoded : ℕ} {c : ContentTap}

theorem make_eq_ok : make source stored decoded codec = .ok c ↔
    codec.tap (.limit stored (.source source)) = .ok c.inner ∧ c.remaining = decoded := by
  rw [make]
  cases codec.tap (.limit stored (.source source)) with
  | error e => simp
  | ok inner =>
    obtain ⟨inner', remaining⟩ := c
    simp [eq_comm]

/-- Without compression the content is as long as the source, its stored part and its declared part
allow. -/
theorem length_content (hcodec : codec.isCompressed = false)
    (h : make source stored decoded codec = .ok c) :
    c.inner.IsPlain ∧ c.content.length = min stored (min source.length decoded) := by
  obtain ⟨htap, hremaining⟩ := make_eq_ok.mp h
  obtain ⟨hplain, hlength⟩ := Codec.of_tap hcodec htap trivial
  rw [Tap.yield, Tap.yield, List.length_take] at hlength
  refine ⟨hplain, ?_⟩
  rw [content, List.length_take, hlength, hremaining]
  omega

end ContentTap

end Packfile
