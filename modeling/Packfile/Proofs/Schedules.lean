import Packfile.Archive
import Packfile.Proofs.Taps

/-!
# Schedules of reads

The library reads content from feeds, and a feed returns as much as it is asked for. That is one of
the things that the layers of a codec may do, and what is true of all that they may do is in
`Packfile.Proofs.Taps`. Here the two are brought together: `Tap.Serves` says that reading a feed is,
read for read, a way of reading a tap.

## Why the relation is the largest one

A decompressor that is asked once may read the layer below any number of times. To follow it, more
is needed than that one read of the lower feed is one of the lower tap: it has to remain so
afterwards. `Tap.Serves` is therefore the union of all relations that reads keep, and each layer is
shown to have one such relation of its own, given what it stands on.

A feed that inflates draws all its input before it returns anything, in pieces of one size, and so
may a tap. From then on the input has nothing to give but its end or its failure, and the two agree
about what is to be returned and about how it ends.

## Main definitions

* `Tap.IsSimulation`, `Tap.Serves`
* `Feed.resume` — what a decompressor that has taken and given some bytes will still yield

## Main results

* `Tap.Serves.limit`, `Tap.Serves.cipher`, `Tap.Serves.inflate` — one lemma for each layer
* `ContentTap.runs_of_readSizes` — the reader does what the layers may do
* `ContentTap.exists_runs_agree` — content does not depend on how it is pulled
-/

namespace Packfile

/-! ### Feeds in pieces -/

namespace Feed

variable {f : Feed} {failure : ReadFailure} {notice : Notice}

/-- Only a failure that is noticed by reaching it holds bytes back. -/
theorem inPieces_eq_self (h : ∀ failure, f.ending ≠ .failed failure .reached) : f.inPieces = f := by
  rw [inPieces]
  split
  · next failure hending => exact absurd hending (h failure)
  · rfl

/-- Any other failure waits until there are no more bytes. -/
theorem failure?_eq_none (h : ∀ failure, f.ending ≠ .failed failure .reached)
    (hsome : f.bytes ≠ []) (count : ℕ) : f.failure? count = none := by
  have hempty : f.bytes.isEmpty = false := List.isEmpty_eq_false_iff.mpr hsome
  rw [failure?, hempty]
  split
  · rfl
  · next failure hending => exact absurd hending (h failure)
  · rfl
  · rfl

/-- A feed that reaches a consumer at all reaches it piece by piece. -/
theorem inPieces_eq_nil_or (f : Feed) : f.inPieces.bytes = [] ∨
    (f.failure? pieceSize = none ∧ f.bytes ≠ [] ∧
      f.inPieces.bytes = f.bytes.take pieceSize ++
        ({ f with bytes := f.bytes.drop pieceSize } : Feed).inPieces.bytes) := by
  by_cases hreached : ∃ failure, f.ending = .failed failure .reached
  · obtain ⟨failure, hending⟩ := hreached
    obtain ⟨bytes, ending⟩ := f
    dsimp only at hending
    subst hending
    simp only [inPieces, failure?, List.length_drop]
    by_cases hlast : bytes.length ≤ pieceSize
    · left
      rw [Nat.div_eq_of_lt (by rw [pieceSize] at hlast ⊢; omega), Nat.zero_mul, List.take_zero]
    · right
      have hpieces : (bytes.length - 1) / pieceSize * pieceSize
          = pieceSize + (bytes.length - pieceSize - 1) / pieceSize * pieceSize := by
        rw [Nat.div_eq_sub_div (by decide) (by omega), Nat.sub_right_comm, Nat.add_mul,
          Nat.one_mul, Nat.add_comm]
      refine ⟨if_neg hlast, ?_, ?_⟩
      · rintro rfl
        exact hlast (Nat.zero_le _)
      · rw [hpieces, List.take_add]
  · have hother : ∀ failure, f.ending ≠ .failed failure .reached := not_exists.mp hreached
    have hrest : ({ f with bytes := f.bytes.drop pieceSize } : Feed).inPieces
        = { f with bytes := f.bytes.drop pieceSize } := inPieces_eq_self hother
    rw [inPieces_eq_self hother, hrest]
    by_cases hempty : f.bytes = []
    · exact .inl hempty
    · exact .inr ⟨failure?_eq_none hother hempty pieceSize, hempty,
        (List.take_append_drop _ _).symm⟩

/-- What is left when no piece is left is the failure. -/
theorem failure?_of_inPieces (h : f.inPieces.bytes = [])
    (hending : f.ending = .failed failure notice) : f.failure? pieceSize = some failure := by
  by_cases hreached : notice = .reached
  · subst hreached
    have hshort : f.bytes.length ≤ pieceSize := by
      rw [inPieces, hending] at h
      rcases List.take_eq_nil_iff.mp h with hzero | hnil
      · rw [pieceSize] at hzero ⊢
        omega
      · rw [hnil]
        exact Nat.zero_le _
    rw [failure?, hending]
    exact if_pos hshort
  · have hempty : f.bytes = [] := by
      rwa [inPieces_eq_self (by simp [hending, hreached])] at h
    rw [failure?, hending, hempty]
    cases notice with
    | reached => exact absurd rfl hreached
    | started => rfl
    | wanted => rfl

/-! ### Decompression that has begun -/

/-- What is still to come of decompression that has taken some input and given some bytes. -/
def resume (framing : Framing) (taken : Bytes) (given : ℕ) (f : Feed) : Feed :=
  let whole := framing.decompress (taken ++ f.inPieces.bytes)
  ⟨whole.1.drop given, inflatedEnd whole.2 f.ending⟩

theorem inflate_eq_resume (framing : Framing) (f : Feed) :
    f.inflate framing.decompress = f.resume framing [] 0 := by
  rw [inflate_eq, resume, List.nil_append]
  rfl

end Feed

/-! ### Taps that serve feeds -/

namespace Tap

variable {t inner : Tap} {f : Feed} {bytes : Bytes} {framing : Framing} {taken : Bytes}
  {given count : ℕ}

/-- Under `R`, whatever a read of the feed does, a read of the tap may do. -/
def IsSimulation (R : Tap → Feed → Prop) : Prop :=
  ∀ t f, R t f → ∀ count, ∃ t', t.Reads count (f.read count).1 t' ∧ R t' (f.read count).2

/-- Reading the feed is a way of reading the tap. -/
def Serves (t : Tap) (f : Feed) : Prop := ∃ R, IsSimulation R ∧ R t f

theorem Serves.read (h : t.Serves f) (count : ℕ) :
    ∃ t', t.Reads count (f.read count).1 t' ∧ t'.Serves (f.read count).2 := by
  obtain ⟨R, hsimulation, hR⟩ := h
  obtain ⟨t', hreads, hR'⟩ := hsimulation t f hR count
  exact ⟨t', hreads, R, hsimulation, hR'⟩

theorem serves_source (bytes : Bytes) : (source bytes).Serves ⟨bytes, .finished⟩ := by
  refine ⟨fun t f => ∃ left, t = source left ∧ f = ⟨left, .finished⟩, ?_, bytes, rfl, rfl⟩
  rintro _ _ ⟨left, rfl, rfl⟩ count
  exact ⟨source (left.drop count), .source count (Nat.le_refl _) .inl, left.drop count, rfl, rfl⟩

theorem Serves.limit (h : inner.Serves ⟨bytes, .finished⟩) (left : ℕ) :
    (Tap.limit left inner).Serves ⟨bytes.take left, .finished⟩ := by
  refine ⟨fun t f => ∃ left inner bytes, inner.Serves ⟨bytes, .finished⟩ ∧
    t = Tap.limit left inner ∧ f = ⟨bytes.take left, .finished⟩, ?_,
    left, inner, bytes, h, rfl, rfl⟩
  rintro _ _ ⟨left, inner, bytes, h, rfl, rfl⟩ count
  rw [Feed.read_of_none rfl]
  by_cases hleft : left = 0
  · subst hleft
    refine ⟨Tap.limit 0 inner, ?_, 0, inner, bytes, h, rfl, ?_⟩
    · rw [List.take_zero, List.take_nil]
      exact .reached
    · rw [List.take_zero, List.drop_nil]
  · obtain ⟨inner', hreads, hserves⟩ := h.read (min count left)
    rw [Feed.read_of_none rfl] at hreads hserves
    dsimp only at hreads hserves
    -- The limit cuts what the source returns and what it leaves where the source is cut.
    have hcut : (bytes.take left).take count = bytes.take (min count left) ∧
        (bytes.take left).drop count = (bytes.drop (min count left)).take
          (left - (bytes.take (min count left)).length) := by
      have hshort : (bytes.take (min count left)).length ≤ left := by
        rw [List.length_take]
        omega
      have hwhole : (bytes.take (min count left) ++ bytes.drop (min count left)).take left
          = bytes.take (min count left) ++ (bytes.drop (min count left)).take
            (left - (bytes.take (min count left)).length) := by
        rw [List.take_append, List.take_of_length_le hshort]
      rw [List.take_append_drop] at hwhole
      refine List.append_inj ?_ ?_
      · rw [List.take_append_drop]
        exact hwhole
      · rw [List.take_take]
    refine ⟨_, ?_, _, inner', _, hserves, rfl, congrArg (Feed.mk · .finished) hcut.2⟩
    rw [hcut.1]
    exact .limit hleft hreads

theorem Serves.cipher (h : inner.Serves f) (state : Cipher) :
    (Tap.cipher state inner).Serves { f with bytes := (state.apply f.bytes).1 } := by
  refine ⟨fun t g => ∃ state inner f, inner.Serves f ∧ t = Tap.cipher state inner ∧
    g = { f with bytes := (state.apply f.bytes).1 }, ?_, state, inner, f, h, rfl, rfl⟩
  rintro _ _ ⟨state, inner, f, h, rfl, rfl⟩ count
  obtain ⟨inner', hreads, hserves⟩ := h.read count
  have hsame : Feed.failure? { f with bytes := (state.apply f.bytes).1 } count
      = f.failure? count := f.failure?_congr (state.length_apply f.bytes) count
  cases hfailure : f.failure? count with
  | some failure =>
    rw [Feed.read_of_failure hfailure] at hreads hserves
    rw [Feed.read_of_failure (hsame.trans hfailure)]
    refine ⟨_, hreads.cipher, _, inner', _, hserves, rfl, ?_⟩
    rw [Cipher.apply_nil]
  | none =>
    obtain ⟨htake, hdrop⟩ := state.take_drop_apply f.bytes count
    rw [Feed.read_of_none hfailure] at hreads hserves
    rw [Feed.read_of_none (hsame.trans hfailure)]
    dsimp only
    rw [htake, hdrop]
    exact ⟨_, hreads.cipher, _, inner', _, hserves, rfl, rfl⟩

/-- A decompressor may take all pieces of its input before it answers. What is left of the input
then is its end or its failure. -/
theorem Serves.refill (h : inner.Serves f) (framing : Framing) (taken : Bytes) (given : ℕ) :
    ∃ inner' f', inner'.Serves f' ∧ f'.ending = f.ending ∧ f'.inPieces.bytes = [] ∧
      ∀ {count : ℕ} {result : Except ReadFailure Bytes} {t : Tap},
        (inflate framing (taken ++ f.inPieces.bytes) given inner').Reads count result t →
        (inflate framing taken given inner).Reads count result t := by
  induction hlength : f.bytes.length using Nat.strong_induction_on generalizing inner f taken with
  | _ length ih =>
    rcases f.inPieces_eq_nil_or with hnil | ⟨hfailure, hsome, hpieces⟩
    · refine ⟨inner, f, h, rfl, hnil, fun hreads => ?_⟩
      rwa [hnil, List.append_nil] at hreads
    · obtain ⟨next, hreads, hserves⟩ := h.read Feed.pieceSize
      rw [Feed.read_of_none hfailure] at hreads hserves
      have hshorter : (f.bytes.drop Feed.pieceSize).length < length := by
        have := List.length_pos_iff.mpr hsome
        rw [List.length_drop, Feed.pieceSize]
        omega
      obtain ⟨inner', f', hserves', hending, hnil, hrest⟩ :=
        ih _ hshorter hserves (taken ++ f.bytes.take Feed.pieceSize) rfl
      refine ⟨inner', f', hserves', hending, hnil, fun hlast => ?_⟩
      refine .refill (by decide) hreads (hrest ?_)
      rwa [List.append_assoc, ← hpieces]

/-- A decompressor, and the feed of what it will still yield. -/
inductive Resumes (framing : Framing) : Tap → Feed → Prop where
  /-- Corrupt data were met. -/
  | broken : Resumes framing broken ⟨[], .failed .corruptDeflate .reached⟩
  /-- They were not. -/
  | inflate {taken : Bytes} {given : ℕ} {inner : Tap} {f : Feed} (h : inner.Serves f)
      (hgiven : given ≤ (framing.decompress taken).1.length) :
      Resumes framing (inflate framing taken given inner) (f.resume framing taken given)

section

variable {content : Bytes} {ending : Deflate.Ending}

/-- What a decompressor still yields when its input has nothing left. -/
theorem resume_of_inPieces (given : ℕ) (hnil : f.inPieces.bytes = [])
    (hdata : framing.decompress taken = (content, ending)) :
    f.resume framing taken given = ⟨content.drop given, Feed.inflatedEnd ending f.ending⟩ := by
  rw [Feed.resume, hnil, List.append_nil, hdata]

/-- It returns what the feed does, as long as that does not fail. -/
theorem Serves.exists_delivered (h : inner.Serves f) (hnil : f.inPieces.bytes = [])
    (hdata : framing.decompress taken = (content, ending)) (hgiven : given ≤ content.length)
    (count : ℕ) (hfailure : (f.resume framing taken given).failure? count = none)
    (hsome : content.drop given = [] → count = 0 ∨ ∃ rest, ending = .complete rest) :
    ∃ t', (inflate framing taken given inner).Reads count
        ((f.resume framing taken given).read count).1 t' ∧
      Resumes framing t' ((f.resume framing taken given).read count).2 := by
  have hlength : (content.drop given).length = content.length - given := List.length_drop
  have hleft : given + min count (content.length - given) ≤ content.length := by omega
  refine ⟨inflate framing taken (given + min count (content.length - given)) inner, ?_, ?_⟩
  · rw [Feed.read_of_none hfailure, resume_of_inPieces _ hnil hdata]
    dsimp only
    rw [List.take_eq_take_min, hlength]
    refine .deliver _ (Nat.min_le_left _ _) hdata hleft ?_
    intro hzero
    rcases Nat.eq_zero_or_pos count with hcount | hcount
    · exact .inl hcount
    · have hall : content.length ≤ given := by omega
      exact (hsome (List.drop_eq_nil_of_le hall)).imp_right fun hend => ⟨by omega, hend⟩
  · have hrest : (content.drop given).drop count
        = content.drop (given + min count (content.length - given)) := by
      rw [← List.drop_drop, ← hlength]
      rcases Nat.le_total count (content.drop given).length with hle | hge
      · rw [Nat.min_eq_left hle]
      · rw [Nat.min_eq_right hge, List.drop_eq_nil_of_le hge, List.drop_length]
    rw [Feed.read_of_none hfailure, resume_of_inPieces _ hnil hdata]
    dsimp only
    rw [hrest, ← resume_of_inPieces _ hnil hdata]
    exact .inflate h (by rwa [hdata])

/-- When everything is returned and the input is at its end, nothing changes any more. -/
theorem Serves.resumes_of_nil (h : inner.Serves ⟨[], f.ending⟩)
    (hdata : framing.decompress taken = (content, ending)) (hgiven : given ≤ content.length)
    (hempty : content.drop given = []) :
    Resumes framing (inflate framing taken given inner)
      ⟨[], Feed.inflatedEnd ending f.ending⟩ := by
  have hnil : (⟨[], f.ending⟩ : Feed).inPieces.bytes = [] := by
    rw [Feed.inPieces]
    split
    · exact List.take_nil
    · rfl
  have hresume : (⟨[], f.ending⟩ : Feed).resume framing taken given
      = ⟨[], Feed.inflatedEnd ending f.ending⟩ := by
    rw [resume_of_inPieces _ hnil hdata, hempty]
  rw [← hresume]
  exact .inflate h (by rwa [hdata])

/-- Data that end early: everything made of them is returned first, and then it depends on the input
which failure is met. -/
theorem Serves.exists_incomplete (h : inner.Serves f) (hnil : f.inPieces.bytes = [])
    (hdata : framing.decompress taken = (content, .stopped .incomplete))
    (hgiven : given ≤ content.length) (count : ℕ) :
    ∃ t', (inflate framing taken given inner).Reads count
        ((f.resume framing taken given).read count).1 t' ∧
      Resumes framing t' ((f.resume framing taken given).read count).2 := by
  have hresume := resume_of_inPieces given hnil hdata
  have hdelivered := h.exists_delivered hnil hdata hgiven count
  obtain ⟨next, hnext, hserves⟩ := h.read Feed.pieceSize
  by_cases hempty : content.drop given = []
  · cases hending : f.ending with
    | finished =>
      by_cases hcount : count = 0
      · refine hdelivered ?_ fun _ => .inl hcount
        rw [hresume, hending, hcount]
        simp [Feed.inflatedEnd, Feed.failure?]
      · have hbytes : f.bytes = [] := by rwa [Feed.inPieces, hending] at hnil
        have hread : f.read Feed.pieceSize = (.ok [], ⟨[], f.ending⟩) := by
          rw [Feed.read, Feed.failure?, hending, hbytes]
          rfl
        have hfailure : (f.resume framing taken given).failure? count
            = some .incompleteDeflate := by
          rw [hresume, hempty, hending]
          simp [Feed.inflatedEnd, Feed.failure?, hcount]
        have hall : given = content.length :=
          Nat.le_antisymm hgiven (List.drop_eq_nil_iff.mp hempty)
        rw [hread] at hnext hserves
        rw [Feed.read_of_failure hfailure, hresume]
        exact ⟨inflate framing taken given next, .incomplete hcount (by decide) hnext hdata hall,
          hserves.resumes_of_nil hdata hgiven hempty⟩
    | failed failure notice =>
      have hfailure : (f.resume framing taken given).failure? count = some failure := by
        rw [hresume, hempty, hending]
        rfl
      rw [Feed.read_of_failure (Feed.failure?_of_inPieces hnil hending)] at hnext hserves
      rw [Feed.read_of_failure hfailure, hresume]
      exact ⟨inflate framing taken given next, .failed hnext,
        hserves.resumes_of_nil hdata hgiven hempty⟩
  · refine hdelivered ?_ fun h => absurd h hempty
    have hsome : (content.drop given).isEmpty = false := by rwa [List.isEmpty_eq_false_iff]
    rw [hresume]
    cases f.ending <;> simp [Feed.inflatedEnd, Feed.failure?, hsome]

end

/-- A decompressor whose input has nothing left answers as the feed does. -/
theorem Serves.exists_resumes (h : inner.Serves f) (hnil : f.inPieces.bytes = [])
    (hgiven : given ≤ (framing.decompress taken).1.length) (count : ℕ) :
    ∃ t', (inflate framing taken given inner).Reads count
        ((f.resume framing taken given).read count).1 t' ∧
      Resumes framing t' ((f.resume framing taken given).read count).2 := by
  rcases hdata : framing.decompress taken with ⟨content, rest | reason⟩
  · rw [hdata] at hgiven
    refine h.exists_delivered hnil hdata hgiven count ?_ fun _ => .inr ⟨rest, rfl⟩
    rw [resume_of_inPieces _ hnil hdata]
    rfl
  · rw [hdata] at hgiven
    cases reason with
    | corrupt =>
      have hresume := resume_of_inPieces given hnil hdata
      by_cases hlast : (content.drop given).length ≤ count
      · have hfailure : (f.resume framing taken given).failure? count = some .corruptDeflate := by
          rw [hresume]
          exact if_pos hlast
        rw [Feed.read_of_failure hfailure, hresume]
        exact ⟨broken, .corrupt hdata, .broken⟩
      · refine h.exists_delivered hnil hdata hgiven count ?_ fun hempty => ?_
        · rw [hresume]
          exact if_neg hlast
        · rw [hempty] at hlast
          exact absurd (Nat.zero_le _) hlast
    | incomplete => exact h.exists_incomplete hnil hdata hgiven count

theorem isSimulation_resumes (framing : Framing) : IsSimulation (Resumes framing) := by
  intro t g hresumes count
  cases hresumes with
  | broken => exact ⟨broken, .broken, .broken⟩
  | @inflate taken given inner f h hgiven =>
    obtain ⟨inner', f', hserves, hending, hnil, hrest⟩ := h.refill framing taken given
    have hlonger : given ≤ (framing.decompress (taken ++ f.inPieces.bytes)).1.length :=
      Nat.le_trans hgiven (framing.decompress_prefix (List.prefix_append _ _)).length_le
    have hsame : f.resume framing taken given
        = f'.resume framing (taken ++ f.inPieces.bytes) given := by
      rw [Feed.resume, Feed.resume, hnil, List.append_nil, hending]
    obtain ⟨t', hreads, hresumes⟩ := hserves.exists_resumes hnil hlonger count
    rw [hsame]
    exact ⟨t', hrest hreads, hresumes⟩

theorem Serves.inflate (h : inner.Serves f) (framing : Framing) :
    (Tap.inflate framing [] 0 inner).Serves (f.inflate framing.decompress) := by
  rw [Feed.inflate_eq_resume]
  exact ⟨Resumes framing, isSimulation_resumes framing, .inflate h (Nat.zero_le _)⟩

end Tap

/-! ### Codecs and their readers -/

/-- What a transform puts on a tap serves what undoing it yields. -/
theorem Transform.serves {t : Tap} {f : Feed} (h : t.Serves f) (transform : Transform) :
    (transform.tap t).Serves (transform.undo f) := by
  cases transform with
  | xor key => exact h.cipher (.xor ⟨key, 0⟩)
  | rc4 key => exact h.cipher (.rc4 (Rc4.ofKey key))
  | zlib => exact h.inflate .zlib
  | deflate => exact h.inflate .bare

theorem Codec.serves {codec : Codec} {t t' : Tap} {f f' : Feed} (h : t.Serves f)
    (htap : codec.tap t = .ok t') (hundo : codec.undo f = .ok f') : t'.Serves f' := by
  induction codec generalizing t f with
  | nil =>
    cases htap
    cases hundo
    exact h
  | cons transform codec ih =>
    rw [tap] at htap
    rw [undo] at hundo
    split at htap
    · cases htap
    · next hkey =>
      rw [hkey] at hundo
      exact ih (transform.serves h) htap hundo

namespace ContentTap

variable {inner : Tap} {r : ContentReader}

/-- Reading content is a way of pulling it. -/
theorem exists_reads (h : inner.Serves r.feed) (count : ℕ) :
    ∃ inner', ContentTap.Reads ⟨inner, r.remaining⟩ count (r.read count).1
        ⟨inner', (r.read count).2.remaining⟩ ∧ inner'.Serves (r.read count).2.feed := by
  rw [ContentReader.read]
  by_cases hremaining : r.remaining = 0
  · rw [if_pos hremaining]
    refine ⟨inner, .found ?_ fun _ => .inr hremaining, h⟩
    rw [hremaining]
    exact .reached
  · rw [if_neg hremaining]
    obtain ⟨inner', hreads, hserves⟩ := h.read (min count r.remaining)
    have hlimit := hreads.limit hremaining
    rcases hread : r.feed.read (min count r.remaining) with ⟨failure | found, feed⟩
    · rw [hread] at hlimit hserves
      exact ⟨inner', .failed hlimit, hserves⟩
    · rw [hread] at hlimit hserves
      dsimp only
      split
      · next hempty =>
        rw [Bool.and_eq_true, List.isEmpty_iff, bne_iff_ne] at hempty
        obtain ⟨rfl, hcount⟩ := hempty
        exact ⟨inner', .endedEarly hlimit hcount hremaining, hserves⟩
      · next hempty =>
        refine ⟨inner', .found hlimit fun hnil => .inl ?_, hserves⟩
        rw [hnil] at hempty
        simpa using hempty

/-- **The reader does what the layers may do**, read for read, up to the first that fails. -/
theorem runs_of_readSizes (h : inner.Serves r.feed) (sizes : List ℕ) :
    ∃ inner', Runs ⟨inner, r.remaining⟩ (sizes.zip (r.readSizes sizes).1)
      ⟨inner', (r.readSizes sizes).2.remaining⟩ := by
  induction sizes generalizing inner r with
  | nil => exact ⟨inner, .nil⟩
  | cons size sizes ih =>
    obtain ⟨next, hreads, hserves⟩ := exists_reads h size
    rw [ContentReader.readSizes]
    rcases hread : r.read size with ⟨e | found, r'⟩
    · rw [hread] at hreads
      dsimp only
      rw [List.zip_cons_cons, List.zip_nil_right]
      exact ⟨next, .cons hreads .nil⟩
    · rw [hread] at hreads hserves
      obtain ⟨inner', hruns⟩ := ih hserves
      exact ⟨inner', .cons hreads hruns⟩

/-- A feed that does not fail returns as much as is asked for, as much as was declared, or all. -/
theorem length_pulled_readSizes (bytes : Bytes) (remaining : ℕ) (sizes : List ℕ) :
    (pulled (sizes.zip (ContentReader.readSizes ⟨⟨bytes, .finished⟩, remaining⟩ sizes).1)).length
      = min sizes.sum (min remaining bytes.length) := by
  induction sizes generalizing bytes remaining with
  | nil => exact (Nat.zero_min _).symm
  | cons size sizes ih =>
    rw [ContentReader.readSizes, ContentReader.read, List.sum_cons]
    by_cases hremaining : remaining = 0
    · subst hremaining
      have hrest := ih bytes 0
      rw [if_pos rfl]
      dsimp only
      rw [List.zip_cons_cons, pulled_cons, List.length_append, hrest]
      simp [received]
    · rw [if_neg hremaining, Feed.read_of_none rfl]
      dsimp only
      by_cases hempty : bytes.take (min size remaining) = [] ∧ size ≠ 0
      · have hnone : bytes = [] := by
          rcases List.take_eq_nil_iff.mp hempty.1 with hzero | hnil
          · omega
          · exact hnil
        subst hnone
        simp [hempty.2, pulled, received]
      · have hrest := ih (bytes.drop (min size remaining))
          (remaining - (bytes.take (min size remaining)).length)
        rw [if_neg (by simpa using hempty)]
        dsimp only
        rw [List.zip_cons_cons, pulled_cons, List.length_append, hrest]
        simp only [received, List.length_take, List.length_drop]
        omega

/-- **Content does not depend on how it is pulled.** Two runs over one source agree as far as both
go, no run returns more than was declared, and what is left is what was declared less what was
returned. Without compression a run that has met the end, or asked often enough, has all there is.
The reads of the reader are such a run, so all of this is true of it, and without compression it
returns as much as its reads ask for. A cipher that is given consecutive pieces does what it does to
the whole. -/
theorem exists_runs_agree {codec : Codec} (hkeys : codec.HasKeys) (source : Bytes)
    (stored decoded : ℕ) :
    ∃ c, make source stored decoded codec = .ok c ∧
      (∀ reads c' reads' c'', c.Runs reads c' → c.Runs reads' c'' →
        pulled reads <+: pulled reads' ∨ pulled reads' <+: pulled reads) ∧
      (∀ reads c', c.Runs reads c' → (pulled reads).length ≤ decoded ∧
        c'.remaining = decoded - (pulled reads).length) ∧
      (codec.isCompressed = false → ∀ reads c', c.Runs reads c' →
        ((∃ read ∈ reads, read.1 ≠ 0 ∧ received read.2 = []) ∨
          min stored (min source.length decoded) ≤ reads.countP (·.1 ≠ 0)) →
        (pulled reads).length = min stored (min source.length decoded)) ∧
      (∃ r, ContentReader.make (.ofStream (.ofBytes source) stored) decoded codec = .ok r ∧
        ∀ sizes, (∃ c', c.Runs (sizes.zip (r.readSizes sizes).1) c' ∧
            c'.remaining = (r.readSizes sizes).2.remaining) ∧
          (codec.isCompressed = false → (pulled (sizes.zip (r.readSizes sizes).1)).length
            = min sizes.sum (min stored (min source.length decoded)))) ∧
      ∀ (cipher : Cipher) (pieces : List Bytes),
        (cipher.applyEach pieces).1.flatten = (cipher.apply pieces.flatten).1 := by
  obtain ⟨inner, htap⟩ := codec.exists_tap hkeys (.limit stored (.source source))
  obtain ⟨feed, hundo⟩ := Codec.exists_undo hkeys ⟨source.take stored, .finished⟩
  have hmake : make source stored decoded codec = .ok ⟨inner, decoded⟩ :=
    make_eq_ok.mpr ⟨htap, rfl⟩
  have hserves : inner.Serves feed :=
    Codec.serves ((Tap.serves_source source).limit stored) htap hundo
  have hreader : ContentReader.make (.ofStream (.ofBytes source) stored) decoded codec
      = .ok ⟨feed, decoded⟩ := by
    rw [Feed.ofStream_of_healthy rfl]
    show ContentReader.make ⟨source.take stored, .finished⟩ decoded codec = _
    rw [ContentReader.make, hundo]
  refine ⟨⟨inner, decoded⟩, hmake, ?_, ?_, ?_, ⟨⟨feed, decoded⟩, hreader, ?_⟩, ?_⟩
  · intro reads c' reads' c'' hruns hruns'
    exact List.prefix_or_prefix_of_prefix hruns.pulled_prefix hruns'.pulled_prefix
  · intro reads c' hruns
    have hremaining := hruns.remaining_eq
    dsimp only at hremaining
    omega
  · intro hcodec reads c' hruns hasked
    obtain ⟨hplain, hlength⟩ := length_content hcodec hmake
    rw [← hlength] at hasked ⊢
    rcases hasked with ⟨read, hmem, hsize, hnothing⟩ | hcount
    · rw [hruns.pulled_eq_of_mem hplain hmem hsize hnothing]
    · rw [hruns.pulled_eq_of_countP hplain hcount]
  · intro sizes
    obtain ⟨inner', hruns⟩ := runs_of_readSizes (r := ⟨feed, decoded⟩) hserves sizes
    refine ⟨⟨_, hruns, rfl⟩, ?_⟩
    intro hcodec
    obtain ⟨hlength, hending⟩ := Codec.of_undo hcodec hundo
    obtain ⟨bytes, ending⟩ := feed
    dsimp only at hlength hending
    subst hending
    rw [length_pulled_readSizes, hlength, List.length_take]
    omega
  · intro cipher pieces
    exact (cipher.flatten_applyEach pieces).1

/-- Two ciphers. -/
def enciphered : Codec := [.xor [0x5A, 0xA5], .rc4 [0x4B, 0x65, 0x79]]

/-- Of five bytes, four stored and three declared, one schedule gets two, and another all three; the
first two of them are the same. -/
theorem exists_runs_agree_enciphered : enciphered.HasKeys ∧
    ∃ r, ContentReader.make (.ofStream (.ofBytes [1, 2, 3, 4, 5]) 4) 3 enciphered = .ok r ∧
      (pulled ([1, 1].zip (r.readSizes [1, 1]).1)).length = 2 ∧
      (pulled ([2, 0, 5].zip (r.readSizes [2, 0, 5]).1)).length = 3 ∧
      pulled ([1, 1].zip (r.readSizes [1, 1]).1)
        <+: pulled ([2, 0, 5].zip (r.readSizes [2, 0, 5]).1) := by
  have hkeys : enciphered.HasKeys := by decide
  obtain ⟨c, -, hagree, -, -, ⟨r, hr, hreads⟩, -⟩ := exists_runs_agree hkeys [1, 2, 3, 4, 5] 4 3
  obtain ⟨⟨c', hruns, -⟩, hlength⟩ := hreads [1, 1]
  obtain ⟨⟨c'', hruns', -⟩, hlength'⟩ := hreads [2, 0, 5]
  have htwo := hlength rfl
  have hthree := hlength' rfl
  refine ⟨hkeys, r, hr, htwo, hthree, ?_⟩
  rcases hagree _ _ _ _ hruns hruns' with h | h
  · exact h
  · have := h.length_le
    rw [htwo, hthree] at this
    exact absurd this (by decide)

end ContentTap

end Packfile
