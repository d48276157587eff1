import Mathlib.Data.List.Nodup
import Packfile.Proofs.Decoders
import Packfile.Proofs.Ratings
import Packfile.Proofs.StorageFailures

/-!
# Which format a stream is opened in

A stream is opened in the best format that can read it. The formats that are confident enough are
ranked, the more confident first and equals in the order of the registry; the first of them whose
reading succeeds gives the archive, and if none does, the first of all gives the error.

All of them are scored and tried on one stream, in one session. Yet none of them notices: scoring
leaves the stream where it was, and a reading starts at a place of its own, without the palettes of
its predecessors. What remains of an earlier attempt is the position, a name table that may have been
loaded, and warnings, and no format can tell by them whether it is the first to try. So the outcome
is the one that the formats would have had each on its own, on a stream of its own.

## Main definitions

* `IsRanking` — formats by confidence, equals in the order they had
* `Session.opening`, `Format.readAlone` — what a format makes of a stream on its own
* `Chosen` — the first success of a ranking, or else its first failure

## Main results

* `IsRanking.unique` — formats have one ranking
* `Format.attempt_eq` — an attempt gives what the format finds on its own
* `Registry.openStream_chosen` — the best success, and its independence
-/

namespace Packfile

open Run Reading

/-! ### Rankings -/

/-- Formats by confidence, the more confident first. Those of equal confidence are in the order that
they have among `formats`. -/
structure IsRanking (confidence : Format → Confidence) (formats ranking : List Format) : Prop where
  /-- The more confident come first. -/
  descending : ranking.Pairwise fun f g => (confidence g).value ≤ (confidence f).value
  /-- Of each confidence there are the same formats in the same order. -/
  stable : ∀ c, ranking.filter (confidence · = c) = formats.filter (confidence · = c)

section

variable {confidence : Format → Confidence} {formats ranking ranking' : List Format}

/-- A sort leaves elements that it does not distinguish as they were. -/
theorem filter_mergeSort {α : Type} {le : α → α → Bool} {p : α → Bool}
    (htrans : ∀ a b c, le a b = true → le b c = true → le a c = true)
    (htotal : ∀ a b, (le a b || le b a) = true)
    (hp : ∀ a b, p a = true → p b = true → le a b = true) (l : List α) :
    (l.mergeSort le).filter p = l.filter p := by
  have hpairwise : (l.filter p).Pairwise fun a b => le a b = true := by
    refine List.pairwise_of_forall_mem_list fun a ha b hb => ?_
    exact hp a b (List.mem_filter.mp ha).2 (List.mem_filter.mp hb).2
  have hsub : (l.filter p).Sublist ((l.mergeSort le).filter p) := by
    have := (List.sublist_mergeSort htrans htotal hpairwise List.filter_sublist).filter p
    simpa only [List.filter_filter, Bool.and_self] using this
  exact (hsub.eq_of_length ((List.mergeSort_perm l le).filter p).length_eq.symm).symm

/-- Lists that have the same elements of each key have the same elements. -/
theorem mem_of_filter_eq {α κ : Type} [DecidableEq κ] {key : α → κ} {l l' : List α}
    (h : ∀ k, l.filter (key · = k) = l'.filter (key · = k)) {a : α} (ha : a ∈ l) : a ∈ l' := by
  have hmem : a ∈ l.filter (key · = key a) := List.mem_filter.mpr ⟨ha, decide_eq_true rfl⟩
  rw [h] at hmem
  exact (List.mem_filter.mp hmem).1

/-- Lists in the order of a key that have the same elements of each key, in the same order, are the
same. -/
theorem eq_of_filter_eq {α κ : Type} [DecidableEq κ] (key : α → κ) (le : κ → κ → Prop)
    (hrefl : ∀ k, le k k) (hantisymm : ∀ j k, le j k → le k j → j = k) {l l' : List α}
    (hl : l.Pairwise fun a b => le (key a) (key b))
    (hl' : l'.Pairwise fun a b => le (key a) (key b))
    (h : ∀ k, l.filter (key · = k) = l'.filter (key · = k)) : l = l' := by
  induction l generalizing l' with
  | nil =>
    refine (List.eq_nil_iff_forall_not_mem.mpr fun a ha => ?_).symm
    exact absurd (mem_of_filter_eq (fun k => (h k).symm) ha) List.not_mem_nil
  | cons a l ih =>
    have ha : a ∈ l' := mem_of_filter_eq h List.mem_cons_self
    cases l' with
    | nil => exact absurd ha List.not_mem_nil
    | cons b l' =>
      have hb : b ∈ a :: l := mem_of_filter_eq (fun k => (h k).symm) List.mem_cons_self
      rw [List.pairwise_cons] at hl hl'
      -- the first of each list comes before all of the other, so both have the same key
      have hba : le (key b) (key a) := by
        rcases List.mem_cons.mp ha with rfl | ha
        · exact hrefl _
        · exact hl'.1 a ha
      have hab : le (key a) (key b) := by
        rcases List.mem_cons.mp hb with rfl | hb
        · exact hrefl _
        · exact hl.1 b hb
      have hsame : key b = key a := hantisymm _ _ hba hab
      have hfirst := h (key a)
      simp only [List.filter_cons, hsame, decide_true, if_true, List.cons.injEq] at hfirst
      obtain ⟨rfl, -⟩ := hfirst
      refine congrArg (a :: ·) (ih hl.2 hl'.2 fun k => ?_)
      have hk := h k
      rw [List.filter_cons, List.filter_cons] at hk
      split at hk
      · exact (List.cons.inj hk).2
      · exact hk

/-- **Formats have one ranking.** -/
theorem IsRanking.unique (h : IsRanking confidence formats ranking)
    (h' : IsRanking confidence formats ranking') : ranking = ranking' :=
  eq_of_filter_eq confidence (fun c d => d.value ≤ c.value) (fun _ => Nat.le_refl _)
    (fun _ _ hle hge => congrArg Confidence.mk (Nat.le_antisymm hge hle))
    h.descending h'.descending fun c => (h.stable c).trans (h'.stable c).symm

/-- A sort by confidence of those that pass a test is a ranking of them. -/
theorem isRanking_mergeSort (confidence : Format → Confidence) (p : Format → Bool)
    (formats : List Format) :
    IsRanking confidence (formats.filter p)
      ((formats.mergeSort fun f g => (confidence g).value ≤ (confidence f).value).filter p) := by
  have htrans : ∀ f g h : Format, decide ((confidence g).value ≤ (confidence f).value) = true →
      decide ((confidence h).value ≤ (confidence g).value) = true →
      decide ((confidence h).value ≤ (confidence f).value) = true := by
    intro f g h hfg hgh
    simp only [decide_eq_true_eq] at *
    exact Nat.le_trans hgh hfg
  have htotal : ∀ f g : Format, (decide ((confidence g).value ≤ (confidence f).value) ||
      decide ((confidence f).value ≤ (confidence g).value)) = true := by
    intro f g
    simp only [Bool.or_eq_true, decide_eq_true_eq]
    exact Nat.le_total _ _
  refine ⟨?_, fun c => ?_⟩
  · refine ((List.pairwise_mergeSort htrans htotal formats).filter p).imp ?_
    intro f g h
    exact of_decide_eq_true h
  · have hsort := filter_mergeSort (p := (confidence · = c)) htrans htotal (by
      intro f g hf hg
      simp only [decide_eq_true_eq] at *
      rw [hf, hg]) formats
    simp only [List.filter_filter, Bool.and_comm] at hsort ⊢
    rw [← List.filter_filter, ← List.filter_filter, hsort]

end

/-! ### Scoring -/

namespace Registry

variable {registry : Registry} {source : Location} {s : Stream}

theorem rateAll_eq {formats : List Format} (h : ∀ f ∈ formats, f.IsPure)
    (source : Location) (s : Stream) :
    rateAll source formats s = .ok (formats.map fun f => ⟨f, f.confidence source s⟩) s := by
  induction formats with
  | nil => rfl
  | cons f formats ih =>
    have hscore := h f List.mem_cons_self source s
    have hrest := ih fun g hg => h g (List.mem_cons_of_mem _ hg)
    rw [rateAll, bind_of_ok hscore, bind_of_ok hrest]
    rfl

/-- The formats of a registry, best first. -/
def bestFirst (registry : Registry) (source : Location) (s : Stream) : List Format :=
  registry.formats.mergeSort fun f g => (g.confidence source s).value ≤ (f.confidence source s).value

/-- Scoring all formats leaves the stream as it was. -/
theorem identify_eq (h : ∀ f ∈ registry.formats, f.IsPure) (source : Location)
    (s : Stream) : registry.identify source s
      = .ok ((registry.bestFirst source s).map fun f => ⟨f, f.confidence source s⟩) s := by
  have hsort : (registry.formats.map fun f => (⟨f, f.confidence source s⟩ : Candidate)).mergeSort
      precedes = (registry.bestFirst source s).map fun f => ⟨f, f.confidence source s⟩ := by
    refine (List.map_mergeSort ?_).symm
    intro _ _ _ _
    rfl
  rw [identify, bind_of_ok (rateAll_eq h source s), ← hsort]
  rfl

end Registry

/-! ### Reading alone -/

/-- The session in which a stream is opened. -/
def Session.opening (s : Stream) (options : Options) (files : FileTree) : Session :=
  { stream := s, context := { options }, files }

/-- What a format makes of a stream on its own: in a session of its own, on a stream of its own that
stands at its start. -/
def Format.readAlone (format : Format) (source : Location) (s : Stream) (options : Options)
    (files : FileTree) : Except Error (List Entry) :=
  (Decode.outcome (format.readDirectory source)
    (.opening { s with position := 0 } options files)).1

section

variable {format : Format} {source : Location} {s : Stream} {options : Options} {files : FileTree}
  {x y : Session}

theorem Format.readAlone_eq_ok {entries : List Entry} :
    format.readAlone source s options files = .ok entries ↔
      ∃ y, format.readDirectory source (.opening { s with position := 0 } options files)
        = .ok entries y := by
  rw [Format.readAlone, Decode.outcome]
  cases format.readDirectory source (.opening { s with position := 0 } options files) with
  | ok found y => simp
  | error e y => simp

/-- The session has come from another one by scoring and trying formats. -/
structure Session.Continues (x y : Session) : Prop where
  /-- The stream is the same up to its position. -/
  source_eq : y.stream.source = x.stream.source
  /-- The session offers the same. -/
  environment_eq : y.environment = x.environment

theorem Format.keeps_readDirectory (h : format ∈ Registry.standard.formats) (source : Location) :
    Keeps Session.input (format.readDirectory source) := by
  have hdecode : Keeps Session.input (format.decode source) :=
    Ensures.keeps fun i => Format.isSound_of_mem h source i
  have hclear : Keeps Session.input Decode.clearPalettes := fun _ => rfl
  exact hclear.bind fun _ => (keeps_liftReader (keeps_seek 0)).bind fun _ => hdecode.bind fun _ =>
    keeps_options.bind fun _ => keeps_ofReader (keeps_ofExcept _)

theorem Session.Continues.akin (h : (Session.opening s options files).Continues x) (p : ℕ) :
    (Session.opening { s with position := p } options files).Akin False
      (Session.opening s options files).environment x := by
  have hsource := h.source_eq
  simp only [Stream.source, Prod.mk.injEq] at hsource
  exact ⟨⟨hsource.1, hsource.2.1, False.elim, .inl hsource.2.2⟩, rfl, h.environment_eq⟩

/-- **An attempt gives what the format finds on its own**, whatever has been tried before. -/
theorem Format.attempt_eq (h : format ∈ Registry.standard.formats) (source : Location)
    (hx : (Session.opening s options files).Continues x) :
    ∃ y, Decode.attempt (format.readDirectory source) x
        = .ok (format.readAlone source s options files) y ∧
      (Session.opening s options files).Continues y := by
  have hinput : (after (format.readDirectory source) x).stream.source = x.stream.source :=
    congrArg Prod.fst (Format.keeps_readDirectory h source x)
  have hagree := ((Format.isBlind_of_mem h).readDirectory source).agree
    (fun _ hexcused => hexcused.1) (hx.akin 0)
  rw [Decode.attempt, Format.readAlone, Decode.outcome]
  unfold after at hinput
  generalize format.readDirectory source (.opening { s with position := 0 } options files) = r
    at hagree
  generalize format.readDirectory source x = r' at hagree hinput
  cases hagree with
  | ok hlike => exact ⟨_, rfl, hinput.trans hx.source_eq, hlike.environment_right⟩
  | error hlike => exact ⟨_, rfl, hinput.trans hx.source_eq, hlike.environment_right⟩

end

/-! ### Trying in turn -/

/-- The archive is what the first of the formats makes of the stream that can read it, when each finds
what it finds on its own. -/
inductive FirstSuccess (alone : Format → Except Error (List Entry)) : List Format → Archive → Prop
  /-- The format can read the stream. -/
  | here {format : Format} {rest : List Format} {archive : Archive}
      (success : alone format = .ok archive.entries) (format_eq : archive.format = format.id) :
      FirstSuccess alone (format :: rest) archive
  /-- The format cannot, and one behind it can. -/
  | later {format : Format} {rest : List Format} {archive : Archive} {error : Error}
      (failure : alone format = .error error) (h : FirstSuccess alone rest archive) :
      FirstSuccess alone (format :: rest) archive

/-- What comes of formats that are tried in turn: the first success, or else the first failure. -/
inductive Chosen (alone : Format → Except Error (List Entry)) : List Format → Identification → Prop
  /-- A format can read the stream. -/
  | recognized {ranking : List Format} {archive : Archive} (h : FirstSuccess alone ranking archive) :
      Chosen alone ranking (.recognized archive)
  /-- None can, and the first one has found this. -/
  | corrupt {format : Format} {rest : List Format} {error : Error}
      (failure : alone format = .error error) (failures : ∀ f ∈ rest, ∃ e, alone f = .error e) :
      Chosen alone (format :: rest) (.corrupt format.id error)
  /-- There is none. -/
  | unrecognized : Chosen alone [] .unrecognized

theorem Chosen.firstSuccess {alone : Format → Except Error (List Entry)} {ranking : List Format}
    {archive : Archive} (h : Chosen alone ranking (.recognized archive)) :
    FirstSuccess alone ranking archive := by
  cases h with
  | recognized h => exact h

/-- The format of an archive that was chosen is one of those that were tried. -/
theorem FirstSuccess.exists_mem {alone : Format → Except Error (List Entry)}
    {ranking : List Format} {archive : Archive} (h : FirstSuccess alone ranking archive) :
    ∃ f ∈ ranking, archive.format = f.id ∧ alone f = .ok archive.entries := by
  induction h with
  | here success format_eq => exact ⟨_, List.mem_cons_self, format_eq, success⟩
  | later _ _ ih =>
    obtain ⟨f, hf, h⟩ := ih
    exact ⟨f, List.mem_cons_of_mem _ hf, h⟩

/-- When only one of the formats can read the stream, it is the one that is chosen. -/
theorem Chosen.of_only {alone : Format → Except Error (List Entry)} {ranking : List Format}
    {result : Identification} {format : Format} {entries : List Entry}
    (h : Chosen alone ranking result) (hmem : format ∈ ranking) (hok : alone format = .ok entries)
    (honly : ∀ f ∈ ranking, ∀ found, alone f = .ok found → f = format) :
    ∃ archive, result = .recognized archive ∧ archive.format = format.id ∧
      archive.entries = entries := by
  cases h with
  | recognized h =>
    obtain ⟨f, hf, hid, hfound⟩ := h.exists_mem
    obtain rfl := honly f hf _ hfound
    rw [hok, Except.ok.injEq] at hfound
    exact ⟨_, rfl, hid, hfound.symm⟩
  | corrupt failure failures =>
    obtain ⟨e, he⟩ : ∃ e, alone format = .error e := by
      rcases List.mem_cons.mp hmem with rfl | hmem
      · exact ⟨_, failure⟩
      · exact failures format hmem
    rw [hok] at he
    cases he
  | unrecognized => exact absurd hmem List.not_mem_nil

namespace Registry

section

variable {source : Location} {s : Stream} {options : Options} {files : FileTree} {x : Session}
  {candidates : List Candidate} {candidate : Candidate}

/-- One format is tried: it gives the archive, or the others are tried where it has left off. -/
theorem tryAll_cons (source : Location) (candidates : List Candidate)
    (h : candidate.format ∈ standard.formats)
    (hx : (Session.opening s options files).Continues x) (first : Option (String × Error)) :
    (∃ archive y, tryAll source (candidate :: candidates) first x = .ok (.recognized archive) y ∧
      candidate.format.readAlone source s options files = .ok archive.entries ∧
      archive.format = candidate.format.id ∧ archive.stream.source = s.source) ∨
    ∃ error y, tryAll source (candidate :: candidates) first x
        = tryAll source candidates (first <|> some (candidate.format.id, error)) y ∧
      candidate.format.readAlone source s options files = .error error ∧
      (Session.opening s options files).Continues y := by
  obtain ⟨y, hattempt, hy⟩ := Format.attempt_eq h source hx
  cases halone : candidate.format.readAlone source s options files with
  | ok entries =>
    left
    rw [halone] at hattempt
    refine ⟨⟨candidate.format.id, y.stream, entries⟩, y, ?_, rfl, rfl, hy.source_eq⟩
    rw [tryAll, bind_of_ok hattempt]
    rfl
  | error error =>
    right
    rw [halone] at hattempt
    refine ⟨error, { y with reports := y.reports.push (.warning candidateFailed) }, ?_, rfl,
      hy.source_eq, hy.environment_eq⟩
    rw [tryAll, bind_of_ok hattempt]
    rfl

/-- Once a format has failed, the outcome is the first success among the others, or that failure. -/
theorem tryAll_some (source : Location) (h : ∀ c ∈ candidates, c.format ∈ standard.formats)
    (hx : (Session.opening s options files).Continues x) (id : String) (error : Error) :
    ∃ result y, tryAll source candidates (some (id, error)) x = .ok result y ∧
      ((∃ archive, result = .recognized archive ∧ archive.stream.source = s.source ∧
          FirstSuccess (·.readAlone source s options files) (candidates.map Candidate.format)
            archive) ∨
        result = .corrupt id error ∧ ∀ f ∈ candidates.map Candidate.format,
          ∃ e, f.readAlone source s options files = .error e) := by
  induction candidates generalizing x with
  | nil => exact ⟨_, x, rfl, .inr ⟨rfl, fun f hf => absurd hf List.not_mem_nil⟩⟩
  | cons candidate candidates ih =>
    rcases tryAll_cons source candidates (h candidate List.mem_cons_self) hx
      (some (id, error)) with ⟨archive, y, htry, hok, hformat, hsource⟩ | ⟨e, y, htry, he, hy⟩
    · exact ⟨_, y, htry, .inl ⟨archive, rfl, hsource, .here hok hformat⟩⟩
    · obtain ⟨result, z, hrest, houtcome⟩ := ih (fun c hc => h c (List.mem_cons_of_mem _ hc)) hy
      refine ⟨result, z, htry.trans hrest, ?_⟩
      rcases houtcome with ⟨archive, hresult, hsource, hfirst⟩ | ⟨hresult, hfailures⟩
      · exact .inl ⟨archive, hresult, hsource, .later he hfirst⟩
      · exact .inr ⟨hresult, List.forall_mem_cons.mpr ⟨⟨e, he⟩, hfailures⟩⟩

/-- **Formats that are tried in turn** give what is chosen among the results that each finds on its
own. -/
theorem tryAll_none (source : Location) (h : ∀ c ∈ candidates, c.format ∈ standard.formats)
    (hx : (Session.opening s options files).Continues x) :
    ∃ result y, tryAll source candidates none x = .ok result y ∧
      Chosen (·.readAlone source s options files) (candidates.map Candidate.format) result ∧
        ∀ archive, result = .recognized archive → archive.stream.source = s.source := by
  cases candidates with
  | nil => exact ⟨_, x, rfl, .unrecognized, fun _ h => nomatch h⟩
  | cons candidate candidates =>
    rcases tryAll_cons source candidates (h candidate List.mem_cons_self) hx none with
      ⟨archive, y, htry, hok, hformat, hsource⟩ | ⟨e, y, htry, he, hy⟩
    · refine ⟨_, y, htry, .recognized (.here hok hformat), fun _ heq => ?_⟩
      cases heq
      exact hsource
    · obtain ⟨result, z, hrest, houtcome⟩ := tryAll_some source
        (fun c hc => h c (List.mem_cons_of_mem _ hc)) hy candidate.format.id e
      refine ⟨result, z, htry.trans hrest, ?_⟩
      rcases houtcome with ⟨archive, rfl, hsource, hfirst⟩ | ⟨rfl, hfailures⟩
      · refine ⟨.recognized (.later he hfirst), fun _ heq => ?_⟩
        cases heq
        exact hsource
      · exact ⟨.corrupt he hfailures, fun _ heq => nomatch heq⟩

end

/-! ### Opening -/

section

variable {registry : Registry} {format : Format} {source : Location} {s : Stream} {options : Options}
  {files : FileTree} {entries : List Entry}

/-- Each identifier names one format, whatever the case of its letters. -/
theorem find?_id (h : ∀ f ∈ registry.formats, f ∈ standard.formats)
    (hformat : format ∈ registry.formats) : registry.find? format.id = some format := by
  have hdistinct : (standard.formats.map fun f => Text.lowerAscii f.id).Nodup := by decide +kernel
  have hsame (f : Format) (hf : f ∈ registry.formats)
      (hid : Text.sameIgnoringCase f.id format.id = true) : f = format :=
    List.inj_on_of_nodup_map hdistinct (h f hf) (h format hformat) (beq_iff_eq.mp hid)
  rw [find?]
  cases hfind : registry.formats.find? fun f => Text.sameIgnoringCase f.id format.id with
  | none => exact absurd (beq_self_eq_true _) (List.find?_eq_none.mp hfind format hformat)
  | some f =>
    have hid := List.find?_some (p := fun f : Format => Text.sameIgnoringCase f.id format.id)
      hfind
    rw [hsame f (List.mem_of_find?_eq_some hfind) hid]

/-- What a format finds on its own it also finds when it is asked for by name. -/
theorem openAs_id (h : ∀ f ∈ registry.formats, f ∈ standard.formats)
    (hformat : format ∈ registry.formats)
    (halone : format.readAlone source s options files = .ok entries) :
    ∃ archive y, registry.openAs format.id source (.opening s options files) = .ok archive y ∧
      archive.format = format.id ∧ archive.entries = entries := by
  obtain ⟨y, hattempt, -⟩ := Format.attempt_eq (h format hformat) source
    (show (Session.opening s options files).Continues _ from ⟨rfl, rfl⟩)
  rw [halone, Decode.attempt] at hattempt
  rw [openAs, find?_id h hformat]
  dsimp only
  cases hread : format.readDirectory source (.opening s options files) with
  | ok found z =>
    rw [hread] at hattempt
    cases hattempt
    exact ⟨_, _, (bind_of_ok hread).trans rfl, rfl, rfl⟩
  | error e z =>
    rw [hread] at hattempt
    cases hattempt

/-- The formats that are confident enough, best first. -/
def ranking (registry : Registry) (source : Location) (s : Stream) : List Format :=
  (registry.bestFirst source s).filter fun f =>
    (f.confidence source s).reaches registry.threshold

/-- Opening a stream is trying the formats that are confident enough. -/
theorem openStream_eq (h : ∀ f ∈ registry.formats, f ∈ standard.formats) :
    registry.openStream source (.opening s options files)
      = tryAll source ((registry.ranking source s).map fun f => ⟨f, f.confidence source s⟩) none
          (.opening s options files) := by
  have hidentify : (liftM (registry.identify source) : Decode (List Candidate))
      (.opening s options files) = .ok ((registry.bestFirst source s).map fun f =>
        ⟨f, f.confidence source s⟩) (.opening s options files) :=
    liftReader_eq_ok.mpr ⟨s, identify_eq (fun f hf => Format.isPure_of_mem (h f hf)) source s, rfl⟩
  rw [openStream, bind_of_ok hidentify, List.filter_map]
  rfl

theorem mem_ranking : format ∈ registry.ranking source s ↔
    format ∈ registry.formats ∧
      (format.confidence source s).reaches registry.threshold = true := by
  rw [ranking, List.mem_filter, bestFirst, List.mem_mergeSort]

/-- Opening a stream never fails, and gives what is chosen among the results that the formats of the
ranking find on their own. -/
theorem exists_openStream (h : ∀ f ∈ registry.formats, f ∈ standard.formats) (source : Location)
    (s : Stream) (options : Options) (files : FileTree) :
    ∃ result y, registry.openStream source (.opening s options files) = .ok result y ∧
      Chosen (·.readAlone source s options files) (registry.ranking source s) result ∧
      ∀ archive, result = .recognized archive → archive.stream.source = s.source := by
  have hformats : ∀ c ∈ (registry.ranking source s).map fun f =>
      (⟨f, f.confidence source s⟩ : Candidate), c.format ∈ standard.formats := by
    intro c hc
    obtain ⟨f, hf, rfl⟩ := List.mem_map.mp hc
    exact h f (mem_ranking.mp hf).1
  have hmap : ((registry.ranking source s).map fun f =>
      (⟨f, f.confidence source s⟩ : Candidate)).map Candidate.format = registry.ranking source s := by
    rw [List.map_map]
    exact List.map_id _
  obtain ⟨result, y, htry, hchosen, hsource⟩ := tryAll_none source hformats
    (show (Session.opening s options files).Continues _ from ⟨rfl, rfl⟩)
  rw [hmap] at hchosen
  exact ⟨result, y, (openStream_eq h).trans htry, hchosen, hsource⟩

/-- **The outcome of opening a stream** is the best success: of the formats that reach the threshold,
by confidence and equals in the order of the registry, the first that can read the stream on its own
gives the archive, and its reading can be repeated by name. If there are such formats but none can
read the stream, the first of them gives the error. -/
theorem openStream_chosen (h : ∀ f ∈ registry.formats, f ∈ standard.formats) (source : Location)
    (s : Stream) (options : Options) (files : FileTree) :
    ∃ ranking result y,
      registry.openStream source (.opening s options files) = .ok result y ∧
      (∀ order, IsRanking (·.confidence source s) (registry.candidates source s) order ↔
        order = ranking) ∧
      Chosen (·.readAlone source s options files) ranking result ∧
      ∀ archive, result = .recognized archive → archive.stream.source = s.source ∧
        ∃ again z, registry.openAs archive.format source (.opening s options files) = .ok again z ∧
          again.format = archive.format ∧ again.entries = archive.entries := by
  have hranking : IsRanking (·.confidence source s) (registry.candidates source s)
      (registry.ranking source s) := isRanking_mergeSort _ _ _
  obtain ⟨result, y, hopen, hchosen, hsource⟩ := exists_openStream h source s options files
  refine ⟨registry.ranking source s, result, y, hopen, fun order => ?_, hchosen, ?_⟩
  · exact ⟨fun horder => horder.unique hranking, fun heq => heq ▸ hranking⟩
  · rintro archive rfl
    obtain ⟨f, hf, hformat, halone⟩ := hchosen.firstSuccess.exists_mem
    rw [hformat]
    exact ⟨hsource archive rfl, openAs_id h (mem_ranking.mp hf).1 halone⟩

/-- A stream that is most likely in one format by its extension, and can only be read in another. -/
theorem openStream_chosen_second :
    let registry : Registry := { formats := [Ofs.format, Lump.format], threshold := 0 }
    let source : Location := .file "data.lump" 8
    let x : Session := .opening (.ofBytes [4, 0, 0, 0, 0, 0, 0, 0]) {} .empty
    (∀ f ∈ registry.formats, f ∈ standard.formats) ∧
      ∃ archive y, registry.openStream source x = .ok (.recognized archive) y ∧
        archive.format = "ofs" ∧ archive.entries = [] := by
  intro registry source x
  have hformats : ∀ f ∈ registry.formats, f ∈ standard.formats := by
    simp [registry, standard]
  have hlump : Lump.format.confidence source x.stream = ⟨25⟩ := by decide +kernel
  have hofs : Ofs.format.confidence source x.stream = ⟨0⟩ := by decide +kernel
  have hlump' : Lump.format.readAlone source x.stream {} .empty
      = .error (.exceeds "directory offset" 0 8) := by decide +kernel
  have hofs' : Ofs.format.readAlone source x.stream {} .empty = .ok [] := by decide +kernel
  obtain ⟨ranking, result, y, hopen, hranking, hchosen, -⟩ :=
    openStream_chosen hformats source x.stream {} .empty
  have hall : registry.candidates source x.stream = [Ofs.format, Lump.format] :=
    List.filter_eq_self.mpr fun f _ => decide_eq_true (Nat.zero_le _)
  have horder : [Lump.format, Ofs.format] = ranking := by
    refine (hranking _).mp ⟨by simp [hlump, hofs], fun c => ?_⟩
    rw [hall]
    by_cases hc : (⟨25⟩ : Confidence) = c
    · subst hc
      simp [hlump, hofs]
    · simp [List.filter_cons, hlump, hc]
  subst horder
  obtain ⟨archive, rfl, hformat, hentries⟩ :=
      hchosen.of_only (List.mem_cons_of_mem _ List.mem_cons_self) hofs' fun f hf found hfound => by
    rcases List.mem_cons.mp hf with rfl | hf
    · rw [hlump'] at hfound
      cases hfound
    · exact List.mem_singleton.mp hf
  exact ⟨hformats, archive, y, hopen, hformat, hentries⟩

end

end Registry

end Packfile
