import Packfile.Proofs.Couplings
import Packfile.Proofs.Reading
import Packfile.Proofs.Truncation

/-!
# Streams and sessions that are alike

Two streams are alike when they hold the same bytes in the same order, on storage that is the same
or, if `failing` is allowed, fails somewhere in the second stream only. They may stand at different
positions unless they are said to be `placed`. Two sessions are alike when their streams are, when
both offer the same options, files and names, and when they have the same palettes; their reports
may differ, and so may whether the name table has been loaded yet.

These are the relations in which the runs of readers and decoders are compared. Where `failing` is
not allowed they say what a run does not depend on: the reports of earlier runs, and, for what
starts by going to a place of its own, the position. Where it is allowed they say that failing
storage is noticed: a run over it ends as the run over healthy storage does, or with an error that
says that the storage failed.

## Positions

Everything that reads at the position asks for streams that are placed, and everything that goes to
a place makes them so. The one reading that leaves streams at different positions is that of a
content, since how much of its input a decompressor draws depends on how much there is.

## Main definitions

* `Stream.failingFrom` — a stream on storage that fails from a position on
* `Stream.Like`, `Session.Like` — streams and sessions that are alike
* `Reader.Alike`, `Decode.Alike` — computations that cannot tell them apart

## Main results

* `Reading.alike_exactly`, `Reading.alike_seek`, `Reading.alike_content` and their kin
* `Reading.alike_ofReader`, `Reading.alike_onStream`, `Reading.alike_names` — steps of a decode
-/

namespace Packfile

open Run

/-! ### Streams -/

namespace Stream

/-- The stream on storage that fails from a position on. -/
def failingFrom (s : Stream) (limit : ℕ) : Stream := { s with failAt := some limit }

/-- The streams hold the same, and stand at the same position if they are `placed`. If `failing` is
allowed, the storage of the second may fail where that of the first does not. -/
structure Like (failing placed : Prop) (s t : Stream) : Prop where
  /-- The contents. -/
  bytes_eq : t.bytes = s.bytes
  /-- The byte order. -/
  order_eq : t.order = s.order
  /-- The position. -/
  position_eq : placed → t.position = s.position
  /-- The storage. -/
  storage : t.failAt = s.failAt ∨ failing ∧ s.failAt = none

variable {failing placed placed' : Prop} {s t : Stream} {limit : ℕ}

theorem like_refl (s : Stream) : s.Like failing placed s := ⟨rfl, rfl, fun _ => rfl, .inl rfl⟩

theorem Like.of_imp (h : s.Like failing placed t) (himp : placed' → placed) :
    s.Like failing placed' t := ⟨h.bytes_eq, h.order_eq, fun hp => h.position_eq (himp hp), h.storage⟩

theorem Like.loosen (h : s.Like failing placed t) : s.Like failing False t := h.of_imp False.elim

theorem Like.length_eq (h : s.Like failing placed t) : t.length = s.length :=
  congrArg List.length h.bytes_eq

/-- Moving both streams to one position places them. -/
theorem Like.goto (h : s.Like failing placed t) (p : ℕ) :
    ({ s with position := p } : Stream).Like failing True { t with position := p } :=
  ⟨h.bytes_eq, h.order_eq, fun _ => rfl, h.storage⟩

theorem Like.moved (h : s.Like failing placed t) (p q : ℕ) :
    ({ s with position := p } : Stream).Like failing False { t with position := q } :=
  ⟨h.bytes_eq, h.order_eq, False.elim, h.storage⟩

/-- Streams that are alike and placed are the same, or the second is the first on failing storage. -/
theorem Like.eq_or (h : s.Like failing True t) :
    t = s ∨ failing ∧ s.failAt = none ∧ ∃ limit, t = s.failingFrom limit := by
  obtain ⟨bytes, position, order, failAt⟩ := s
  obtain ⟨bytes', position', order', failAt'⟩ := t
  obtain ⟨rfl, rfl, hposition, hstorage⟩ := h
  obtain rfl := hposition trivial
  rcases hstorage with rfl | ⟨hfailing, rfl⟩
  · exact .inl rfl
  · cases failAt' with
    | none => exact .inl rfl
    | some limit => exact .inr ⟨hfailing, rfl, limit, rfl⟩

theorem like_failingFrom (hfailing : failing) (hs : s.failAt = none) :
    s.Like failing placed (s.failingFrom limit) := ⟨rfl, rfl, fun _ => rfl, .inr ⟨hfailing, hs⟩⟩

/-- What failing storage can deliver is the beginning of what healthy storage delivers. -/
theorem ahead_failingFrom (hs : s.failAt = none) :
    (s.failingFrom limit).ahead = s.ahead.take (limit - s.position) := by
  simp [ahead, failingFrom, hs]

/-- What two runs over streams that are alike may differ in. -/
def tolerance (failing : Prop) : Tolerance Error Stream where
  loose := Like failing False
  excuses e := failing ∧ e.isStorageFailure = true

end Stream

/-- Over streams that are alike the reader does the same, and leaves streams that are alike. -/
abbrev Reader.Alike {α : Type} (failing placed placed' : Prop) (body : Reader α) : Prop :=
  Coupled (Stream.tolerance failing) (Stream.Like failing placed) (Stream.Like failing placed') body

namespace Reading

variable {α β : Type} {failing placed placed' : Prop} {s t : Stream}

theorem loosen_stream (s t : Stream) (h : s.Like failing placed t) :
    (Stream.tolerance failing).loose s t := h.loosen

/-- A run that failed for want of bytes is excused. -/
theorem excused_read (hfailing : failing) (failure : ReadFailure) :
    Excused (Stream.tolerance failing) (.error (.read failure) s : EStateM.Result Error Stream α) :=
  ⟨_, _, rfl, hfailing, rfl⟩

/-- To compare runs over streams that are placed it is enough to compare a healthy stream with the
same stream on failing storage. -/
theorem alike_of_failing {body : Reader α}
    (h : ∀ s limit, failing → s.failAt = none →
      Agree (Stream.Like failing False) (Stream.Like failing placed') (body s)
          (body (s.failingFrom limit)) ∨
        Excused (Stream.tolerance failing) (body s) ∨
          Excused (Stream.tolerance failing) (body (s.failingFrom limit))) :
    body.Alike failing True placed' := by
  intro s t hst
  rcases hst.eq_or with rfl | ⟨hfailing, hs, limit, rfl⟩
  · exact .inl (Agree.refl Stream.like_refl Stream.like_refl _)
  · exact h s limit hfailing hs

/-! ### Questions and moves -/

theorem alike_throw (e : Error) : (throw e : Reader α).Alike failing placed placed' :=
  coupled_throw loosen_stream e

theorem alike_length : Reader.length.Alike failing placed placed :=
  coupled_query fun _ _ h => h.length_eq.symm

theorem alike_order : Reader.order.Alike failing placed placed :=
  coupled_query fun _ _ h => h.order_eq.symm

theorem alike_offset : Reader.offset.Alike failing True True :=
  coupled_query fun _ _ h => (h.position_eq trivial).symm

theorem alike_remaining : Reader.remaining.Alike failing True True := by
  refine coupled_query fun s t h => ?_
  rw [Stream.remaining, Stream.remaining, h.length_eq, h.position_eq trivial]

theorem alike_ofExcept (result : Except Error α) :
    (Reader.ofExcept result).Alike failing placed placed := by
  intro s t h
  cases result with
  | ok a => exact .inl (.ok h)
  | error e => exact .inl (.error h.loosen)

theorem alike_liftExcept (result : Except Error α) :
    (liftM result : Reader α).Alike failing placed placed := alike_ofExcept result

/-- Whatever goes to a place finds the streams placed there. -/
theorem alike_seek (p : ℕ) : (Reader.seek p).Alike failing placed True :=
  alike_length.bind fun _ => Coupled.guard loosen_stream fun _ _ h => .inl (.ok (h.goto p))

theorem alike_skip (k : ℕ) : (Reader.skip k).Alike failing True True :=
  alike_offset.bind fun _ => alike_seek _

theorem alike_checkRange (what : String) (start size : ℕ) :
    (Reader.checkRange what start size).Alike failing placed placed :=
  alike_length.bind fun _ => Coupled.ite (alike_throw _) (coupled_pure _)

/-! ### Reading at the position -/

theorem alike_exactly (k : ℕ) : (Reader.exactly k).Alike failing True True := by
  refine alike_of_failing fun s limit hfailing hs => ?_
  have hahead : (s.failingFrom limit).ahead = s.ahead.take (limit - s.position) :=
    Stream.ahead_failingFrom hs
  by_cases hk : k ≤ (s.failingFrom limit).ahead.length
  · -- The bytes are in front of the place where the storage fails.
    have hlimit : k ≤ limit - s.position ∧ k ≤ s.ahead.length := by
      rw [hahead, List.length_take] at hk
      omega
    have hfound : (s.failingFrom limit).ahead.take k = s.ahead.take k := by
      rw [hahead, List.take_take, Nat.min_eq_left hlimit.1]
    rw [exactly_eq_ok.mpr ⟨hlimit.2, rfl, rfl⟩, exactly_eq_ok.mpr ⟨hk, rfl, rfl⟩, hfound]
    exact .inl (.ok (Stream.like_failingFrom hfailing hs))
  · right
    right
    have hshort : ((s.failingFrom limit).ahead.take k).length ≠ k := by
      rw [List.length_take]
      omega
    rw [Reader.exactly, if_neg hshort]
    split
    · exact excused_read hfailing _
    · exact excused_read hfailing _

theorem alike_wordIn (order : ByteOrder) (width : ℕ) :
    (Reader.wordIn order width).Alike failing True True :=
  (alike_exactly width).bind fun _ => coupled_pure _

theorem alike_u8 : Reader.u8.Alike failing True True := alike_wordIn _ _

theorem alike_u16 : Reader.u16.Alike failing True True := alike_order.bind fun _ => alike_wordIn _ _

theorem alike_u32 : Reader.u32.Alike failing True True := alike_order.bind fun _ => alike_wordIn _ _

theorem alike_uint (width : ℕ) (order : ByteOrder) :
    (Reader.uint width order).Alike failing True True :=
  Coupled.ite (alike_wordIn _ _) (alike_throw _)

theorem alike_bytes (k : ℕ) : (Reader.bytes k).Alike failing True True :=
  alike_remaining.bind fun _ => Coupled.guard loosen_stream (alike_exactly k)

theorem alike_fixedString (width : ℕ) : (Reader.fixedString width).Alike failing True True := by
  rw [fixedString_eq]
  exact (alike_bytes width).bind fun _ => coupled_pure _

/-- The bytes among which a zero is looked for. -/
def window (limit : Option ℕ) (ahead : Bytes) : Bytes :=
  match limit with
  | none => ahead
  | some limit => ahead.take limit

theorem window_take_prefix (limit : Option ℕ) (ahead : Bytes) (k : ℕ) :
    window limit (ahead.take k) <+: window limit ahead := by
  cases limit with
  | none => exact List.take_prefix _ _
  | some n =>
    show (ahead.take k).take n <+: ahead.take n
    rw [List.take_take, Nat.min_comm, ← List.take_take]
    exact List.take_prefix _ _

/-- A zero that is found is found whatever comes behind it. -/
theorem beforeZero_of_prefix {short long : Bytes} (h : short <+: long)
    (hzero : (Reader.beforeZero short).length < short.length) :
    Reader.beforeZero long = Reader.beforeZero short := by
  obtain ⟨tail, rfl⟩ := h
  rw [Reader.beforeZero, List.takeWhile_append, if_neg]
  · rfl
  · exact Nat.ne_of_lt hzero

/-- Bytes up to a zero, or up to the limit, or there are not enough of them. -/
theorem terminatedBytes_of_zero {limit : Option ℕ} {found : Bytes}
    (hfound : Reader.beforeZero (window limit s.ahead) = found)
    (h : found.length < (window limit s.ahead).length) :
    Reader.terminatedBytes limit s = .ok found (s.advance (found.length + 1)) := by
  subst hfound
  exact if_pos h

theorem terminatedBytes_of_limit {limit : Option ℕ} {found : Bytes}
    (hfound : Reader.beforeZero (window limit s.ahead) = found)
    (h : ¬ found.length < (window limit s.ahead).length) (hlimit : limit = some found.length) :
    Reader.terminatedBytes limit s = .ok found (s.advance found.length) := by
  subst hfound
  exact (if_neg h).trans (if_pos hlimit)

theorem terminatedBytes_of_short {limit : Option ℕ} {found : Bytes}
    (hfound : Reader.beforeZero (window limit s.ahead) = found)
    (h : ¬ found.length < (window limit s.ahead).length) (hlimit : limit ≠ some found.length) :
    ∃ failure u, Reader.terminatedBytes limit s = .error (.read failure) u := by
  subst hfound
  exact ⟨_, _, (if_neg h).trans (if_neg hlimit)⟩

theorem alike_terminatedBytes (limit : Option ℕ) :
    (Reader.terminatedBytes limit).Alike failing True True := by
  refine alike_of_failing fun s n hfailing hs => ?_
  have hprefix : window limit (s.failingFrom n).ahead <+: window limit s.ahead := by
    rw [Stream.ahead_failingFrom hs]
    exact window_take_prefix _ _ _
  generalize hfound : Reader.beforeZero (window limit (s.failingFrom n).ahead) = found
  by_cases hzero : found.length < (window limit (s.failingFrom n).ahead).length
  · have hsame : Reader.beforeZero (window limit s.ahead) = found := by
      rw [← hfound] at hzero ⊢
      exact beforeZero_of_prefix hprefix hzero
    rw [terminatedBytes_of_zero hfound hzero,
      terminatedBytes_of_zero hsame (Nat.lt_of_lt_of_le hzero hprefix.length_le)]
    exact .inl (.ok (Stream.like_failingFrom hfailing hs))
  · by_cases hlimit : limit = some found.length
    · -- Up to the limit both streams have the same bytes.
      have hsame : window limit (s.failingFrom n).ahead = window limit s.ahead := by
        refine hprefix.eq_of_length_le ?_
        have hle : (window limit s.ahead).length ≤ found.length := by
          rw [hlimit]
          exact List.length_take_le _ _
        have hfound' : found.length ≤ (window limit (s.failingFrom n).ahead).length := by
          rw [← hfound]
          exact (List.takeWhile_prefix _).length_le
        exact Nat.le_trans hle hfound'
      have hfound' : Reader.beforeZero (window limit s.ahead) = found := by rw [← hsame, hfound]
      rw [terminatedBytes_of_limit hfound hzero hlimit,
        terminatedBytes_of_limit hfound' (by rwa [← hsame]) hlimit]
      exact .inl (.ok (Stream.like_failingFrom hfailing hs))
    · obtain ⟨failure, u, herror⟩ := terminatedBytes_of_short hfound hzero hlimit
      rw [herror]
      exact .inr (.inr (excused_read hfailing failure))

theorem alike_terminatedString (limit : Option ℕ) :
    (Reader.terminatedString limit).Alike failing True True :=
  (alike_terminatedBytes limit).bind fun _ => coupled_pure _

/-- A record that cannot be read says so in an error of its own, which excuses as well. -/
theorem alike_asRecord {body : Reader α} (h : body.Alike failing placed placed') :
    (Reader.asRecord body).Alike failing placed placed' := by
  have hexcused (u : Stream) (hu : Excused (Stream.tolerance failing) (body u)) :
      Excused (Stream.tolerance failing) (Reader.asRecord body u) := by
    obtain ⟨e, v, hbody, hfailing, he⟩ := hu
    rw [Reader.asRecord, hbody]
    cases e <;> first | exact ⟨_, _, rfl, hfailing, rfl⟩ | cases he
  intro s t hst
  rcases h s t hst with hagree | hleft | hright
  · left
    unfold Reader.asRecord
    generalize body s = r at hagree
    generalize body t = r' at hagree
    cases hagree with
    | ok h => exact .ok h
    | @error e u v h => cases e <;> exact .error (h.moved _ _)
  · exact .inr (.inl (hexcused s hleft))
  · exact .inr (.inr (hexcused t hright))

/-! ### Contents -/

/-- What failing storage delivers of a range is the beginning of the range. -/
theorem comparable_ofStream (hs : s.failAt = none) (limit size : ℕ) :
    (Feed.ofStream s size).Comparable (Feed.ofStream (s.failingFrom limit) size) := by
  right
  rw [Feed.bytes_ofStream, Feed.bytes_ofStream, Stream.ahead_failingFrom hs, List.take_take,
    Nat.min_comm, ← List.take_take]
  exact List.take_prefix _ _

/-- The content of a range is the same over failing storage, or the storage is found to fail. How far
the stream is drawn may differ. -/
theorem alike_content (stored decoded : ℕ) (codec : Codec) :
    (Reader.content stored decoded codec).Alike failing True False := by
  refine alike_of_failing fun s limit hfailing hs => ?_
  have hfeeds := comparable_ofStream hs limit stored
  have hlike : s.Like failing True (s.failingFrom limit) := Stream.like_failingFrom hfailing hs
  unfold Reader.content ContentReader.make
  dsimp only
  rcases codec.undo_comparable hfeeds with ⟨e, hleft, hright⟩ | ⟨f, g, hleft, hright, hfg⟩
  · rw [hleft, hright]
    exact .inl (.error hlike.loosen)
  · rw [hleft, hright]
    dsimp only
    cases hf : ContentReader.readAll ⟨f, decoded⟩ with
    | error e =>
      obtain ⟨failure, rfl⟩ := ContentReader.exists_of_readAll_eq_error hf
      exact .inr (.inl (excused_read hfailing failure))
    | ok content =>
      cases hg : ContentReader.readAll ⟨g, decoded⟩ with
      | error e =>
        obtain ⟨failure, rfl⟩ := ContentReader.exists_of_readAll_eq_error hg
        exact .inr (.inr (excused_read hfailing failure))
      | ok content' =>
        obtain rfl := ContentReader.readAll_of_comparable hfg hf hg
        exact .inl (.ok (hlike.moved _ _))

theorem alike_decodeBlock (start stored decoded : ℕ) (codec : Codec) :
    (Reader.decodeBlock start stored decoded codec).Alike failing placed False :=
  (alike_checkRange _ _ _).bind fun _ => Coupled.guard loosen_stream <|
    (alike_seek _).bind fun _ => alike_content _ _ _

end Reading

/-! ### Sessions -/

namespace Session

/-- The name table of the session: the one that is loaded, or the one that would be. -/
def nameTable (x : Session) : NameTable :=
  match x.context.names, x.context.options.nameTable with
  | some table, _ => table
  | none, none => .empty
  | none, some path => (NameTable.load? x.files path).getD .empty

/-- What the caller allows, the files within reach, and the names. No run changes any of it. -/
def environment (x : Session) : Options × FileTree × NameTable :=
  (x.context.options, x.files, x.nameTable)

/-- The streams are alike, both sessions offer the given environment, and they have the same
palettes. -/
structure Like (failing placed : Prop) (env : Options × FileTree × NameTable) (x y : Session) :
    Prop where
  /-- The streams. -/
  stream_like : x.stream.Like failing placed y.stream
  /-- The environment of the first. -/
  environment_left : x.environment = env
  /-- The environment of the second. -/
  environment_right : y.environment = env
  /-- The palettes. -/
  palettes_eq : y.context.palettes = x.context.palettes

variable {failing placed placed' : Prop} {env : Options × FileTree × NameTable} {x y : Session}

theorem Like.of_imp (h : x.Like failing placed env y) (himp : placed' → placed) :
    x.Like failing placed' env y :=
  ⟨h.stream_like.of_imp himp, h.environment_left, h.environment_right, h.palettes_eq⟩

theorem Like.loosen (h : x.Like failing placed env y) : x.Like failing False env y :=
  h.of_imp False.elim

theorem Like.options_eq (h : x.Like failing placed env y) :
    y.context.options = x.context.options :=
  congrArg Prod.fst (h.environment_right.trans h.environment_left.symm)

theorem Like.files_eq (h : x.Like failing placed env y) : y.files = x.files :=
  congrArg (fun e => e.2.1) (h.environment_right.trans h.environment_left.symm)

/-- The sessions may go on with other streams. -/
theorem Like.withStream (h : x.Like failing placed env y) {s t : Stream}
    (hst : s.Like failing placed' t) :
    ({ x with stream := s } : Session).Like failing placed' env { y with stream := t } :=
  ⟨hst, h.environment_left, h.environment_right, h.palettes_eq⟩

/-- What two runs over sessions that are alike may differ in. -/
def tolerance (failing : Prop) (env : Options × FileTree × NameTable) :
    Tolerance Error Session where
  loose := Like failing False env
  excuses e := failing ∧ e.isStorageFailure = true

end Session

/-- In sessions that are alike the computation does the same, and leaves sessions that are alike. -/
abbrev Decode.Alike {α : Type} (failing placed placed' : Prop)
    (env : Options × FileTree × NameTable) (body : Decode α) : Prop :=
  Coupled (Session.tolerance failing env) (Session.Like failing placed env)
    (Session.Like failing placed' env) body

namespace Reading

variable {α β : Type} {failing placed placed' placed'' : Prop}
  {env : Options × FileTree × NameTable} {x y : Session}

theorem loosen_session (x y : Session) (h : x.Like failing placed env y) :
    (Session.tolerance failing env).loose x y := h.loosen

theorem alike_throw_decode (e : Error) :
    (throw e : Decode α).Alike failing placed placed' env :=
  coupled_throw loosen_session e

/-- At the end of a decode nobody asks for the position. -/
theorem alike_pure_decode (a : α) : (pure a : Decode α).Alike failing placed False env :=
  (coupled_pure a).mono (fun _ _ h => h) fun _ _ h => h.loosen

theorem alike_ofReader {body : Reader α} (h : body.Alike failing placed placed') :
    (Decode.ofReader body).Alike failing placed placed' env := by
  have hexcused (z : Session) (hz : Excused (Stream.tolerance failing) (body z.stream)) :
      Excused (Session.tolerance failing env) (Decode.ofReader body z) := by
    obtain ⟨e, u, hbody, he⟩ := hz
    rw [Decode.ofReader, hbody]
    exact ⟨e, _, rfl, he⟩
  intro x y hxy
  rcases h x.stream y.stream hxy.stream_like with hagree | hleft | hright
  · left
    unfold Decode.ofReader
    generalize body x.stream = r at hagree
    generalize body y.stream = r' at hagree
    cases hagree with
    | ok h => exact .ok (hxy.withStream h)
    | error h => exact .error (hxy.withStream h)
  · exact .inr (.inl (hexcused x hleft))
  · exact .inr (.inr (hexcused y hright))

theorem alike_liftReader {body : Reader α} (h : body.Alike failing placed placed') :
    (liftM body : Decode α).Alike failing placed placed' env := alike_ofReader h

theorem alike_liftExcept_decode (result : Except Error α) :
    (liftM result : Decode α).Alike failing placed placed env :=
  alike_ofReader (alike_ofExcept result)

theorem alike_options : Decode.options.Alike failing placed placed env :=
  coupled_query fun _ _ h => h.options_eq.symm

theorem alike_files : Decode.files.Alike failing placed placed env :=
  coupled_query fun _ _ h => h.files_eq.symm

theorem alike_report (r : Report) : (Decode.report r).Alike failing placed placed env :=
  coupled_modify fun _ _ h =>
    ⟨h.stream_like, h.environment_left, h.environment_right, h.palettes_eq⟩

theorem alike_addPalette (palette : Palette) :
    (Decode.addPalette palette).Alike failing placed placed env :=
  coupled_modify fun _ _ h => ⟨h.stream_like, h.environment_left, h.environment_right,
    congrArg (· ++ [palette]) h.palettes_eq⟩

theorem alike_checkCount (count recordSize available : ℕ) :
    (Decode.checkCount count recordSize available).Alike failing placed placed env :=
  alike_options.bind fun _ => alike_ofReader (alike_ofExcept _)

theorem alike_checkRoom (found : ℕ) :
    (Decode.checkRoom found).Alike failing placed placed env :=
  alike_options.bind fun _ => Coupled.ite
    ((alike_liftExcept_decode _).bind fun _ => coupled_throw loosen_session _) (coupled_pure _)

/-- Asking for the name table gives the table of the session and changes nothing that another run
could see, whether or not the table had been loaded. -/
theorem names_eq (x : Session) : ∃ y, Decode.names x = .ok x.nameTable y ∧ y.stream = x.stream ∧
    y.environment = x.environment ∧ y.context.palettes = x.context.palettes := by
  -- Loading the table fills the cache with what was to be loaded, and may add a warning.
  have hloaded (r : Array Report) :
      let y := { x with
        context := { x.context with names := some x.nameTable }, reports := r }
      y.stream = x.stream ∧ y.environment = x.environment ∧
        y.context.palettes = x.context.palettes := ⟨rfl, rfl, rfl⟩
  cases hnames : x.context.names with
  | some table =>
    have htable : x.nameTable = table := by rw [Session.nameTable, hnames]
    refine ⟨x, ?_, rfl, rfl, rfl⟩
    rw [Decode.names, bind_of_ok (get_eq_ok.mpr ⟨rfl, rfl⟩), hnames, htable]
    rfl
  | none =>
    cases hpath : x.context.options.nameTable with
    | none =>
      have htable : x.nameTable = .empty := by rw [Session.nameTable, hnames, hpath]
      refine ⟨_, ?_, hloaded x.reports⟩
      rw [Decode.names, bind_of_ok (get_eq_ok.mpr ⟨rfl, rfl⟩), hnames, hpath, htable]
      rfl
    | some path =>
      have htable : x.nameTable = (NameTable.load? x.files path).getD .empty := by
        rw [Session.nameTable, hnames, hpath]
      cases hload : NameTable.load? x.files path with
      | some table =>
        refine ⟨_, ?_, hloaded x.reports⟩
        rw [Decode.names, bind_of_ok (get_eq_ok.mpr ⟨rfl, rfl⟩), hnames, hpath, htable]
        dsimp only
        rw [hload]
        rfl
      | none =>
        refine ⟨_, ?_, hloaded (x.reports.push (.warning Decode.namesUnavailable))⟩
        rw [Decode.names, bind_of_ok (get_eq_ok.mpr ⟨rfl, rfl⟩), hnames, hpath, htable]
        dsimp only
        rw [hload]
        rfl

theorem alike_names : Decode.names.Alike failing placed placed env := by
  intro x y hxy
  obtain ⟨x', hx, hstream, henv, hpalettes⟩ := names_eq x
  obtain ⟨y', hy, hstream', henv', hpalettes'⟩ := names_eq y
  have htable : y.nameTable = x.nameTable :=
    congrArg (fun e => e.2.2) (hxy.environment_right.trans hxy.environment_left.symm)
  rw [hx, hy, htable]
  refine .inl (.ok ⟨?_, henv.trans hxy.environment_left, henv'.trans hxy.environment_right, ?_⟩)
  · rw [hstream, hstream']
    exact hxy.stream_like
  · rw [hpalettes, hpalettes', hxy.palettes_eq]

theorem onStream_bind {body : Decode α} {s : Stream} {f : α × Stream → Decode β} (x : Session) :
    (Decode.onStream s body >>= f) x =
      match body { x with stream := s } with
      | .ok a z => f (a, z.stream) { z with stream := x.stream }
      | .error e z => .error e { z with stream := x.stream } := by
  cases h : body { x with stream := s } with
  | ok a z => exact bind_of_ok (by rw [Decode.onStream, h])
  | error e z => exact bind_of_error (by rw [Decode.onStream, h])

theorem attempt_bind {body : Decode α} {f : Except Error α → Decode β} (x : Session) :
    (Decode.attempt body >>= f) x =
      match body x with
      | .ok a z => f (.ok a) z
      | .error e z => f (.error e) z := by
  cases h : body x with
  | ok a z => exact bind_of_ok (by rw [Decode.attempt, h])
  | error e z => exact bind_of_ok (by rw [Decode.attempt, h])

/-- A computation over another stream leaves the streams of the sessions as they are. What it leaves
of its own stream must not matter for what comes next. -/
theorem alike_onStream {body : Decode α} {s : Stream} {f : α × Stream → Decode β}
    (hbody : body.Alike failing True placed' env) (hf : ∀ a u v, f (a, u) = f (a, v))
    (hrest : ∀ a u, (f (a, u)).Alike failing placed placed'' env) :
    (Decode.onStream s body >>= f).Alike failing placed placed'' env := by
  have hexcused (z : Session)
      (hz : Excused (Session.tolerance failing env) (body { z with stream := s })) :
      Excused (Session.tolerance failing env) ((Decode.onStream s body >>= f) z) := by
    obtain ⟨e, u, hrun, he⟩ := hz
    rw [onStream_bind, hrun]
    exact ⟨e, _, rfl, he⟩
  intro x y hxy
  have hs : s.Like failing True s := Stream.like_refl s
  have hstart := hxy.withStream hs
  rcases hbody _ _ hstart with hagree | hleft | hright
  · rw [onStream_bind, onStream_bind]
    generalize body { x with stream := s } = r at hagree
    generalize body { y with stream := s } = r' at hagree
    cases hagree with
    | @ok a u v h =>
      dsimp only
      rw [hf a v.stream u.stream]
      exact hrest a u.stream _ _ (h.withStream hxy.stream_like)
    | error h => exact .inl (.error (h.withStream hxy.stream_like.loosen))
  · exact .inr (.inl (hexcused x hleft))
  · exact .inr (.inr (hexcused y hright))

/-- What comes behind an attempt may look at the error, as long as it passes on those that excuse. -/
theorem alike_attempt {body : Decode α} {f : Except Error α → Decode β}
    (hbody : body.Alike failing placed placed' env)
    (hok : ∀ a, (f (.ok a)).Alike failing placed' placed'' env)
    (herror : ∀ e, (f (.error e)).Alike failing False placed'' env)
    (hthrow : ∀ e, e.isStorageFailure = true → f (.error e) = throw e) :
    (Decode.attempt body >>= f).Alike failing placed placed'' env := by
  have hexcused (z : Session) (hz : Excused (Session.tolerance failing env) (body z)) :
      Excused (Session.tolerance failing env) ((Decode.attempt body >>= f) z) := by
    obtain ⟨e, u, hrun, hfailing, he⟩ := hz
    rw [attempt_bind, hrun]
    dsimp only
    rw [hthrow e he]
    exact ⟨e, u, rfl, hfailing, he⟩
  intro x y hxy
  rcases hbody x y hxy with hagree | hleft | hright
  · rw [attempt_bind, attempt_bind]
    generalize body x = r at hagree
    generalize body y = r' at hagree
    cases hagree with
    | ok h => exact hok _ _ _ h
    | error h => exact herror _ _ _ h
  · exact .inr (.inl (hexcused x hleft))
  · exact .inr (.inr (hexcused y hright))

end Reading

end Packfile
