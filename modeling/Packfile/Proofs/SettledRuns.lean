import Packfile.Proofs.Fields
import Packfile.Proofs.LikeDecoders
import Packfile.Proofs.Ratings

/-!
# Runs whose outcome is settled

Of a directory whose layout is simple enough, more can be said than what a success means: that there
is one exactly when a condition on the bytes holds, and with which value. `Settles` says this of a
computation in any state with a property, and like a description of what is ensured it goes through
a `do` block one step at a time. The condition is that of the whole block: it has to imply what each
step needs, and at the end it has to follow from what they needed. Values are total, since where the
condition does not hold there is no success that could yield them.

## Streams and sessions

Most readers depend on where the stream stands, so they are settled from one stream over the bytes
at a position. Those that go to a place of their own are settled from any. In a session the same
holds of its stream, and besides of what is allowed and of the palettes that were read before.

## Main definitions

* `Run.Settles` — a success exactly under a condition, and with one value
* `Session.Over` — a session by its stream, its options and its palettes

## Main results

* `Run.Settles.bind`, `Run.settles_mapM` — steps in turn
* `Reading.settles_u16`, `settles_bytes`, `settles_seek`, `settles_checkRange` and their kin
* `Listing.updateEach_bind` — updates of all entries as steps in turn
-/

namespace Packfile

namespace Run

variable {ε σ α β : Type} {I J K : σ → Prop} {P Q : Prop} {a : α} {b : β}

/-- From a state with `I` the computation succeeds exactly when `P` holds, and then it yields `a`
and leaves a state with `J`. -/
structure Settles (I : σ → Prop) (P : Prop) (a : α) (J : σ → Prop) (x : EStateM ε σ α) : Prop where
  /-- With the condition it succeeds. -/
  exists_ok : ∀ s, I s → P → ∃ t, x s = .ok a t
  /-- Whatever success there is, the condition held. -/
  of_ok : ∀ s, I s → ∀ b t, x s = .ok b t → P ∧ b = a ∧ J t

/-- At the end of a sequence its condition has been established. -/
theorem settles_pure (a : α) (h : P) : Settles I P a I (pure a : EStateM ε σ α) where
  exists_ok s _ _ := ⟨s, rfl⟩
  of_ok s hs b t hb := by
    obtain ⟨rfl, rfl⟩ := pure_eq_ok.mp hb
    exact ⟨h, rfl, hs⟩

/-- Or it has been found not to hold. -/
theorem settles_throw (e : ε) (a : α) (h : ¬ P) : Settles I P a J (throw e : EStateM ε σ α) where
  exists_ok _ _ hP := absurd hP h
  of_ok _ _ _ _ h := (throw_eq_ok.mp h).elim

/-- The condition of a sequence is fixed from its end: it has to imply that of the first step, and
under that one it is the condition of the rest. -/
theorem Settles.bind {x : EStateM ε σ α} {f : α → EStateM ε σ β} (hx : Settles I P a J x)
    (hPQ : Q → P) (hf : P → Settles J Q b K (f a)) : Settles I Q b K (x >>= f) where
  exists_ok s hs hQ := by
    obtain ⟨t, ht⟩ := hx.exists_ok s hs (hPQ hQ)
    rw [bind_of_ok ht]
    exact (hf (hPQ hQ)).exists_ok t (hx.of_ok s hs a t ht).2.2 hQ
  of_ok s hs c u h := by
    obtain ⟨a', t, ht, hu⟩ := bind_eq_ok.mp h
    obtain ⟨hP, rfl, ht⟩ := hx.of_ok s hs a' t ht
    exact (hf hP).of_ok t ht c u hu

/-- A step that always succeeds. -/
theorem Settles.then {x : EStateM ε σ α} {f : α → EStateM ε σ β} (hx : Settles I True a J x)
    (hf : Settles J Q b K (f a)) : Settles I Q b K (x >>= f) :=
  hx.bind (fun _ => trivial) fun _ => hf

/-- Another form of the condition. -/
theorem Settles.congr {x : EStateM ε σ α} (hx : Settles I P a J x) (h : P ↔ Q) :
    Settles I Q a J x where
  exists_ok s hs hQ := hx.exists_ok s hs (h.mpr hQ)
  of_ok s hs b t ht := by
    obtain ⟨hP, hb, hJ⟩ := hx.of_ok s hs b t ht
    exact ⟨h.mp hP, hb, hJ⟩

/-- A more special state before and a more general one behind. -/
theorem Settles.mono {I' J' : σ → Prop} {x : EStateM ε σ α} (hx : Settles I P a J x)
    (hI : ∀ s, I' s → I s) (hJ : ∀ s, J s → J' s) : Settles I' P a J' x where
  exists_ok s hs := hx.exists_ok s (hI s hs)
  of_ok s hs b t ht := by
    obtain ⟨hP, hb, hJt⟩ := hx.of_ok s (hI s hs) b t ht
    exact ⟨hP, hb, hJ t hJt⟩

/-- A step for each element of a list succeeds when all of them do. -/
theorem settles_mapM {f : α → β} {C : α → Prop} {body : α → EStateM ε σ β} {xs : List α}
    (h : ∀ x ∈ xs, Settles I (C x) (f x) I (body x)) :
    Settles I (∀ x ∈ xs, C x) (xs.map f) I (xs.mapM body) := by
  induction xs with
  | nil => exact settles_pure [] fun x hx => absurd hx List.not_mem_nil
  | cons x xs ih =>
    rw [List.mapM_cons]
    refine (h x List.mem_cons_self).bind (fun hall => hall x List.mem_cons_self) fun hx => ?_
    refine (ih fun y hy => h y (List.mem_cons_of_mem _ hy)).bind
      (fun hall y hy => hall y (List.mem_cons_of_mem _ hy)) fun hxs => ?_
    exact settles_pure _ (List.forall_mem_cons.mpr ⟨hx, hxs⟩)

end Run

namespace Reading

open Run Packfile.Stream

variable {I J : Stream → Prop} {bytes : Bytes} {p k : ℕ} {α : Type} {P : Prop} {a : α}

/-! ### From a position -/

/-- A read of an integer needs its bytes, and yields the field. -/
theorem settles_word {body : Reader ℕ} (hk : 0 < k)
    (h : ∀ n t, body (healthyAt bytes p) = .ok n t ↔ k ≤ (healthyAt bytes p).ahead.length ∧
      n = ByteOrder.little.decode ((healthyAt bytes p).ahead.take k) ∧
        t = (healthyAt bytes p).advance k) :
    Settles (· = healthyAt bytes p) (p + k ≤ bytes.length) (ByteOrder.little.field k bytes p)
      (· = healthyAt bytes (p + k)) body where
  exists_ok s hs hle := by
    subst hs
    refine ⟨_, (h _ _).mpr ⟨?_, rfl, rfl⟩⟩
    rw [ahead_healthyAt, List.length_drop]
    omega
  of_ok s hs n t hn := by
    subst hs
    obtain ⟨hlen, rfl, rfl⟩ := (h n t).mp hn
    rw [ahead_healthyAt, List.length_drop] at hlen
    exact ⟨by omega, rfl, rfl⟩

theorem settles_u8 : Settles (· = healthyAt bytes p) (p + 1 ≤ bytes.length)
    (ByteOrder.little.field 1 bytes p) (· = healthyAt bytes (p + 1)) Reader.u8 :=
  settles_word Nat.one_pos fun _ _ => u8_eq_ok

theorem settles_u16 : Settles (· = healthyAt bytes p) (p + 2 ≤ bytes.length)
    (ByteOrder.little.field 2 bytes p) (· = healthyAt bytes (p + 2)) Reader.u16 :=
  settles_word Nat.two_pos fun _ _ => u16_eq_ok

theorem settles_little32 : Settles (· = healthyAt bytes p) (p + 4 ≤ bytes.length)
    (ByteOrder.little.field 4 bytes p) (· = healthyAt bytes (p + 4)) (Reader.uint 4 .little) :=
  settles_word (by decide) fun _ _ => wordIn_eq_ok

theorem settles_bytes (hk : 0 < k) : Settles (· = healthyAt bytes p) (p + k ≤ bytes.length)
    ((bytes.drop p).take k) (· = healthyAt bytes (p + k)) (Reader.bytes k) where
  exists_ok s hs hle := by
    subst hs
    refine ⟨_, bytes_eq_ok.mpr ⟨?_, rfl, rfl⟩⟩
    rw [ahead_healthyAt, List.length_drop]
    omega
  of_ok s hs b t hb := by
    subst hs
    obtain ⟨hlen, rfl, rfl⟩ := bytes_eq_ok.mp hb
    rw [ahead_healthyAt, List.length_drop] at hlen
    exact ⟨by omega, rfl, rfl⟩

theorem settles_remaining : Settles (· = healthyAt bytes p) True (bytes.length - p)
    (· = healthyAt bytes p) Reader.remaining where
  exists_ok s hs _ := by
    subst hs
    exact ⟨_, remaining_eq_ok.mpr ⟨rfl, rfl⟩⟩
  of_ok s hs n t hn := by
    subst hs
    obtain ⟨rfl, rfl⟩ := remaining_eq_ok.mp hn
    exact ⟨trivial, rfl, rfl⟩

theorem settles_skip_start (hk : k ≤ Word.max) : Settles (· = healthyAt bytes 0) (k ≤ bytes.length)
    () (· = healthyAt bytes k) (Reader.skip k) where
  exists_ok s hs hle := by
    subst hs
    exact ⟨_, (skip_start_eq_ok rfl hk).mpr ⟨hle, rfl⟩⟩
  of_ok s hs _ t ht := by
    subst hs
    obtain ⟨hle, rfl⟩ := (skip_start_eq_ok rfl hk).mp ht
    exact ⟨hle, rfl, rfl⟩

/-! ### From anywhere -/

theorem settles_seek (p : ℕ) : Settles (IsOver · bytes) (p ≤ bytes.length) ()
    (· = healthyAt bytes p) (Reader.seek p) where
  exists_ok s hs hle := ⟨_, seek_eq_ok.mpr ⟨by rwa [hs.length_eq], rfl⟩⟩
  of_ok s hs _ t ht := by
    obtain ⟨hle, rfl⟩ := seek_eq_ok.mp ht
    rw [hs.length_eq] at hle
    exact ⟨hle, rfl, (isOver_goto hs).eq_healthyAt⟩

theorem settles_checkRange (what : String) {start size : ℕ} (hmax : start + size ≤ Word.max) :
    Settles (IsOver · bytes) (start + size ≤ bytes.length) () (IsOver · bytes)
      (Reader.checkRange what start size) where
  exists_ok s hs hle := ⟨s, checkRange_eq_ok.mpr ⟨by rwa [hs.length_eq], hmax, rfl⟩⟩
  of_ok s hs _ t ht := by
    obtain ⟨hle, -, rfl⟩ := checkRange_eq_ok.mp ht
    rw [hs.length_eq] at hle
    exact ⟨hle, rfl, hs⟩

theorem settles_ofExcept {result : Except Error α} (h : result = .ok a) :
    Settles I True a I (Reader.ofExcept result) := by
  subst h
  exact settles_pure a trivial

end Reading

/-! ### In a session -/

/-- What a decode may depend on besides the files: its stream, what is allowed, and the palettes
that have been read. -/
structure Session.Over (I : Stream → Prop) (options : Options) (palettes : List Palette)
    (x : Session) : Prop where
  stream_is : I x.stream
  options_eq : x.context.options = options
  palettes_eq : x.context.palettes = palettes

namespace Reading

open Run Packfile.Stream Session

variable {I J : Stream → Prop} {options : Options} {palettes : List Palette} {bytes : Bytes}
  {p k : ℕ} {α : Type} {P : Prop} {a : α}

theorem settles_ofReader {body : Reader α} (h : Settles I P a J body) :
    Settles (Over I options palettes) P a (Over J options palettes) (Decode.ofReader body) where
  exists_ok x hx hP := by
    obtain ⟨t, ht⟩ := h.exists_ok x.stream hx.stream_is hP
    exact ⟨_, ofReader_eq_ok.mpr ⟨t, ht, rfl⟩⟩
  of_ok x hx b y hy := by
    obtain ⟨t, ht, rfl⟩ := ofReader_eq_ok.mp hy
    obtain ⟨hP, hb, hJ⟩ := h.of_ok x.stream hx.stream_is b t ht
    exact ⟨hP, hb, hJ, hx.options_eq, hx.palettes_eq⟩

theorem settles_report (r : Report) : Settles (Over I options palettes) True ()
    (Over I options palettes) (Decode.report r) where
  exists_ok x _ _ := ⟨_, report_eq_ok.mpr rfl⟩
  of_ok x hx _ y hy := by
    rw [report_eq_ok.mp hy]
    exact ⟨trivial, rfl, hx.stream_is, hx.options_eq, hx.palettes_eq⟩

theorem settles_addPalette (palette : Palette) : Settles (Over I options palettes) True ()
    (Over I options (palettes ++ [palette])) (Decode.addPalette palette) where
  exists_ok x _ _ := ⟨_, rfl⟩
  of_ok x hx _ y hy := by
    cases hy
    refine ⟨trivial, rfl, hx.stream_is, hx.options_eq, ?_⟩
    rw [← hx.palettes_eq]

/-- The palettes of the session, where they are asked for. -/
theorem settles_get {β : Type} {b : β} {K : Session → Prop} {f : List Palette → Decode β}
    (h : Settles (Over I options palettes) P b K (f palettes)) :
    Settles (Over I options palettes) P b K (get >>= fun x => f x.context.palettes) where
  exists_ok x hx hP := by
    obtain ⟨y, hy⟩ := h.exists_ok x hx hP
    rw [← hx.palettes_eq] at hy
    exact ⟨y, hy⟩
  of_ok x hx b y hy := by
    refine h.of_ok x hx b y ?_
    rw [← hx.palettes_eq]
    exact hy

/-- A count that is allowed passes when its records fit. -/
theorem settles_checkCount {count size available : ℕ} (hcount : count ≤ options.maxEntries)
    (hmax : count * size ≤ Word.max) :
    Settles (Over I options palettes) (count * size ≤ available) ⟨count⟩ (Over I options palettes)
      (Decode.checkCount count size available) where
  exists_ok x hx hle := by
    refine ⟨x, checkCount_eq_ok.mpr ⟨by rwa [hx.options_eq], ?_, rfl, rfl⟩⟩
    rwa [Word.satMul_of_le hmax]
  of_ok x hx c y hy := by
    obtain ⟨-, hle, rfl, rfl⟩ := checkCount_eq_ok.mp hy
    rw [Word.satMul_of_le hmax] at hle
    exact ⟨hle, rfl, hx⟩

end Reading

namespace Listing

/-- Updates whose first failure is the error are one step for each entry. -/
theorem updateEach_bind {β : Type} (update : Entry → Reader Entry) (entries : List Entry)
    (rest : List Entry → Decode β) :
    ((liftM (updateEach update entries) : Decode (List Entry × Option Error)) >>=
      fun result => Decode.ofReader (Reader.ofExcept (orFail result)) >>= rest)
        = Decode.ofReader (entries.mapM update) >>= rest := by
  rw [← updateEach_orFail, Reading.ofReader_bind, bind_assoc]
  rfl

end Listing

end Packfile
