import Packfile.Proofs.Walks

/-!
# The limit on a directory without a count

A walk over the records of a directory without a count comes to a natural end where no record fits
any more, where a record marks the end, or where one makes no sense. The caller's limit is held
against what has been found before the next record is looked at, so it is not the number of entries
alone that decides whether a walk is stopped by it.

## What decides it

A walk is stopped by the limit if it gets to a record that fits while it has as many entries as are
allowed. More entries than that are always too many. Just as many are accepted if nothing fits
behind the last of them, and refused if anything does: another entry, but also a blank record, the
mark of the end, or bytes that make no sense. In all of the last three cases the walk would have
ended with the entries that it had.

## Main definitions

* `RecordWalk`, `RecordWalk.Fits`, `RecordWalk.Ends` — where a walk stands, and its natural ends
* `RecordWalk.Passes`, `RecordWalk.Reaches` — one record, and several
* `RecordWalk.IsFull` — the walk gets to a record that it has no room for
* `RecordWalk.Consumes` — readers that take one record at a time

## Main results

* `RecordWalk.untilFrom_eq_error_iff` — when the limit stops a walk
* `RecordWalk.untilFrom_of_reaches` — what comes of all other walks
* `RecordWalk.readUntil_limit` — both for a whole directory
-/

namespace Packfile

open Run Reading

/-- Where a walk over records stands. -/
structure RecordWalk (σ : Type) where
  /-- What the reader of records has handed on. -/
  state : σ
  /-- The number of the next record. -/
  index : ℕ
  /-- The session, with the stream in front of the next record. -/
  session : Session

/-- The entries among what records mean. -/
def RecordAction.values {α : Type} (actions : List (RecordAction α)) : List α :=
  actions.filterMap RecordAction.value?

theorem RecordAction.values_cons {α : Type} (action : RecordAction α)
    (actions : List (RecordAction α)) :
    values (action :: actions) = action.value?.toList ++ values actions := by
  rw [values, List.filterMap_cons]
  cases action.value? <;> rfl

namespace RecordWalk

variable {α σ : Type} {read : σ → ℕ → Decode (RecordAction α × σ)} {stop recordSize : ℕ}
  {w mid last : RecordWalk σ} {action : RecordAction α} {actions : List (RecordAction α)}

/-! ### Records one after the other -/

/-- Another record fits. -/
def Fits (stop recordSize : ℕ) (w : RecordWalk σ) : Prop :=
  w.session.stream.position + recordSize ≤ stop

/-- The walk behind a record that was read, and reported. -/
def behind (w : RecordWalk σ) (next : σ) (y : Session) : RecordWalk σ where
  state := next
  index := w.index + 1
  session :=
    { y with reports := y.reports.push (.progress w.index w.session.stream.position) }

/-- A record that fits is read, and does not end the directory. -/
inductive Passes (read : σ → ℕ → Decode (RecordAction α × σ)) (stop recordSize : ℕ)
    (w : RecordWalk σ) (action : RecordAction α) : RecordWalk σ → Prop where
  | intro {next : σ} {y : Session} (fits : w.Fits stop recordSize) (ne_finish : action ≠ .finish)
    (read_eq : read w.state w.index w.session = .ok (action, next) y) :
    Passes read stop recordSize w action (w.behind next y)

/-- Records are read one after the other, none of which ends the directory. -/
inductive Reaches (read : σ → ℕ → Decode (RecordAction α × σ)) (stop recordSize : ℕ) :
    RecordWalk σ → List (RecordAction α) → RecordWalk σ → Prop where
  | here (w : RecordWalk σ) : Reaches read stop recordSize w [] w
  | pass {w mid last : RecordWalk σ} {action : RecordAction α} {actions : List (RecordAction α)} :
    Passes read stop recordSize w action mid → Reaches read stop recordSize mid actions last →
    Reaches read stop recordSize w (action :: actions) last

/-- The natural ends of a directory. -/
inductive Ends (read : σ → ℕ → Decode (RecordAction α × σ)) (stop recordSize : ℕ)
    (w : RecordWalk σ) : Prop where
  /-- The bytes that are left are too few for a record. -/
  | short (unfit : ¬ w.Fits stop recordSize)
  /-- The record marks the end. -/
  | sentinel {next : σ} {y : Session} (fits : w.Fits stop recordSize)
    (read_eq : read w.state w.index w.session = .ok (.finish, next) y)
  /-- The record makes no sense. -/
  | unreadable {e : Error} {y : Session} (fits : w.Fits stop recordSize)
    (read_eq : read w.state w.index w.session = .error e y)
    (storage : e.isStorageFailure = false) (overflow : e.isOverflow = false)

/-- The reader moves the stream by one record, and leaves alone what the caller allows. -/
structure Consumes (read : σ → ℕ → Decode (RecordAction α × σ)) (recordSize : ℕ) : Prop where
  position_eq : ∀ {state index x action next y}, read state index x = .ok (action, next) y →
    y.stream.position = x.stream.position + recordSize
  options_eq : ∀ {state index x action next y}, read state index x = .ok (action, next) y →
    y.context.options = x.context.options

/-- With `found` entries to begin with, the walk gets to a record that fits and that it has no room
for. -/
def IsFull (read : σ → ℕ → Decode (RecordAction α × σ)) (stop recordSize limit found : ℕ)
    (w : RecordWalk σ) : Prop :=
  ∃ actions last, Reaches read stop recordSize w actions last ∧
    found + (RecordAction.values actions).length = limit ∧ last.Fits stop recordSize

theorem Passes.eq_of_read {found : RecordAction α} {next : σ} {y : Session}
    (h : Passes read stop recordSize w action mid)
    (hread : read w.state w.index w.session = .ok (found, next) y) :
    action = found ∧ mid = w.behind next y := by
  obtain ⟨-, -, hread'⟩ := h
  rw [hread] at hread'
  cases hread'
  exact ⟨rfl, rfl⟩

theorem Passes.fits (h : Passes read stop recordSize w action mid) : w.Fits stop recordSize := by
  obtain ⟨hfits, -, -⟩ := h
  exact hfits

/-- A walk stands where it stood, or it has read a record. -/
theorem reaches_iff : Reaches read stop recordSize w actions last ↔
    (actions = [] ∧ last = w) ∨ ∃ action mid rest, actions = action :: rest ∧
      Passes read stop recordSize w action mid ∧ Reaches read stop recordSize mid rest last := by
  constructor
  · intro h
    cases h with
    | here => exact .inl ⟨rfl, rfl⟩
    | pass hpass hrest => exact .inr ⟨_, _, _, rfl, hpass, hrest⟩
  · rintro (⟨rfl, rfl⟩ | ⟨action, mid, rest, rfl, hpass, hrest⟩)
    · exact .here _
    · exact .pass hpass hrest

/-! ### Walks that the limit stops -/

section

variable {limit found : ℕ}

/-- Where no record fits there is none that a walk has no room for. -/
theorem not_isFull_of_not_fits (h : ¬ w.Fits stop recordSize) :
    ¬ IsFull read stop recordSize limit found w := by
  rintro ⟨actions, last, hreaches, -, hfits⟩
  rcases reaches_iff.mp hreaches with ⟨-, rfl⟩ | ⟨_, _, _, -, hpass, -⟩
  · exact h hfits
  · exact h hpass.fits

/-- While there is room, a walk is full if it gets there behind the next record. -/
theorem isFull_iff_of_lt (hroom : found < limit) : IsFull read stop recordSize limit found w ↔
    ∃ action mid, Passes read stop recordSize w action mid ∧
      IsFull read stop recordSize limit (found + action.value?.toList.length) mid := by
  constructor
  · rintro ⟨actions, last, hreaches, hcount, hfits⟩
    rcases reaches_iff.mp hreaches with ⟨rfl, rfl⟩ | ⟨action, mid, rest, rfl, hpass, hrest⟩
    · rw [RecordAction.values, List.filterMap_nil, List.length_nil] at hcount
      omega
    · rw [RecordAction.values_cons, List.length_append] at hcount
      exact ⟨action, mid, hpass, rest, last, hrest, by omega, hfits⟩
  · rintro ⟨action, mid, hpass, rest, last, hrest, hcount, hfits⟩
    refine ⟨action :: rest, last, .pass hpass hrest, ?_, hfits⟩
    rw [RecordAction.values_cons, List.length_append]
    omega

/-- A record that cannot be passed has nothing behind it. -/
theorem not_isFull_of_not_passes (hroom : found < limit)
    (h : ∀ action mid, ¬ Passes read stop recordSize w action mid) :
    ¬ IsFull read stop recordSize limit found w := by
  rw [isFull_iff_of_lt hroom]
  rintro ⟨action, mid, hpass, -⟩
  exact h action mid hpass

/-- A record that was passed decides what is behind it. -/
theorem isFull_iff_of_passes (hroom : found < limit)
    (h : Passes read stop recordSize w action mid) : IsFull read stop recordSize limit found w ↔
      IsFull read stop recordSize limit (found + action.value?.toList.length) mid := by
  rw [isFull_iff_of_lt hroom]
  constructor
  · rintro ⟨action', mid', hpass, hfull⟩
    obtain ⟨-, -, hread⟩ := h
    obtain ⟨rfl, rfl⟩ := hpass.eq_of_read hread
    exact hfull
  · intro hfull
    exact ⟨action, mid, h, hfull⟩

/-- More entries than are allowed are too many, whatever is behind them. The induction is on the
records that hold them. -/
theorem isFull_of_lt (hreaches : Reaches read stop recordSize w actions last)
    (hroom : found ≤ limit) (hmore : limit < found + (RecordAction.values actions).length) :
    IsFull read stop recordSize limit found w := by
  induction hreaches generalizing found with
  | here w => exact absurd hmore (Nat.not_lt.mpr hroom)
  | @pass w mid last action actions hpass _ ih =>
    rcases Nat.lt_or_eq_of_le hroom with hlt | rfl
    · have hone : action.value?.toList.length ≤ 1 := by
        cases action <;> simp [RecordAction.value?]
      rw [RecordAction.values_cons, List.length_append] at hmore
      exact (isFull_iff_of_passes hlt hpass).mpr (ih (by omega) (by omega))
    · exact ⟨[], w, .here w, rfl, hpass.fits⟩

end

/-- What a walk answers that the limit stops. -/
def tooMany (limit : ℕ) : Error := .exceeds "entry count" (limit + 1) limit

theorem checkRoom_of_full {x : Session} {limit : ℕ} (h : x.context.options.maxEntries = limit)
    (hlimit : limit < Word.max) : Decode.checkRoom limit x = .error (tooMany limit) x := by
  have hsum : ∀ y, (liftM (Checked.sum limit 1) : Decode ℕ) y = .ok (limit + 1) y :=
    fun y => liftExcept_decode_eq_ok.mpr ⟨Checked.sum_of_le hlimit, rfl⟩
  rw [Decode.checkRoom, bind_of_ok (options_eq_ok.mpr ⟨rfl, rfl⟩), h, if_pos le_rfl,
    bind_of_ok (hsum x)]
  rfl

/-! ### The walk -/

section

variable {found : Array α} {rounds : ℕ}

/-- The walk from where it stands. -/
def run (read : σ → ℕ → Decode (RecordAction α × σ)) (stop recordSize rounds : ℕ)
    (found : Array α) (w : RecordWalk σ) : EStateM.Result Error Session (Array α) :=
  Decode.untilFrom stop recordSize read rounds w.state w.index found w.session

/-- What is known of a walk on its way: the rounds that are left are enough to get to `stop`, and
the numbers that it counts are below it. -/
structure Sound (stop limit rounds : ℕ) (found : Array α) (w : RecordWalk σ) : Prop where
  rounds_gt : stop < w.session.stream.position + rounds
  index_le : w.index ≤ w.session.stream.position
  size_le : found.size ≤ w.index
  room : found.size ≤ limit
  options_eq : w.session.context.options.maxEntries = limit
  stop_lt : stop < Word.max

theorem size_keep (found : Array α) (action : RecordAction α) :
    (Decode.keep found action).size = found.size + action.value?.toList.length := by
  cases action with
  | entry value => exact Array.size_push value
  | skip => rfl
  | finish => rfl

variable {limit : ℕ}

/-- A record that is passed while there is room leaves a sound walk behind it. -/
theorem Sound.passes (h : Sound stop limit (rounds + 1) found w)
    (hread : Consumes read recordSize) (hsize : 0 < recordSize) (hroom : found.size < limit)
    (hpass : Passes read stop recordSize w action mid) :
    Sound stop limit rounds (Decode.keep found action) mid := by
  obtain ⟨hfits, -, hok⟩ := hpass
  have hposition := hread.position_eq hok
  have hle := Tables.size_keep_le found action
  have hrounds := h.rounds_gt
  have hindex := h.index_le
  have hcount := h.size_le
  refine ⟨?_, ?_, ?_, ?_, ?_, h.stop_lt⟩
  · show stop < _ + rounds
    dsimp only [behind]
    omega
  · dsimp only [behind]
    omega
  · dsimp only [behind]
    omega
  · omega
  · exact (congrArg Options.maxEntries (hread.options_eq hok)).trans h.options_eq

theorem Sound.satAdd_le_iff (h : Sound stop limit rounds found w) :
    Word.satAdd w.session.stream.position recordSize ≤ stop ↔ w.Fits stop recordSize :=
  Word.le_iff_satAdd_le h.stop_lt

/-- A record that is passed takes the walk to where it stands behind it. -/
theorem run_of_passes (h : Sound stop limit (rounds + 1) found w) (hroom : found.size < limit)
    (hsize : 0 < recordSize) (hpass : Passes read stop recordSize w action mid) :
    run read stop recordSize (rounds + 1) found w
      = run read stop recordSize rounds (Decode.keep found action) mid := by
  obtain ⟨hfits, hne, hok⟩ := hpass
  have hindex : w.index + 1 ≤ Word.max := by
    have := h.index_le
    have := h.stop_lt
    rw [Fits] at hfits
    omega
  exact Walks.untilFrom_of_step (h.satAdd_le_iff.mpr hfits) (h.options_eq ▸ hroom) hok hne hindex

/-- A walk that has got to a natural end with room to spare ends there. -/
theorem run_of_ends (h : Sound stop limit (rounds + 1) found w)
    (hroom : w.Fits stop recordSize → found.size < limit) (hends : w.Ends read stop recordSize) :
    ∃ y, run read stop recordSize (rounds + 1) found w = .ok found y := by
  cases hends with
  | short hunfit =>
    rw [← h.satAdd_le_iff, Nat.not_le] at hunfit
    obtain ⟨y, hy, -⟩ := Walks.untilFrom_of_cutOff hunfit
    exact ⟨y, hy⟩
  | sentinel hfits hok =>
    exact ⟨_, Walks.untilFrom_of_finish (h.satAdd_le_iff.mpr hfits)
      (h.options_eq ▸ hroom hfits) hok⟩
  | unreadable hfits herror hstorage hoverflow =>
    obtain ⟨y, hy, -⟩ := Walks.untilFrom_of_error (h.satAdd_le_iff.mpr hfits)
      (h.options_eq ▸ hroom hfits) herror hstorage hoverflow
    exact ⟨y, hy⟩

/-- A walk that has no room for the record it stands at is stopped. -/
theorem run_of_full (h : Sound stop limit (rounds + 1) found w) (hfull : found.size = limit)
    (hfits : w.Fits stop recordSize) :
    run read stop recordSize (rounds + 1) found w = .error (tooMany limit) w.session := by
  have hlimit : limit < Word.max := by
    have := h.index_le
    have := h.size_le
    have := h.stop_lt
    rw [Fits] at hfits
    omega
  have hcut : ¬ stop < Word.satAdd w.session.stream.position recordSize :=
    Nat.not_lt.mpr (h.satAdd_le_iff.mpr hfits)
  rw [run, Decode.untilFrom, bind_of_ok (liftOffset_eq_ok.mpr ⟨rfl, rfl⟩), if_neg hcut, hfull,
    bind_of_error (checkRoom_of_full h.options_eq hlimit)]

/-- An error that comes from the storage, or from a number that has left its width, ends a walk. -/
theorem run_of_failure {e : Error} {y : Session} (h : Sound stop limit (rounds + 1) found w)
    (hroom : found.size < limit) (hfits : w.Fits stop recordSize)
    (herror : read w.state w.index w.session = .error e y)
    (hfatal : (e.isStorageFailure || e.isOverflow) = true) :
    run read stop recordSize (rounds + 1) found w = .error e y := by
  have hattempt : Decode.attempt (read w.state w.index) w.session = .ok (.error e) y := by
    rw [Decode.attempt, herror]
  rw [run, Walks.untilFrom_of_attempt (h.satAdd_le_iff.mpr hfits) (h.options_eq ▸ hroom) hattempt]
  dsimp only
  rw [hfatal]
  rfl

/-- A record that fits is passed, or the directory ends at it, or reading it fails for good. -/
theorem passes_or_ends (read : σ → ℕ → Decode (RecordAction α × σ))
    (hfits : w.Fits stop recordSize) :
    (∃ action mid, Passes read stop recordSize w action mid) ∨
      (∀ action mid, ¬ Passes read stop recordSize w action mid) ∧
        (w.Ends read stop recordSize ∨ ∃ e y, read w.state w.index w.session = .error e y ∧
          (e.isStorageFailure || e.isOverflow) = true) := by
  cases hresult : read w.state w.index w.session with
  | error e y =>
    refine .inr ⟨?_, ?_⟩
    · rintro _ _ ⟨-, -, hok⟩
      rw [hresult] at hok
      cases hok
    · cases hfatal : e.isStorageFailure || e.isOverflow with
      | true => exact .inr ⟨e, y, rfl, hfatal⟩
      | false =>
        rw [Bool.or_eq_false_iff] at hfatal
        exact .inl (.unreadable hfits hresult hfatal.1 hfatal.2)
  | ok result y =>
    obtain ⟨action, next⟩ := result
    by_cases hfinish : action = .finish
    · subst hfinish
      refine .inr ⟨?_, .inl (.sentinel hfits hresult)⟩
      rintro _ _ ⟨-, hne, hok⟩
      rw [hresult] at hok
      cases hok
      exact hne rfl
    · exact .inl ⟨action, _, .intro hfits hfinish hresult⟩

/-- **When the limit stops a walk**: when it gets to a record that it has no room for. The induction
is on the rounds that are left, and the cases are those of the record at hand. -/
theorem untilFrom_eq_error_iff (h : Sound stop limit rounds found w)
    (hread : Consumes read recordSize) (hsize : 0 < recordSize) :
    (∃ y, run read stop recordSize rounds found w = .error (tooMany limit) y) ↔
      IsFull read stop recordSize limit found.size w := by
  induction rounds generalizing found w with
  | zero =>
    have hunfit : ¬ w.Fits stop recordSize := by
      have := h.rounds_gt
      rw [Fits]
      omega
    exact iff_of_false (fun ⟨_, hy⟩ => nomatch hy) (not_isFull_of_not_fits hunfit)
  | succ rounds ih =>
    by_cases hfits : w.Fits stop recordSize
    · rcases Nat.lt_or_eq_of_le h.room with hroom | hfull
      · rcases passes_or_ends read hfits with ⟨action, mid, hpass⟩ | ⟨hnot, hends | hfails⟩
        · rw [run_of_passes h hroom hsize hpass, isFull_iff_of_passes hroom hpass, ← size_keep]
          exact ih (h.passes hread hsize hroom hpass)
        · obtain ⟨z, hz⟩ := run_of_ends h (fun _ => hroom) hends
          refine iff_of_false (fun ⟨y, hy⟩ => ?_) (not_isFull_of_not_passes hroom hnot)
          rw [hz] at hy
          cases hy
        · obtain ⟨e, z, herror, hfatal⟩ := hfails
          refine iff_of_false (fun ⟨y, hy⟩ => ?_) (not_isFull_of_not_passes hroom hnot)
          rw [run_of_failure h hroom hfits herror hfatal] at hy
          cases hy
          exact absurd hfatal Bool.false_ne_true
      · exact iff_of_true ⟨_, run_of_full h hfull hfits⟩ ⟨[], w, .here w, hfull, hfits⟩
    · have hends : w.Ends read stop recordSize := .short hfits
      obtain ⟨z, hz⟩ := run_of_ends h (fun hfits' => absurd hfits' hfits) hends
      refine iff_of_false (fun ⟨y, hy⟩ => ?_) (not_isFull_of_not_fits hfits)
      rw [hz] at hy
      cases hy

/-- **What comes of a walk that the limit does not stop**: at its natural end it has all entries on
the way there. The induction is on the records up to the end. -/
theorem untilFrom_of_reaches (h : Sound stop limit rounds found w)
    (hread : Consumes read recordSize) (hsize : 0 < recordSize)
    (hreaches : Reaches read stop recordSize w actions last) (hends : last.Ends read stop recordSize)
    (hfree : ¬ IsFull read stop recordSize limit found.size w) :
    ∃ result y, run read stop recordSize rounds found w = .ok result y ∧
      result.toList = found.toList ++ RecordAction.values actions := by
  induction hreaches generalizing found rounds with
  | here w =>
    have hroom : w.Fits stop recordSize → found.size < limit := fun hfits =>
      Nat.lt_of_le_of_ne h.room fun hfull => hfree ⟨[], w, .here w, hfull, hfits⟩
    cases rounds with
    | zero => exact ⟨found, _, rfl, (List.append_nil _).symm⟩
    | succ rounds =>
      obtain ⟨y, hy⟩ := run_of_ends h hroom hends
      exact ⟨found, y, hy, (List.append_nil _).symm⟩
  | @pass w mid last action actions hpass _ ih =>
    obtain ⟨rounds, rfl⟩ : ∃ n, rounds = n + 1 := by
      have hfits := hpass.fits
      have hrounds := h.rounds_gt
      rw [Fits] at hfits
      exact ⟨rounds - 1, by omega⟩
    have hroom : found.size < limit := Nat.lt_of_le_of_ne h.room fun hfull =>
      hfree ⟨[], w, .here w, hfull, hpass.fits⟩
    rw [isFull_iff_of_passes hroom hpass, ← size_keep] at hfree
    obtain ⟨result, y, hy, hresult⟩ := ih (h.passes hread hsize hroom hpass) hends hfree
    refine ⟨result, y, (run_of_passes h hroom hsize hpass).trans hy, ?_⟩
    rw [hresult, Tables.toArray_keep, RecordAction.values_cons]
    simp

end

/-! ### Whole directories -/

/-- A walk over records from the position of the session on. -/
def opening (start : σ) (x : Session) : RecordWalk σ := ⟨start, 0, x⟩

theorem readUntil_eq (start : σ) (x : Session) :
    Decode.readUntil stop recordSize start read x =
      (match run read (min stop x.stream.length) recordSize
          (min stop x.stream.length - x.stream.position + 2) #[] (opening start x) with
        | .ok found y => .ok found.toList y
        | .error e y => .error e y) := by
  rw [Decode.readUntil, bind_of_ok (liftLength_eq_ok.mpr ⟨rfl, rfl⟩),
    bind_of_ok (liftOffset_eq_ok.mpr ⟨rfl, rfl⟩)]
  cases hrun : run read (min stop x.stream.length) recordSize
    (min stop x.stream.length - x.stream.position + 2) #[] (opening start x) with
  | ok found y => exact bind_of_ok hrun
  | error e y => exact bind_of_error hrun

/-- **When the limit of entries refuses a directory without a count**: exactly when the walk gets to
a record that fits with as many entries as are allowed already, whatever this record is. So it does
if there are more entries than that. Otherwise the directory is accepted at its natural end, with
all its entries. -/
theorem readUntil_limit (stop : ℕ) (start : σ) (x : Session) (hread : Consumes read recordSize)
    (hsize : 0 < recordSize) (hlength : x.stream.length < Word.max) :
    let limit := x.context.options.maxEntries
    let stop' := min stop x.stream.length
    let full := IsFull read stop' recordSize limit 0 (opening start x)
    ((∃ y, Decode.readUntil stop recordSize start read x
      = .error (.exceeds "entry count" (limit + 1) limit) y) ↔ full) ∧
    (∀ actions last, Reaches read stop' recordSize (opening start x) actions last →
      limit < (RecordAction.values actions).length → full) ∧
    (¬ full → ∀ actions last, Reaches read stop' recordSize (opening start x) actions last →
      last.Ends read stop' recordSize →
        ∃ y, Decode.readUntil stop recordSize start read x
          = .ok (RecordAction.values actions) y) := by
  dsimp only
  have hsound : Sound (min stop x.stream.length) x.context.options.maxEntries
      (min stop x.stream.length - x.stream.position + 2) (#[] : Array α) (opening start x) := by
    refine ⟨?_, Nat.zero_le _, le_rfl, Nat.zero_le _, rfl, by omega⟩
    show _ < x.stream.position + _
    omega
  rw [readUntil_eq]
  refine ⟨?_, fun actions last hreaches hmore => ?_, ?_⟩
  · refine Iff.trans ?_ (untilFrom_eq_error_iff hsound hread hsize)
    refine exists_congr fun y => ?_
    cases run read (min stop x.stream.length) recordSize _ #[] (opening start x) <;>
      simp [tooMany]
  · exact isFull_of_lt hreaches (Nat.zero_le _) (by omega)
  · intro hfree actions last hreaches hends
    obtain ⟨result, y, hy, hresult⟩ :=
      untilFrom_of_reaches hsound hread hsize hreaches hends hfree
    rw [hy]
    exact ⟨y, congrArg (EStateM.Result.ok · y) hresult⟩

/-- Records of one byte, of which a zero marks the end. -/
def byteRecord (_ : Unit) (_ : ℕ) : Decode (RecordAction ℕ × Unit) := do
  let n ← Decode.ofReader Reader.u8
  return (if n = 0 then .finish else .entry n, ())

theorem byteRecord_eq_ok {state next : Unit} {index : ℕ} {x y : Session} {action : RecordAction ℕ} :
    byteRecord state index x = .ok (action, next) y ↔ 1 ≤ x.stream.ahead.length ∧
      action = (if ByteOrder.little.decode (x.stream.ahead.take 1) = 0 then .finish
        else .entry (ByteOrder.little.decode (x.stream.ahead.take 1))) ∧
      y = { x with stream := x.stream.advance 1 } := by
  simp only [byteRecord, bind_eq_ok, ofReader_eq_ok, u8_eq_ok, pure_eq_ok, Prod.mk.injEq]
  constructor
  · rintro ⟨_, _, ⟨_, ⟨hlength, rfl, rfl⟩, rfl⟩, ⟨rfl, -⟩, rfl⟩
    exact ⟨hlength, rfl, rfl⟩
  · rintro ⟨hlength, rfl, rfl⟩
    exact ⟨_, _, ⟨_, ⟨hlength, rfl, rfl⟩, rfl⟩, ⟨rfl, trivial⟩, rfl⟩

theorem consumes_byteRecord : Consumes byteRecord 1 where
  position_eq h := by
    obtain ⟨-, -, rfl⟩ := byteRecord_eq_ok.mp h
    rfl
  options_eq h := by
    obtain ⟨-, -, rfl⟩ := byteRecord_eq_ok.mp h
    rfl

/-- One entry, and the mark of the end. -/
def oneEntry (limit : ℕ) : Session where
  stream := .ofBytes [5, 0]
  context := { options := { maxEntries := limit } }

/-- The walk behind the one entry. -/
def behindOne (limit : ℕ) : RecordWalk Unit :=
  (opening () (oneEntry limit)).behind ()
    { oneEntry limit with stream := (oneEntry limit).stream.advance 1 }

theorem passes_one (limit : ℕ) :
    Passes byteRecord 2 1 (opening () (oneEntry limit)) (.entry 5) (behindOne limit) :=
  .intro (show 0 + 1 ≤ 2 by decide) (fun h => nomatch h) rfl

theorem ends_behindOne (limit : ℕ) : (behindOne limit).Ends byteRecord 2 1 :=
  .sentinel (show 1 + 1 ≤ 2 by decide) rfl

/-- The one entry is all that there is in front of the end. -/
theorem of_reaches_one {limit : ℕ} {actions : List (RecordAction ℕ)} {last : RecordWalk Unit}
    (h : Reaches byteRecord 2 1 (opening () (oneEntry limit)) actions last) :
    actions = [] ∧ last = opening () (oneEntry limit) ∨
      actions = [.entry 5] ∧ last = behindOne limit := by
  rcases reaches_iff.mp h with hhere | ⟨action, mid, rest, rfl, hpass, hrest⟩
  · exact .inl hhere
  · obtain ⟨rfl, rfl⟩ : action = .entry 5 ∧ mid = behindOne limit := hpass.eq_of_read rfl
    rcases reaches_iff.mp hrest with ⟨rfl, rfl⟩ | ⟨_, _, _, -, ⟨-, hne, hread⟩, -⟩
    · exact .inr ⟨rfl, rfl⟩
    · -- behind the entry stands the mark of the end
      exact absurd (byteRecord_eq_ok.mp hread).2.1 hne

/-- One entry in front of the mark of the end is refused where one is allowed, and accepted where
two are. -/
theorem readUntil_limit_one :
    (∃ y, Decode.readUntil 2 1 () byteRecord (oneEntry 1)
      = .error (.exceeds "entry count" 2 1) y) ∧
    ∃ y, Decode.readUntil 2 1 () byteRecord (oneEntry 2) = .ok [5] y := by
  have hone := readUntil_limit 2 () (oneEntry 1) consumes_byteRecord (by decide) (by decide)
  have htwo := readUntil_limit 2 () (oneEntry 2) consumes_byteRecord (by decide) (by decide)
  constructor
  · exact hone.1.mpr ⟨[.entry 5], behindOne 1, .pass (passes_one 1) (.here _), rfl,
      show 1 + 1 ≤ 2 by decide⟩
  · refine htwo.2.2 ?_ [.entry 5] (behindOne 2) (.pass (passes_one 2) (.here _)) (ends_behindOne 2)
    rintro ⟨actions, last, hreaches, hcount, -⟩
    rcases of_reaches_one hreaches with ⟨rfl, -⟩ | ⟨rfl, -⟩
    · exact absurd hcount (by decide)
    · exact absurd hcount (by decide)

/-- A directory is refused for having more entries than are allowed although it has not: there is
one, one is allowed, and behind it stands the mark of the end. -/
theorem readUntil_refuses_allowed :
    (∃ y, Decode.readUntil 2 1 () byteRecord (oneEntry 1)
      = .error (.exceeds "entry count" 2 1) y) ∧
    ¬ ∃ actions last, Reaches byteRecord 2 1 (opening () (oneEntry 1)) actions last ∧
      (oneEntry 1).context.options.maxEntries < (RecordAction.values actions).length := by
  refine ⟨⟨_, rfl⟩, ?_⟩
  rintro ⟨actions, last, hreaches, hmore⟩
  rcases of_reaches_one hreaches with ⟨rfl, -⟩ | ⟨rfl, -⟩
  · exact absurd hmore (by decide)
  · exact absurd hmore (by decide)

end RecordWalk

end Packfile
