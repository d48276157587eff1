import Packfile.Proofs.Tables
import Packfile.Walk.Tree

/-!
# What walks find

Directories that are not counted tables are walked over: records up to a position, or folders inside
folders. Here are the two invariants that carry such a walk. The limit of the caller is checked
before each entry is taken up, so it holds of the entries found so far at every step; and what is
known of a single record or node is known of everything that was found.

## Main definitions

* `TreeWalk.Holds` — the invariant of a walk over folders

## Main results

* `Walks.untilFrom_of_cutOff`, `untilFrom_of_finish`, `untilFrom_of_error`, `untilFrom_of_step` —
  the steps of a walk over records
* `Walks.ensures_readUntil` — the entries of a directory without a count
* `Walks.ensures_walkTree` — the entries of a tree of folders
-/

namespace Packfile

open Run Reading

variable {α σ : Type} {i : (Bytes × ByteOrder × Option ℕ) × Options × FileTree}

/-- What a walk over folders has found is within a limit, and `P` is known of every entry. -/
structure TreeWalk.Holds (limit : ℕ) (P : Entry → Prop) (walk : TreeWalk) : Prop where
  size_le : walk.found.size ≤ limit
  all : ∀ e ∈ walk.found, P e

theorem Entry.assignName_eq_ok {e e' : Entry} {name : String} :
    e.assignName name = .ok e' ↔ e.name = none ∧ e' = e.rename name := by
  rw [assignName]
  cases e.name with
  | some existing => simp
  | none => simp [rename, eq_comm]

namespace Walks

/-! ### One step over records -/

section

variable {read : σ → ℕ → Decode (RecordAction α × σ)} {stop recordSize rounds index : ℕ}
  {state next : σ} {found : Array α} {x y : Session} {e : Error} {action : RecordAction α}

/-- A walk ends where no record fits any more, with a warning if bytes are left. -/
theorem untilFrom_of_cutOff (h : stop < Word.satAdd x.stream.position recordSize) :
    ∃ y, Decode.untilFrom stop recordSize read (rounds + 1) state index found x = .ok found y ∧
      y.input = x.input := by
  rw [Decode.untilFrom, bind_of_ok (liftOffset_eq_ok.mpr ⟨rfl, rfl⟩), if_pos h]
  by_cases hrest : x.stream.position < stop
  · rw [if_pos hrest]
    exact ⟨_, rfl, rfl⟩
  · rw [if_neg hrest]
    exact ⟨x, rfl, rfl⟩

section

variable (hfit : Word.satAdd x.stream.position recordSize ≤ stop)
  (hroom : found.size < x.context.options.maxEntries)
include hfit hroom

/-- Where a record fits and there is room for it, a walk tries to read it. -/
theorem untilFrom_of_attempt {result : Except Error (RecordAction α × σ)}
    (hread : Decode.attempt (read state index) x = .ok result y) :
    Decode.untilFrom stop recordSize read (rounds + 1) state index found x =
      (match result with
        | .error e => do
          if e.isStorageFailure || e.isOverflow then throw e
          Decode.warn Decode.unreadableRecord
          return found
        | .ok (.finish, _) => return found
        | .ok (action, next) => do
          Decode.progress index x.stream.position
          Decode.untilFrom stop recordSize read rounds next (← Checked.sum index 1)
            (Decode.keep found action) : Decode (Array α)) y := by
  have hcheck : Decode.checkRoom found.size x = .ok () x := checkRoom_eq_ok.mpr ⟨hroom, rfl⟩
  rw [Decode.untilFrom, bind_of_ok (liftOffset_eq_ok.mpr ⟨rfl, rfl⟩), if_neg (by omega),
    bind_of_ok hcheck, bind_of_ok hread]
  rcases result with e | ⟨_ | _ | _, _⟩ <;> rfl

/-- A record that ends the directory ends the walk. -/
theorem untilFrom_of_finish (hread : read state index x = .ok (.finish, next) y) :
    Decode.untilFrom stop recordSize read (rounds + 1) state index found x = .ok found y := by
  have hattempt : Decode.attempt (read state index) x = .ok (.ok (.finish, next)) y := by
    rw [Decode.attempt, hread]
  rw [untilFrom_of_attempt hfit hroom hattempt]
  rfl

/-- A record that makes no sense ends the walk, with what was found before it. -/
theorem untilFrom_of_error (hread : read state index x = .error e y)
    (hstorage : e.isStorageFailure = false) (hoverflow : e.isOverflow = false) :
    ∃ z, Decode.untilFrom stop recordSize read (rounds + 1) state index found x = .ok found z ∧
      z.input = y.input := by
  have hattempt : Decode.attempt (read state index) x = .ok (.error e) y := by
    rw [Decode.attempt, hread]
  rw [untilFrom_of_attempt hfit hroom hattempt]
  dsimp only
  rw [hstorage, hoverflow]
  exact ⟨_, rfl, rfl⟩

/-- Any other record is reported, and the walk goes on behind it. -/
theorem untilFrom_of_step (hread : read state index x = .ok (action, next) y)
    (haction : action ≠ .finish) (hindex : index + 1 ≤ Word.max) :
    Decode.untilFrom stop recordSize read (rounds + 1) state index found x =
      Decode.untilFrom stop recordSize read rounds next (index + 1) (Decode.keep found action)
        { y with reports := y.reports.push (.progress index x.stream.position) } := by
  have hattempt : Decode.attempt (read state index) x = .ok (.ok (action, next)) y := by
    rw [Decode.attempt, hread]
  have hsum : ∀ z : Session, (liftM (Checked.sum index 1) : Decode ℕ) z = .ok (index + 1) z :=
    fun z => liftExcept_decode_eq_ok.mpr ⟨Checked.sum_of_le hindex, rfl⟩
  rw [untilFrom_of_attempt hfit hroom hattempt]
  cases action with
  | finish => exact absurd rfl haction
  | skip => exact bind_of_ok (hsum _)
  | entry value => exact bind_of_ok (hsum _)

end

end

/-! ### Records up to a position -/

section

variable {read : σ → ℕ → Decode (RecordAction α × σ)} {P : α → Prop} {stop recordSize : ℕ}

/-- The induction is on the rounds that are left. A record that cannot be read has not changed the
input, so the walk may end there with what was found before it. -/
theorem ensures_untilFrom
    (hread : ∀ state index, Ensures Session.input i (fun result => ∀ a, result.1 = .entry a → P a)
      (read state index)) {rounds index : ℕ} {state : σ} {found : Array α}
    (hsize : found.size ≤ i.2.1.maxEntries) (hall : ∀ a ∈ found, P a) :
    Ensures Session.input i (fun result => result.size ≤ i.2.1.maxEntries ∧ ∀ a ∈ result, P a)
      (Decode.untilFrom stop recordSize read rounds state index found) := by
  induction rounds generalizing state index found with
  | zero => exact ensures_pure ⟨hsize, hall⟩
  | succ rounds ih =>
    have hdone : Ensures Session.input i
        (fun result => result.size ≤ i.2.1.maxEntries ∧ ∀ a ∈ result, P a)
        (pure found : Decode (Array α)) := ensures_pure ⟨hsize, hall⟩
    refine (keeps_liftReader keeps_offset).then fun offset => Ensures.ite (fun _ => ?_) fun _ => ?_
    · exact Ensures.optional (keeps_report _) hdone
    · refine (ensures_checkRoom _).bind fun _ hroom => ?_
      refine (ensures_attempt (hread state index)).bind fun result hresult => ?_
      rcases result with e | ⟨action, next⟩
      · exact Ensures.guard fun _ => (keeps_report _).then fun _ => hdone
      · -- an action that does not end the walk is kept, and the rest follows
        have hrest : ∀ state, Ensures Session.input i
            (fun result => result.size ≤ i.2.1.maxEntries ∧ ∀ a ∈ result, P a)
            ((liftM (Checked.sum index 1) : Decode ℕ) >>= fun next =>
              Decode.untilFrom stop recordSize read rounds state next
                (Decode.keep found action)) := by
          intro state
          refine (keeps_liftExcept_decode _).then fun next => ih ?_ fun a ha => ?_
          · have := Tables.size_keep_le found action
            omega
          · rcases Tables.mem_keep ha with hmem | rfl
            · exact hall a hmem
            · exact hresult _ rfl a rfl
        cases action with
        | finish => exact hdone
        | skip => exact (keeps_report _).then fun _ => hrest next
        | entry value => exact (keeps_report _).then fun _ => hrest next

/-- **A walk over records** finds no more entries than are allowed, and of each is known what is
known of a single record. -/
theorem ensures_readUntil
    (hread : ∀ state index, Ensures Session.input i (fun result => ∀ a, result.1 = .entry a → P a)
      (read state index)) (start : σ) :
    Ensures Session.input i (fun result => result.length ≤ i.2.1.maxEntries ∧ ∀ a ∈ result, P a)
      (Decode.readUntil stop recordSize start read) := by
  refine (keeps_liftReader keeps_length).then fun _ => ?_
  refine (keeps_liftReader keeps_offset).then fun _ => ?_
  refine (ensures_untilFrom hread (Nat.zero_le _) fun a ha => absurd ha
    (Array.not_mem_empty a)).bind fun found ⟨hsize, hall⟩ => ?_
  exact ensures_pure ⟨by simpa using hsize, fun a ha => hall a (Array.mem_toList_iff.mp ha)⟩

end

/-! ### Folders inside folders -/

section

variable {P : Entry → Prop} {readFolder : ℕ → Decode (List TreeNode)} {walk : TreeWalk}
  {maxDepth : ℕ}

/-- A file is taken up only while the limit is not reached. -/
theorem ensures_addFile {path name : String} {e : Entry}
    (hwalk : walk.Holds i.2.1.maxEntries P) (hP : ∀ full, P (e.rename full)) :
    Ensures Session.input i (TreeWalk.Holds i.2.1.maxEntries P)
      (Decode.addFile path name e walk) := by
  refine (ensures_checkRoom _).bind fun _ hroom => ?_
  refine (ensures_ofReader ensures_ofExcept).bind fun e' he' => (keeps_report _).then fun _ => ?_
  obtain ⟨-, rfl⟩ := Entry.assignName_eq_ok.mp he'
  refine ensures_pure ⟨?_, fun e' hmem => ?_⟩
  · rw [Array.size_push]
    omega
  · rcases Array.mem_push.mp hmem with hmem | rfl
    · exact hwalk.all e' hmem
    · exact hP _

/-- The induction is on the levels that are left; inside a folder the invariant is handed from one
node to the next. -/
theorem ensures_walkFolder
    (hread : ∀ offset, Ensures Session.input i
      (fun nodes => ∀ name e, TreeNode.file name e ∈ nodes → ∀ full, P (e.rename full))
      (readFolder offset))
    {levels depth offset : ℕ} {path : String} (hwalk : walk.Holds i.2.1.maxEntries P) :
    Ensures Session.input i (TreeWalk.Holds i.2.1.maxEntries P)
      (Decode.walkFolder readFolder maxDepth levels depth path offset walk) := by
  induction levels generalizing depth path offset walk with
  | zero => exact ensures_throw _
  | succ levels ih =>
    rw [Decode.walkFolder]
    refine Ensures.guard fun _ => (hread offset).bind fun nodes hnodes => ?_
    refine ensures_foldlM ⟨hwalk.size_le, hwalk.all⟩ fun walk node hnode hwalk => ?_
    cases node with
    | file name e => exact ensures_addFile hwalk (hnodes name e hnode)
    | folder name offset => exact (keeps_liftExcept_decode _).then fun _ => ih hwalk

/-- **A walk over folders** finds no more files than are allowed, and of each is known, under
whatever name, what is known of the files of a single folder. -/
theorem ensures_walkTree
    (hread : ∀ offset, Ensures Session.input i
      (fun nodes => ∀ name e, TreeNode.file name e ∈ nodes → ∀ full, P (e.rename full))
      (readFolder offset)) (rootName : String) (root : ℕ) :
    Ensures Session.input i (fun result => result.length ≤ i.2.1.maxEntries ∧ ∀ e ∈ result, P e)
      (Decode.walkTree rootName root maxDepth readFolder) := by
  have hstart : TreeWalk.Holds i.2.1.maxEntries P {} :=
    ⟨Nat.zero_le _, fun e he => absurd he (Array.not_mem_empty e)⟩
  refine (ensures_walkFolder hread hstart).bind fun walk hwalk => ?_
  exact ensures_pure ⟨by simpa using hwalk.size_le,
    fun e he => hwalk.all e (Array.mem_toList_iff.mp he)⟩

end

end Walks

end Packfile
