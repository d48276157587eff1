import Packfile.Proofs.Walks

/-!
# Walks with and without a count

A directory that says how many records it has is read by a walk that counts them, and one that does
not by a walk that looks where it stands. The two have nothing in common but the reader of records:
the one tests its counter, the other the position, the caller's limit and the error of the reader,
and each reports its records at a place of its own. Over records that can be read they come to the
same, whatever pattern of entries, blank records and marks of the end they form.

## What makes them agree

Both walks stand in the same session in front of each record. The walk without a count stops at a
position, and it gets there with the last record, because every record takes its size. The limit
does not stop it, because a count that has been checked is within the limit and there are no more
entries than records. So one invariant is enough: what is left of the count, times the size of a
record, leads to the position where the other walk stops.

## Readers that keep something

A reader of records may keep something from one record to the next. The walk without a count hands
it on, and a reader for the walk that counts has to know it from the number of the record. Since the
walks read the same records, what is kept in front of a record is the same in both, so it can be
given as a function of that number. A reader that keeps nothing has the one state of `Unit`.

## Main definitions

* `Decode.along` — a reader that keeps something, for the walk that counts
* `Walks.ReadsRecords` — a number of records can be read one after the other

## Main results

* `Walks.exists_untilFrom_eq` — what is left of the two walks comes to the same
* `Walks.readUntil_eq_readTable` — so do the walks
-/

namespace Packfile

open Run Reading

variable {α σ : Type}

/-- What a reader makes of a record, when what it keeps in front of each record is known. -/
def Decode.along (read : σ → ℕ → Decode (RecordAction α × σ)) (states : ℕ → σ) (index : ℕ) :
    Decode (RecordAction α) :=
  return (← read (states index) index).1

namespace Walks

/-- From a session on, `count` records can be read one after the other, the first with the number
`index`, and the reader keeps `states k` in front of the record with the number `k`. Each of them is
an entry or blank, moves the stream by the size of a record and leaves alone what the caller allows,
or it marks the end, and then nothing is asked of what is behind it. -/
inductive ReadsRecords (read : σ → ℕ → Decode (RecordAction α × σ)) (states : ℕ → σ)
    (recordSize : ℕ) : (count index : ℕ) → Session → Prop where
  /-- No record is left. -/
  | done (index : ℕ) (x : Session) : ReadsRecords read states recordSize 0 index x
  /-- The record marks the end. -/
  | finish {count index : ℕ} {x y : Session} {next : σ}
    (read_eq : read (states index) index x = .ok (.finish, next) y) :
    ReadsRecords read states recordSize (count + 1) index x
  /-- The record is read and reported, and the others are read behind it. -/
  | pass {count index : ℕ} {x y : Session} {action : RecordAction α}
    (read_eq : read (states index) index x = .ok (action, states (index + 1)) y)
    (ne_finish : action ≠ .finish)
    (position_eq : y.stream.position = x.stream.position + recordSize)
    (options_eq : y.context.options = x.context.options)
    (rest : ReadsRecords read states recordSize count (index + 1)
      { y with reports := y.reports.push (.progress index x.stream.position) }) :
    ReadsRecords read states recordSize (count + 1) index x

variable {recordSize stop rounds count index : ℕ} {found : Array α} {x y : Session}
  {action : RecordAction α}

/-! ### One record -/

section

variable {read : ℕ → Decode (RecordAction α)}

/-- A record that marks the end ends a counted walk. -/
theorem tableFrom_of_finish (h : read index x = .ok .finish y) :
    Decode.tableFrom read (count + 1) index found x = .ok found y := by
  rw [Decode.tableFrom, bind_of_ok (liftOffset_eq_ok.mpr ⟨rfl, rfl⟩), bind_of_ok h]
  rfl

/-- Any other record is reported, and the counted walk goes on behind it. -/
theorem tableFrom_of_step (h : read index x = .ok action y) (haction : action ≠ .finish) :
    Decode.tableFrom read (count + 1) index found x =
      Decode.tableFrom read count (index + 1) (Decode.keep found action)
        { y with reports := y.reports.push (.progress index x.stream.position) } := by
  rw [Decode.tableFrom, bind_of_ok (liftOffset_eq_ok.mpr ⟨rfl, rfl⟩), bind_of_ok h]
  cases action with
  | finish => exact absurd rfl haction
  | skip => rfl
  | entry value => rfl

end

variable {read : σ → ℕ → Decode (RecordAction α × σ)} {states : ℕ → σ} {state next : σ}

theorem along_of_ok (h : read (states index) index x = .ok (action, next) y) :
    Decode.along read states index x = .ok action y := bind_of_ok h

/-- A walk that stands where it has to stop has nothing to warn of. -/
theorem untilFrom_of_stop (hsize : 0 < recordSize) (hmax : x.stream.position < Word.max) :
    Decode.untilFrom x.stream.position recordSize read (rounds + 1) state index found x
      = .ok found x := by
  have hcut : x.stream.position < Word.satAdd x.stream.position recordSize := by
    rw [Word.satAdd]
    omega
  rw [Decode.untilFrom, bind_of_ok (liftOffset_eq_ok.mpr ⟨rfl, rfl⟩), if_pos hcut,
    if_neg (Nat.lt_irrefl _)]
  rfl

/-! ### All records -/

/-- **What is left of the two walks comes to the same.** The induction is on the records that can be
read. The rest of the count leads to the position where the other walk stops, and leaves room for as
many entries. -/
theorem exists_untilFrom_eq (h : ReadsRecords read states recordSize count index x)
    (hsize : 0 < recordSize) (hstop : x.stream.position + count * recordSize = stop)
    (hmax : stop < Word.max) (hindex : index + count ≤ Word.max)
    (hroom : found.size + count ≤ x.context.options.maxEntries) (hrounds : count < rounds) :
    ∃ result y, Decode.tableFrom (Decode.along read states) count index found x = .ok result y ∧
      Decode.untilFrom stop recordSize read rounds (states index) index found x
        = .ok result y := by
  obtain ⟨rounds, rfl⟩ : ∃ n, rounds = n + 1 := ⟨rounds - 1, by omega⟩
  induction h generalizing found rounds with
  | done index x =>
    rw [Nat.zero_mul, Nat.add_zero] at hstop
    subst hstop
    exact ⟨found, x, rfl, untilFrom_of_stop hsize hmax⟩
  | @finish count index x y next hread =>
    have hfits : Word.satAdd x.stream.position recordSize ≤ stop := by
      rw [Nat.succ_mul] at hstop
      exact (Word.le_iff_satAdd_le hmax).mpr (by omega)
    exact ⟨found, y, tableFrom_of_finish (along_of_ok hread),
      untilFrom_of_finish hfits (by omega) hread⟩
  | @pass count index x y action hread hne hposition hoptions _ ih =>
    rw [Nat.succ_mul] at hstop
    have hfits : Word.satAdd x.stream.position recordSize ≤ stop :=
      (Word.le_iff_satAdd_le hmax).mpr (by omega)
    obtain ⟨rounds, rfl⟩ : ∃ n, rounds = n + 1 := ⟨rounds - 1, by omega⟩
    have hleft : (Decode.keep found action).size + count ≤ y.context.options.maxEntries := by
      have := Tables.size_keep_le found action
      rw [hoptions]
      omega
    obtain ⟨result, z, htable, huntil⟩ := ih (by dsimp only; omega) (by omega) hleft rounds
      (by omega)
    refine ⟨result, z, ?_, ?_⟩
    · rw [tableFrom_of_step (along_of_ok hread) hne, htable]
    · rw [untilFrom_of_step hfits (by omega) hread hne (by omega), huntil]

/-- **Walks with and without a count agree.** Over `n` records that can be read, the walk that
counts them and the one that stops behind them find the same entries and leave the same session: the
same reports, and the stream at the same position. Neither fails. The count may have been checked
against any size of records. The position of the stop is below the largest word, as any position in
a stream is. -/
theorem readUntil_eq_readTable {n leastSize available : ℕ} {count : EntryCount}
    (hcount : Decode.checkCount n leastSize available x = .ok count x) (hsize : 0 < recordSize)
    (hfit : x.stream.position + n * recordSize ≤ x.stream.length)
    (hmax : x.stream.position + n * recordSize < Word.max)
    (hread : ReadsRecords read states recordSize n 0 x) :
    ∃ records y, Decode.readTable count (Decode.along read states) x = .ok records y ∧
      Decode.readUntil (x.stream.position + n * recordSize) recordSize (states 0) read x
        = .ok records y := by
  obtain ⟨hlimit, -, rfl, -⟩ := checkCount_eq_ok.mp hcount
  have hle : n ≤ n * recordSize := Nat.le_mul_of_pos_right n hsize
  have hroom : (#[] : Array α).size + n ≤ x.context.options.maxEntries := by
    rw [Array.size_empty]
    omega
  obtain ⟨found, y, htable, huntil⟩ := exists_untilFrom_eq hread hsize rfl hmax (by omega) hroom
    (show n < x.stream.position + n * recordSize - x.stream.position + 2 by omega)
  refine ⟨found.toList, y, bind_of_ok htable, ?_⟩
  rw [Decode.readUntil, bind_of_ok (liftLength_eq_ok.mpr ⟨rfl, rfl⟩), Nat.min_eq_left hfit,
    bind_of_ok (liftOffset_eq_ok.mpr ⟨rfl, rfl⟩)]
  exact bind_of_ok huntil

/-- Records of one integer: zero is blank, and the largest marks the end. What is kept is the sum of
the integers so far, and it is what an entry says. -/
def sumRecord (sum _ : ℕ) : Decode (RecordAction ℕ × ℕ) := do
  let n ← Decode.ofReader Reader.u32
  return (if n = 0 then .skip else if n = Word.max32 then .finish else .entry (sum + n), sum + n)

/-- Five such records, of which the second is blank and the fourth marks the end, with a byte in
front of them and one behind. Five are allowed. -/
def fiveWords : Session where
  stream :=
    { bytes := [0xAA, 1, 0, 0, 0, 0, 0, 0, 0, 3, 0, 0, 0, 0xFF, 0xFF, 0xFF, 0xFF, 5, 0, 0, 0, 0xBB]
      position := 1 }
  context := { options := { maxEntries := 5 } }

/-- The sums in front of the records. -/
def fiveSums (index : ℕ) : ℕ := [0, 1, 1, 4].getD index 0

theorem readsRecords_fiveWords : ReadsRecords sumRecord fiveSums 4 5 0 fiveWords :=
  .pass rfl (show RecordAction.entry 1 ≠ .finish from nofun) rfl rfl <|
    .pass rfl (show RecordAction.skip ≠ .finish from nofun) rfl rfl <|
      .pass rfl (show RecordAction.entry 4 ≠ .finish from nofun) rfl rfl <| .finish rfl

/-- As many records as are allowed, with and without a count: two entries are found, three records
reported, and the mark of the end has been read. -/
theorem readUntil_eq_readTable_five : ∃ y,
    Decode.readTable ⟨5⟩ (Decode.along sumRecord fiveSums) fiveWords = .ok [1, 4] y ∧
    Decode.readUntil 21 4 0 sumRecord fiveWords = .ok [1, 4] y ∧
    y.records = #[(0, 1), (1, 5), (2, 9)] ∧ y.stream.position = 17 := by
  have hcount : Decode.checkCount 5 4 21 fiveWords = .ok ⟨5⟩ fiveWords := rfl
  obtain ⟨records, y, htable, huntil⟩ := readUntil_eq_readTable hcount (by decide)
    (show 1 + 5 * 4 ≤ 22 by decide) (by decide) readsRecords_fiveWords
  have hz : Decode.readTable ⟨5⟩ (Decode.along sumRecord fiveSums) fiveWords = .ok [1, 4]
      { fiveWords with
        stream := { fiveWords.stream with position := 17 }
        reports := #[.progress 0 1, .progress 1 5, .progress 2 9] } := rfl
  rw [hz] at htable
  cases htable
  exact ⟨_, hz, huntil, rfl, rfl⟩

end Walks

end Packfile
