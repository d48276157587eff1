import Packfile.Walk.Count

/-!
# Walks over records

The directories of most formats are arrays of records of one size. A walk goes through one and
hands each record to a function of the format, which says what the record means: an entry, nothing,
or the end of the directory. Each record that does not end the walk is reported as progress.

## Counted and open walks

`readTable` reads a counted table, and an unreadable record is an error. `readUntil` reads a
directory without a count up to a position: there, a record that makes no sense ends the walk with
a warning, because such directories are often followed by other data. A failure of the storage is
never taken for the end of a directory, and neither is a number that leaves its width.

## Main definitions

* `RecordAction` — what a record means
* `Decode.readTable`, `Decode.readUntil`
-/

namespace Packfile

/-- What a record means. -/
inductive RecordAction (α : Type) where
  /-- An entry. -/
  | entry (value : α)
  /-- Nothing. -/
  | skip
  /-- The end of the directory. -/
  | finish
  deriving Repr

namespace Decode

/-- The entries so far, with that of one more record. -/
def keep (found : Array α) : RecordAction α → Array α
  | .entry value => found.push value
  | .skip | .finish => found

/-- Reads `count` records from an index on. -/
def tableFrom (read : Nat → Decode (RecordAction α)) :
    (count index : Nat) → Array α → Decode (Array α)
  | 0, _, found => return found
  | count + 1, index, found => do
    let offset ← Reader.offset
    match ← read index with
    | .finish => return found
    | action => do
      progress index offset
      tableFrom read count (index + 1) (keep found action)

/-- Reads a counted table of records. -/
def readTable (count : EntryCount) (read : Nat → Decode (RecordAction α)) : Decode (List α) :=
  return (← tableFrom read count.value 0 #[]).toList

/-- What is reported when bytes are left that are too few for a record. -/
def trailingBytes : String := "ignoring trailing bytes after directory"

/-- What is reported when a record makes no sense. -/
def unreadableRecord : String := "stopping at unreadable record"

/-- Reads records up to the position `stop`, from an index on. The reader of records hands a state
from each record to the next. Every record that is read moves the stream, so `rounds` need not
exceed the bytes before `stop` by more than one. -/
def untilFrom (stop recordSize : Nat) (read : σ → Nat → Decode (RecordAction α × σ)) :
    (rounds : Nat) → σ → (index : Nat) → Array α → Decode (Array α)
  | 0, _, _, found => return found
  | rounds + 1, state, index, found => do
    let offset ← Reader.offset
    if stop < Word.satAdd offset recordSize then
      if offset < stop then warn trailingBytes
      return found
    checkRoom found.size
    match ← attempt (read state index) with
    | .error e =>
      if e.isStorageFailure || e.isOverflow then throw e
      warn unreadableRecord
      return found
    | .ok (.finish, _) => return found
    | .ok (action, state) => do
      progress index offset
      untilFrom stop recordSize read rounds state (← Checked.sum index 1) (keep found action)

/-- Reads the records of a directory without a count, up to the position `stop` or the end of the
stream. -/
def readUntil (stop recordSize : Nat) (start : σ)
    (read : σ → Nat → Decode (RecordAction α × σ)) : Decode (List α) := do
  let stop := min stop (← Reader.length)
  let offset ← Reader.offset
  return (← untilFrom stop recordSize read (stop - offset + 2) start 0 #[]).toList

end Decode

end Packfile
