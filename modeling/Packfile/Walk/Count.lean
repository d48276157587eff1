import Packfile.Session

/-!
# Declared counts

A directory that declares how many records it has is believed only so far: the count must stay
within the caller's limit, and the records must fit into the bytes that are there. `EntryCount` is
the type of counts that passed, and the table readers take no other. Where nothing is declared,
the limit is held against the entries that have been found.
-/

namespace Packfile

/-- A number of records that passed its checks. -/
structure EntryCount where
  /-- The number. -/
  value : Nat
  deriving DecidableEq, Repr

namespace EntryCount

/-- The count without the records that only mark the end. -/
def withoutSentinels (count : EntryCount) (sentinels : Nat) : EntryCount :=
  ⟨count.value - sentinels⟩

/-- Checks a declared count against a limit, and records of a least size against the bytes that are
available for them. -/
def check (maxEntries count recordSize available : Nat) : Except Error EntryCount :=
  if maxEntries < count then .error (.exceeds "entry count" count maxEntries)
  else
    let needed := Word.satMul count recordSize
    if available < needed then .error (.exceeds "directory size" needed available)
    else .ok ⟨count⟩

end EntryCount

namespace Decode

/-- Checks a declared count against the caller's limit. -/
def checkCount (count recordSize available : Nat) : Decode EntryCount := do
  let options ← options
  ofReader (Reader.ofExcept (EntryCount.check options.maxEntries count recordSize available))

/-- Fails when as many entries have been found as the caller allows. -/
def checkRoom (found : Nat) : Decode Unit := do
  let limit := (← options).maxEntries
  if limit ≤ found then throw (.exceeds "entry count" (← Checked.sum found 1) limit)

end Decode

end Packfile
