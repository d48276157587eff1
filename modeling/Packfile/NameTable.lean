import Packfile.FileTree
import Packfile.Text.Hex
import Packfile.Text.Utf8

/-!
# Name tables

Some archives store a hash of each file name and not the name. A name table gives the names back;
it is read from a text with one `hash=name` pair on a line. Hashes are compared in a normal form,
without blanks around them, without one leading `0x`, and in lower case.

## Main definitions

* `NameTable.normalize` — the normal form of a hash
* `NameTable.ofText` — reading a table
* `NameTable.insert`, `lookup?`

## Main results

* `NameTable.lookup?_insert`: an insertion changes the look-up of exactly one normal form
-/

namespace Packfile

/-- Names under the normal forms of their hashes, each form at most once. -/
structure NameTable where
  /-- The pairs of normal form and name. -/
  pairs : List (String × String) := []
  deriving DecidableEq, Repr, Inhabited

namespace NameTable

/-- A table without names. -/
def empty : NameTable := {}

/-- Removes one leading `0x` or `0X`. -/
def dropMark : List Char → List Char
  | '0' :: 'x' :: rest => rest
  | '0' :: 'X' :: rest => rest
  | chars => chars

/-- The normal form of a hash. -/
def normalize (hash : String) : String :=
  String.ofList ((dropMark (Text.trim hash.toList)).map Char.toLower)

/-- Sets the name under a normal form. -/
def put : List (String × String) → String → String → List (String × String)
  | [], key, name => [(key, name)]
  | (k, n) :: rest, key, name =>
    if k = key then (k, name) :: rest else (k, n) :: put rest key name

/-- Sets the name of a hash. -/
def insert (t : NameTable) (hash name : String) : NameTable := ⟨put t.pairs (normalize hash) name⟩

/-- The name of a hash. -/
def lookup? (t : NameTable) (hash : String) : Option String := t.pairs.lookup (normalize hash)

/-- The number of names. -/
def size (t : NameTable) : Nat := t.pairs.length

/-- The name of a 32-bit hash. -/
def lookup32? (t : NameTable) (hash : Nat) : Option String := t.lookup? (Hex.padded 8 hash)

/-- The name of a 64-bit hash. -/
def lookup64? (t : NameTable) (hash : Nat) : Option String := t.lookup? (Hex.padded 16 hash)

/-- The hash and the name on a line. Blank lines, lines that start with `#`, and lines without `=`
have none. -/
def ofLine? (line : List Char) : Option (String × String) :=
  match Text.trim line with
  | [] => none
  | '#' :: _ => none
  | chars =>
    (Text.splitFirst? '=' chars).map fun (hash, name) =>
      (String.ofList hash, String.ofList (Text.trim name))

/-- Reads a table. Of two lines with one hash the later counts. -/
def ofText (text : String) : NameTable :=
  ((Text.pieces '\n' text.toList).filterMap ofLine?).foldl
    (fun table (hash, name) => table.insert hash name) empty

/-- Reads a table from a file. Without a readable file there is none. -/
def load? (files : FileTree) (path : String) : Option NameTable :=
  match files.read path with
  | .error _ => none
  | .ok content => if Utf8.isValid content then some (ofText (Utf8.decode content)) else none

theorem lookup_put (pairs : List (String × String)) (key other name : String) :
    (put pairs key name).lookup other = if other = key then some name else pairs.lookup other := by
  induction pairs with
  | nil =>
    by_cases h : other = key
    · simp [put, h]
    · have hb : (other == key) = false := by simp [h]
      simp [put, List.lookup_cons, hb, h]
  | cons p pairs ih =>
    obtain ⟨k, n⟩ := p
    by_cases hk : k = key
    · subst hk
      by_cases ho : other = k
      · simp [put, ho]
      · have hb : (other == k) = false := by simp [ho]
        simp [put, List.lookup_cons, hb, ho]
    · by_cases ho : other = k
      · subst ho
        simp [put, hk]
      · have hb : (other == k) = false := by simp [ho]
        simp only [put, hk, if_false, List.lookup_cons, hb, ih]

theorem mem_keys_put {pairs : List (String × String)} {key name other : String} :
    other ∈ (put pairs key name).map Prod.fst ↔ other = key ∨ other ∈ pairs.map Prod.fst := by
  induction pairs with
  | nil => simp [put]
  | cons p pairs ih =>
    rw [put]
    split
    · next h =>
      rw [List.map_cons, List.map_cons, List.mem_cons, ← h]
      exact ⟨.inr, fun hother => hother.elim .inl id⟩
    · rw [List.map_cons, List.map_cons, List.mem_cons, List.mem_cons, ih, or_left_comm]

/-- Every normal form stays there at most once. -/
theorem nodup_put {pairs : List (String × String)} (h : (pairs.map Prod.fst).Nodup)
    (key name : String) : ((put pairs key name).map Prod.fst).Nodup := by
  induction pairs with
  | nil => simp [put]
  | cons p pairs ih =>
    rw [List.map_cons, List.nodup_cons] at h
    rw [put]
    split
    · exact List.nodup_cons.mpr h
    · next hne =>
      rw [List.map_cons, List.nodup_cons, mem_keys_put, not_or]
      exact ⟨⟨hne, h.1⟩, ih h.2⟩

/-- An insertion changes the look-up of exactly one normal form. -/
theorem lookup?_insert (t : NameTable) (hash other name : String) :
    (t.insert hash name).lookup? other =
      if normalize other = normalize hash then some name else t.lookup? other :=
  lookup_put _ _ _ _

end NameTable

end Packfile
