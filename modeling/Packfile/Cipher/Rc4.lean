import Packfile.Bytes

/-!
# RC4

The RC4 stream cipher: a permutation of the 256 bytes, shuffled by the key, yields one key stream
byte at a time. Enciphering and deciphering are the same operation, and a text may be done in
pieces, because all there is to remember is the state.

## Main results

* `Rc4.apply_append`: pieces or the whole, the result is the same
* `Rc4.apply_apply`: applying the cipher twice from the same state restores the text
-/

namespace Packfile

/-- The state of the cipher. -/
structure Rc4 where
  /-- A permutation of the bytes. -/
  table : Vector UInt8 256
  /-- The index that counts up. -/
  i : UInt8 := 0
  /-- The index that jumps. -/
  j : UInt8 := 0

namespace Rc4

/-- The table entry at a byte. -/
def lookup (table : Vector UInt8 256) (i : UInt8) : UInt8 := table.get ⟨i.toNat, i.toNat_lt⟩

/-- The table with two entries exchanged. -/
def exchange (table : Vector UInt8 256) (i j : UInt8) : Vector UInt8 256 :=
  (table.set i.toNat (lookup table j) i.toNat_lt).set j.toNat (lookup table i) j.toNat_lt

/-- One step of the key schedule, at index `i`. -/
def mix (key : Bytes) (state : Vector UInt8 256 × UInt8) (i : Nat) : Vector UInt8 256 × UInt8 :=
  let (table, j) := state
  let at_ := UInt8.ofNat i
  let j := j + lookup table at_ + key.getD (i % key.length) 0
  (exchange table at_ j, j)

/-- The lengths that a key may have. -/
def isKeyLength (length : Nat) : Bool := 1 ≤ length && length ≤ 256

/-- The cipher at the start of its key stream. -/
def ofKey (key : Bytes) : Rc4 :=
  { table := ((List.range 256).foldl (mix key) (Vector.ofFn fun i => UInt8.ofNat i.val, 0)).1 }

/-- The next byte of the key stream, and the state after it. -/
def next (c : Rc4) : UInt8 × Rc4 :=
  let i := c.i + 1
  let j := c.j + lookup c.table i
  let table := exchange c.table i j
  (lookup table (lookup table i + lookup table j), { table, i, j })

/-- Appends one more byte, combined with the key stream, to what is done. -/
def push (acc : Array UInt8 × Rc4) (b : UInt8) : Array UInt8 × Rc4 :=
  let (k, c) := acc.2.next
  (acc.1.push (b ^^^ k), c)

/-- Combines a byte string with the key stream, and gives the state after it. -/
def apply (c : Rc4) (bytes : Bytes) : Bytes × Rc4 :=
  let (done, c) := bytes.foldl push (#[], c)
  (done.toList, c)

theorem foldl_push (done : Array UInt8) (c : Rc4) (bytes : Bytes) :
    bytes.foldl push (done, c) = (done ++ (c.apply bytes).1.toArray, (c.apply bytes).2) := by
  induction bytes generalizing done c with
  | nil => simp [apply]
  | cons b rest ih =>
    simp only [apply, List.foldl_cons, push]
    rw [ih (done.push _), ih (#[].push _)]
    simp

/-- The first byte takes the first byte of the key stream. -/
theorem apply_cons (c : Rc4) (b : UInt8) (rest : Bytes) :
    c.apply (b :: rest) = ((b ^^^ c.next.1) :: (c.next.2.apply rest).1, (c.next.2.apply rest).2) := by
  rw [apply, List.foldl_cons, push, foldl_push]
  simp

@[simp] theorem length_apply (c : Rc4) (bytes : Bytes) :
    (c.apply bytes).1.length = bytes.length := by
  induction bytes generalizing c with
  | nil => rfl
  | cons b rest ih => simp [apply_cons, ih]

/-- A byte string may be enciphered in pieces. -/
theorem apply_append (c : Rc4) (front back : Bytes) :
    c.apply (front ++ back) =
      ((c.apply front).1 ++ ((c.apply front).2.apply back).1,
        ((c.apply front).2.apply back).2) := by
  induction front generalizing c with
  | nil => rfl
  | cons b rest ih => simp [apply_cons, ih]

/-- Applied twice from one state, the cipher restores the text and ends in one state. -/
theorem apply_apply (c : Rc4) (bytes : Bytes) :
    c.apply (c.apply bytes).1 = (bytes, (c.apply bytes).2) := by
  induction bytes generalizing c with
  | nil => rfl
  | cons b rest ih =>
    rw [apply_cons, apply_cons, ih, UInt8.xor_assoc, UInt8.xor_self, UInt8.xor_zero]

end Rc4

end Packfile
