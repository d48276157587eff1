import Packfile.Proofs.TreRoundTrip

/-!
# Files that a writer loses

A call on a writer may fail, and the caller may pass the failure over and go on with the next call.
This file says which archive comes out in the end, and how far its header can be relied on.

## What is lost, and what is left of it

A content, or its stored form, that is too long for a 32-bit field has no record. This is found out
when the next file is started, and that call fails. By then the file is no longer open, and its
record, its data and its digest are never written. But it was counted when it was started, and
nothing takes it out of the count again. The header of the archive that comes out in the end counts
every file that was lost in this way.

No other failure does any harm. A write without a file changes nothing. Where it is the place of
the data, or of the name, that is beyond 32 bits, the file is counted and opened all the same, and
gets a record when it is ended; but the data, or the names, are then too long for the archive to be
finished.

## Numbers that go on from zero

The files are counted in 32 bits, and the size of a block of records that is not compressed is
computed from their count, in 32 bits too. The count of an archive that is finished has not gone on
from zero: every file that was opened has left a name behind, or else the archive is too long to be
finished (`Tally.started_le`). The size may have (`Tre.inconsistent_of_blanks`).

## Main definitions

* `Tre.Call`, `Tre.carryOn` — calls whose failures are passed over
* `Tre.lost`, `Tre.started` — how many files they lose, and how many they open
* `Tre.Parts`, `Tre.IsConsistent` — an archive whose header is right about its blocks
* `Tre.Parts.Overcounts` — one whose header counts so many records too many

## Main results

* `Tre.Call.loses_iff`, `Tre.lost_eq_zero_iff` — which calls lose a file, and which runs lose none
* `Tre.isConsistent_finish_iff` — an archive is consistent if no file of it was lost, and the size
  of its records fits into 32 bits
-/

namespace Packfile.Tre

open Run

/-! ### Calls that may fail -/

/-- A call of someone who writes an archive. -/
inductive Call where
  /-- Starts a file. -/
  | start (name : String) (compression : Compression)
  /-- Writes into the file that is open. -/
  | write (data : Bytes)

namespace Call

/-- What a call does. -/
def perform : Call → Write Unit
  | start name compression => Writer.startFile name compression
  | write data => Writer.write data

/-- The writer after a call whose failure is passed over. -/
def pass (c : Call) (w : Writer) : Writer := after c.perform w

/-- Whether a call finds a file open and leaves none. -/
def loses (c : Call) (w : Writer) : Bool := w.isWriting && !(c.pass w).isWriting

/-- Whether a call is one that starts a file. -/
def isStart : Call → Bool
  | start _ _ => true
  | write _ => false

/-- Whether a call opens a file. -/
def opens (c : Call) (w : Writer) : Bool := c.isStart && (c.pass w).isWriting

end Call

/-- The writer after calls whose failures are passed over. -/
def carryOn : List Call → Writer → Writer
  | [], w => w
  | c :: calls, w => carryOn calls (c.pass w)

/-- How many of the calls lose a file. -/
def lost : List Call → Writer → ℕ
  | [], _ => 0
  | c :: calls, w => (c.loses w).toNat + lost calls (c.pass w)

/-- How many of the calls open a file. -/
def started : List Call → Writer → ℕ
  | [], _ => 0
  | c :: calls, w => (c.opens w).toNat + started calls (c.pass w)

/-! ### What one call does -/

section

variable {w w' v : Writer} {c : Call} {calls : List Call} {e : Error} {u : Unit}

/-- What a call does. -/
inductive Step : Call → Writer → Writer → Prop
  /-- The file that is open is oversized and is dropped, and none is started. -/
  | lose {w : Writer} {name : String} {compression : Compression} {content : Block}
      (record : Record) (hcurrent : w.current = some content)
      (hlarge : IsOversized w.compress content) :
      Step (.start name compression) w { w with current := none, record }
  /-- A file is started and counted. If it has no name, the archive is too long already. -/
  | start {w v : Writer} {name : String} {compression : Compression} (record : Record)
      (nameBlock : Block) (hfinish : Writer.finishFile w = .ok () v)
      (hname : nameBlock = v.nameBlock.write (Utf8.encode name ++ [0]) ∨ nameBlock = v.nameBlock ∧
        (Word.max32 < headerSize + v.dataBlock.length ∨ Word.max32 < v.nameBlock.size)) :
      Step (.start name compression) w { v with
        current := some { compressed := compression.isCompressed }
        records := Word.wrapAdd32 v.records 1
        record
        nameBlock }
  /-- A piece is added to the file that is open. -/
  | write {w : Writer} {data : Bytes} {content : Block} (hcurrent : w.current = some content) :
      Step (.write data) w { w with current := some (content.write data) }
  /-- There is no file to write into. -/
  | refuse {w : Writer} {data : Bytes} (hcurrent : w.current = none) : Step (.write data) w w

theorem Call.pass_of_ok (h : c.perform w = .ok u w') : c.pass w = w' := after_of_ok h

theorem Call.pass_of_error (h : c.perform w = .error e w') : c.pass w = w' := by
  rw [pass, after, h]

theorem write_of_none (data : Bytes) (h : w.current = none) :
    Writer.write data w = .error (.read .noFileStarted) w := by
  rw [Writer.write, bind_of_ok (get_eq_ok.mpr ⟨rfl, rfl⟩), h]
  rfl

/-- **A call takes one of four steps.** -/
theorem step_pass (c : Call) (w : Writer) : Step c w (c.pass w) := by
  cases c with
  | start name compression =>
    cases h : (Call.start name compression).perform w with
    | ok u w' =>
      obtain ⟨v, hfinish, -, -, rfl⟩ := of_startFile h
      rw [Call.pass_of_ok h]
      exact .start _ _ hfinish (.inl rfl)
    | error e w' =>
      rw [Call.pass_of_error h]
      obtain hfinish | ⟨v, record, hfinish, hfull, rfl⟩ := of_startFile_eq_error h
      · obtain ⟨content, record, hcurrent, hlarge, rfl⟩ := of_finishFile_eq_error hfinish
        exact .lose record hcurrent hlarge
      · exact .start (v := v) record v.nameBlock hfinish (.inr ⟨rfl, hfull⟩)
  | write data =>
    cases hcurrent : w.current with
    | none =>
      rw [Call.pass_of_error (c := .write data) (write_of_none data hcurrent)]
      exact .refuse hcurrent
    | some content =>
      rw [Call.pass_of_ok (c := .write data) (write_of_some data hcurrent)]
      exact .write hcurrent

/-- A file that is oversized is lost when another is started. -/
theorem pass_of_isOversized (name : String) (compression : Compression) {content : Block}
    (hcurrent : w.current = some content) (hlarge : IsOversized w.compress content) :
    ∃ record, (Call.start name compression).pass w = { w with current := none, record } := by
  cases hfinish : Writer.finishFile w with
  | ok u v => exact absurd hlarge (not_isOversized_of_finishFile hcurrent hfinish)
  | error e v =>
    obtain ⟨content, record, -, -, rfl⟩ := of_finishFile_eq_error hfinish
    exact ⟨record, Call.pass_of_error (bind_of_error hfinish)⟩

/-- **A call loses a file exactly if it would start another and the one that is open is
oversized.** -/
theorem Call.loses_iff : c.loses w = true ↔
    ∃ name compression content, c = .start name compression ∧ w.current = some content ∧
      IsOversized w.compress content := by
  have hstep := step_pass c w
  rw [loses]
  generalize c.pass w = w' at hstep ⊢
  cases hstep with
  | @lose _ name compression content record hcurrent hlarge =>
    simp only [Writer.isWriting, hcurrent, Option.isSome_some, Option.isSome_none, Bool.not_false,
      Bool.and_self, true_iff]
    exact ⟨name, compression, content, rfl, rfl, hlarge⟩
  | start record nameBlock hfinish hname =>
    simp only [Writer.isWriting, Option.isSome_some, Bool.not_true, Bool.and_false,
      Bool.false_eq_true, false_iff]
    rintro ⟨_, _, content, -, hcurrent, hlarge⟩
    exact not_isOversized_of_finishFile hcurrent hfinish hlarge
  | write hcurrent => simp [Writer.isWriting]
  | refuse hcurrent => simp [Writer.isWriting, hcurrent]

/-- **No file is lost exactly if none is oversized when another is started.** -/
theorem lost_eq_zero_iff : lost calls w = 0 ↔
    ∀ before name compression after content,
      calls = before ++ Call.start name compression :: after →
        (carryOn before w).current = some content →
          ¬ IsOversized (carryOn before w).compress content := by
  induction calls generalizing w with
  | nil => simp [lost]
  | cons c calls ih =>
    rw [lost, Nat.add_eq_zero_iff, ih, Bool.toNat_eq_zero]
    constructor
    · rintro ⟨hkept, hrest⟩ before name compression after content hcalls hcurrent hlarge
      cases before with
      | nil =>
        obtain ⟨rfl, -⟩ := List.cons.inj hcalls
        have hloses := Call.loses_iff.mpr ⟨name, compression, content, rfl, hcurrent, hlarge⟩
        exact Bool.false_ne_true (hkept.symm.trans hloses)
      | cons d before =>
        obtain ⟨rfl, htail⟩ := List.cons.inj hcalls
        exact hrest before name compression after content htail hcurrent hlarge
    · intro h
      constructor
      · refine Bool.eq_false_iff.mpr fun hloses => ?_
        obtain ⟨name, compression, content, rfl, hcurrent, hlarge⟩ := Call.loses_iff.mp hloses
        exact h [] name compression calls content rfl hcurrent hlarge
      · intro before name compression after content hcalls
        exact h (c :: before) name compression after content (by rw [hcalls]; rfl)

end

/-! ### What has been written -/

section

variable {made : Writer} {ended : List (Record × Bytes)} {n m : ℕ} {w w' v : Writer} {u : Unit}

/-- The files that were ended since a writer was made, each a record with its stored data, and the
numbers of those that were lost and of all that were started. -/
structure Tally (made : Writer) (ended : List (Record × Bytes)) (n m : ℕ) (w : Writer) : Prop where
  compress_eq : w.compress = made.compress
  recordCompression_eq : w.recordCompression = made.recordCompression
  recordBlock : Filled w.recordBlock w.recordCompression (ended.flatMap fun f => f.1.bytes)
  dataBlock_eq : w.dataBlock = ended.flatMap Prod.snd
  nameBlock_eq : w.nameBlock.compressed = w.nameCompression.isCompressed
  hashBlock_eq : w.hashBlock = ended.flatMap fun f => Md5.digest f.2
  started_eq : m = ended.length + n + w.isWriting.toNat
  records_eq : w.records = m % (Word.max32 + 1)
  /-- As long as there was room for them, all files that were started have left their names. -/
  started_le : headerSize + w.dataBlock.length ≤ Word.max32 → w.nameBlock.size ≤ Word.max32 →
    m ≤ w.nameBlock.size

theorem tally_make (compress : Bytes → Bytes) (recordCompression nameCompression : Compression) :
    Tally (Writer.make recordCompression nameCompression compress) [] 0 0
      (Writer.make recordCompression nameCompression compress) where
  compress_eq := rfl
  recordCompression_eq := rfl
  recordBlock := .new _
  dataBlock_eq := rfl
  nameBlock_eq := rfl
  hashBlock_eq := rfl
  started_eq := rfl
  records_eq := rfl
  started_le := fun _ _ => Nat.zero_le _

/-- A file that is ended is no longer the open one, and stays counted. -/
theorem Tally.finishFile (hw : Tally made ended n m w) (h : Writer.finishFile w = .ok u v) :
    v.isWriting = false ∧ ∃ ended', Tally made ended' n m v := by
  cases hcurrent : w.current with
  | none =>
    rw [of_finishFile_of_none hcurrent h]
    exact ⟨by rw [Writer.isWriting, hcurrent]; rfl, ended, hw⟩
  | some content =>
    obtain ⟨-, -, hv⟩ := of_finishFile_of_some hcurrent h
    refine ⟨by rw [hv]; rfl, ended ++ [(v.record, content.bytes w.compress)], ?_⟩
    subst hv
    refine ⟨hw.compress_eq, hw.recordCompression_eq, ?_, ?_, hw.nameBlock_eq, ?_, ?_, hw.records_eq,
      fun hdata => hw.started_le ?_⟩
    · rw [List.flatMap_append, List.flatMap_singleton]
      exact hw.recordBlock.write _
    · rw [List.flatMap_append, List.flatMap_singleton, ← hw.dataBlock_eq]
    · rw [List.flatMap_append, List.flatMap_singleton, ← hw.hashBlock_eq]
    · have hstarted := hw.started_eq
      rw [Writer.isWriting, hcurrent, Option.isSome_some, Bool.toNat_true] at hstarted
      show m = (ended ++ [_]).length + n + 0
      rw [List.length_append, List.length_singleton]
      omega
    · rw [List.length_append] at hdata
      omega

/-- **What one call does to the tally.** -/
theorem Tally.pass (hw : Tally made ended n m w) (c : Call) : ∃ ended',
    Tally made ended' (n + (c.loses w).toNat) (m + (c.opens w).toNat) (c.pass w) := by
  have hstep := step_pass c w
  rw [Call.opens, Call.loses]
  generalize c.pass w = w' at hstep ⊢
  have hstarted := hw.started_eq
  cases hstep with
  | lose record hcurrent hlarge =>
    refine ⟨ended, hw.compress_eq, hw.recordCompression_eq, hw.recordBlock, hw.dataBlock_eq,
      hw.nameBlock_eq, hw.hashBlock_eq, ?_, hw.records_eq, hw.started_le⟩
    simpa [Writer.isWriting, Call.isStart, hcurrent, Nat.add_assoc] using hstarted
  | @start _ v name compression record nameBlock hfinish hname =>
    obtain ⟨hclosed, ended', hv⟩ := hw.finishFile hfinish
    show ∃ ended', Tally made ended' (n + (w.isWriting && false).toNat) (m + 1) _
    rw [Bool.and_false, Bool.toNat_false, Nat.add_zero]
    refine ⟨ended', hv.compress_eq, hv.recordCompression_eq, hv.recordBlock, hv.dataBlock_eq, ?_,
      hv.hashBlock_eq, ?_, ?_, ?_⟩
    · obtain rfl | ⟨rfl, -⟩ := hname
      · exact hv.nameBlock_eq
      · exact hv.nameBlock_eq
    · rw [hv.started_eq, hclosed]
      rfl
    · show Word.wrapAdd32 _ 1 = _
      rw [hv.records_eq, Word.wrapAdd32, Nat.mod_add_mod]
    · intro (hdata : headerSize + v.dataBlock.length ≤ Word.max32)
        (hnames : nameBlock.size ≤ Word.max32)
      show m + 1 ≤ nameBlock.size
      obtain rfl | ⟨rfl, hfull⟩ := hname
      · rw [Block.size_write, List.length_append, List.length_singleton] at hnames ⊢
        have hle := hv.started_le hdata (by omega)
        omega
      · omega
  | write hcurrent =>
    refine ⟨ended, hw.compress_eq, hw.recordCompression_eq, hw.recordBlock, hw.dataBlock_eq,
      hw.nameBlock_eq, hw.hashBlock_eq, ?_, hw.records_eq, hw.started_le⟩
    simpa [Writer.isWriting, Call.isStart, hcurrent] using hstarted
  | refuse hcurrent => exact ⟨ended, by simpa [Writer.isWriting, Call.isStart, hcurrent] using hw⟩

/-- **What a run of calls does to the tally.** -/
theorem Tally.carryOn (hw : Tally made ended n m w) (calls : List Call) :
    ∃ ended', Tally made ended' (n + lost calls w) (m + started calls w) (carryOn calls w) := by
  induction calls generalizing ended n m w with
  | nil => exact ⟨ended, hw⟩
  | cons c calls ih =>
    obtain ⟨ended', hv⟩ := hw.pass c
    rw [lost, started, ← Nat.add_assoc, ← Nat.add_assoc]
    exact ih hv

end

/-! ### Finished archives -/

/-- What a stored block decodes to. -/
def Compression.Decodes (c : Compression) (block content : Bytes) : Prop :=
  c.codec.undo ⟨block, .finished⟩ = .ok ⟨content, .finished⟩

/-- An archive that is cut into a header and blocks. -/
structure Parts where
  /-- The header. -/
  header : Header
  /-- The stored data. -/
  data : Bytes
  /-- The stored form of the records. -/
  recordBlock : Bytes
  /-- The stored form of the names. -/
  nameBlock : Bytes
  /-- The digests of the stored data. -/
  hashBlock : Bytes

namespace Parts

/-- The archive of these parts. -/
def bytes (p : Parts) : Bytes :=
  p.header.bytes ++ p.data ++ p.recordBlock ++ p.nameBlock ++ p.hashBlock

/-- All that the header says of the blocks is so. -/
structure IsConsistent (p : Parts) : Prop where
  narrow : p.header.IsNarrow
  recordStart_eq : p.header.recordStart = headerSize + p.data.length
  recordCompressed_eq : p.header.recordCompressed = p.recordBlock.length
  nameCompressed_eq : p.header.nameCompressed = p.nameBlock.length
  records_eq : ∃ content, p.header.recordCompression.Decodes p.recordBlock content ∧
    content.length = p.header.records * recordSize
  names_eq : ∃ content, p.header.nameCompression.Decodes p.nameBlock content ∧
    content.length = p.header.nameUncompressed
  hashes_eq : p.hashBlock.length = p.header.records * hashSize

/-- The header counts `n` records more than there are, and the size of a block of records that is
not compressed is computed from that number in 32 bits. All else that it says of the blocks is so. -/
structure Overcounts (p : Parts) (n : ℕ) : Prop where
  narrow : p.header.IsNarrow
  recordStart_eq : p.header.recordStart = headerSize + p.data.length
  recordCompressed_eq : p.header.recordCompressed =
    if p.header.recordCompression = .none then Word.wrapMul32 p.header.records recordSize
    else p.recordBlock.length
  nameCompressed_eq : p.header.nameCompressed = p.nameBlock.length
  records_eq : ∃ ended : List (Record × Bytes), p.header.records = ended.length + n ∧
    p.header.recordCompression.Decodes p.recordBlock (ended.flatMap fun f => f.1.bytes) ∧
    p.data = ended.flatMap Prod.snd ∧ p.hashBlock = ended.flatMap fun f => Md5.digest f.2
  names_eq : ∃ content, p.header.nameCompression.Decodes p.nameBlock content ∧
    content.length = p.header.nameUncompressed

variable {p q : Parts} {n : ℕ}

theorem length_bytes (p : Parts) : p.bytes.length = headerSize + p.data.length
    + p.recordBlock.length + p.nameBlock.length + p.hashBlock.length := by
  simp only [bytes, List.length_append, length_headerBytes]

/-- However an archive is cut, it has one header. -/
theorem header_eq (hp : p.header.IsNarrow) (hq : q.header.IsNarrow) (h : p.bytes = q.bytes) :
    p.header = q.header := by
  have hread : ∀ r : Parts, r.header.IsNarrow → ∃ t,
      Reader.treHeader (.ofBytes r.bytes) = .ok r.header t := by
    intro r hr
    have hahead : (Stream.ofBytes r.bytes).ahead
        = r.header.bytes ++ (r.data ++ (r.recordBlock ++ (r.nameBlock ++ r.hashBlock))) := by
      simp [Stream.ahead, Stream.ofBytes, bytes]
    exact ⟨_, Reading.treHeader_of_ahead hr hahead⟩
  obtain ⟨_, hp⟩ := hread p hp
  obtain ⟨_, hq⟩ := hread q hq
  rw [h, hq] at hp
  exact (EStateM.Result.ok.inj hp).1.symm

namespace Overcounts

theorem length_hashBlock (hp : p.Overcounts n) :
    p.hashBlock.length + n * hashSize = p.header.records * hashSize := by
  obtain ⟨ended, hrecords, -, -, hhashes⟩ := hp.records_eq
  have hdigest : ∀ f : Record × Bytes, (Md5.digest f.2).length = hashSize :=
    fun f => Md5.length_digest _
  rw [hhashes, Tables.length_flatMap hdigest, hrecords, Nat.add_mul, Nat.mul_comm]

/-- The records that are there, where they are not compressed. -/
theorem length_recordBlock (hp : p.Overcounts n) (hnone : p.header.recordCompression = .none) :
    p.recordBlock.length + n * recordSize = p.header.records * recordSize := by
  obtain ⟨ended, hrecords, hdecodes, -⟩ := hp.records_eq
  rw [hnone] at hdecodes
  have hblock : p.recordBlock = ended.flatMap fun f => f.1.bytes :=
    congrArg Feed.bytes (Except.ok.inj hdecodes)
  rw [hblock, Tables.length_flatMap fun f : Record × Bytes => length_recordBytes f.1, hrecords,
    Nat.add_mul, Nat.mul_comm recordSize]

/-- A header that counts no record too many is right, if the size of the records fits. -/
theorem isConsistent (hp : p.Overcounts 0)
    (hfits : p.header.recordCompression = .none → p.header.records * recordSize < 2 ^ 32) :
    p.IsConsistent where
  narrow := hp.narrow
  recordStart_eq := hp.recordStart_eq
  recordCompressed_eq := by
    rw [hp.recordCompressed_eq]
    split
    · rename_i hnone
      rw [Word.wrapMul32_of_le (Nat.le_of_lt_succ (hfits hnone)), ← hp.length_recordBlock hnone,
        Nat.zero_mul, Nat.add_zero]
    · rfl
  nameCompressed_eq := hp.nameCompressed_eq
  records_eq := by
    obtain ⟨ended, hrecords, hdecodes, -⟩ := hp.records_eq
    refine ⟨_, hdecodes, ?_⟩
    rw [Tables.length_flatMap fun f : Record × Bytes => length_recordBytes f.1, hrecords,
      Nat.add_zero, Nat.mul_comm]
  names_eq := hp.names_eq
  hashes_eq := by
    rw [← hp.length_hashBlock, Nat.zero_mul, Nat.add_zero]

end Overcounts

/-- What a header is right about, fits. -/
theorem IsConsistent.fits (hp : p.IsConsistent) (hnone : p.header.recordCompression = .none) :
    p.header.records * recordSize = p.recordBlock.length ∧
      p.header.records * recordSize < 2 ^ 32 := by
  obtain ⟨content, hdecodes, hlength⟩ := hp.records_eq
  rw [hnone] at hdecodes
  have hblock : p.recordBlock = content := congrArg Feed.bytes (Except.ok.inj hdecodes)
  rw [← hlength, ← hblock, ← hp.recordCompressed_eq]
  exact ⟨rfl, hp.narrow.recordCompressed_lt⟩

/-- An archive whose header counts records that are not there, or gives them a size that has gone on
from zero, has no other cut of which the header would be right: it says how long the blocks are, and
they are not. -/
theorem Overcounts.of_isConsistent (hp : p.Overcounts n) (hq : q.IsConsistent)
    (h : p.bytes = q.bytes) :
    n = 0 ∧ (p.header.recordCompression = .none → p.header.records * recordSize < 2 ^ 32) := by
  have hheader := header_eq hp.narrow hq.narrow h
  have hlength := congrArg List.length h
  rw [length_bytes, length_bytes] at hlength
  have hhashes := hp.length_hashBlock
  have hblock := hp.length_recordBlock
  have hstart := hp.recordStart_eq
  have hrecords := hp.recordCompressed_eq
  have hnames := hp.nameCompressed_eq
  rw [hheader] at hhashes hblock hstart hrecords hnames ⊢
  rw [hq.recordStart_eq] at hstart
  rw [hq.nameCompressed_eq] at hnames
  rw [← hq.hashes_eq] at hhashes
  refine ⟨?_, fun hnone => (hq.fits hnone).2⟩
  have hmul : n * hashSize = 0 := by
    by_cases hnone : q.header.recordCompression = .none
    · have := hblock hnone
      have := (hq.fits hnone).1
      omega
    · rw [if_neg hnone, hq.recordCompressed_eq] at hrecords
      omega
  exact (Nat.mul_eq_zero.mp hmul).resolve_right (by decide)

end Parts

/-- An archive can be cut into parts of which its header says what is so. -/
def IsConsistent (out : Bytes) : Prop := ∃ p : Parts, p.bytes = out ∧ p.IsConsistent

theorem Parts.Overcounts.isConsistent_iff {p : Parts} {n : ℕ} (hp : p.Overcounts n) :
    Tre.IsConsistent p.bytes ↔
      n = 0 ∧ (p.header.recordCompression = .none → p.header.records * recordSize < 2 ^ 32) := by
  constructor
  · rintro ⟨q, hbytes, hq⟩
    exact hp.of_isConsistent hq hbytes.symm
  · rintro ⟨rfl, hfits⟩
    exact ⟨p, rfl, hp.isConsistent hfits⟩

section

variable {compress : Bytes → Bytes} {recordCompression nameCompression : Compression}
  {made : Writer} {ended : List (Record × Bytes)} {n m : ℕ} {w w' : Writer} {calls : List Call}
  {out : Bytes}

/-- A block decodes to what it was given. -/
theorem Filled.decodes (hcompress : Zlib.Inverts compress) {b : Block} {c : Compression}
    {content : Bytes} (h : Filled b c content) : c.Decodes (b.bytes compress) content := by
  rw [Compression.Decodes, h.bytes_eq]
  exact c.undo_codec hcompress content

/-- A finished archive has the tally in its header. -/
theorem Tally.finish (hcompress : Zlib.Inverts made.compress) (hw : Tally made ended n m w)
    (h : Writer.finish w = .ok out w') : ∃ p : Parts, p.bytes = out ∧ p.Overcounts n ∧
      p.header.recordCompression = made.recordCompression ∧ p.header.records = m := by
  obtain ⟨hfinish, hout, hdata, hnames, hnarrow⟩ := of_finish h
  obtain ⟨hclosed, ended', hv⟩ := hw.finishFile hfinish
  have hfilled : Filled w'.nameBlock w'.nameCompression w'.nameBlock.content :=
    ⟨hv.nameBlock_eq, rfl⟩
  have hlt : m < 2 ^ 32 := Nat.lt_succ_of_le (Nat.le_trans (hv.started_le hdata hnames) hnames)
  have hrecords : w'.records = m := hv.records_eq.trans (Nat.mod_eq_of_lt hlt)
  have hstarted : m = ended'.length + n := by
    rw [hv.started_eq, hclosed]
    rfl
  rw [← hv.compress_eq] at hcompress
  refine ⟨⟨w'.header, w'.dataBlock, w'.recordBlock.bytes w'.compress,
    w'.nameBlock.bytes w'.compress, w'.hashBlock⟩, hout.symm, ?_, hv.recordCompression_eq, hrecords⟩
  exact ⟨hnarrow (hrecords ▸ hlt), rfl, rfl, rfl,
    ⟨ended', hrecords.trans hstarted, hv.recordBlock.decodes hcompress, hv.dataBlock_eq,
      hv.hashBlock_eq⟩,
    ⟨w'.nameBlock.content, hfilled.decodes hcompress, (Block.size_eq _).symm⟩⟩

/-- The header counts the files that a run has lost, and all that it has started. -/
theorem overcounts_finish (hcompress : Zlib.Inverts compress)
    (h : Writer.finish (carryOn calls (Writer.make recordCompression nameCompression compress))
      = .ok out w') : ∃ p : Parts, p.bytes = out ∧
      p.Overcounts (lost calls (Writer.make recordCompression nameCompression compress)) ∧
      p.header.recordCompression = recordCompression ∧
      p.header.records
        = started calls (Writer.make recordCompression nameCompression compress) := by
  obtain ⟨ended, hw⟩ := (tally_make compress recordCompression nameCompression).carryOn calls
  rw [Nat.zero_add, Nat.zero_add] at hw
  exact hw.finish hcompress h

/-- **Where the header of a finished archive is wrong.** Whatever calls were made, and whichever of
them failed, the header counts the files that were started, those that were lost among them; it has
the size of records that are not compressed from that number, in 32 bits; and all else in it is
right. So the archive is consistent exactly if no file was lost and the size of the records fits. -/
theorem isConsistent_finish_iff (hcompress : Zlib.Inverts compress)
    (h : Writer.finish (carryOn calls (Writer.make recordCompression nameCompression compress))
      = .ok out w') :
    (∃ p : Parts, p.bytes = out ∧
      p.Overcounts (lost calls (Writer.make recordCompression nameCompression compress)) ∧
      p.header.recordCompression = recordCompression ∧
      p.header.records
        = started calls (Writer.make recordCompression nameCompression compress)) ∧
    (IsConsistent out ↔
      lost calls (Writer.make recordCompression nameCompression compress) = 0 ∧
      (recordCompression = .none →
        started calls (Writer.make recordCompression nameCompression compress) * recordSize
          < 2 ^ 32)) := by
  obtain ⟨p, rfl, hp, hcompression, hrecords⟩ := overcounts_finish hcompress h
  refine ⟨⟨p, rfl, hp, hcompression, hrecords⟩, ?_⟩
  rw [hp.isConsistent_iff, hcompression, hrecords]

end

/-- Calls of which the first fails: two files, written behind a write without a file. -/
def refusedCalls : List Call :=
  [.write [0x68], .start "a" .none, .write [0x68], .write [0x69], .start "b" .none, .write [0x21]]

/-- A write without a file is refused, and the archive that comes out is consistent. -/
theorem isConsistent_finish_refused : ∃ out w',
    (Call.write [0x68]).perform (Writer.make .none .none)
        = .error (.read .noFileStarted) (Writer.make .none .none) ∧
      Writer.finish (carryOn refusedCalls (Writer.make .none .none)) = .ok out w' ∧
      IsConsistent out := by
  obtain ⟨out, w', hfinish⟩ : ∃ out w',
      Writer.finish (carryOn refusedCalls (Writer.make .none .none)) = .ok out w' := ⟨_, _, rfl⟩
  exact ⟨out, w', rfl, hfinish,
    (isConsistent_finish_iff Zlib.inverts_compress hfinish).2.mpr ⟨rfl, fun _ => by decide⟩⟩

/-- A content of more than 32 bits of length is lost, and the archive that comes out is not
consistent. -/
theorem inconsistent_of_large {data : Bytes} (hdata : Word.max32 < data.length) : ∃ out w',
    Writer.finish (carryOn [.start "a" .none, .write data, .start "b" .none]
      (Writer.make .none .none)) = .ok out w' ∧ ¬ IsConsistent out := by
  obtain ⟨v, hstart, hcurrent, hfinish⟩ : ∃ v,
      (Call.start "a" .none).pass (Writer.make .none .none) = v ∧
        v.current = some ⟨false, []⟩ ∧
        ∀ record, ∃ out w', Writer.finish { v with current := none, record } = .ok out w' :=
    ⟨_, rfl, rfl, fun _ => ⟨_, _, rfl⟩⟩
  have hwrite : (Call.write data).pass v = { v with current := some ⟨false, [data]⟩ } :=
    Call.pass_of_ok (c := .write data) (write_of_some data hcurrent)
  obtain ⟨record, hlose⟩ := pass_of_isOversized (w := { v with current := some ⟨false, [data]⟩ })
    "b" .none rfl (.inl hdata)
  obtain ⟨out, w', hout⟩ := hfinish record
  have hrun : carryOn [.start "a" .none, .write data, .start "b" .none] (Writer.make .none .none)
      = { v with current := none, record } := by
    rw [carryOn, hstart, carryOn, hwrite, carryOn, hlose, carryOn]
  have hlost : lost [.start "a" .none, .write data, .start "b" .none] (Writer.make .none .none)
      = 1 := by
    rw [lost, hstart, lost, hwrite, lost, Call.loses, Call.loses, Call.loses, hstart, hwrite, hlose]
    simp [lost, Writer.isWriting, Writer.make]
  rw [← hrun] at hout
  obtain ⟨p, rfl, hp, -⟩ := overcounts_finish Zlib.inverts_compress hout
  exact ⟨_, w', hout, fun h => Nat.one_ne_zero (hlost.symm.trans (hp.isConsistent_iff.mp h).1)⟩

/-- Four gigabytes in one file are too many. -/
theorem inconsistent_of_zeros : ∃ out w',
    Writer.finish (carryOn [.start "a" .none, .write (List.replicate (2 ^ 32) 0), .start "b" .none]
      (Writer.make .none .none)) = .ok out w' ∧ ¬ IsConsistent out :=
  inconsistent_of_large (by rw [List.length_replicate]; decide)

/-- The parts of a plan. -/
def Plan.parts (p : Plan) : Parts := ⟨p.header, p.data, p.recordBlock, p.nameBlock, p.hashes⟩

/-- No file of a plan is lost. -/
theorem Plan.overcounts_parts {p : Plan} (hcompress : Zlib.Inverts p.compress) (hp : p.IsNarrow) :
    p.parts.Overcounts 0 := by
  have hfiles : p.placed.map Placed.file = p.files := map_file_place _ _ _ _
  refine ⟨hp.header, rfl, rfl, rfl,
    ⟨p.placed.map fun q => (q.record p.compress, q.file.stored p.compress), ?_, ?_, ?_, ?_⟩,
    ⟨p.names, Compression.undo_codec hcompress p.nameCompression p.names, rfl⟩⟩
  · rw [List.length_map, ← List.length_map Placed.file, hfiles]
    rfl
  · rw [List.flatMap_map, ← List.flatMap_map (Placed.record p.compress) Record.bytes]
    exact Compression.undo_codec hcompress p.recordCompression _
  · show p.data = _
    rw [Plan.data, ← hfiles, List.flatMap_map, List.flatMap_map]
  · show p.hashes = _
    rw [Plan.hashes, ← hfiles, List.flatMap_map, List.flatMap_map]

/-- No call fails and no file is lost, and the archive is not consistent: so many records are more
than 32 bits can say the size of. -/
theorem inconsistent_of_blanks {n : ℕ} (hlarge : 2 ^ 32 ≤ n * recordSize) (h : n ≤ Word.max32) :
    ∃ out w, writeArchive (List.replicate n blank) (Writer.make .none .none) = .ok out w ∧
      ¬ IsConsistent out := by
  obtain ⟨out, w, hwrite⟩ := exists_writeArchive_blanks h
  obtain ⟨rfl, hp⟩ := of_writeArchive hwrite
  refine ⟨_, w, hwrite, fun hconsistent => ?_⟩
  have hover := Plan.overcounts_parts Zlib.inverts_compress hp
  have hfits : (List.replicate n blank).length * recordSize < 2 ^ 32 :=
    (hover.isConsistent_iff.mp hconsistent).2 rfl
  rw [List.length_replicate] at hfits
  exact Nat.not_lt.mpr hlarge hfits

end Packfile.Tre
