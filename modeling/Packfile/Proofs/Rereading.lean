import Packfile.Proofs.StorageFailures
import Packfile.Proofs.TreRoundTrip

/-!
# Reading an archive that has been used

All entries of an archive share one stream. Opening an entry moves it, reading a content moves it
on, a content that is dropped in the middle leaves it in the middle, an encoder leaves it behind
whatever it has copied last, and a caller may move it by hand and change its byte order. No later
reading can notice any of this: it goes to its own place, and it reads bytes, not integers.

## What a reading depends on

A reading depends on the entries and on the *storage* of the stream, that is on the bytes and on
where they fail. The position and the byte order are not part of it. Archives that have the same
storage and the same entries are `Alike`, and the argument has two halves: alike archives read alike,
and an operation leaves an archive that is alike. The second half is the invariant of a history, and
the induction over the history is on the list of its operations.

## Main definitions

* `Stream.storage`, `Archive.Alike` — what a reading depends on
* `Archive.Operation`, `Archive.perform` — what can be done with an archive

## Main results

* `Archive.Alike.readEntry_eq`, `Archive.Alike.openNamed_eq` — alike archives read alike
* `Archive.alike_perform` — an operation leaves the archive alike
* `Archive.read_after_history` — reading does not depend on what has been done before
-/

namespace Packfile

open Run Reading

/-! ### Storage -/

namespace Stream

variable {s t : Stream}

/-- The bytes of a stream and where they fail: everything but the position and the byte order. -/
def storage (s : Stream) : Bytes × Option ℕ := (s.bytes, s.failAt)

/-- The streams are over one storage. -/
def SameStorage (s t : Stream) : Prop := t.storage = s.storage

/-- The streams are over one storage, and stand at one position. -/
def SamePlace (s t : Stream) : Prop := s.SameStorage t ∧ t.position = s.position

theorem SameStorage.length_eq (h : s.SameStorage t) : s.length = t.length :=
  congrArg (fun storage => storage.1.length) h.symm

/-- Streams over one storage yield the same from one place. -/
theorem SamePlace.ofStream_eq (h : s.SamePlace t) (size : ℕ) :
    Feed.ofStream t size = Feed.ofStream s size := by
  obtain ⟨bytes, position, order, failAt⟩ := s
  obtain ⟨bytes', position', order', failAt'⟩ := t
  obtain ⟨hstorage, hposition⟩ := h
  cases hstorage
  cases hposition
  rfl

end Stream

namespace Reading

variable {α : Type} {s t : Stream}

/-- What keeps everything but the position keeps the storage. -/
theorem keeps_storage {body : Reader α} (h : Keeps Stream.source body) :
    Keeps Stream.storage body :=
  fun s => congrArg (fun source : Bytes × ByteOrder × Option ℕ => (source.1, source.2.2)) (h s)

theorem keeps_openHere (e : Entry) : Keeps Stream.source (Reader.openHere e) := by
  refine (keeps_checkRange _ _ _).bind fun _ => (keeps_seek _).bind fun _ => fun s => ?_
  unfold after
  dsimp only
  cases ContentReader.make (Feed.ofStream s e.stored) e.decoded e.codec <;> rfl

/-- Runs over one storage have to agree, and to leave streams over one storage. -/
def oneStorage : Tolerance Error Stream where
  loose := Stream.SameStorage
  excuses _ := False

/-- An entry is opened as the same, from wherever the stream was left. -/
theorem coupled_openHere (e : Entry) :
    Coupled oneStorage Stream.SameStorage Stream.SamePlace (Reader.openHere e) := by
  have hlength : Coupled oneStorage Stream.SameStorage Stream.SameStorage Reader.length :=
    coupled_query fun _ _ h => h.length_eq
  have hcheck : Coupled oneStorage Stream.SameStorage Stream.SameStorage
      (Reader.checkRange "entry" e.offset e.stored) :=
    hlength.bind fun _ => (coupled_throw (fun _ _ h => h) _).ite (coupled_pure _)
  have hseek : Coupled oneStorage Stream.SameStorage Stream.SamePlace (Reader.seek e.offset) :=
    hlength.bind fun _ => Coupled.guard (fun _ _ h => h) fun _ _ h => .inl (.ok ⟨h, rfl⟩)
  refine hcheck.bind fun _ => hseek.bind fun _ => fun s t h => .inl ?_
  rw [h.ofStream_eq]
  cases ContentReader.make (Feed.ofStream s e.stored) e.decoded e.codec with
  | error e => exact .error h.1
  | ok r => exact .ok h

theorem openHere_of_storage (h : s.SameStorage t) (e : Entry) :
    (Reader.outcome (Reader.openHere e) t).1 = (Reader.outcome (Reader.openHere e) s).1 := by
  unfold Reader.outcome
  have hagree := (coupled_openHere e).agree (fun _ hexcused => hexcused) h
  generalize Reader.openHere e s = r at hagree
  generalize Reader.openHere e t = r' at hagree
  cases hagree <;> rfl

end Reading

/-! ### Encoders -/

namespace Reading

theorem keeps_preserve (start size : ℕ) : Keeps Stream.source (Reader.preserve start size) := by
  have hpreserved : Keeps Stream.source (Reader.preserved start size) := by
    intro s
    unfold after Reader.preserved
    dsimp only
    split_ifs <;> rfl
  refine hpreserved.bind fun result => ?_
  obtain ⟨found, failure⟩ := result
  cases failure with
  | none => exact keeps_pure _
  | some e => exact keeps_throw _

theorem keeps_copiedBytes (e : EditedEntry) : Keeps Stream.source (Xarc.contentBytes e) := by
  rw [Xarc.contentBytes]
  cases e.content with
  | replaced bytes => exact keeps_pure _
  | kept => exact (keeps_preserve _ _).ite (Tre.keeps_contentBytes e)

theorem keeps_dataBlock (position : ℕ) (edits : List EditedEntry) :
    Keeps Stream.source (Xarc.dataBlock position edits) := by
  induction edits generalizing position with
  | nil => exact keeps_pure _
  | cons e edits ih =>
    exact (keeps_copiedBytes e).bind fun _ => (ih _).bind fun _ => keeps_pure _

theorem keeps_contents (edits : List EditedEntry) : Keeps Stream.source (Ofs.contents edits) := by
  induction edits with
  | nil => exact keeps_pure _
  | cons e edits ih =>
    exact (Tre.keeps_contentBytes e).bind fun _ => ih.bind fun _ => keeps_pure _

theorem keeps_writeEntries (edits : List EditedEntry) (w : Tre.Writer) :
    Keeps Stream.source (Tre.writeEntries edits w) := by
  induction edits generalizing w with
  | nil => exact keeps_pure _
  | cons e edits ih =>
    refine (Tre.keeps_contentBytes e).bind fun content => (keeps_liftExcept _).bind fun name => ?_
    dsimp only
    split
    · exact ih _
    · exact keeps_throw _

end Reading

/-- Writing an archive moves the stream of the one that is open, and does nothing else to it. -/
theorem Format.keeps_encode {format : Format} (h : format ∈ Registry.standard.formats)
    {encode : List EditedEntry → Reader Bytes} (hencode : format.encode = some encode)
    (edits : List EditedEntry) : Keeps Stream.source (encode edits) := by
  simp only [Registry.standard, List.mem_cons, List.not_mem_nil, or_false] at h
  rcases h with rfl | rfl | rfl | rfl | rfl | rfl | rfl | rfl
  · cases hencode
    exact (keeps_liftExcept _).bind fun _ => (keeps_liftExcept _).bind fun _ =>
      (keeps_dataBlock _ _).bind fun _ => (keeps_liftExcept _).bind fun _ => keeps_pure _
  · cases hencode
    exact (keeps_contents _).bind fun _ => (keeps_liftExcept _).bind fun _ => keeps_pure _
  · cases hencode
  · cases hencode
    refine (keeps_seek _).bind fun _ => keeps_treHeader.bind fun _ => ?_
    refine (keeps_writeEntries _ _).bind fun w => ?_
    split
    · exact keeps_pure _
    · exact keeps_throw _
  all_goals cases hencode

/-! ### What can be done with an archive -/

/-- A use of a stream by hand. -/
inductive Stream.Move where
  /-- Goes to any position, also past the end. -/
  | jump (position : ℕ)
  /-- Goes to a position inside the stream. -/
  | seek (position : ℕ)
  /-- Goes on or back by a distance. -/
  | shift (distance : ℤ)
  /-- Goes on by a number of bytes. -/
  | skip (count : ℕ)
  /-- Reads bytes. -/
  | pull (count : ℕ)
  /-- Changes the byte order. -/
  | setOrder (order : ByteOrder)

/-- What the move does. -/
def Stream.Move.run : Stream.Move → Reader Unit
  | jump position => Reader.jump position
  | seek position => Reader.seek position
  | shift distance => Reader.shift distance
  | skip count => Reader.skip count
  | pull count => do let _ ← Reader.pull count
  | setOrder order => Reader.setOrder order

/-- A move may fail, and it moves the stream only. -/
theorem Stream.Move.keeps_run (move : Stream.Move) : Keeps Stream.storage move.run := by
  cases move with
  | jump position => exact fun _ => rfl
  | seek position => exact keeps_storage (keeps_seek position)
  | shift distance =>
    refine keeps_storage (keeps_offset.bind fun current => ?_)
    split
    · exact keeps_length.bind fun _ => keeps_throw _
    · exact keeps_seek _
  | skip count => exact keeps_storage (keeps_skip count)
  | pull count =>
    have hpull : Keeps Stream.storage (Reader.pull count) := by
      intro s
      unfold after Reader.pull
      split_ifs <;> rfl
    exact hpull.bind fun _ => keeps_pure _
  | setOrder order => exact fun _ => rfl

namespace Archive

/-- Something that is done with an archive. Whether it succeeds does not matter. -/
inductive Operation where
  /-- An entry is opened, read in pieces of some sizes, and dropped. -/
  | readPart (index : ℕ) (sizes : List ℕ)
  /-- The same for the entry of a name. -/
  | readNamedPart (name : String) (sizes : List ℕ)
  /-- An entry is read as a whole. -/
  | readEntry (index : ℕ)
  /-- The stream is used by hand. -/
  | move (move : Stream.Move)
  /-- The archive is written anew. -/
  | encode (edits : List EditedEntry)

/-- The archive after the content of an entry that has been opened is read in pieces of some sizes,
and dropped. -/
def afterPart (sizes : List ℕ) : Except Error (Entry × ContentReader) × Archive → Archive
  | (.error _, a) => a
  | (.ok (e, r), a) => a.afterReading e (r.remaining - (r.readSizes sizes).2.remaining)

/-- The archive after an operation. -/
def perform (files : FileTree) (a : Archive) : Operation → Archive
  | .readPart index sizes => afterPart sizes (a.openEntry files index)
  | .readNamedPart name sizes => afterPart sizes (a.openNamed files name)
  | .readEntry index => (a.readEntry files index).2
  | .move move => (a.run move.run).2
  | .encode edits => (Registry.standard.encode a edits).2

/-- The archives have the same entries, in streams over one storage. -/
structure Alike (a b : Archive) : Prop where
  /-- The format. -/
  format_eq : b.format = a.format
  /-- The entries. -/
  entries_eq : b.entries = a.entries
  /-- The storage. -/
  storage_eq : a.stream.SameStorage b.stream

variable {a b c : Archive} {files : FileTree} {α : Type}

theorem alike_refl (a : Archive) : a.Alike a := ⟨rfl, rfl, rfl⟩

theorem Alike.trans (hab : a.Alike b) (hbc : b.Alike c) : a.Alike c :=
  ⟨hbc.format_eq.trans hab.format_eq, hbc.entries_eq.trans hab.entries_eq,
    hbc.storage_eq.trans hab.storage_eq⟩

/-! ### Alike archives read alike -/

theorem fst_openEntry (a : Archive) (files : FileTree) (index : ℕ) :
    (a.openEntry files index).1 = match a.entries[index]? with
      | none => .error (.noEntryAt index)
      | some e => (a.openContent files e).1.map fun r => (e, r) := by
  rw [openEntry]
  cases a.entries[index]? with
  | none => rfl
  | some e =>
    dsimp only
    obtain ⟨result, b⟩ := a.openContent files e
    cases result <;> rfl

theorem fst_readEntry (a : Archive) (files : FileTree) (index : ℕ) :
    (a.readEntry files index).1
      = (a.openEntry files index).1.bind fun opened => opened.2.readAll := by
  rw [readEntry]
  obtain ⟨result, b⟩ := a.openEntry files index
  cases result <;> rfl

theorem Alike.openContent_eq (h : a.Alike b) (files : FileTree) (e : Entry) :
    (b.openContent files e).1 = (a.openContent files e).1 := by
  rw [openContent, openContent]
  split
  · exact openHere_of_storage h.storage_eq e
  · rfl

theorem Alike.openEntry_eq (h : a.Alike b) (files : FileTree) (index : ℕ) :
    (b.openEntry files index).1 = (a.openEntry files index).1 := by
  rw [fst_openEntry, fst_openEntry, h.entries_eq]
  cases a.entries[index]? with
  | none => rfl
  | some e =>
    dsimp only
    rw [h.openContent_eq]

theorem Alike.readEntry_eq (h : a.Alike b) (files : FileTree) (index : ℕ) :
    (b.readEntry files index).1 = (a.readEntry files index).1 := by
  rw [fst_readEntry, fst_readEntry, h.openEntry_eq]

/-! ### Operations leave an archive alike -/

theorem alike_of_storage {s : Stream} (h : a.stream.SameStorage s) :
    a.Alike { a with stream := s } :=
  ⟨rfl, rfl, h⟩

/-- A reader that keeps the storage of its stream leaves the archive alike. -/
theorem alike_run {body : Reader α} (h : Keeps Stream.storage body) (a : Archive) :
    a.Alike (a.run body).2 := by
  have hafter : (Reader.outcome body a.stream).2 = after body a.stream := by
    unfold Reader.outcome after
    cases body a.stream <;> rfl
  show a.Alike { a with stream := (Reader.outcome body a.stream).2 }
  rw [hafter]
  exact alike_of_storage (h a.stream)

theorem alike_openEntry (a : Archive) (files : FileTree) (index : ℕ) :
    a.Alike (a.openEntry files index).2 := by
  have hcontent : ∀ e, a.Alike (a.openContent files e).2 := by
    intro e
    rw [openContent]
    split
    · exact alike_run (keeps_storage (keeps_openHere e)) a
    · exact a.alike_refl
  rw [openEntry]
  cases a.entries[index]? with
  | none => exact a.alike_refl
  | some e =>
    have he := hcontent e
    dsimp only
    generalize a.openContent files e = opened at he
    obtain ⟨result, b⟩ := opened
    cases result <;> exact he

theorem alike_openNamed (a : Archive) (files : FileTree) (name : String) :
    a.Alike (a.openNamed files name).2 := by
  rw [openNamed]
  split
  · exact a.alike_refl
  · exact a.alike_openEntry files _

theorem alike_afterReading (a : Archive) (e : Entry) (taken : ℕ) :
    a.Alike (a.afterReading e taken) := by
  rw [afterReading]
  split
  · exact alike_of_storage rfl
  · exact a.alike_refl

theorem alike_readEntry (a : Archive) (files : FileTree) (index : ℕ) :
    a.Alike (a.readEntry files index).2 := by
  have hopen := a.alike_openEntry files index
  rw [readEntry]
  generalize a.openEntry files index = opened at hopen
  obtain ⟨result | ⟨e, r⟩, b⟩ := opened
  · exact hopen
  · exact hopen.trans (b.alike_afterReading e _)

theorem alike_afterPart (sizes : List ℕ) {opened : Except Error (Entry × ContentReader) × Archive}
    (h : a.Alike opened.2) : a.Alike (afterPart sizes opened) := by
  obtain ⟨result | ⟨e, r⟩, b⟩ := opened
  · exact h
  · exact h.trans (b.alike_afterReading e _)

theorem alike_encode (a : Archive) (edits : List EditedEntry) :
    a.Alike (Registry.standard.encode a edits).2 := by
  rw [Registry.encode]
  split
  · exact a.alike_refl
  · next encode hfound =>
    obtain ⟨format, hformat, hencode⟩ := Option.bind_eq_some_iff.mp hfound
    have hmem : format ∈ Registry.standard.formats := List.mem_of_find?_eq_some hformat
    exact alike_run (keeps_storage (Format.keeps_encode hmem hencode edits)) a

/-- **An operation leaves the archive alike**, whether it succeeds or not. -/
theorem alike_perform (files : FileTree) (a : Archive) (operation : Operation) :
    a.Alike (a.perform files operation) := by
  cases operation with
  | readPart index sizes => exact alike_afterPart sizes (a.alike_openEntry files index)
  | readNamedPart name sizes => exact alike_afterPart sizes (a.alike_openNamed files name)
  | readEntry index => exact a.alike_readEntry files index
  | move move => exact alike_run move.keeps_run a
  | encode edits => exact a.alike_encode edits

theorem alike_foldl_perform (files : FileTree) (a : Archive) (history : List Operation) :
    a.Alike (history.foldl (perform files) a) := by
  induction history generalizing a with
  | nil => exact a.alike_refl
  | cons operation history ih => exact (a.alike_perform files operation).trans (ih _)

/-! ### Names -/

/-- The entry at the index has the name, and no entry before it has. -/
structure IsFirstNamed (a : Archive) (name : String) (index : ℕ) : Prop where
  /-- The entry has the name. -/
  named : ∃ e, a.entries[index]? = some e ∧ e.name = some name
  /-- Those before it have not. -/
  first : ∀ j < index, ∀ e, a.entries[j]? = some e → e.name ≠ some name

theorem IsFirstNamed.indexOf?_eq {name : String} {index : ℕ} (h : a.IsFirstNamed name index) :
    a.indexOf? name = some index := by
  obtain ⟨e, hget, hname⟩ := h.named
  obtain ⟨hlt, rfl⟩ := List.getElem?_eq_some_iff.mp hget
  refine List.findIdx?_eq_some_iff_getElem.mpr ⟨hlt, by simp [hname], fun j hj => ?_⟩
  have hne := h.first j hj _ (List.getElem?_eq_getElem (by omega))
  simpa using hne

theorem indexOf?_eq_none {name : String} (h : ∀ e ∈ a.entries, e.name ≠ some name) :
    a.indexOf? name = none := by
  refine List.findIdx?_eq_none_iff.mpr fun e he => ?_
  simpa using h e he

/-- **Reading does not depend on what has been done before.** Whatever has been done with an
archive, the entry at an index reads as it did when the archive was fresh, to the same content or
the same error, and a name opens the first entry that is called so, or none. Whoever has the archive
may have opened, read in part and dropped any entries, looked for entries that are not there, moved
the stream, changed its byte order and written other archives from it. -/
theorem read_after_history (files : FileTree) (fresh : Archive) (history : List Operation) :
    let used := history.foldl (perform files) fresh
    (∀ index, (used.readEntry files index).1 = (fresh.readEntry files index).1) ∧
    ∀ name,
      (∀ index, fresh.IsFirstNamed name index →
        (used.openNamed files name).1 = (fresh.openEntry files index).1) ∧
      ((∀ e ∈ fresh.entries, e.name ≠ some name) →
        (used.openNamed files name).1 = .error (.noEntryNamed name)) := by
  intro used
  have halike : fresh.Alike used := fresh.alike_foldl_perform files history
  refine ⟨halike.readEntry_eq files, fun name => ⟨fun index h => ?_, fun h => ?_⟩⟩
  · have hindex : used.indexOf? name = some index := by
      rw [indexOf?, halike.entries_eq]
      exact h.indexOf?_eq
    rw [openNamed, hindex]
    exact halike.openEntry_eq files index
  · have hindex : used.indexOf? name = none := by
      rw [indexOf?, halike.entries_eq]
      exact indexOf?_eq_none h
    rw [openNamed, hindex]

/-- Two entries of one name. The second is enciphered. -/
def twins : Archive where
  format := "ofs"
  stream := .ofBytes [0x68, 0x69, 0x20, 0x22]
  entries :=
    [{ source := .memory 4, name := some "a", offset := 0, stored := 2 },
      { source := .memory 4, name := some "a", offset := 2, stored := 2, codec := [.xor [1]] }]

/-- The second entry is dropped in the middle, two are looked for in vain, the stream is left behind
its end in the other byte order, and an archive is written. -/
def twinsHistory : List Operation :=
  [.readPart 1 [1], .readPart 2 [], .readNamedPart "b" [3], .move (.setOrder .big),
    .encode (twins.entries.map EditedEntry.keep), .move (.jump 9)]

/-- After all this the second entry reads as ever, and the name of both still means the first. -/
theorem read_after_history_twins :
    ((twinsHistory.foldl (perform .empty) twins).readEntry .empty 1).1 = .ok [0x21, 0x23] ∧
    twins.IsFirstNamed "a" 0 ∧
      ((twinsHistory.foldl (perform .empty) twins).openNamed .empty "a").1
        = (twins.openEntry .empty 0).1 ∧
    (∀ e ∈ twins.entries, e.name ≠ some "b") ∧
      ((twinsHistory.foldl (perform .empty) twins).openNamed .empty "b").1
        = .error (.noEntryNamed "b") := by
  have hread := read_after_history .empty twins twinsHistory
  have hfirst : twins.IsFirstNamed "a" 0 :=
    ⟨⟨_, rfl, rfl⟩, fun j hj => absurd hj (Nat.not_lt_zero j)⟩
  have hnone : ∀ e ∈ twins.entries, e.name ≠ some "b" := by decide
  refine ⟨(hread.1 1).trans (by decide +kernel), hfirst, (hread.2 "a").1 0 hfirst, hnone, ?_⟩
  exact (hread.2 "b").2 hnone

end Archive

end Packfile
