import Packfile.Format.Rpak
import Packfile.Proofs.BlockRoundTrip
import Packfile.Proofs.Decoders
import Packfile.Proofs.Fields

/-!
# RPAK archives, laid out and read

The directory of an archive is enciphered, and each of its slots says how the data of a file were
made: by compressing, by an exclusive or after that, by both or by neither. A directory that is laid
out is read as the slots that are in use, in their order, and the data of each are read as its
content. A stream with a header or a slot that does not fit is not read at all.

## Slots that are not in use

A slot whose name starts with a zero is passed over before anything else in it is looked at, so its
other bytes may be any, and what they say is no defect.

## Main definitions

* `Rpak.File`, `Rpak.Cell`, `Rpak.Layout` — a file, a slot, and a directory of them
* `Rpak.Layout.IsIn` — the directory and the data are in a stream
* `Rpak.Defect` — what may be wrong with a stream

## Main results

* `Rpak.readDirectory_of_isIn`, `Rpak.contentIn_of_isIn` — what is laid out is read
* `Rpak.not_defect_of_readDirectory` — a stream that is read has no defect
* `Rpak.readDirectory_inverts_slots` — both
-/

namespace Packfile.Rpak

open Run Reading

variable {source : Location} {order : ByteOrder} {s t : Stream} {x y : Session} {rest : Bytes}
  {compressors : Compressors}

/-! ### The layout -/

/-- A file: what its slot says, the block that is stored for it, and its content. -/
structure File where
  name : String
  flags : ℕ
  offset : ℕ
  block : Bytes
  content : Bytes
  deriving DecidableEq, Repr

/-- The slot of a file. -/
def File.bytes (order : ByteOrder) (f : File) : Bytes :=
  Names.padded nameSize f.name ++ (order.encode 4 f.offset ++ (order.encode 4 f.block.length
    ++ (order.encode 4 f.content.length ++ order.encode 4 f.flags)))

/-- The entry of a file. -/
def File.entry (source : Location) (f : File) : Entry :=
  { source, name := some f.name, offset := f.offset, stored := f.block.length,
    decoded := f.content.length, codec := codecOf f.flags,
    properties := [("flags", .int f.flags)] }

/-- A slot: bytes that are not in use, or a file. -/
inductive Cell where
  | unused (bytes : Bytes)
  | file (file : File)
  deriving DecidableEq, Repr

/-- The bytes of a slot. -/
def Cell.bytes (order : ByteOrder) : Cell → Bytes
  | unused bytes => bytes
  | file f => f.bytes order

/-- The file of a slot that is in use. -/
def Cell.file? : Cell → Option File
  | unused _ => none
  | file f => some f

/-- A directory: its slots, and the block that is stored for them. -/
structure Layout where
  cells : List Cell
  block : Bytes
  deriving DecidableEq, Repr

/-- The files of a directory, in the order of their slots. -/
def Layout.files (layout : Layout) : List File := layout.cells.filterMap Cell.file?

/-- The directory of a layout, deciphered. -/
def Layout.slots (layout : Layout) (order : ByteOrder) : Bytes :=
  layout.cells.flatMap (Cell.bytes order)

/-- What stands in front of a directory of `count` slots. -/
def headerBytes (order : ByteOrder) (count : ℕ) : Bytes :=
  magic ++ (order.encode 4 version ++ (order.encode 4 count ++ order.encode 4 (slotSize * count)))

/-- A file has a name that fits into its slot, known flags, and numbers that fit into 32 bits; and
the block that these flags make of its content is in the stream. -/
structure File.IsIn (f : File) (compressors : Compressors) (s : Stream) : Prop where
  name_ne : f.name ≠ ""
  plain : Utf8.IsPlain f.name
  name_le : (Utf8.encode f.name).length ≤ nameSize
  flags_lt : f.flags < 4
  offset_lt : f.offset < 2 ^ 32
  stored_lt : f.block.length < 2 ^ 32
  decoded_lt : f.content.length < 2 ^ 32
  encode_eq : (codecOf f.flags).encode f.content compressors = .ok f.block
  block : f.block <+: s.bytes.drop f.offset
  stop_le : f.offset + f.block.length ≤ s.length

/-- A slot that is not in use has a zero in the place of a name, and any bytes behind it. -/
def Cell.IsIn (compressors : Compressors) (s : Stream) : Cell → Prop
  | unused bytes => bytes.length = slotSize ∧ [0] <+: bytes
  | file f => f.IsIn compressors s

/-- The directory is laid out in a stream, on storage that does not fail: enciphered and behind its
header, with the data of its files in any places. -/
structure Layout.IsIn (layout : Layout) (compressors : Compressors) (s : Stream) : Prop where
  healthy : s.failAt = none
  size_lt : slotSize * layout.cells.length < 2 ^ 32
  encode_eq : Codec.encode [.rc4 directoryKey] (layout.slots s.order) compressors = .ok layout.block
  header : headerBytes s.order layout.cells.length ++ layout.block <+: s.bytes
  cells : ∀ cell ∈ layout.cells, cell.IsIn compressors s

/-! ### What is laid out is read -/

/-- The slot that a file is read as. -/
def File.slot (f : File) : Slot :=
  ⟨f.name, f.offset, f.block.length, f.content.length, f.flags⟩

theorem File.IsIn.length_bytes {f : File} (h : f.IsIn compressors s) :
    (f.bytes order).length = slotSize := by
  simp only [File.bytes, List.length_append, Names.length_padded h.name_le,
    ByteOrder.length_encode]
  rfl

theorem Cell.IsIn.length_bytes {cell : Cell} (h : cell.IsIn compressors s) :
    (cell.bytes order).length = slotSize := by
  cases cell with
  | unused bytes => exact h.1
  | file f => exact File.IsIn.length_bytes h

/-- The slot of a file is read. -/
theorem readSlot_of_file {f : File} (hin : f.IsIn compressors t)
    (h : s.ahead = f.bytes s.order ++ rest) : readSlot s = .ok f.slot (s.advance slotSize) := by
  simp only [File.bytes, List.append_assoc] at h
  have h₀ := ahead_of_padded hin.name_le h
  have h₁ := ahead_of_word h₀
  have h₂ := ahead_of_word h₁
  have h₃ := ahead_of_word h₂
  have hflags : f.flags < 2 ^ 32 := Nat.lt_trans hin.flags_lt (by decide)
  rw [readSlot, bind_of_ok (fixedString_of_padded hin.plain hin.name_le h),
    bind_of_ok (u32_of_append hin.offset_lt h₀), bind_of_ok (u32_of_append hin.stored_lt h₁),
    bind_of_ok (u32_of_append hin.decoded_lt h₂), bind_of_ok (u32_of_append hflags h₃)]
  rfl

/-- A slot that is not in use is read as one without a name, whatever else is in it. -/
theorem readSlot_of_unused {bytes : Bytes} (hlength : bytes.length = slotSize)
    (hzero : [0] <+: bytes) (h : s.ahead = bytes ++ rest) :
    ∃ slot, readSlot s = .ok slot (s.advance slotSize) ∧ slot.name = "" := by
  obtain ⟨others, rfl⟩ := hzero
  have hlong : slotSize ≤ s.ahead.length := by
    rw [h, List.length_append, hlength]
    exact Nat.le_add_right _ _
  have hname : Reader.fixedString nameSize s = .ok "" (s.advance nameSize) := by
    refine fixedString_eq_ok.mpr ⟨Nat.le_trans (by decide) hlong, ?_, rfl⟩
    rw [h]
    exact (Utf8.decode_eq_empty.mpr rfl).symm
  have hfield : ∀ k, k + 4 ≤ slotSize →
      ∃ n, Reader.u32 (s.advance k) = .ok n (s.advance (k + 4)) := by
    intro k hk
    refine ⟨_, u32_eq_ok.mpr ⟨?_, rfl, Stream.advance_advance.symm⟩⟩
    rw [Stream.ahead_advance, List.length_drop]
    omega
  obtain ⟨offset, hoffset⟩ := hfield 48 (by decide)
  obtain ⟨stored, hstored⟩ := hfield 52 (by decide)
  obtain ⟨decoded, hdecoded⟩ := hfield 56 (by decide)
  obtain ⟨flags, hflags⟩ := hfield 60 (by decide)
  refine ⟨⟨"", offset, stored, decoded, flags⟩, ?_, rfl⟩
  rw [readSlot, bind_of_ok hname]
  refine (bind_of_ok hoffset).trans ?_
  rw [bind_of_ok hstored, bind_of_ok hdecoded, bind_of_ok hflags]
  rfl

theorem File.IsIn.undo_block {f : File} (h : f.IsIn compressors s)
    (hcompress : compressors.Invert) :
    (codecOf f.flags).undo ⟨f.block, .finished⟩ = .ok ⟨f.content, .finished⟩ :=
  Codec.undo_encode hcompress h.encode_eq

/-- The slot of a file means its entry. -/
theorem action_slot {f : File} (h : f.IsIn compressors s) (hcompress : compressors.Invert)
    (source : Location) : f.slot.action source s.length = .ok (.entry (f.entry source)) := by
  have hname : f.slot.name.isEmpty = false := String.isEmpty_eq_false_iff.mpr h.name_ne
  have hknown : isKnown f.slot.flags = true := decide_eq_true h.flags_lt
  have hrange : Reader.inRange s.length f.slot.offset f.slot.stored = true := by
    have hmax := Word.max_eq
    have hoffset := h.offset_lt
    have hstored := h.stored_lt
    exact inRange_iff.mpr ⟨h.stop_le, by show f.offset + f.block.length ≤ _; omega⟩
  -- without a compression the block is as long as the content
  have hlengths : (!hasZlib f.slot.flags && f.slot.decoded != f.slot.stored) = false := by
    cases hzlib : hasZlib f.slot.flags with
    | true => rfl
    | false =>
      have hlength := (Codec.of_undo ((isCompressed_codecOf _).trans hzlib)
        (h.undo_block hcompress)).1
      simpa using (show f.slot.decoded = f.slot.stored from hlength)
  rw [Slot.action, hname, hknown, hlengths, hrange]
  rfl

/-- What a slot adds to the entries. -/
def Cell.action (source : Location) : Cell → RecordAction Entry
  | unused _ => .skip
  | file f => .entry (f.entry source)

/-- How a slot is read and understood. -/
def readCell (source : Location) (length : ℕ) : ℕ → Decode (RecordAction Entry) := fun _ => do
  let slot ← Decode.ofReader readSlot
  Decode.ofReader (Reader.ofExcept (slot.action source length))

/-- Every slot that is laid out is read and understood. -/
theorem readCell_of_ahead {cell : Cell} (h : cell.IsIn compressors s)
    (hcompress : compressors.Invert) (source : Location) (index : ℕ)
    (hx : x.stream.ahead = cell.bytes x.stream.order ++ rest) :
    cell.action source ≠ .finish ∧ readCell source s.length index x
      = .ok (cell.action source)
        { x with stream := x.stream.advance (cell.bytes x.stream.order).length } := by
  have hlength : (cell.bytes x.stream.order).length = slotSize := h.length_bytes
  rw [hlength]
  -- what is left to show of either kind is that its slot is read, and what that slot means
  have hread : ∀ (slot : Slot), readSlot x.stream = .ok slot (x.stream.advance slotSize) →
      slot.action source s.length = .ok (cell.action source) →
      readCell source s.length index x
        = .ok (cell.action source) { x with stream := x.stream.advance slotSize } := by
    intro slot hslot haction
    rw [readCell, bind_of_ok (ofReader_eq_ok.mpr ⟨_, hslot, rfl⟩)]
    exact ofReader_eq_ok.mpr ⟨_, ofExcept_eq_ok.mpr ⟨haction, rfl⟩, rfl⟩
  cases cell with
  | unused bytes =>
    obtain ⟨slot, hslot, hname⟩ := readSlot_of_unused h.1 h.2 hx
    refine ⟨by simp [Cell.action], hread slot hslot ?_⟩
    rw [Slot.action, hname]
    rfl
  | file f =>
    exact ⟨by simp [Cell.action], hread f.slot (readSlot_of_file h hx)
      (action_slot h hcompress source)⟩

/-- The slots of a directory add the entries of its files. -/
theorem filterMap_action (source : Location) (cells : List Cell) :
    (cells.map (Cell.action source)).filterMap RecordAction.value?
      = (cells.filterMap Cell.file?).map (File.entry source) := by
  induction cells with
  | nil => rfl
  | cons cell cells ih =>
    rw [List.map_cons, List.filterMap_cons, List.filterMap_cons, ih]
    cases cell <;> rfl

theorem File.IsIn.of_source {f : File} (h : f.IsIn compressors s) (hst : t.source = s.source) :
    f.IsIn compressors t := by
  have hbytes := Stream.bytes_of_source hst
  refine { h with block := ?_, stop_le := ?_ }
  · rw [hbytes]
    exact h.block
  · rw [Stream.length, hbytes]
    exact h.stop_le

theorem length_headerBytes (order : ByteOrder) (count : ℕ) :
    (headerBytes order count).length = headerSize := by
  simp only [headerBytes, List.length_append, ByteOrder.length_encode]
  rfl

namespace Layout.IsIn

variable {layout : Layout}

theorem of_source (h : layout.IsIn compressors s) (hst : t.source = s.source) :
    layout.IsIn compressors t := by
  have horder := Stream.order_of_source hst
  refine ⟨(Stream.failAt_of_source hst).trans h.healthy, h.size_lt, ?_, ?_, ?_⟩
  · rw [horder]
    exact h.encode_eq
  · rw [horder, Stream.bytes_of_source hst]
    exact h.header
  · intro cell hcell
    have hin := h.cells cell hcell
    cases cell with
    | unused bytes => exact hin
    | file f => exact File.IsIn.of_source hin hst

theorem length_slots (h : layout.IsIn compressors s) :
    (layout.slots s.order).length = slotSize * layout.cells.length :=
  Tables.length_flatMap_of_mem fun cell hcell => (h.cells cell hcell).length_bytes

/-- The directory as it is stored is as long as its slots. -/
theorem length_block (h : layout.IsIn compressors s) (hcompress : compressors.Invert) :
    layout.block.length = slotSize * layout.cells.length := by
  rw [← h.length_slots]
  exact (Codec.of_undo rfl (Codec.undo_encode hcompress h.encode_eq)).1.symm

theorem length_le (h : layout.IsIn compressors s) (hcompress : compressors.Invert) :
    headerSize + slotSize * layout.cells.length ≤ s.length := by
  have hlong := h.header.length_le
  rw [List.length_append, length_headerBytes, h.length_block hcompress] at hlong
  exact hlong

/-- The directory is deciphered. -/
theorem exists_openDirectory (h : layout.IsIn compressors s) (hcompress : compressors.Invert) :
    ∃ t, Reader.openDirectory headerSize (slotSize * layout.cells.length)
        (slotSize * layout.cells.length) [.rc4 directoryKey] s
      = .ok { bytes := layout.slots s.order, order := s.order } t ∧ t.source = s.source := by
  have hmax := Word.max_eq
  have hsize := h.size_lt
  have hblock := h.length_block hcompress
  have hstop := h.length_le hcompress
  rw [← hblock] at hsize hstop
  obtain ⟨rest, hbytes⟩ := h.header
  have hdrop : s.bytes.drop headerSize = layout.block ++ rest := by
    rw [← hbytes, List.append_assoc, List.drop_left' (length_headerBytes _ _)]
  have hfail : ∀ limit ∈ s.failAt, headerSize + layout.block.length ≤ limit := by
    intro limit hlimit
    rw [h.healthy] at hlimit
    cases hlimit
  have hopen := Reading.exists_openDirectory hdrop hstop (by rw [headerSize]; omega) hfail
    (Codec.undo_encode hcompress h.encode_eq)
  rwa [hblock, h.length_slots] at hopen

/-- The slots of the directory are read. -/
theorem exists_readTable (h : layout.IsIn compressors x.stream) (hcompress : compressors.Invert)
    (source : Location) :
    ∃ y t, Decode.onStream { bytes := layout.slots x.stream.order, order := x.stream.order }
        (Decode.readTable ⟨layout.cells.length⟩ (readCell source x.stream.length)) x
      = .ok (layout.files.map (File.entry source), t) y ∧ y.input = x.input := by
  let directory : Stream := { bytes := layout.slots x.stream.order, order := x.stream.order }
  have hread : ∀ cell ∈ layout.cells, ∀ (index : ℕ) (z : Session) (rest : Bytes),
      z.stream.source = directory.source → z.stream.ahead = cell.bytes x.stream.order ++ rest →
        cell.action source ≠ .finish ∧ readCell source x.stream.length index z
          = .ok (cell.action source)
            { z with stream := z.stream.advance (cell.bytes x.stream.order).length } := by
    intro cell hcell index z rest hz hahead
    have horder : z.stream.order = x.stream.order :=
      Stream.order_of_source (s := directory) hz
    rw [← horder] at hahead ⊢
    exact readCell_of_ahead (h.cells cell hcell) hcompress source index hahead
  obtain ⟨y, hy, -, hquiet, -⟩ := Tables.readRecords_of_ahead (x := { x with stream := directory })
    (Cell.bytes x.stream.order) (readCell source x.stream.length) (Cell.action source) hread
    (List.append_nil _).symm
  rw [filterMap_action] at hy
  exact ⟨_, _, onStream_eq_ok.mpr ⟨y, hy, rfl, rfl⟩,
    Session.input_of_quiet (Session.quiet_of_onStream hquiet rfl)⟩

/-- The header is read. -/
theorem header_eq_ok (h : layout.IsIn compressors s) (hcompress : compressors.Invert)
    (hstart : s.position = 0) :
    Reader.skip magic.length s = .ok () { s with position := 4 } ∧
      Reader.u32 { s with position := 4 } = .ok version { s with position := 8 } ∧
      Reader.u32 { s with position := 8 } = .ok layout.cells.length { s with position := 12 } ∧
      Reader.u32 { s with position := 12 }
        = .ok (slotSize * layout.cells.length) { s with position := 16 } := by
  have hsize := h.size_lt
  have hlong := h.length_le hcompress
  obtain ⟨rest, hbytes⟩ := h.header
  simp only [headerBytes, List.append_assoc] at hbytes
  let place (position : ℕ) : Stream := { s with position }
  have h₀ : (place 4).ahead = s.bytes.drop magic.length := Stream.ahead_goto h.healthy 4
  rw [← hbytes, List.drop_left] at h₀
  have h₁ := ahead_of_word h₀
  have h₂ := ahead_of_word h₁
  refine ⟨(skip_start_eq_ok hstart (by decide)).mpr ⟨?_, rfl⟩, u32_of_append (by decide) h₀,
    u32_of_append (by rw [slotSize] at hsize; omega) h₁, u32_of_append hsize h₂⟩
  exact Nat.le_trans (by decide) (Nat.le_trans (Nat.le_add_right _ _) hlong)

end Layout.IsIn

/-- The decoder finds the files of a directory that is laid out. -/
theorem exists_decode {layout : Layout} (source : Location) (h : layout.IsIn compressors x.stream)
    (hcompress : compressors.Invert) (hstart : x.stream.position = 0)
    (hallowed : layout.cells.length ≤ x.context.options.maxEntries) :
    ∃ y, decode source x = .ok (layout.files.map (File.entry source)) y ∧ y.input = x.input := by
  have hmax := Word.max_eq
  have hsize := h.size_lt
  have hlong := h.length_le hcompress
  obtain ⟨hskip, hversion, hcount, hdeclared⟩ := h.header_eq_ok hcompress hstart
  let place (position : ℕ) : Stream := { x.stream with position }
  have hchecked : Decode.checkCount layout.cells.length slotSize (place 16).remaining
      { x with stream := place 16 } = .ok ⟨layout.cells.length⟩ { x with stream := place 16 } := by
    refine checkCount_of_le hallowed ?_
    show slotSize * layout.cells.length ≤ x.stream.length - headerSize
    omega
  have hproduct : Checked.product layout.cells.length slotSize
      = .ok (slotSize * layout.cells.length) := by
    rw [Nat.mul_comm]
    exact Checked.product_of_le (by rw [Nat.mul_comm]; omega)
  -- the directory, deciphered, and its slots
  have hplace : layout.IsIn compressors (place 16) := h.of_source rfl
  obtain ⟨t, hopen, hsource⟩ := hplace.exists_openDirectory hcompress
  have hin : layout.IsIn compressors t := hplace.of_source hsource
  obtain ⟨y, u, htable, hinput⟩ :=
    hin.exists_readTable (x := { x with stream := t }) hcompress source
  refine ⟨y, ?_, hinput.trans (Session.input_of_source x hsource)⟩
  rw [decode, bind_of_ok (liftReader_eq_ok.mpr ⟨_, hskip, rfl⟩),
    bind_of_ok (liftReader_eq_ok.mpr ⟨_, hversion, rfl⟩), guard_eq_ok]
  refine ⟨by simp, ?_⟩
  dsimp only
  rw [bind_of_ok (liftReader_eq_ok.mpr ⟨_, hcount, rfl⟩),
    bind_of_ok (liftReader_eq_ok.mpr ⟨_, hdeclared, rfl⟩),
    bind_of_ok (liftReader_eq_ok.mpr ⟨_, remaining_eq_ok.mpr ⟨rfl, rfl⟩, rfl⟩),
    bind_of_ok hchecked, bind_of_ok (liftExcept_decode_eq_ok.mpr ⟨hproduct, rfl⟩), guard_eq_ok]
  refine ⟨by simp, ?_⟩
  rw [bind_of_ok (liftReader_eq_ok.mpr ⟨_, hopen, rfl⟩),
    bind_of_ok (liftReader_eq_ok.mpr ⟨_, length_eq_ok.mpr ⟨rfl, rfl⟩, rfl⟩)]
  rw [Stream.order_of_source hsource] at htable
  exact bind_of_ok htable

theorem File.isIn_of_mem_files {layout : Layout} (h : layout.IsIn compressors s) {f : File}
    (hf : f ∈ layout.files) : f.IsIn compressors s := by
  obtain ⟨cell, hcell, hfile⟩ := List.mem_filterMap.mp hf
  cases cell with
  | unused bytes => cases hfile
  | file file =>
    cases hfile
    exact h.cells _ hcell

/-- **A directory that is laid out is read**: the slots that are in use, in their order. -/
theorem readDirectory_of_isIn {layout : Layout} (h : layout.IsIn compressors x.stream)
    (hcompress : compressors.Invert) (hsource : source.length = x.stream.length)
    (hallowed : layout.cells.length ≤ x.context.options.maxEntries)
    (hsort : x.context.options.sortByOffset = false) :
    ∃ y, format.readDirectory source x = .ok (layout.files.map (File.entry source)) y := by
  have hin : layout.IsIn compressors x.started.stream := h.of_source rfl
  obtain ⟨y, hdecode, hinput⟩ := exists_decode source hin hcompress rfl hallowed
  refine ⟨y, Format.readDirectory_of_decode hdecode hinput hsort ?_⟩
  intro e he
  obtain ⟨f, hf, rfl⟩ := List.mem_map.mp he
  rw [show (f.entry source).source = source from rfl, hsource]
  exact (File.isIn_of_mem_files h hf).stop_le

/-- The data of a file that is laid out are read as its content. -/
theorem readEntry_of_isIn {f : File} (h : f.IsIn compressors s) (hcompress : compressors.Invert)
    (hprimary : source.isPrimary = true) {a : Archive} {files : FileTree} {index : ℕ}
    (hget : a.entries[index]? = some (f.entry source)) (hbytes : a.stream.bytes = s.bytes)
    (hhealthy : a.stream.failAt = none) : (a.readEntry files index).1 = .ok f.content := by
  have hmax := Word.max_eq
  have hoffset := h.offset_lt
  have hlength := h.stored_lt
  have hfit : (f.entry source).FitsIn s.bytes :=
    ⟨h.stop_le, by show f.offset + f.block.length ≤ _; omega⟩
  have hstored : (f.entry source).storedIn s.bytes = f.block :=
    (List.prefix_iff_eq_take.mp h.block).symm
  rw [Archive.readEntry_eq hget (.primary hprimary hhealthy hbytes) hfit]
  exact Entry.contentIn_of_undo hstored rfl (h.undo_block hcompress)

/-! ### What is wrong with a stream

The fields are those that the bytes have at their places, whether or not the places are there. -/

section

variable (order : ByteOrder) (bytes : Bytes)

/-- How many slots the header announces. -/
def countAt : ℕ := order.field 4 bytes 8

/-- How long the header says that the directory is. -/
def sizeAt : ℕ := order.field 4 bytes 12

/-- The directory, deciphered. -/
def directoryAt : Bytes :=
  ((Rc4.ofKey directoryKey).apply ((bytes.drop headerSize).take (sizeAt order bytes))).1

/-- The field at a place of the slot at an index. -/
def slotField (index place : ℕ) : ℕ :=
  order.field 4 (directoryAt order bytes) (slotSize * index + place)

/-- The slot at an index is in use: its name does not start with a zero. -/
def IsUsed (index : ℕ) : Prop :=
  ByteOrder.little.field 1 (directoryAt order bytes) (slotSize * index) ≠ 0

/-- What may be wrong with a stream. -/
inductive Defect : Prop where
  /-- The version is none that is known. -/
  | version (h : order.field 4 bytes 4 ≠ Rpak.version)
  /-- The directory is not as long as its slots. -/
  | size (h : sizeAt order bytes ≠ slotSize * countAt order bytes)
  /-- A slot that is in use has a flag that is not known. -/
  | flags {index bit : ℕ} (hindex : index < countAt order bytes) (hused : IsUsed order bytes index)
    (hbit : 2 ≤ bit) (h : (slotField order bytes index 60).testBit bit = true)
  /-- The content is not as long as what is stored, and there is no compression. -/
  | lengths {index : ℕ} (hindex : index < countAt order bytes) (hused : IsUsed order bytes index)
    (hzlib : (slotField order bytes index 60).testBit 0 = false)
    (h : slotField order bytes index 56 ≠ slotField order bytes index 52)
  /-- The data do not end in the stream. -/
  | range {index : ℕ} (hindex : index < countAt order bytes) (hused : IsUsed order bytes index)
    (h : bytes.length < slotField order bytes index 48 + slotField order bytes index 52)

end

/-! ### A stream that is read has no defect -/

/-- The slot at a place of a directory. -/
def slotAt (order : ByteOrder) (directory : Bytes) (place : ℕ) : Slot where
  name := Utf8.decode (Reader.beforeZero ((directory.drop place).take nameSize))
  offset := order.field 4 directory (place + 48)
  stored := order.field 4 directory (place + 52)
  decoded := order.field 4 directory (place + 56)
  flags := order.field 4 directory (place + 60)

theorem of_readSlot {slot : Slot} (h : readSlot s = .ok slot t) :
    slot = slotAt s.order s.bytes s.position ∧ t = s.advance slotSize ∧
      s.position + slotSize ≤ s.length := by
  simp only [readSlot, bind_eq_ok, pure_eq_ok] at h
  obtain ⟨name, _, hname, offset, _, hoffset, stored, _, hstored, decoded, _, hdecoded, flags, _,
    hflags, rfl, rfl⟩ := h
  obtain ⟨-, rfl, rfl⟩ := of_fixedString (fun h => absurd h (by decide)) hname
  obtain ⟨-, rfl, rfl⟩ := of_u32 hoffset
  obtain ⟨-, rfl, rfl⟩ := of_u32 hstored
  obtain ⟨-, rfl, rfl⟩ := of_u32 hdecoded
  obtain ⟨hend, rfl, rfl⟩ := of_u32 hflags
  exact ⟨rfl, rfl, hend⟩

/-- A slot whose first byte is no zero has a name. -/
theorem name_slotAt_ne (order : ByteOrder) {directory : Bytes} {place : ℕ}
    (hplace : place < directory.length) (h : ByteOrder.little.field 1 directory place ≠ 0) :
    (slotAt order directory place).name ≠ "" := by
  intro hname
  rw [slotAt, Utf8.decode_eq_empty] at hname
  cases hdrop : directory.drop place with
  | nil =>
    have hlength := congrArg List.length hdrop
    rw [List.length_drop, List.length_nil] at hlength
    omega
  | cons b rest =>
    rw [ByteOrder.field, hdrop] at h
    rw [hdrop] at hname
    refine h ?_
    have hb : b = 0 := by
      simpa [Reader.beforeZero, nameSize, List.takeWhile_cons] using hname
    rw [hb]
    rfl

/-- What a slot with a name must be like to mean anything. -/
theorem of_action_of_name {slot : Slot} {length : ℕ} {action : RecordAction Entry}
    (h : slot.action source length = .ok action) (hname : slot.name ≠ "") :
    slot.flags < 4 ∧ (hasZlib slot.flags = false → slot.decoded = slot.stored) ∧
      slot.offset + slot.stored ≤ length := by
  rw [Slot.action, if_neg (by simpa using hname)] at h
  split_ifs at h with hflags hlengths hrange
  simp only [Bool.not_eq_true', Bool.not_eq_false] at hflags hrange
  refine ⟨of_decide_eq_true hflags, fun hzlib => ?_, (inRange_iff.mp hrange).1⟩
  simpa [hzlib] using hlengths

theorem of_readCell {length index : ℕ} {action : RecordAction Entry}
    (h : readCell source length index x = .ok action y) :
    (slotAt x.stream.order x.stream.bytes x.stream.position).action source length = .ok action ∧
      y.stream = x.stream.advance slotSize ∧ x.stream.position + slotSize ≤ x.stream.length := by
  simp only [readCell, bind_eq_ok, ofReader_eq_ok, ofExcept_eq_ok] at h
  obtain ⟨slot, _, ⟨t, hslot, rfl⟩, t', ⟨haction, rfl⟩, rfl⟩ := h
  obtain ⟨rfl, rfl, hend⟩ := of_readSlot hslot
  exact ⟨haction, rfl, hend⟩

theorem action_ne_finish {slot : Slot} {length : ℕ} {action : RecordAction Entry}
    (h : slot.action source length = .ok action) : action ≠ .finish := by
  rintro rfl
  rw [Slot.action] at h
  split_ifs at h <;> cases h

/-- The directory that was opened is the one that the bytes hold. -/
theorem of_openDirectory {size : ℕ} {directory : Stream}
    (h : Reader.openDirectory headerSize size size [.rc4 directoryKey] s = .ok directory t) :
    directory = { bytes := ((Rc4.ofKey directoryKey).apply ((s.bytes.drop headerSize).take size)).1,
                  order := s.order } ∧ t.source = s.source := by
  obtain ⟨-, hsource, feed, hundo, hlength, rfl⟩ := Reading.of_openDirectory h
  have hfeed : Except.ok ((Feed.ofStream { s with position := headerSize } size).rc4 directoryKey)
      = (Except.ok feed : Except Error Feed) := hundo
  cases hfeed
  rw [Feed.rc4, Rc4.length_apply, Feed.bytes_ofStream, List.length_take] at hlength
  have hahead : (Stream.ahead { s with position := headerSize }).take size
      = (s.bytes.drop headerSize).take size := Stream.take_ahead (by omega)
  refine ⟨?_, hsource⟩
  rw [Feed.rc4, Feed.bytes_ofStream, hahead, List.take_of_length_le]
  rw [Rc4.length_apply, List.length_take]
  exact Nat.min_le_left _ _

/-- A slot that is in use has known flags, lengths that agree with them, and data in a stream of
`length` bytes. -/
structure IsSound (order : ByteOrder) (bytes : Bytes) (index : ℕ) : Prop where
  flags_lt : slotField order bytes index 60 < 4
  lengths_eq : hasZlib (slotField order bytes index 60) = false →
    slotField order bytes index 56 = slotField order bytes index 52
  stop_le : slotField order bytes index 48 + slotField order bytes index 52 ≤ bytes.length

/-- The slots of a directory that was read as a table are sound where they are in use. -/
theorem isSound_of_readTable {bytes : Bytes} {count index : ℕ} {entries : List Entry}
    (hx : x.stream = { bytes := directoryAt order bytes, order })
    (h : Decode.readTable ⟨count⟩ (readCell source bytes.length) x = .ok entries y)
    (hindex : index < count) (hused : IsUsed order bytes index) : IsSound order bytes index := by
  have hstep : ∀ index (x : Session) action y,
      readCell source bytes.length index x = .ok action y →
        action ≠ .finish ∧ y.stream = x.stream.advance slotSize := by
    intro index x action y h
    obtain ⟨haction, hstream, -⟩ := of_readCell h
    exact ⟨action_ne_finish haction, hstream⟩
  obtain ⟨-, actions, hlength, -, hall⟩ := Tables.of_readTable hstep h
  obtain ⟨z, w, hz, hread⟩ := hall index _ (List.getElem?_eq_getElem (hlength ▸ hindex))
  obtain ⟨haction, -, hend⟩ := of_readCell hread
  rw [hz, hx] at haction hend
  have hplace : slotSize * index < (directoryAt order bytes).length := by
    simp only [Stream.advance, Stream.length, slotSize] at hend
    rw [slotSize]
    omega
  simp only [Stream.advance, Nat.zero_add] at haction
  have hname := name_slotAt_ne order hplace hused
  obtain ⟨hflags, hlengths, hstop⟩ := of_action_of_name haction hname
  exact ⟨hflags, hlengths, hstop⟩

/-- What a stream is like that is decoded. -/
theorem of_decode {entries : List Entry} (hstart : x.stream.position = 0)
    (h : decode source x = .ok entries y) :
    x.stream.order.field 4 x.stream.bytes 4 = version ∧
      sizeAt x.stream.order x.stream.bytes = slotSize * countAt x.stream.order x.stream.bytes ∧
      ∀ index < countAt x.stream.order x.stream.bytes, IsUsed x.stream.order x.stream.bytes index →
        IsSound x.stream.order x.stream.bytes index := by
  simp only [decode, bind_eq_ok, liftReader_eq_ok,
    skip_start_eq_ok (k := magic.length) hstart (by decide)] at h
  obtain ⟨_, _, ⟨_, ⟨-, rfl⟩, rfl⟩, found, _, ⟨_, hversion, rfl⟩, h⟩ := h
  obtain ⟨-, rfl, rfl⟩ := of_u32 hversion
  obtain ⟨hfound, h⟩ := guard_eq_ok.mp h
  simp only [bind_eq_ok, liftReader_eq_ok, remaining_eq_ok, checkCount_eq_ok,
    liftExcept_decode_eq_ok] at h
  obtain ⟨declared, _, ⟨_, hdeclared, rfl⟩, size, _, ⟨_, hsize, rfl⟩, _, _, ⟨_, ⟨rfl, rfl⟩, rfl⟩,
    _, _, ⟨-, -, rfl, rfl⟩, expected, _, ⟨hexpected, rfl⟩, h⟩ := h
  obtain ⟨-, rfl, rfl⟩ := of_u32 hdeclared
  obtain ⟨-, rfl, rfl⟩ := of_u32 hsize
  obtain ⟨hequal, h⟩ := guard_eq_ok.mp h
  simp only [bind_eq_ok, liftReader_eq_ok, length_eq_ok] at h
  obtain ⟨directory, _, ⟨t, hopen, rfl⟩, length, _, ⟨_, ⟨rfl, rfl⟩, rfl⟩, ⟨found, u⟩, _, htable,
    -⟩ := h
  obtain ⟨rfl, hsource⟩ := of_openDirectory hopen
  obtain ⟨z, htable, -, -⟩ := onStream_eq_ok.mp htable
  rw [Stream.length_of_source hsource] at htable
  simp only [bne_iff_ne, ne_eq, not_not] at hfound hequal
  have hsize : sizeAt x.stream.order x.stream.bytes = expected := hequal
  refine ⟨hfound, ?_, fun index hindex hused => isSound_of_readTable rfl htable hindex hused⟩
  rw [hsize, (Checked.product_eq_ok.mp hexpected).1, Nat.mul_comm]
  rfl

/-- **A stream that is read has no defect.** -/
theorem not_defect_of_readDirectory {entries : List Entry}
    (h : format.readDirectory source x = .ok entries y) :
    ¬ Defect x.stream.order x.stream.bytes := by
  obtain ⟨found, hdecode, -⟩ := Format.readDirectory_eq_ok.mp h
  obtain ⟨hversion, hsize, hall⟩ := of_decode rfl hdecode
  have hsound : ∀ {index}, index < countAt x.stream.order x.stream.bytes →
      IsUsed x.stream.order x.stream.bytes index → IsSound x.stream.order x.stream.bytes index :=
    fun hindex hused => hall _ hindex hused
  intro hdefect
  cases hdefect with
  | version hne => exact hne hversion
  | size hne => exact hne hsize
  | flags hindex hused hbit hset =>
    rw [testBit_eq_false_of_le (hsound hindex hused).flags_lt hbit] at hset
    cases hset
  | lengths hindex hused hzlib hne => exact hne ((hsound hindex hused).lengths_eq hzlib)
  | range hindex hused hlt => exact absurd (hsound hindex hused).stop_le (Nat.not_le.mpr hlt)

/-! ### Both directions -/

/-- **Reading inverts the layout, and nothing else is read.** A directory that is laid out is read
as the slots that are in use, in order, each with its name, its lengths and its flags, and the data
of each are read as its content. If anything in the header or in a slot that is in use is wrong,
reading ends with an error. -/
theorem readDirectory_inverts_slots :
    (∀ {layout : Layout} {compressors : Compressors} {source : Location} {x : Session},
      layout.IsIn compressors x.stream → compressors.Invert →
      layout.cells.length ≤ x.context.options.maxEntries → source.length = x.stream.length →
      x.context.options.sortByOffset = false →
      ∃ y, format.readDirectory source x = .ok (layout.files.map (File.entry source)) y ∧
        (source.isPrimary = true →
          ∀ (a : Archive) (tree : FileTree), a.entries = layout.files.map (File.entry source) →
          a.stream.bytes = x.stream.bytes → a.stream.failAt = none →
          ∀ (index : ℕ) (f : File), layout.files[index]? = some f →
            (a.readEntry tree index).1 = .ok f.content)) ∧
    ∀ {source : Location} {x : Session}, Defect x.stream.order x.stream.bytes →
      ∃ e y, format.readDirectory source x = .error e y := by
  constructor
  · intro layout compressors source x h hcompress hallowed hsource hsort
    obtain ⟨y, hy⟩ := readDirectory_of_isIn h hcompress hsource hallowed hsort
    refine ⟨y, hy, fun hprimary a tree hentries hbytes hhealthy index f hf => ?_⟩
    have hget : a.entries[index]? = some (f.entry source) := by
      rw [hentries, List.getElem?_map, hf]
      rfl
    exact readEntry_of_isIn (File.isIn_of_mem_files h (List.mem_of_getElem? hf)) hcompress hprimary
      hget hbytes hhealthy
  · intro source x hdefect
    exact exists_error_of_ne_ok fun entries y h => not_defect_of_readDirectory h hdefect

/-- What a stream that starts like a layout has for a directory. -/
theorem directoryAt_of_isPrefix {slots bytes : Bytes} {count : ℕ}
    (hsize : slotSize * count < 2 ^ 32) (hslots : slots.length = slotSize * count)
    (h : headerBytes order count ++ ((Rc4.ofKey directoryKey).apply slots).1 <+: bytes) :
    directoryAt order bytes = slots := by
  obtain ⟨rest, rfl⟩ := h
  have hplace : (magic ++ (order.encode 4 version ++ order.encode 4 count)).length = 12 := by
    simp only [List.length_append, ByteOrder.length_encode]
    rfl
  have hsizeAt : sizeAt order (headerBytes order count ++ ((Rc4.ofKey directoryKey).apply slots).1
      ++ rest) = slotSize * count := by
    simp only [headerBytes, ← List.append_assoc] at hplace ⊢
    simp only [sizeAt, ByteOrder.field, List.append_assoc _ _ rest,
      List.append_assoc _ (order.encode 4 (slotSize * count))]
    rw [List.drop_left' hplace, List.take_left' (ByteOrder.length_encode _ _ _),
      ByteOrder.decode_encode _ hsize]
  rw [directoryAt, hsizeAt, List.append_assoc, List.drop_left' (length_headerBytes _ _),
    List.take_left' ((Rc4.length_apply _ _).trans hslots), Rc4.apply_apply]

/-- A compressed file under an exclusive or, behind a directory of two slots. -/
def masked : File :=
  ⟨"a", 3, 144, (Xor.mk entryKey 0).apply (Zlib.compress [0x68, 0x69]), [0x68, 0x69]⟩

/-- Its directory, with a first slot that is not in use and full of ones. -/
def maskedLayout : Layout :=
  let cells := [.unused (0 :: List.replicate 63 1), .file masked]
  ⟨cells, ((Rc4.ofKey directoryKey).apply (cells.flatMap (Cell.bytes .little))).1⟩

/-- The archive, with any data behind the directory. -/
def maskedBytes (data : Bytes) : Bytes := headerBytes .little 2 ++ maskedLayout.block ++ data

theorem length_front_masked : (headerBytes .little 2 ++ maskedLayout.block).length = 144 := by
  rw [List.length_append, length_headerBytes, maskedLayout, Rc4.length_apply]
  decide +kernel

theorem isIn_masked : maskedLayout.IsIn {} (.ofBytes (maskedBytes masked.block)) where
  healthy := rfl
  size_lt := by decide
  encode_eq := rfl
  header := List.prefix_append _ _
  cells := by
    intro cell hcell
    rcases List.mem_cons.mp hcell with rfl | hcell
    · exact ⟨by decide, by decide⟩
    · rw [List.mem_singleton.mp hcell]
      have hdrop : (maskedBytes masked.block).drop 144 = masked.block :=
        List.drop_left' length_front_masked
      have hblock : masked.block <+: (maskedBytes masked.block).drop 144 :=
        ⟨[], (List.append_nil _).trans hdrop.symm⟩
      have hstop : 144 + masked.block.length ≤ (maskedBytes masked.block).length := by
        rw [maskedBytes, List.length_append, length_front_masked]
      exact ⟨by decide, by decide, by decide, by decide, by decide, by decide, by decide, rfl,
        hblock, hstop⟩

/-- The archive is read as its one file. Without its last byte it is not read. -/
theorem readDirectory_inverts_slots_masked :
    (∃ y, format.readDirectory (.memory (maskedBytes masked.block).length)
        { stream := .ofBytes (maskedBytes masked.block) }
      = .ok [masked.entry (.memory (maskedBytes masked.block).length)] y) ∧
    (∀ tree, (Archive.readEntry ⟨"rpak", .ofBytes (maskedBytes masked.block),
      [masked.entry (.memory (maskedBytes masked.block).length)]⟩ tree 0).1 = .ok [0x68, 0x69]) ∧
    ∃ e y, format.readDirectory (.memory (maskedBytes masked.block.dropLast).length)
      { stream := .ofBytes (maskedBytes masked.block.dropLast) } = .error e y := by
  have hcount : maskedLayout.cells.length ≤ Options.maxEntries {} := by decide
  have hlength : (Location.memory (maskedBytes masked.block).length).length
      = (Stream.ofBytes (maskedBytes masked.block)).length := rfl
  have hfiles : maskedLayout.files = [masked] := rfl
  have hread := readDirectory_inverts_slots.1
    (x := { stream := .ofBytes (maskedBytes masked.block) }) isIn_masked Compressors.invert_default
    hcount hlength rfl
  rw [hfiles] at hread
  obtain ⟨y, hy, hcontent⟩ := hread
  -- the second slot of the archive that is too short says where its data should end
  have hdirectory : directoryAt .little (maskedBytes masked.block.dropLast)
      = maskedLayout.slots .little :=
    directoryAt_of_isPrefix (by decide) (by decide +kernel) (List.prefix_append _ _)
  have hindex : 1 < countAt .little (maskedBytes masked.block.dropLast) := by decide +kernel
  have hused : IsUsed .little (maskedBytes masked.block.dropLast) 1 := by
    rw [IsUsed, hdirectory]
    decide
  have hrange : (maskedBytes masked.block.dropLast).length
      < slotField .little (maskedBytes masked.block.dropLast) 1 48
        + slotField .little (maskedBytes masked.block.dropLast) 1 52 := by
    rw [slotField, slotField, hdirectory, maskedBytes, List.length_append, length_front_masked]
    decide
  have hdefect : Defect .little (maskedBytes masked.block.dropLast) := .range hindex hused hrange
  exact ⟨⟨y, hy⟩, fun tree => hcontent rfl _ tree rfl rfl rfl 0 masked rfl,
    readDirectory_inverts_slots.2 hdefect⟩

end Packfile.Rpak
