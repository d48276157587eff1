import Packfile.Buffer
import Packfile.Proofs.Fields

/-!
# Lists of fields, written and read

A directory is written as a list of fields, one behind the other: integers, bytes, texts of both
kinds, and padding. A field that tells of something further on is written with any number first and
patched when the number is known. A reader that is told the kinds of the fields, and nothing of the
patches, reads the list with the new numbers and ends where the bytes end.

## What a field depends on

The bytes of a field depend on the place where it starts, because padding does. `layout` and
`starts` are the bytes of a list and the places of its fields as functions of the place where the
list starts, and each of them is compatible with `++` (`layout_append`, `starts_append`). A patch
changes an integer into one of the same width, so that no field moves.

## Main definitions

* `Field` — what can be written, with `Field.write` and `Field.IsWritable`
* `Field.Shape`, `Field.Value` — what a reader is told of a field, and what it makes of it
* `Field.writeAll` — a list is written, and the place of each field noted
* `Field.patchAll`, `Field.patched` — patches, to the bytes and to the list
* `Buffer.IsPatched` — four bytes are replaced, and nothing else changes

## Main results

* `Field.read_of_append`, `Field.mapM_read_of_append` — one field is read, and then a list
* `Field.patch32_layout`, `Field.patchAll_layout` — one patch, and then a list of them
* `Field.mapM_read_patchAll` — a list that was written and patched is read
-/

namespace Packfile

/-! ### Fields -/

/-- The widths of integers. -/
inductive Field.Width where
  /-- 8 bits. -/
  | one
  /-- 16 bits. -/
  | two
  /-- 32 bits. -/
  | four
  /-- 64 bits. -/
  | eight
  deriving DecidableEq, Repr

/-- The number of bytes. -/
def Field.Width.size : Width → ℕ
  | one => 1
  | two => 2
  | four => 4
  | eight => 8

/-- Reads an integer in the order of the stream. -/
def Field.Width.read : Width → Reader ℕ
  | one => Reader.u8
  | two => Reader.u16
  | four => Reader.u32
  | eight => Reader.u64

/-- What is written. -/
inductive Field where
  /-- An integer. -/
  | word (width : Field.Width) (n : ℕ)
  /-- Bytes as they are. -/
  | bytes (data : Bytes)
  /-- A text and a zero. -/
  | terminated (text : String)
  /-- A text in a field of `width` bytes. -/
  | fixed (text : String) (width : ℕ)
  /-- Fill bytes up to a multiple of an alignment. -/
  | padding (alignment : ℕ) (fill : UInt8)
  deriving DecidableEq, Repr

/-- What a reader is told of a field. -/
inductive Field.Shape where
  /-- An integer. -/
  | word (width : Field.Width)
  /-- A number of bytes. -/
  | bytes (count : ℕ)
  /-- A text up to a zero. -/
  | terminated
  /-- A text in a field of `width` bytes. -/
  | fixed (width : ℕ)
  /-- Bytes up to a multiple of an alignment. -/
  | padding (alignment : ℕ)
  deriving DecidableEq, Repr

/-- What a reader makes of a field. -/
inductive Field.Value where
  /-- An integer. -/
  | number (n : ℕ)
  /-- Bytes, those of padding included. -/
  | bytes (data : Bytes)
  /-- A text. -/
  | text (text : String)
  deriving DecidableEq, Repr

/-- Four bytes from a place on are replaced by an integer. Every other byte is as it was, and so is
the position. -/
structure Buffer.IsPatched (place n : ℕ) (b b' : Buffer) : Prop where
  /-- The place lies in what has been written. -/
  inside : place + 4 ≤ b.bytes.length
  /-- Nothing is added. -/
  length : b'.bytes.length = b.bytes.length
  /-- The four bytes. -/
  field : (b'.bytes.drop place).take 4 = b.order.encode 4 n
  /-- The other bytes. -/
  others : ∀ i, i < place ∨ place + 4 ≤ i → b'.bytes[i]? = b.bytes[i]?
  /-- The next write goes where it would have gone. -/
  position : b'.position = b.position

/-- A patch inside the buffer replaces the four bytes and nothing else. -/
theorem Buffer.isPatched_patch32 {b : Buffer} {place : ℕ} (h : place + 4 ≤ b.bytes.length)
    (n : ℕ) : IsPatched place n b (b.patch32 place n) := by
  have hfront : (b.bytes.take place).length = place := by
    rw [List.length_take]
    omega
  have hword : (b.order.encode 4 n).length = 4 := ByteOrder.length_encode ..
  rw [patch32_of_le (by omega)]
  constructor
  case inside => exact h
  case position => rfl
  case length =>
    simp only [List.length_append, List.length_drop, hfront, hword]
    omega
  case field =>
    dsimp only
    rw [List.append_assoc, List.drop_left' hfront, List.take_left' hword]
  case others =>
    rintro i (hi | hi)
    · dsimp only
      rw [List.append_assoc, List.getElem?_append_left (by omega), List.getElem?_take_of_lt hi]
    · dsimp only
      rw [List.getElem?_append_right (by simp only [List.length_append]; omega),
        List.getElem?_drop, List.length_append, hfront, hword]
      congr 1
      omega

namespace Field

open Run Reading

variable {order : ByteOrder} {position i n : ℕ} {f : Field} {fields front : List Field}
  {patch : ℕ × ℕ} {patches : List (ℕ × ℕ)} {b : Buffer} {s : Stream} {rest : Bytes}

/-- A field that can be written so that it can be read: an integer fits its width, and a text has no
zero and fits its field. -/
def IsWritable : Field → Prop
  | word width n => n < 256 ^ width.size
  | bytes _ => True
  | terminated text => Utf8.IsPlain text
  | fixed text width => Utf8.IsPlain text ∧ (Utf8.encode text).length ≤ width
  | padding _ _ => True

instance : DecidablePred IsWritable
  | word _ _ => inferInstanceAs (Decidable (_ < _))
  | bytes _ => inferInstanceAs (Decidable True)
  | terminated _ => inferInstanceAs (Decidable (Utf8.IsPlain _))
  | fixed _ _ => inferInstanceAs (Decidable (_ ∧ _))
  | padding _ _ => inferInstanceAs (Decidable True)

/-- Writes a field. -/
def write : Field → Buffer → Except Error Buffer
  | word width n, b => return b.uint width.size n
  | bytes data, b => return b.put data
  | terminated text, b => return b.terminatedString text
  | fixed text width, b => b.fixedString text width
  | padding alignment fill, b => return b.padTo alignment fill

/-- Writes fields one behind the other, and notes where each of them starts. -/
def writeAll : List Field → Buffer → Except Error (List ℕ × Buffer)
  | [], b => return ([], b)
  | f :: fields, b => do
    let (places, out) ← writeAll fields (← f.write b)
    return (b.position :: places, out)

/-- What a reader is told of a field. -/
def shape : Field → Shape
  | word width _ => .word width
  | bytes data => .bytes data.length
  | terminated _ => .terminated
  | fixed _ width => .fixed width
  | padding alignment _ => .padding alignment

/-- Reads a field. -/
def Shape.read : Shape → Reader Value
  | word width => return .number (← width.read)
  | bytes count => return .bytes (← Reader.bytes count)
  | terminated => return .text (← Reader.terminatedString none)
  | fixed width => return .text (← Reader.fixedString width)
  | padding alignment => do
    let count := Buffer.padding (← Reader.offset) alignment
    return .bytes (← Reader.bytes count)

/-- What is to be read of a field that starts at a place. -/
def value (position : ℕ) : Field → Value
  | word _ n => .number n
  | bytes data => .bytes data
  | terminated text => .text text
  | fixed text _ => .text text
  | padding alignment fill => .bytes (List.replicate (Buffer.padding position alignment) fill)

/-- The bytes of a field that starts at a place. -/
def encoded (order : ByteOrder) (position : ℕ) : Field → Bytes
  | word width n => order.encode width.size n
  | bytes data => data
  | terminated text => Names.terminated text
  | fixed text width => Names.padded width text
  | padding alignment fill => List.replicate (Buffer.padding position alignment) fill

/-! ### One field -/

/-- At the end of a buffer a field is added to what is there. -/
theorem write_of_end (hf : f.IsWritable) (hend : b.position = b.bytes.length) :
    f.write b = .ok { b with
      bytes := b.bytes ++ f.encoded b.order b.position
      position := b.position + (f.encoded b.order b.position).length } := by
  cases f with
  | word width n => exact congrArg _ (Buffer.put_of_end hend _)
  | bytes data => exact congrArg _ (Buffer.put_of_end hend _)
  | terminated text => exact congrArg _ (Buffer.put_of_end hend _)
  | fixed text width =>
    have hfit : Buffer.fixedField text width = .ok (Names.padded width text) := by
      rw [Buffer.fixedField]
      exact if_neg (Nat.not_lt.mpr hf.2)
    rw [write, Buffer.fixedString, hfit]
    exact congrArg _ (Buffer.put_of_end hend _)
  | padding alignment fill => exact congrArg _ (Buffer.put_of_end hend _)

theorem Width.read_of_append {width : Width} (hn : n < 256 ^ width.size)
    (h : s.ahead = s.order.encode width.size n ++ rest) :
    width.read s = .ok n (s.advance width.size) := by
  cases width with
  | one =>
    rw [size, ByteOrder.encode_one] at h
    exact wordIn_of_append hn h
  | two => exact u16_of_append hn h
  | four => exact u32_of_append hn h
  | eight => exact u64_of_append hn h

/-- A field in front of what is ahead is read. -/
theorem read_of_append (hf : f.IsWritable)
    (h : s.ahead = f.encoded s.order s.position ++ rest) :
    f.shape.read s
      = .ok (f.value s.position) (s.advance (f.encoded s.order s.position).length) := by
  cases f with
  | word width n =>
    rw [encoded, ByteOrder.length_encode]
    exact bind_of_ok (Width.read_of_append hf h)
  | bytes data => exact bind_of_ok (bytes_of_append data h)
  | terminated text =>
    exact bind_of_ok (Names.terminatedString_of_ahead hf h fun _ hlimit => by cases hlimit)
  | fixed text width =>
    rw [encoded, Names.length_padded hf.2]
    exact bind_of_ok (fixedString_of_padded hf.1 hf.2 h)
  | padding alignment fill =>
    have hread := bytes_of_append (List.replicate _ fill) h
    rw [List.length_replicate] at hread
    rw [encoded, List.length_replicate, shape, Shape.read]
    exact (bind_of_ok (offset_eq_ok.mpr ⟨rfl, rfl⟩)).trans (bind_of_ok hread)

/-! ### Lists of fields -/

/-- The bytes of a list of fields that starts at a place. -/
def layout (order : ByteOrder) : ℕ → List Field → Bytes
  | _, [] => []
  | position, f :: fields =>
    f.encoded order position
      ++ layout order (position + (f.encoded order position).length) fields

/-- Where the fields of a list start. -/
def starts (order : ByteOrder) : ℕ → List Field → List ℕ
  | _, [] => []
  | position, f :: fields =>
    position :: starts order (position + (f.encoded order position).length) fields

theorem layout_append (order : ByteOrder) (position : ℕ) (front fields : List Field) :
    layout order position (front ++ fields) = layout order position front
      ++ layout order (position + (layout order position front).length) fields := by
  induction front generalizing position with
  | nil => rfl
  | cons f front ih =>
    rw [List.cons_append, layout, ih, layout, List.append_assoc, List.length_append,
      Nat.add_assoc]

theorem starts_append (order : ByteOrder) (position : ℕ) (front fields : List Field) :
    starts order position (front ++ fields) = starts order position front
      ++ starts order (position + (layout order position front).length) fields := by
  induction front generalizing position with
  | nil => rfl
  | cons f front ih =>
    rw [List.cons_append, starts, ih, starts, List.cons_append, layout, List.length_append,
      Nat.add_assoc]

@[simp] theorem length_starts (order : ByteOrder) (position : ℕ) (fields : List Field) :
    (starts order position fields).length = fields.length := by
  induction fields generalizing position with
  | nil => rfl
  | cons f fields ih => rw [starts, List.length_cons, ih, List.length_cons]

/-- At the end of a buffer a list of fields is added to what is there. -/
theorem writeAll_of_end (hfields : ∀ f ∈ fields, f.IsWritable)
    (hend : b.position = b.bytes.length) :
    writeAll fields b = .ok (starts b.order b.position fields, { b with
      bytes := b.bytes ++ layout b.order b.position fields
      position := b.position + (layout b.order b.position fields).length }) := by
  induction fields generalizing b with
  | nil => rw [writeAll, layout, starts, List.append_nil]; rfl
  | cons f fields ih =>
    have hf := write_of_end (hfields f List.mem_cons_self) hend
    have hrest := ih (fun g hg => hfields g (List.mem_cons_of_mem _ hg))
      (b := { b with
        bytes := b.bytes ++ f.encoded b.order b.position
        position := b.position + (f.encoded b.order b.position).length })
      (by rw [List.length_append, hend])
    simp only [writeAll, except_bind_eq_ok, except_pure_eq_ok]
    refine ⟨_, hf, _, hrest, ?_⟩
    simp only [layout, starts, List.append_assoc, List.length_append, Nat.add_assoc]

/-- A list of fields in front of what is ahead is read. -/
theorem mapM_read_of_append (hfields : ∀ f ∈ fields, f.IsWritable)
    (h : s.ahead = layout s.order s.position fields ++ rest) :
    (fields.map shape).mapM Shape.read s
      = .ok (List.zipWith value (starts s.order s.position fields) fields)
        (s.advance (layout s.order s.position fields).length) := by
  induction fields generalizing s with
  | nil => rfl
  | cons f fields ih =>
    rw [layout, List.append_assoc] at h
    have hf := read_of_append (hfields f List.mem_cons_self) h
    have hahead : (s.advance (f.encoded s.order s.position).length).ahead
        = layout s.order (s.position + (f.encoded s.order s.position).length) fields ++ rest := by
      rw [Stream.ahead_advance, h, List.drop_left]
    have hrest := ih (fun g hg => hfields g (List.mem_cons_of_mem _ hg)) hahead
    rw [List.map_cons, List.mapM_cons]
    simp only [bind_eq_ok, pure_eq_ok]
    refine ⟨_, _, hf, _, _, hrest, rfl, ?_⟩
    rw [layout, List.length_append, ← Stream.advance_advance]
    rfl

/-! ### Patches -/

/-- Patches the fields with the given numbers, which start at the given places. -/
def patchAll (places : List ℕ) (patches : List (ℕ × ℕ)) (b : Buffer) : Buffer :=
  patches.foldl (fun b patch => b.patch32 (places.getD patch.1 0) patch.2) b

/-- The list that patches stand for. -/
def patched (fields : List Field) (patches : List (ℕ × ℕ)) : List Field :=
  patches.foldl (fun fields patch => fields.set patch.1 (.word .four patch.2)) fields

/-- A patch is for an integer of four bytes and brings another one. -/
def IsPatch (fields : List Field) (patch : ℕ × ℕ) : Prop :=
  (fields.map shape)[patch.1]? = some (.word .four) ∧ patch.2 < 2 ^ 32

instance : Decidable (IsPatch fields patch) := inferInstanceAs (Decidable (_ ∧ _))

theorem IsPatch.exists_word (h : IsPatch fields patch) :
    ∃ n, fields[patch.1]? = some (.word .four n) := by
  obtain ⟨f, hf, hshape⟩ := Option.map_eq_some_iff.mp (List.getElem?_map ▸ h.1)
  cases f with
  | word width n =>
    cases hshape
    exact ⟨n, hf⟩
  | bytes | terminated | fixed | padding => cases hshape

/-- A field of a list with what is in front of it and behind it. -/
theorem exists_eq_append (h : fields[i]? = some f) :
    ∃ front behind, fields = front ++ f :: behind ∧ front.length = i := by
  obtain ⟨hi, rfl⟩ := List.getElem?_eq_some_iff.mp h
  refine ⟨fields.take i, fields.drop (i + 1), ?_, List.length_take_of_le (Nat.le_of_lt hi)⟩
  rw [List.getElem_cons_drop, List.take_append_drop]

theorem set_append_cons {behind : List Field} (f g : Field) :
    (front ++ f :: behind).set front.length g = front ++ g :: behind := by
  rw [List.set_append_right _ _ (Nat.le_refl _), Nat.sub_self, List.set_cons_zero]

/-- An integer in the place of another one moves no field. -/
theorem starts_set (order : ByteOrder) (position : ℕ) (h : fields[i]? = some (.word .four n))
    (m : ℕ) : starts order position (fields.set i (.word .four m))
      = starts order position fields := by
  obtain ⟨front, behind, rfl, rfl⟩ := exists_eq_append h
  rw [set_append_cons, starts_append, starts_append]
  simp only [starts, encoded, ByteOrder.length_encode]

/-- A reader is told of the new integer what it would be told of the old one. -/
theorem map_shape_set (h : fields[i]? = some (.word .four n)) (m : ℕ) :
    (fields.set i (.word .four m)).map shape = fields.map shape := by
  obtain ⟨front, behind, rfl, rfl⟩ := exists_eq_append h
  rw [set_append_cons, List.map_append, List.map_append]
  rfl

/-- A patch of the bytes of a list gives the bytes of the list with the new integer. -/
theorem patch32_layout (hb : b.bytes = layout b.order 0 fields)
    (h : fields[i]? = some (.word .four n)) (m : ℕ) :
    (starts b.order 0 fields).getD i 0 + 4 ≤ b.bytes.length ∧
      b.patch32 ((starts b.order 0 fields).getD i 0) m
        = { b with bytes := layout b.order 0 (fields.set i (.word .four m)) } := by
  obtain ⟨front, behind, rfl, rfl⟩ := exists_eq_append h
  have hstart : (starts b.order 0 (front ++ .word .four n :: behind)).getD front.length 0
      = (layout b.order 0 front).length := by
    rw [starts_append, List.getD_eq_getElem?_getD,
      List.getElem?_append_right (Nat.le_of_eq (length_starts ..)), length_starts, Nat.sub_self,
      starts, List.getElem?_cons_zero, Option.getD_some, Nat.zero_add]
  have hlayout : ∀ k, layout b.order 0 (front ++ .word .four k :: behind)
      = layout b.order 0 front ++ (b.order.encode 4 k
        ++ layout b.order ((layout b.order 0 front).length + 4) behind) := by
    intro k
    rw [layout_append, layout, encoded, Width.size, ByteOrder.length_encode, Nat.zero_add]
  have hinside : (layout b.order 0 front).length + 4 ≤ b.bytes.length := by
    rw [hb, hlayout, List.length_append, List.length_append, ByteOrder.length_encode]
    omega
  rw [hstart]
  refine ⟨hinside, ?_⟩
  rw [Buffer.patch32_of_le (by omega), set_append_cons, hlayout, hb, hlayout, List.take_left,
    ← List.drop_drop, List.drop_left, List.drop_left' (ByteOrder.length_encode ..),
    List.append_assoc]

/-- What has been patched can be patched again. -/
theorem IsPatch.set {p : ℕ × ℕ} (h : IsPatch fields p) (hpatch : IsPatch fields patch) :
    IsPatch (fields.set patch.1 (.word .four patch.2)) p := by
  obtain ⟨n, hn⟩ := hpatch.exists_word
  rw [IsPatch, map_shape_set hn]
  exact h

theorem patched_cons (fields : List Field) (patch : ℕ × ℕ) (patches : List (ℕ × ℕ)) :
    patched fields (patch :: patches)
      = patched (fields.set patch.1 (.word .four patch.2)) patches := rfl

/-- Patches move no field. -/
theorem starts_patched (order : ByteOrder) (position : ℕ)
    (h : ∀ patch ∈ patches, IsPatch fields patch) :
    starts order position (patched fields patches) = starts order position fields := by
  induction patches generalizing fields with
  | nil => rfl
  | cons patch patches ih =>
    have hpatch := h patch List.mem_cons_self
    obtain ⟨n, hn⟩ := hpatch.exists_word
    rw [patched_cons, ih fun p hp => (h p (List.mem_cons_of_mem _ hp)).set hpatch,
      starts_set _ _ hn]

theorem map_shape_patched (h : ∀ patch ∈ patches, IsPatch fields patch) :
    (patched fields patches).map shape = fields.map shape := by
  induction patches generalizing fields with
  | nil => rfl
  | cons patch patches ih =>
    have hpatch := h patch List.mem_cons_self
    obtain ⟨n, hn⟩ := hpatch.exists_word
    rw [patched_cons, ih fun p hp => (h p (List.mem_cons_of_mem _ hp)).set hpatch,
      map_shape_set hn]

theorem isWritable_patched (hfields : ∀ f ∈ fields, f.IsWritable)
    (h : ∀ patch ∈ patches, patch.2 < 2 ^ 32) :
    ∀ f ∈ patched fields patches, f.IsWritable := by
  induction patches generalizing fields with
  | nil => exact hfields
  | cons patch patches ih =>
    refine ih (fun f hf => ?_) fun p hp => h p (List.mem_cons_of_mem _ hp)
    rcases List.mem_or_eq_of_mem_set hf with hmem | rfl
    · exact hfields f hmem
    · exact h patch List.mem_cons_self

/-- Patches of the bytes of a list give the bytes of the list that they stand for. -/
theorem patchAll_layout (hb : b.bytes = layout b.order 0 fields)
    (h : ∀ patch ∈ patches, IsPatch fields patch) :
    patchAll (starts b.order 0 fields) patches b
      = { b with bytes := layout b.order 0 (patched fields patches) } := by
  induction patches generalizing fields b with
  | nil => rw [patched, List.foldl_nil, ← hb]; rfl
  | cons patch patches ih =>
    have hpatch := h patch List.mem_cons_self
    obtain ⟨n, hn⟩ := hpatch.exists_word
    have hstep := (patch32_layout hb hn patch.2).2
    have hrest := ih (b := { b with
        bytes := layout b.order 0 (fields.set patch.1 (.word .four patch.2)) }) rfl
      fun p hp => (h p (List.mem_cons_of_mem _ hp)).set hpatch
    rw [starts_set _ _ hn] at hrest
    rw [patchAll, List.foldl_cons, hstep]
    exact hrest

/-- Each of the patches replaces its own four bytes and nothing else. -/
theorem isPatched_patchAll {done : List (ℕ × ℕ)} (hb : b.bytes = layout b.order 0 fields)
    (hdone : ∀ p ∈ done, IsPatch fields p) (hpatch : IsPatch fields patch) :
    Buffer.IsPatched ((starts b.order 0 fields).getD patch.1 0) patch.2
      (patchAll (starts b.order 0 fields) done b)
      (patchAll (starts b.order 0 fields) (done ++ [patch]) b) := by
  have hpatched : IsPatch (patched fields done) patch := by
    rw [IsPatch, map_shape_patched hdone]
    exact hpatch
  obtain ⟨n, hn⟩ := hpatched.exists_word
  have hinside := (patch32_layout rfl hn patch.2
    (b := { b with bytes := layout b.order 0 (patched fields done) })).1
  rw [starts_patched b.order 0 hdone] at hinside
  have hstep : patchAll (starts b.order 0 fields) (done ++ [patch]) b
      = (patchAll (starts b.order 0 fields) done b).patch32
          ((starts b.order 0 fields).getD patch.1 0) patch.2 := by
    rw [patchAll, List.foldl_append]
    rfl
  rw [hstep, patchAll_layout hb hdone]
  exact Buffer.isPatched_patch32 hinside patch.2

/-! ### Written, patched and read -/

/-- **What was written and patched is read.** In each byte order a list of fields can be written,
and patches of its integers of four bytes change these and nothing else. A reader of the same byte
order that knows the kinds of the fields then reads the list, with the new integers in it, and ends
at the end of the bytes. Padding is shorter than its alignment and ends at a multiple of it. -/
theorem mapM_read_patchAll (order : ByteOrder) {fields : List Field} {patches : List (ℕ × ℕ)}
    (hfields : ∀ f ∈ fields, f.IsWritable) (hpatches : ∀ patch ∈ patches, IsPatch fields patch) :
    ∃ places b, writeAll fields { order } = .ok (places, b) ∧
      (∀ done patch behind, patches = done ++ patch :: behind →
        Buffer.IsPatched (places.getD patch.1 0) patch.2 (patchAll places done b)
          (patchAll places (done ++ [patch]) b)) ∧
      (fields.map shape).mapM Shape.read { bytes := (patchAll places patches b).bytes, order }
        = .ok (List.zipWith value places (patched fields patches))
          { bytes := (patchAll places patches b).bytes, order
            position := (patchAll places patches b).bytes.length } ∧
      (∀ place alignment, 0 < alignment → Buffer.padding place alignment < alignment ∧
        alignment ∣ place + Buffer.padding place alignment) := by
  have hwrite := writeAll_of_end (b := { order }) hfields rfl
  simp only [List.nil_append, Nat.zero_add] at hwrite
  refine ⟨_, _, hwrite, ?_, ?_, fun place alignment h =>
    ⟨Buffer.padding_lt h place, Buffer.dvd_padding h place⟩⟩
  · rintro done patch behind rfl
    have hdone : ∀ p ∈ done, IsPatch fields p :=
      fun p hp => hpatches p (List.mem_append_left _ hp)
    exact isPatched_patchAll (b := ⟨layout order 0 fields, _, order⟩) rfl hdone
      (hpatches patch (List.mem_append_right _ List.mem_cons_self))
  · have hwritable := isWritable_patched hfields fun p hp => (hpatches p hp).2
    rw [patchAll_layout (b := ⟨layout order 0 fields, _, order⟩) rfl hpatches,
      ← map_shape_patched hpatches, ← starts_patched order 0 hpatches]
    have hread := mapM_read_of_append hwritable
      (s := { bytes := layout order 0 (patched fields patches), order })
      (List.append_nil _).symm
    rw [hread]
    simp only [Stream.advance, Nat.zero_add]

/-- Fields of every kind. Among them are empty ones, one that its text of two characters and three
bytes fills, and two integers that are written first and patched then. -/
def mixedFields : List Field :=
  [.word .four 0, .word .one 170, .padding 4 0, .terminated "", .fixed "aé" 3, .padding 8 255,
    .word .eight 18446744073709551615, .bytes [], .word .two 258, .terminated "é", .word .four 7,
    .fixed "" 2, .padding 1 9, .bytes [0, 0]]

/-- The first integer is patched twice, and the later patch is read. -/
theorem mapM_read_patchAll_mixedFields :
    (∀ f ∈ mixedFields, f.IsWritable) ∧
    (∀ patch ∈ [(0, 1), (10, 16909060), (0, 8)], IsPatch mixedFields patch) ∧
    ∃ places b, writeAll mixedFields { order := .big } = .ok (places, b) ∧
      (mixedFields.map shape).mapM Shape.read
          ⟨(patchAll places [(0, 1), (10, 16909060), (0, 8)] b).bytes, 0, .big, none⟩
        = .ok [.number 8, .number 170, .bytes [0, 0, 0], .text "", .text "aé",
            .bytes [255, 255, 255, 255], .number 18446744073709551615, .bytes [], .number 258,
            .text "é", .number 16909060, .text "", .bytes [], .bytes [0, 0]]
          ⟨(patchAll places [(0, 1), (10, 16909060), (0, 8)] b).bytes, 37, .big, none⟩ := by
  have hfields : ∀ f ∈ mixedFields, f.IsWritable := by decide
  have hpatches : ∀ patch ∈ [(0, 1), (10, 16909060), (0, 8)], IsPatch mixedFields patch := by
    decide
  obtain ⟨places, b, hwrite, -, hread, -⟩ := mapM_read_patchAll .big hfields hpatches
  refine ⟨hfields, hpatches, places, b, hwrite, hread.trans ?_⟩
  have hwritten : writeAll mixedFields { order := .big }
      = .ok ([0, 4, 5, 8, 9, 12, 16, 24, 24, 26, 29, 33, 35, 35],
        ⟨[0, 0, 0, 0, 170, 0, 0, 0, 0, 97, 195, 169, 255, 255, 255, 255, 255, 255, 255, 255, 255,
          255, 255, 255, 1, 2, 195, 169, 0, 0, 0, 0, 7, 0, 0, 0, 0], 37, .big⟩) := by
    rfl
  cases hwritten.symm.trans hwrite
  rfl

end Field

end Packfile
