import Packfile.Proofs.Safety

/-!
# No format leaves the bounds of its numbers

The ratings, decoders and directory readings of all formats are safe: on no stream that is shorter
than `2 ^ 63` bytes, whether its storage is healthy or not, does any of them compute a number that
does not fit its width or take an element of a list that is not there. Nothing is asked of the
position at which they start, of what the caller allows or of the files within reach.

Most of the sums and products are small because the fields they are made of have 16 or 32 bits. Four
depend on checks that are made elsewhere.

* The block of names of an XARC archive starts where its records end, and `len - blobStart` is no
  underflow because the records were read.
* The data of a LUMP archive end before its directory, record after record.
* The digest of a TRE record is there because the block of digests has one for each record that the
  header counts.
* The part of an SPK file is there because its number was compared with the number of parts, and
  every part is opened.

## Main definitions

* `Format.IsSafe` — a format that is safe over all streams of a length

## Main results

* `Format.isSafe_of_mem` — every format of the library is safe
* `Format.never_overflows` — the same, said of the outcomes of its functions
-/

namespace Packfile

open Run Reading

variable {source : Location} {src : Bytes × ByteOrder × Option ℕ}
  {i : (Bytes × ByteOrder × Option ℕ) × Options × FileTree}

/-- Rating and decoding a stream of fewer than `2 ^ 63` bytes is safe. -/
structure Format.IsSafe (format : Format) : Prop where
  rate : ∀ source src, src.1.length < 2 ^ 63 →
    Safe Stream.source src (fun _ => True) (format.rate source)
  decode : ∀ source i, i.1.1.length < 2 ^ 63 →
    Safe Session.input i (fun _ => True) (format.decode source)

/-! ### XARC -/

namespace Xarc

theorem safe_rate : Safe Stream.source src (fun _ => True) (rate source) := by
  have hmax := Word.max_eq
  refine (safe_leadingBytes 4).bind fun _ _ => safe_u32.bind fun count hcount => ?_
  refine safe_length.bind fun length _ => ?_
  refine Safe.value (Checked.product_of_le (by rw [recordSize]; omega)) ?_
  refine Safe.value (Checked.sum_of_le (by rw [recordSize, headerSize]; omega)) ?_
  refine Safe.ite (fun _ => safe_pure trivial) fun hroom => ?_
  refine safe_u32.bind fun offset hoffset => safe_u32.bind fun size hsize => ?_
  refine Safe.value (Checked.sum_of_le (by omega)) (safe_u32.bind fun _ _ => ?_)
  -- the subtraction is made only where the table has been seen to fit
  have hle : headerSize + count * recordSize ≤ length := by
    simp only [Bool.or_eq_true, decide_eq_true_eq, not_or, Nat.not_lt] at hroom
    exact hroom.2
  exact Safe.value (Checked.difference_of_le hle) (safe_pure trivial)

theorem safe_readRecord : Safe Stream.source src (fun _ => True) readRecord :=
  safe_u32.bind fun _ _ => safe_u32.bind fun _ _ => safe_u32.bind fun _ _ =>
    safe_u32.bind fun _ _ => (safe_checkRange _ _ _).bind fun _ _ => safe_pure trivial

theorem eq_advance_of_readRecord {s t : Stream} {record : Record}
    (h : readRecord s = .ok record t) : t = s.advance recordSize := by
  simp only [readRecord, bind_eq_ok, u32_eq_ok, checkRange_eq_ok, pure_eq_ok] at h
  obtain ⟨_, _, ⟨-, -, rfl⟩, _, _, ⟨-, -, rfl⟩, _, _, ⟨-, -, rfl⟩, _, _, ⟨-, -, rfl⟩, _, _,
    ⟨-, -, rfl⟩, -, rfl⟩ := h
  simp only [Stream.advance_advance]
  rfl

/-- The first half of a decode: the records, and the position behind them. -/
def readRecords : Decode (List Record × ℕ) := do
  let declared ← Reader.u32
  let count ← Decode.checkCount declared recordSize (← Reader.remaining)
  let records ← Decode.readTable count fun _ => return .entry (← Decode.ofReader readRecord)
  let blobStart ← Reader.offset
  return (records, blobStart)

theorem decode_eq (source : Location) : decode source = (do
    Reader.skip magic.length
    let (records, blobStart) ← readRecords
    let blobSize ← Checked.difference (← Reader.length) blobStart
    let names ← Reader.namesFromBlob blobStart blobSize (records.map Record.nameOffset)
    return records.zipWith (toEntry source) names) := by
  simp only [decode, readRecords, bind_assoc, pure_bind]

/-- The records that were counted were all read, so the position behind them lies in the stream. -/
theorem position_le_of_readRecords {x y : Session} {result : List Record × ℕ}
    (hsize : x.stream.length < 2 ^ 63) (h : readRecords x = .ok result y) :
    result.2 ≤ x.stream.length := by
  simp only [readRecords, bind_eq_ok, liftReader_eq_ok, u32_eq_ok, remaining_eq_ok,
    checkCount_eq_ok, offset_eq_ok, pure_eq_ok] at h
  obtain ⟨declared, _, ⟨_, ⟨hfour, -, rfl⟩, rfl⟩, _, _, ⟨_, ⟨rfl, rfl⟩, rfl⟩, count, _,
    ⟨-, hfits, rfl, rfl⟩, records, z, htable, _, _, ⟨_, ⟨rfl, rfl⟩, rfl⟩, rfl, rfl⟩ := h
  obtain ⟨hend, -, -⟩ := Tables.of_readEntries (fun _ _ _ _ => eq_advance_of_readRecord) htable
  have hahead := x.stream.length_ahead_le
  have hmax := Word.max_eq
  have hposition : z.stream.position = x.stream.position + 4 + recordSize * declared := by
    rw [hend]
    rfl
  simp only [Stream.remaining, Stream.length_advance, Stream.position_advance, Word.satMul,
    recordSize] at hahead hfits hposition
  show z.stream.position ≤ _
  omega

theorem safe_readRecords (hsize : i.1.1.length < 2 ^ 63) :
    Safe Session.input i (fun result => result.2 ≤ i.1.1.length) readRecords := by
  have hsafe : Safe Session.input i (fun _ => True) readRecords := by
    refine (safe_liftReader safe_u32).bind fun _ _ => (safe_liftReader safe_remaining).bind fun _ _ => ?_
    refine (safe_checkCount _ _ _).bind fun _ _ => ?_
    refine (Tables.safe_readEntries fun _ => safe_readRecord).bind fun _ _ => ?_
    exact (safe_liftReader safe_offset).bind fun _ _ => safe_pure trivial
  refine ⟨fun x hx => ⟨(hsafe.ensures x hx).1, fun result y h => ?_⟩, hsafe.no_overflow⟩
  subst hx
  exact position_le_of_readRecords hsize h

theorem isSafe : format.IsSafe where
  rate := fun _ _ _ => safe_rate
  decode := by
    intro source i hsize
    show Safe Session.input i _ (decode source)
    rw [decode_eq]
    refine (safe_liftReader (safe_skip _)).bind fun _ _ => ?_
    refine (safe_readRecords hsize).bind fun result hle => ?_
    obtain ⟨records, blobStart⟩ := result
    refine (safe_liftReader safe_length).bind fun length hlength => ?_
    refine Safe.value_decode (Checked.difference_of_le (by rw [hlength]; exact hle)) ?_
    exact (safe_liftReader (safe_namesFromBlob _ _ _)).bind fun _ _ => safe_pure trivial

end Xarc

/-! ### Offset lists -/

namespace Ofs

theorem safe_lastOfRising (count previous : ℕ) :
    Safe Stream.source src (fun _ => True) (lastOfRising count previous) := by
  induction count generalizing previous with
  | zero => exact safe_pure trivial
  | succ count ih =>
    exact safe_u32.bind fun _ _ => Safe.ite (fun _ => safe_pure trivial) fun _ => ih _

theorem safe_rate : Safe Stream.source src (fun _ => True) (rate source) := by
  have hconsistent : Safe Stream.source src (fun _ => True) isConsistent := by
    refine (safe_seek 0).bind fun _ _ => safe_u32.bind fun _ _ => safe_length.bind fun _ _ => ?_
    refine Safe.ite (fun _ => safe_pure trivial) fun _ => ?_
    exact (safe_lastOfRising _ _).bind fun _ _ => safe_pure trivial
  exact hconsistent.bind fun _ _ => safe_pure trivial

theorem safe_listEntries (index : ℕ) (ps : List (ℕ × ℕ)) :
    Safe Session.input i (fun _ => True) (listEntries source index ps) := by
  induction ps generalizing index with
  | nil => exact safe_pure trivial
  | cons p ps ih =>
    exact (safe_report _).bind fun _ _ => (ih _).bind fun _ _ => safe_pure trivial

theorem isSafe : format.IsSafe where
  rate := fun _ _ _ => safe_rate
  decode := by
    intro source i _
    refine (safe_liftReader safe_u32).bind fun first _ => Safe.guard (by simp) fun _ => ?_
    refine (safe_liftReader safe_length).bind fun _ _ => (safe_checkCount _ _ _).bind fun _ _ => ?_
    refine (safe_liftReader (safe_seek _)).bind fun _ _ => ?_
    refine (safe_liftReader (safe_offsetTable _)).bind fun offsets _ => Safe.guard (by simp) fun _ => ?_
    refine Safe.optional (safe_report _) ?_
    refine (safe_ofReader (safe_ofExcept (Listing.lengths_ne_overflow _ _))).bind fun _ _ => ?_
    exact (safe_listEntries _ _).bind fun _ _ => Listing.safe_named _ _

end Ofs

/-! ### DTRE -/

namespace Dtre

theorem safe_rate : Safe Stream.source src (fun _ => True) (rate source) := by
  have hmax := Word.max_eq
  refine (safe_leadingBytes 4).bind fun _ _ => safe_u32.bind fun root hroot => ?_
  refine Safe.value (Checked.sum_of_le (by rw [minNodeSize]; omega)) ?_
  refine safe_length.bind fun _ _ => Safe.ite (fun _ => safe_pure trivial) fun _ => ?_
  exact (safe_seek _).bind fun _ _ => safe_u8.bind fun _ _ => safe_pure trivial

/-- The table of a folder is at an offset of 32 bits. -/
theorem safe_readNode : Safe Stream.source src TreeNode.IsNarrow (readNode source) := by
  refine safe_u8.bind fun kind _ => safe_u8.bind fun _ _ => (safe_fixedString _).bind fun name _ => ?_
  refine Safe.ite (fun _ => ?_) fun _ => Safe.ite (fun _ => ?_) fun _ => safe_throw (by simp)
  · refine safe_u32.bind fun _ _ => safe_u32.bind fun _ _ => (safe_checkRange _ _ _).bind fun _ _ => ?_
    refine safe_pure ?_
    rintro name offset ⟨⟩
  · refine safe_u32.bind fun _ hoffset => safe_pure ?_
    rintro name offset ⟨⟩
    exact hoffset

theorem safe_readNodes (count : ℕ) {found : Array TreeNode} (hfound : ∀ node ∈ found, node.IsNarrow) :
    Safe Stream.source src
      (fun nodes => nodes.size = found.size + count ∧ ∀ node ∈ nodes, node.IsNarrow)
      (readNodes source count found) := by
  induction count generalizing found with
  | zero => exact safe_pure ⟨rfl, hfound⟩
  | succ count ih =>
    refine safe_readNode.bind fun node hnode => (ih fun n hn => ?_).mono fun nodes ⟨hsize, hall⟩ => ?_
    · rcases Array.mem_push.mp hn with hn | rfl
      · exact hfound n hn
      · exact hnode
    · refine ⟨?_, hall⟩
      rw [hsize, Array.size_push]
      omega

theorem safe_readFolder (offset : ℕ) : Safe Session.input i
    (fun nodes => nodes.length < 2 ^ 32 ∧ ∀ node ∈ nodes, node.IsNarrow)
    (readFolder source offset) := by
  refine (safe_liftReader (safe_seek _)).bind fun _ _ => ?_
  refine (safe_liftReader safe_u32).bind fun declared hdeclared => ?_
  refine (safe_liftReader safe_remaining).bind fun _ _ => ?_
  refine (safe_checkCount _ _ _).bind fun count ⟨hcount, _⟩ => ?_
  subst hcount
  refine (safe_liftReader (safe_readNodes _ fun _ h => absurd h (Array.not_mem_empty _))).bind
    fun nodes ⟨hsize, hall⟩ => safe_pure ⟨?_, fun node hnode => hall node (Array.mem_toList_iff.mp hnode)⟩
  rw [Array.length_toList, hsize, Array.size_empty, Nat.zero_add]
  exact hdeclared

theorem isSafe : format.IsSafe where
  rate := fun _ _ _ => safe_rate
  decode := by
    intro source i _
    refine (safe_liftReader (safe_skip _)).bind fun _ _ => ?_
    refine (safe_liftReader safe_u32).bind fun _ _ => ?_
    refine (safe_liftReader (safe_checkRange _ _ _)).bind fun _ _ => ?_
    refine (safe_liftReader (safe_seek _)).bind fun _ _ => ?_
    refine (safe_liftReader safe_readNode).bind fun node hnode => ?_
    cases node with
    | file name e => exact safe_throw (by simp)
    | folder name offset =>
      exact Walks.safe_walkTree safe_readFolder name (hnode name offset rfl) (by decide)

end Dtre

/-! ### TRE -/

namespace Tre

theorem safe_little32 : Safe Stream.source src (fun _ => True) Reader.little32 :=
  (safe_wordIn _ _).mono fun _ _ => trivial

theorem safe_treCompression : Safe Stream.source src (fun _ => True) Reader.treCompression := by
  refine safe_offset.bind fun _ _ => safe_little32.bind fun code _ => ?_
  cases Compression.ofCode? code with
  | some c => exact safe_pure trivial
  | none => exact safe_throw (by simp)

theorem safe_treHeader : Safe Stream.source src Header.IsNarrow Reader.treHeader := by
  have hsafe : Safe Stream.source src (fun _ => True) Reader.treHeader := by
    refine safe_asRecord (safe_offset.bind fun _ _ => (safe_exactly _).bind fun _ _ => ?_)
    refine Safe.guard (by simp) fun _ => safe_little32.bind fun _ _ => safe_little32.bind fun _ _ => ?_
    refine safe_treCompression.bind fun _ _ => safe_little32.bind fun _ _ => ?_
    refine safe_treCompression.bind fun _ _ => safe_little32.bind fun _ _ => ?_
    exact safe_little32.bind fun _ _ => safe_pure trivial
  exact ⟨ensures_treHeader, hsafe.no_overflow⟩

theorem safe_treRecord : Safe Stream.source src (fun _ => True) Reader.treRecord := by
  refine safe_asRecord (safe_little32.bind fun _ _ => safe_little32.bind fun _ _ => ?_)
  refine safe_little32.bind fun _ _ => safe_treCompression.bind fun _ _ => ?_
  exact safe_little32.bind fun _ _ => safe_little32.bind fun _ _ => safe_pure trivial

theorem safe_rate : Safe Stream.source src (fun _ => True) (rate source) := by
  have hmax := Word.max_eq
  refine (safe_leadingBytes _).bind fun _ _ => Safe.ite (fun _ => safe_pure trivial) fun _ => ?_
  refine (safe_seek _).bind fun _ _ => safe_treHeader.bind fun header hheader => ?_
  have hrecords := hheader.records_lt
  refine safe_length.bind fun _ _ => ?_
  refine Safe.value (Checked.product_of_le (by rw [recordSize]; omega)) ?_
  exact Safe.value hheader.offsets_eq.2 (safe_pure trivial)

/-- If there are digests, there is one for each record. -/
theorem safe_readHashes {header : Header} (hheader : header.IsNarrow) :
    Safe Session.input i
      (fun hashes => ∀ bytes, hashes = some bytes → bytes.length = header.records * hashSize)
      (readHashes header) := by
  have hmax := Word.max_eq
  have hrecords := hheader.records_lt
  refine Safe.value_decode (Checked.product_of_le (by rw [hashSize]; omega)) ?_
  refine Safe.value_decode hheader.offsets_eq.2 ?_
  refine (safe_liftReader safe_length).bind fun _ _ => Safe.ite (fun _ => ?_) fun _ => ?_
  · refine (safe_liftReader (safe_seek _)).bind fun _ _ => ?_
    refine (safe_liftReader (safe_bytes _)).bind fun bytes hlength => safe_pure ?_
    rintro _ ⟨⟩
    exact hlength
  · refine (safe_report _).bind fun _ _ => safe_pure ?_
    rintro _ ⟨⟩

/-- The digest of each record lies in the block of digests. -/
theorem safe_listEntries {hashes : Option Bytes} {index : ℕ} {pairs : List (Record × String)}
    (hhashes : ∀ bytes, hashes = some bytes →
      (index + pairs.length) * hashSize ≤ bytes.length ∧ bytes.length ≤ Word.max) :
    Safe Session.input i (fun _ => True) (listEntries source hashes index pairs) := by
  induction pairs generalizing index with
  | nil => exact safe_pure trivial
  | cons p pairs ih =>
    obtain ⟨record, name⟩ := p
    have hrest : Safe Session.input i (fun _ => True)
        (listEntries source hashes (index + 1) pairs) := by
      refine ih fun bytes hbytes => ?_
      obtain ⟨hfits, hword⟩ := hhashes bytes hbytes
      rw [List.length_cons] at hfits
      exact ⟨by rwa [show index + 1 + pairs.length = index + (pairs.length + 1) by omega], hword⟩
    rw [listEntries]
    refine Safe.optional (safe_report _) ?_
    cases hashes with
    | none => exact (safe_pure (P := fun _ => True) trivial).bind fun _ _ =>
        hrest.bind fun _ _ => safe_pure trivial
    | some bytes =>
      obtain ⟨hfits, hword⟩ := hhashes bytes rfl
      simp only [List.length_cons, hashSize] at hfits
      refine Safe.value_decode (Checked.product_of_le (by rw [hashSize]; omega)) ?_
      have hpart : part bytes (index * hashSize) hashSize ≠ .error .overflow := by
        rw [part_of_le (by rw [hashSize]; omega) (by rw [hashSize]; omega)]
        simp
      refine (safe_ofReader (safe_ofExcept hpart)).bind fun _ _ => ?_
      exact (safe_pure (P := fun _ => True) trivial).bind fun _ _ =>
        hrest.bind fun _ _ => safe_pure trivial

theorem isSafe : format.IsSafe where
  rate := fun _ _ _ => safe_rate
  decode := by
    intro source i _
    have hmax := Word.max_eq
    refine (safe_liftReader safe_treHeader).bind fun header hheader => ?_
    have hrecords := hheader.records_lt
    refine (safe_checkCount _ _ _).bind fun count ⟨hcount, _⟩ => ?_
    subst hcount
    refine Safe.optional (safe_checkCount _ _ _) ?_
    refine Safe.value_decode (Checked.product_of_le (by rw [recordSize]; omega)) ?_
    refine (safe_liftReader (safe_openDirectory _ _ _ _)).bind fun block _ => ?_
    refine (safe_onStream (Tables.safe_readEntries fun _ => safe_treRecord)).bind
      fun result hlength => ?_
    obtain ⟨records, _⟩ := result
    refine Safe.value_decode hheader.offsets_eq.1 ?_
    refine (safe_liftReader (safe_openDirectory _ _ _ _)).bind fun block _ => ?_
    refine (safe_onStream (safe_ofReader (safe_namesFromBlob _ _ _))).bind fun result _ => ?_
    obtain ⟨names, _⟩ := result
    refine (safe_readHashes hheader).bind fun hashes hhashes => safe_listEntries fun bytes hbytes => ?_
    have hle : (records.zip names).length ≤ header.records := by
      rw [List.length_zip]
      exact Nat.le_trans (Nat.min_le_left _ _) hlength.1
    rw [hhashes bytes hbytes, hashSize]
    omega

end Tre

/-! ### RPAK -/

namespace Rpak

theorem safe_rate : Safe Stream.source src (fun _ => True) (rate source) := by
  have hmax := Word.max_eq
  refine (safe_leadingBytes 4).bind fun _ _ => safe_u32.bind fun _ _ => ?_
  refine safe_u32.bind fun count hcount => safe_u32.bind fun directory hdirectory => ?_
  refine Safe.value (Checked.product_of_le (by rw [slotSize]; omega)) ?_
  refine Safe.value (Checked.sum_of_le (by rw [headerSize]; omega)) ?_
  exact safe_length.bind fun _ _ => safe_pure trivial

theorem safe_readSlot : Safe Stream.source src (fun _ => True) readSlot :=
  (safe_fixedString _).bind fun _ _ => safe_u32.bind fun _ _ => safe_u32.bind fun _ _ =>
    safe_u32.bind fun _ _ => safe_u32.bind fun _ _ => safe_pure trivial

theorem action_ne_overflow (slot : Slot) (length : ℕ) :
    slot.action source length ≠ .error .overflow := by
  rw [Slot.action]
  split_ifs <;> simp [Reader.rangeError]

theorem isSafe : format.IsSafe where
  rate := fun _ _ _ => safe_rate
  decode := by
    intro source i _
    have hmax := Word.max_eq
    refine (safe_liftReader (safe_skip _)).bind fun _ _ => ?_
    refine (safe_liftReader safe_u32).bind fun _ _ => Safe.guard (by simp) fun _ => ?_
    refine (safe_liftReader safe_u32).bind fun declared hdeclared => ?_
    refine (safe_liftReader safe_u32).bind fun size _ => ?_
    refine (safe_liftReader safe_remaining).bind fun _ _ => ?_
    refine (safe_checkCount _ _ _).bind fun count ⟨hcount, _⟩ => ?_
    subst hcount
    refine Safe.value_decode (Checked.product_of_le (by rw [slotSize]; dsimp only; omega)) ?_
    refine Safe.guard (by simp) fun _ => ?_
    refine (safe_liftReader (safe_openDirectory _ _ _ _)).bind fun directory _ => ?_
    refine (safe_liftReader safe_length).bind fun length _ => ?_
    refine (safe_onStream (Tables.safe_readTable (P := fun _ => True) fun _ => ?_)).bind
      fun _ _ => safe_pure trivial
    refine (safe_ofReader safe_readSlot).bind fun slot _ => ?_
    exact (safe_ofReader (safe_ofExcept (action_ne_overflow slot length))).mono fun _ _ _ _ => trivial

end Rpak

/-! ### SPK -/

namespace Spk

theorem safe_rate : Safe Stream.source src (fun _ => True) (rate source) := by
  have hmax := Word.max_eq
  refine (safe_leadingBytes 4).bind fun _ _ => safe_u16.bind fun _ _ => ?_
  refine safe_u16.bind fun folders hfolders => safe_u32.bind fun files hfiles => ?_
  refine Safe.value (Checked.product_of_le (by rw [folderSize]; omega)) ?_
  refine Safe.value (Checked.product_of_le (by rw [fileSize]; omega)) ?_
  refine Safe.value (Checked.sum_of_le (by rw [folderSize, headerSize]; omega)) ?_
  refine Safe.value (Checked.sum_of_le (by rw [folderSize, fileSize, headerSize]; omega)) ?_
  exact safe_length.bind fun _ _ => safe_pure trivial

/-- The first file of a folder has an index of 32 bits. -/
theorem safe_readFolder (index : ℕ) :
    Safe Stream.source src (fun folder => folder.first < 2 ^ 32) (readFolder index) := by
  refine (safe_fixedString _).bind fun _ _ => safe_u32.bind fun _ _ => Safe.guard (by simp) fun _ => ?_
  exact safe_u32.bind fun _ hfirst => safe_u32.bind fun _ _ => safe_pure hfirst

theorem safe_readFile (parts : ℕ) : Safe Stream.source src
    (fun file => file.part < parts ∧ file.IsNarrow) (readFile parts) := by
  refine safe_u32.bind fun _ _ => safe_u16.bind fun part _ => safe_u16.bind fun _ _ => ?_
  refine safe_u32.bind fun _ hoffset => safe_u32.bind fun _ hstored => safe_u32.bind fun _ _ => ?_
  refine Safe.guard (by simp) fun hpart => Safe.guard (by simp) fun _ => ?_
  exact safe_pure ⟨Nat.lt_of_not_le hpart, hoffset, hstored⟩

/-- Numbers of parts have 16 bits, and one more does not need another. -/
theorem openParts_ne_overflow {files : FileTree} {directory : String} {count index : ℕ}
    (h : index + count ≤ Word.max16) :
    openParts files directory count index ≠ .error .overflow := by
  induction count generalizing index with
  | zero =>
    intro h
    cases h
  | succ count ih =>
    have hrest : openParts files directory count (index + 1) ≠ .error .overflow := ih (by omega)
    cases hlength : files.length (partPath index directory) with
    | error problem => simp [openParts_of_error hlength]
    | ok length =>
      rw [openParts_of_length hlength, Checked.within_of_le (by omega)]
      cases hparts : openParts files directory count (index + 1) with
      | error e =>
        rw [hparts] at hrest
        exact hrest
      | ok rest =>
        intro h
        cases h

theorem length_of_openParts {files : FileTree} {directory : String} {count index : ℕ}
    {parts : List Location} (h : openParts files directory count index = .ok parts) :
    parts.length = count := by
  induction count generalizing index parts with
  | zero =>
    cases h
    rfl
  | succ count ih =>
    obtain ⟨_, rest, -, -, hrest, rfl⟩ := openParts_succ_eq_ok.mp h
    rw [List.length_cons, ih hrest]

/-- A parent comes before its folder, so its path is known, and a run that lies in the table of files
is a part of it. -/
theorem applyFrom_ne_overflow {folders : List FolderRange}
    (hfirst : ∀ folder ∈ folders, folder.first ≤ Word.max) (paths names : List String) :
    (FolderRange.applyFrom paths folders names).2 ≠ some .overflow := by
  induction folders generalizing paths names with
  | nil => simp [FolderRange.applyFrom]
  | cons folder folders ih =>
    have hpath : folder.path paths paths.length ≠ .error .overflow := by
      rw [FolderRange.path]
      cases folder.parent with
      | none => simp
      | some parent =>
        dsimp only
        split
        · next hlt =>
          rw [Checked.item_of_getElem? (List.getElem?_eq_getElem hlt)]
          intro h
          cases h
        · simp
    rw [FolderRange.applyFrom]
    cases hcase : folder.path paths paths.length with
    | error e =>
      rw [hcase] at hpath
      simpa using hpath
    | ok path =>
      dsimp only
      split
      · simp
      · next hstop =>
        have hle : folder.first ≤ Word.satAdd folder.first folder.count :=
          le_min (Nat.le_add_right _ _) (hfirst folder List.mem_cons_self)
        have hmark : ∃ marked, FolderRange.mark path folder.first
            (Word.satAdd folder.first folder.count) names = .ok marked := by
          rw [FolderRange.mark, Checked.slice_of_le hle (by omega)]
          exact ⟨_, rfl⟩
        obtain ⟨marked, hmark⟩ := hmark
        rw [hmark]
        exact ih (fun f hf => hfirst f (List.mem_cons_of_mem _ hf)) _ _

theorem toEntry_ne_overflow {parts : List Location} {file : FileRecord} (name : String)
    (hpart : file.part < parts.length) (hfile : file.IsNarrow) :
    toEntry parts file name ≠ .error .overflow := by
  have hsum : Checked.sum file.offset file.stored = .ok (file.offset + file.stored) := by
    have hoffset := hfile.offset_lt
    have hstored := hfile.stored_lt
    have hmax := Word.max_eq
    exact Checked.sum_of_le (by omega)
  rw [toEntry, List.getElem?_eq_getElem hpart]
  dsimp only
  split_ifs
  · rw [hsum]
    intro h
    cases h
  · simp
  · simp
  · simp

theorem listEntries_ne_overflow {parts : List Location} {pairs : List (FileRecord × String)}
    (h : ∀ p ∈ pairs, p.1.part < parts.length ∧ p.1.IsNarrow) :
    listEntries parts pairs ≠ .error .overflow := by
  induction pairs with
  | nil => simp [listEntries]
  | cons p pairs ih =>
    obtain ⟨file, name⟩ := p
    obtain ⟨hpart, hfile⟩ := h _ List.mem_cons_self
    have hentry := toEntry_ne_overflow name hpart hfile
    have hrest := ih fun q hq => h q (List.mem_cons_of_mem _ hq)
    rw [listEntries]
    cases hcase : toEntry parts file name with
    | error e =>
      rintro ⟨⟩
      exact hentry hcase
    | ok e =>
      cases hpairs : listEntries parts pairs with
      | error e =>
        rw [hpairs] at hrest
        exact hrest
      | ok rest =>
        intro h
        cases h

theorem isSafe : format.IsSafe where
  rate := fun _ _ _ => safe_rate
  decode := by
    intro source i _
    show Safe Session.input i _ (decode source)
    rw [decode]
    cases source.path with
    | none => exact safe_throw (by simp)
    | some directory =>
      refine (safe_liftReader (safe_skip _)).bind fun _ _ => ?_
      refine (safe_liftReader safe_u16).bind fun partCount hparts => ?_
      refine (safe_liftReader safe_u16).bind fun _ _ => (safe_liftReader safe_u32).bind fun _ _ => ?_
      refine (safe_liftReader safe_remaining).bind fun _ _ => ?_
      refine (safe_checkCount _ _ _).bind fun _ _ => ?_
      refine (Tables.safe_readEntries safe_readFolder).bind fun folders hread => ?_
      obtain ⟨-, hfolders⟩ := hread
      refine (safe_liftReader safe_remaining).bind fun _ _ => ?_
      refine (safe_checkCount _ _ _).bind fun _ _ => ?_
      refine (Tables.safe_readEntries fun _ => safe_readFile partCount).bind
        fun records hread => ?_
      obtain ⟨-, hrecords⟩ := hread
      refine safe_files.bind fun reachable _ => ?_
      have hopen : openParts reachable directory partCount 0 ≠ .error .overflow := by
        refine openParts_ne_overflow ?_
        have hmax : Word.max16 = 65535 := rfl
        omega
      refine (safe_ofReader (safe_ofExcept hopen)).bind fun parts hopened => ?_
      refine Safe.bind (P := fun _ => True)
        (Safe.ite (fun _ => safe_pure trivial) fun _ => safe_names) fun table _ => ?_
      have hfirst : ∀ folder ∈ folders, folder.first ≤ Word.max := by
        intro folder hfolder
        have := hfolders folder hfolder
        rw [Word.max_eq]
        omega
      have happly := applyFrom_ne_overflow hfirst [] (records.map fun file => fileName table file.hash)
      split
      · next e heq =>
        rw [FolderRange.applyAll] at heq
        rw [heq] at happly
        exact safe_throw fun he => happly (by rw [he])
      · refine (safe_ofReader (safe_ofExcept (listEntries_ne_overflow fun p hp => ?_))).mono
          fun _ _ => trivial
        obtain ⟨hpart, hnarrow⟩ := hrecords p.1 (List.of_mem_zip hp).1
        exact ⟨by rwa [length_of_openParts hopened], hnarrow⟩

end Spk

/-! ### SPRB -/

namespace Sprb

theorem safe_rate : Safe Stream.source src (fun _ => True) (rate source) := by
  have hmax := Word.max_eq
  refine (safe_leadingBytes 4).bind fun _ _ => safe_u16.bind fun slots hslots => ?_
  refine safe_u16.bind fun palettes hpalettes => ?_
  refine Safe.value (Checked.product_of_le (by rw [paletteSize]; omega)) ?_
  refine Safe.value (Checked.product_of_le (by omega)) ?_
  refine Safe.value (Checked.sum_of_le (by rw [paletteSize, headerSize]; omega)) ?_
  refine Safe.value (Checked.sum_of_le (by rw [paletteSize, headerSize]; omega)) ?_
  exact safe_length.bind fun _ _ => safe_pure trivial

theorem safe_readPalettes {count number : ℕ} (h : number + count ≤ Word.max32) :
    Safe Session.input i (fun _ => True) (readPalettes count number) := by
  induction count generalizing number with
  | zero => exact safe_pure trivial
  | succ count ih =>
    refine (safe_liftReader (safe_bytes _)).bind fun _ _ => ?_
    refine Safe.value_decode (Checked.within_of_le (by omega)) ?_
    exact (safe_addPalette _).bind fun _ _ => ih (by omega)

theorem safe_listSprites {slot : ℕ} (index : ℕ) {offsets : List ℕ}
    (h : slot + offsets.length ≤ Word.max32) :
    Safe Session.input i (fun _ => True) (listSprites source slot index offsets) := by
  induction offsets generalizing slot index with
  | nil => exact safe_pure trivial
  | cons offset offsets ih =>
    rw [List.length_cons] at h
    have hrest (index : ℕ) : Safe Session.input i (fun _ => True)
        (listSprites source (slot + 1) index offsets) := ih index (by omega)
    rw [listSprites]
    refine Safe.ite (fun _ => hrest _) fun _ => ?_
    refine (safe_liftReader (safe_checkRange _ _ _)).bind fun _ _ => (safe_report _).bind fun _ _ => ?_
    refine Safe.value_decode (Checked.within_of_le (by omega)) ?_
    exact (hrest _).bind fun _ _ => safe_pure trivial

theorem safe_describe (palettes : List Palette) (paletteCount : ℕ) {e : Entry}
    (he : e.offset < 2 ^ 32) :
    Safe Stream.source src (fun _ => True) (describe palettes paletteCount e) := by
  have hmax := Word.max_eq
  refine Safe.value (Checked.sum_of_le (by omega)) ((safe_seek _).bind fun _ _ => ?_)
  refine safe_u16.bind fun _ _ => safe_u16.bind fun _ _ => safe_u8.bind fun number _ => ?_
  cases palettes[number]? with
  | none => exact safe_throw (by simp)
  | some palette => exact safe_pure trivial

theorem isSafe : format.IsSafe where
  rate := fun _ _ _ => safe_rate
  decode := by
    intro source i _
    have hmax : Word.max32 = 4294967295 := rfl
    refine (safe_liftReader (safe_skip _)).bind fun _ _ => ?_
    refine (safe_liftReader safe_u16).bind fun slots hslots => ?_
    refine (safe_liftReader safe_u16).bind fun palettes hpalettes => ?_
    refine (safe_liftReader safe_remaining).bind fun _ _ => ?_
    refine (safe_checkCount _ _ _).bind fun paletteCount ⟨hcount, _⟩ => ?_
    subst hcount
    refine (safe_readPalettes (by dsimp only; omega)).bind fun _ _ => ?_
    refine (safe_liftReader safe_remaining).bind fun _ _ => ?_
    refine (safe_checkCount _ _ _).bind fun slotCount ⟨hcount, _⟩ => ?_
    subst hcount
    refine (safe_liftReader (safe_offsetTable _)).bind fun offsets ⟨hlength, hoffsets⟩ => ?_
    refine ((safe_listSprites 0 (by rw [hlength]; dsimp only; omega)).and
      (ensures_listSprites source 0 0 offsets)).bind fun entries ⟨_, _, hall⟩ => ?_
    refine (safe_liftReader ((Listing.safe_updateEach (Listing.safe_scanLength (by decide))
      entries).and (Listing.ensures_updateEach (Listing.keeps_scanLength spriteLength)
        entries))).bind fun scanned ⟨hne, hscanned⟩ => ?_
    refine (safe_ofReader (safe_ofExcept hne)).bind fun found hfound => ?_
    have hupdated := hscanned found (Listing.orFail_eq_ok.mp hfound)
    refine safe_get.bind fun x _ => ?_
    -- scanning does not move an entry
    have hnarrow : ∀ e ∈ found, e.offset < 2 ^ 32 := by
      intro e he
      obtain ⟨e₀, he₀, u, v, hscan⟩ := exists_of_forall₂ hupdated he
      obtain ⟨stated, -, rfl⟩ := Listing.of_scanLength hscan
      exact hoffsets _ (hall e₀ he₀).2.2
    refine (safe_mapM fun e he => safe_ofReader (safe_describe _ _ (hnarrow e he))).bind fun _ _ => ?_
    exact Listing.safe_named _ _

end Sprb

/-! ### LUMP -/

namespace Lump

theorem safe_rate : Safe Stream.source src (fun _ => True) (rate source) :=
  (safe_leadingBytes 4).bind fun _ _ => safe_u32.bind fun _ _ => safe_length.bind fun _ _ =>
    safe_pure trivial

/-- The data of the records so far end before the directory, and the next record keeps it so. -/
theorem safe_readRecord {directory next : ℕ} (hdirectory : directory < 2 ^ 32)
    (hnext : next ≤ directory) :
    Safe Stream.source src (fun result => result.2 ≤ directory)
      (readRecord source directory next) := by
  have hmax := Word.max_eq
  refine (safe_fixedString _).bind fun name _ => safe_u32.bind fun length hlength => ?_
  refine Safe.ite (fun _ => safe_pure hnext) fun _ => ?_
  refine Safe.value (Checked.sum_of_le (by omega)) (Safe.guard (by simp) fun hstop => ?_)
  exact Safe.ite (fun _ => safe_pure (Nat.le_of_not_lt hstop)) fun _ =>
    safe_pure (Nat.le_of_not_lt hstop)

theorem isSafe : format.IsSafe where
  rate := fun _ _ _ => safe_rate
  decode := by
    intro source i hsize
    refine (safe_liftReader (safe_skip _)).bind fun _ _ => ?_
    refine (safe_liftReader safe_u32).bind fun directory hdirectory => ?_
    refine (safe_liftReader safe_length).bind fun _ _ => Safe.guard (by simp) fun hstart => ?_
    refine (safe_liftReader (safe_seek _)).bind fun _ _ => ?_
    have hread : ∀ next (_ : ℕ), next ≤ directory → Safe Session.input i
        (fun result => result.2 ≤ directory)
        (Decode.ofReader (readRecord source directory next)) :=
      fun _ _ hnext => safe_ofReader (safe_readRecord hdirectory hnext)
    refine Walks.safe_readUntil hread ?_ hsize
    simp only [isDirectory, Bool.not_eq_true', Bool.not_eq_false, Bool.and_eq_true,
      decide_eq_true_eq] at hstart
    exact hstart.1

end Lump

/-! ### All formats -/

/-- **Every format of the library is safe.** -/
theorem Format.isSafe_of_mem {format : Format} (h : format ∈ Registry.standard.formats) :
    format.IsSafe := by
  simp only [Registry.standard, List.mem_cons, List.not_mem_nil, or_false] at h
  rcases h with rfl | rfl | rfl | rfl | rfl | rfl | rfl | rfl
  · exact Xarc.isSafe
  · exact Ofs.isSafe
  · exact Dtre.isSafe
  · exact Tre.isSafe
  · exact Rpak.isSafe
  · exact Spk.isSafe
  · exact Sprb.isSafe
  · exact Lump.isSafe

/-- Reading a directory is as safe as decoding it. -/
theorem Format.IsSafe.readDirectory {format : Format} (h : format.IsSafe)
    (hsize : i.1.1.length < 2 ^ 63) :
    Safe Session.input i (fun _ => True) (format.readDirectory source) := by
  refine Safe.bind (P := fun _ => True) ?_ fun _ _ => ?_
  · have hclear : Keeps Session.input Decode.clearPalettes := fun _ => rfl
    exact hclear.safe fun _ _ _ h => nomatch h
  refine (safe_liftReader (safe_seek 0)).bind fun _ _ => (h.decode source i hsize).bind fun _ _ => ?_
  refine safe_options.bind fun options _ => ?_
  exact (safe_ofReader (safe_ofExcept (Listing.finish_ne_overflow _ _))).mono fun _ _ => trivial

/-- **No decoder leaves the bounds of its numbers.** Over a stream of less than `2 ^ 63` bytes, neither
the rating of a format nor its decoder nor the reading of a whole directory ends with an overflow. -/
theorem Format.never_overflows {format : Format} (h : format ∈ Registry.standard.formats)
    (source : Location) (x : Session) (hsize : x.stream.length < 2 ^ 63) :
    (∀ s, format.rate source x.stream ≠ .error .overflow s) ∧
      (∀ y, format.decode source x ≠ .error .overflow y) ∧
      ∀ y, format.readDirectory source x ≠ .error .overflow y := by
  have hsafe := Format.isSafe_of_mem h
  refine ⟨fun s hs => ?_, fun y hy => ?_, fun y hy => ?_⟩
  · exact (hsafe.rate source x.stream.source hsize).no_overflow x.stream rfl _ s hs rfl
  · exact (hsafe.decode source x.input hsize).no_overflow x rfl _ y hy rfl
  · exact (hsafe.readDirectory (i := x.input) hsize).no_overflow x rfl _ y hy rfl

/-- A table of one record whose numbers are as large as they can be, on storage that fails in it. -/
def Xarc.extreme : Stream :=
  { bytes := Xarc.magic ++ [1, 0, 0, 0] ++ List.replicate 16 0xFF, failAt := some 20 }

theorem Format.never_overflows_extreme :
    (Xarc.format ∈ Registry.standard.formats ∧ Xarc.extreme.length < 2 ^ 63) ∧
      (∀ s, Xarc.format.rate (.memory 24) Xarc.extreme ≠ .error .overflow s) ∧
      (∀ y, Xarc.format.decode (.memory 24) { stream := Xarc.extreme } ≠ .error .overflow y) ∧
      ∀ y, Xarc.format.readDirectory (.memory 24) { stream := Xarc.extreme }
        ≠ .error .overflow y := by
  have hmem : Xarc.format ∈ Registry.standard.formats := List.mem_cons_self
  have hsize : Xarc.extreme.length < 2 ^ 63 := by decide
  exact ⟨⟨hmem, hsize⟩, Format.never_overflows hmem (.memory 24) { stream := Xarc.extreme } hsize⟩

end Packfile
