import Packfile.Format.Tre
import Packfile.Proofs.Inflation
import Packfile.Proofs.Listings
import Packfile.Proofs.Names
import Packfile.Proofs.TreWriting

/-!
# What is known of a TRE directory that was read

A directory of a TRE archive is read from bytes that nobody vouches for. What comes out of it is
nevertheless of a certain kind, whatever the bytes are: the names can be ended by a zero, offsets
and lengths are 32-bit numbers, and the codec is one of two. That is enough to write every entry
again.

## Main definitions

* `Tre.IsListed` — what an entry of a directory is like

## Main results

* `Tre.ensures_decode`, `Tre.of_readDirectory` — every entry of a directory is of that kind
* `Tre.admits_of_decode` — no more of them than a block of records that is not compressed has room for
* `Reading.treHeader_of_ahead`, `Reading.treRecord_of_ahead` — header and records are read back
-/

namespace Packfile

open Run

/-! ### Header and records -/

namespace Reading

variable {s t : Stream} {rest : Bytes} {n : ℕ}

theorem keeps_little32 : Keeps Stream.source Reader.little32 := keeps_wordIn _ _

theorem keeps_treCompression : Keeps Stream.source Reader.treCompression := by
  refine keeps_offset.bind fun start => keeps_little32.bind fun code => ?_
  cases Tre.Compression.ofCode? code with
  | some compression => exact keeps_pure _
  | none => exact keeps_throw _

theorem keeps_treHeader : Keeps Stream.source Reader.treHeader := by
  refine keeps_asRecord (keeps_offset.bind fun _ => (keeps_exactly _).bind fun _ => Keeps.guard ?_)
  exact keeps_little32.bind fun _ => keeps_little32.bind fun _ => keeps_treCompression.bind fun _ =>
    keeps_little32.bind fun _ => keeps_treCompression.bind fun _ => keeps_little32.bind fun _ =>
      keeps_little32.bind fun _ => keeps_pure _

/-- A 32-bit integer in front of what is ahead is read, whatever the order of the stream. -/
theorem little32_of_ahead (hn : n < 2 ^ 32) (h : s.ahead = ByteOrder.little.encode 4 n ++ rest) :
    Reader.little32 s = .ok n (s.advance 4) := by
  refine wordIn_eq_ok.mpr ⟨by simp [h], ?_, rfl⟩
  rw [h, List.take_left' (ByteOrder.length_encode _ _ _)]
  exact (ByteOrder.decode_encode _ hn).symm

/-- An integer of four bytes is below `2 ^ 32`. -/
theorem ensures_little32 {source : Bytes × ByteOrder × Option ℕ} :
    Ensures Stream.source source (· < 2 ^ 32) Reader.little32 :=
  keeps_little32.ensures fun _ _ _ h => lt_of_wordIn h

theorem treCompression_of_ahead {c : Tre.Compression}
    (h : s.ahead = ByteOrder.little.encode 4 c.code ++ rest) :
    Reader.treCompression s = .ok c (s.advance 4) := by
  have hcode : c.code < 2 ^ 32 := by cases c <;> decide
  rw [Reader.treCompression, bind_of_ok (offset_eq_ok.mpr ⟨rfl, rfl⟩),
    bind_of_ok (little32_of_ahead hcode h), Tre.Compression.ofCode?_code]
  rfl

/-- **A header that was written is read back.** -/
theorem treHeader_of_ahead {header : Tre.Header} (hheader : header.IsNarrow)
    (h : s.ahead = header.bytes ++ rest) :
    Reader.treHeader s = .ok header (s.advance Tre.headerSize) := by
  simp only [Tre.Header.bytes, List.flatMap_cons, List.flatMap_nil, List.append_assoc] at h
  have hmagic : Reader.exactly Tre.magic.length s = .ok Tre.magic (s.advance 8) := by
    refine exactly_eq_ok.mpr ⟨?_, ?_, rfl⟩
    · rw [h, List.length_append]
      omega
    · rw [h, List.take_left]
  have h₀ := congrArg (List.drop 8) h
  rw [← Stream.ahead_advance, List.drop_left' (show Tre.magic.length = 8 from rfl)] at h₀
  have h₁ := ahead_of_word h₀
  have h₂ := ahead_of_word h₁
  have h₃ := ahead_of_word h₂
  have h₄ := ahead_of_word h₃
  have h₅ := ahead_of_word h₄
  have h₆ := ahead_of_word h₅
  refine asRecord_eq_ok.mpr ?_
  rw [bind_of_ok (offset_eq_ok.mpr ⟨rfl, rfl⟩), bind_of_ok hmagic, guard_eq_ok]
  refine ⟨by simp, ?_⟩
  refine (bind_of_ok (little32_of_ahead (s := s.advance 8) hheader.records_lt h₀)).trans ?_
  rw [bind_of_ok (little32_of_ahead (s := (s.advance 8).advance 4) hheader.recordStart_lt h₁),
    bind_of_ok (treCompression_of_ahead h₂),
    bind_of_ok (little32_of_ahead hheader.recordCompressed_lt h₃),
    bind_of_ok (treCompression_of_ahead h₄),
    bind_of_ok (little32_of_ahead hheader.nameCompressed_lt h₅),
    bind_of_ok (little32_of_ahead hheader.nameUncompressed_lt h₆)]
  rfl

/-- **A record that was written is read back.** -/
theorem treRecord_of_ahead {r : Tre.Record} (hr : r.IsNarrow) (h : s.ahead = r.bytes ++ rest) :
    Reader.treRecord s = .ok r (s.advance r.bytes.length) := by
  simp only [Tre.Record.bytes, List.flatMap_cons, List.flatMap_nil, List.append_assoc] at h
  have h₁ := ahead_of_word h
  have h₂ := ahead_of_word h₁
  have h₃ := ahead_of_word h₂
  have h₄ := ahead_of_word h₃
  have h₅ := ahead_of_word h₄
  refine asRecord_eq_ok.mpr ?_
  rw [bind_of_ok (little32_of_ahead hr.checksum_lt h),
    bind_of_ok (little32_of_ahead hr.uncompressed_lt h₁),
    bind_of_ok (little32_of_ahead hr.offset_lt h₂),
    bind_of_ok (treCompression_of_ahead h₃),
    bind_of_ok (little32_of_ahead hr.compressed_lt h₄),
    bind_of_ok (little32_of_ahead hr.nameOffset_lt h₅), Tre.length_recordBytes]
  rfl

/-- All numbers of a header that is read have 32 bits. -/
theorem ensures_treHeader {source : Bytes × ByteOrder × Option ℕ} :
    Ensures Stream.source source Tre.Header.IsNarrow Reader.treHeader := by
  refine ensures_asRecord (keeps_offset.then fun _ => (keeps_exactly _).then fun _ => .guard ?_)
  refine fun _ => ensures_little32.bind fun _ hrecords => ensures_little32.bind fun _ hstart => ?_
  refine keeps_treCompression.then fun _ => ensures_little32.bind fun _ hcompressed => ?_
  refine keeps_treCompression.then fun _ => ensures_little32.bind fun _ hnames => ?_
  exact ensures_little32.bind fun _ hblob =>
    ensures_pure ⟨hrecords, hstart, hcompressed, hnames, hblob⟩

/-- All numbers of a record that is read have 32 bits. -/
theorem ensures_treRecord {source : Bytes × ByteOrder × Option ℕ} :
    Ensures Stream.source source Tre.Record.IsNarrow Reader.treRecord := by
  refine ensures_asRecord ?_
  refine ensures_little32.bind fun _ hchecksum => ensures_little32.bind fun _ huncompressed => ?_
  refine ensures_little32.bind fun _ hoffset => keeps_treCompression.then fun _ => ?_
  refine ensures_little32.bind fun _ hcompressed => ensures_little32.bind fun _ hname => ?_
  exact ensures_pure ⟨hchecksum, huncompressed, hoffset, hcompressed, hname⟩

end Reading

/-! ### Directories -/

namespace Tre

open Reading

variable {source : Location} {x y : Session} {found entries : List Entry} {e : Entry}

/-- What every entry of a directory is like. -/
structure IsListed (source : Location) (e : Entry) : Prop where
  source_eq : e.source = source
  codec_eq : ∃ c : Compression, e.codec = c.codec ∧ (c = .none → e.decoded = e.stored)
  stop_le_max : e.offset + e.stored ≤ Word.max
  named : ∃ name, e.name = some name ∧ Utf8.IsPlain name

theorem isListed_toEntry (source : Location) {r : Record} {name : String} (hr : r.IsNarrow)
    (hname : Utf8.IsPlain name) : IsListed source (toEntry source r name) := by
  refine ⟨rfl, ⟨r.compression, rfl, ?_⟩, ?_, name, rfl, hname⟩
  · intro hnone
    simp only [toEntry, hnone]
  · have := hr.offset_lt
    have := hr.compressed_lt
    rw [Word.max_eq]
    show r.offset + r.compressed ≤ _
    omega

/-- There is an entry for each record, and a digest is all that is added to it. -/
theorem ensures_listEntries {i : (Bytes × ByteOrder × Option ℕ) × Options × FileTree}
    (source : Location) (hashes : Option Bytes) (index : ℕ) (pairs : List (Record × String)) :
    Ensures Session.input i
      (fun found => found.length = pairs.length ∧
        ∀ e ∈ found, ∃ p ∈ pairs, ∃ properties, e = { toEntry source p.1 p.2 with properties })
      (listEntries source hashes index pairs) := by
  induction pairs generalizing index with
  | nil => exact ensures_pure ⟨rfl, fun e he => absurd he List.not_mem_nil⟩
  | cons p pairs ih =>
    obtain ⟨record, name⟩ := p
    -- whatever the digest is, the entry of the record stands in front of those of the rest
    have hrest : ∀ entry, (∃ properties, entry = { toEntry source record name with properties }) →
        Ensures Session.input i
          (fun found => found.length = ((record, name) :: pairs).length ∧ ∀ e ∈ found,
            ∃ p ∈ (record, name) :: pairs, ∃ properties,
              e = { toEntry source p.1 p.2 with properties })
          (listEntries source hashes (index + 1) pairs >>= fun rest => pure (entry :: rest)) := by
      intro entry hentry
      refine (ih (index + 1)).bind fun rest ⟨hlength, hall⟩ => ?_
      refine ensures_pure ⟨by rw [List.length_cons, List.length_cons, hlength], fun e he => ?_⟩
      rcases List.mem_cons.mp he with rfl | hmem
      · exact ⟨_, List.mem_cons_self, hentry⟩
      · obtain ⟨p, hp, h⟩ := hall e hmem
        exact ⟨p, List.mem_cons_of_mem _ hp, h⟩
    rw [listEntries]
    refine Ensures.optional (keeps_report _) ?_
    cases hashes with
    | none => exact Ensures.bind (ensures_pure ⟨_, rfl⟩) hrest
    | some hashes =>
      refine (keeps_liftExcept_decode _).then fun _ => ?_
      refine (keeps_ofReader (keeps_ofExcept _)).then fun digest => ?_
      exact Ensures.bind (ensures_pure ⟨_, rfl⟩) hrest

/-- A digest that lies in the block of digests is had. -/
theorem part_of_le {bytes : Bytes} {start size : ℕ} (h : start + size ≤ bytes.length)
    (hmax : start + size ≤ Word.max) :
    part bytes start size = .ok ((bytes.drop start).take size) := by
  have hslice := Checked.slice_of_le (Nat.le_add_right start size) h
  rw [Nat.add_sub_cancel_left] at hslice
  rw [part, Checked.sum_of_le hmax]
  exact hslice

theorem keeps_readHashes (header : Header) : Keeps Session.input (readHashes header) :=
  (keeps_liftExcept_decode _).bind fun _ => (keeps_liftExcept_decode _).bind fun _ =>
    (keeps_liftReader keeps_length).bind fun _ => Keeps.ite ((keeps_liftReader (keeps_seek _)).bind fun _ =>
      (keeps_liftReader (keeps_bytes _)).bind fun _ => keeps_pure _)
      ((keeps_report _).bind fun _ => keeps_pure _)

/-- What the header of a directory with `n` entries says of them. -/
structure Header.Admits (h : Header) (n : ℕ) : Prop extends h.IsNarrow where
  length_le : n ≤ h.records
  room : h.recordCompression = .none → h.records * recordSize ≤ h.recordCompressed

/-- In 32 bits there is only room for so many records that are not compressed. -/
theorem Header.Admits.fits {h : Header} {n : ℕ} (hh : h.Admits n)
    (hnone : h.recordCompression = .none) : n * recordSize < 2 ^ 32 :=
  calc n * recordSize
    _ ≤ h.records * recordSize := Nat.mul_le_mul_right _ hh.length_le
    _ ≤ h.recordCompressed := hh.room hnone
    _ < 2 ^ 32 := hh.recordCompressed_lt

/-- There is at most an entry for each record, and each can be written again. -/
theorem ensures_readEntries (source : Location) (header : Header) (count : EntryCount)
    (i : (Bytes × ByteOrder × Option ℕ) × Options × FileTree) :
    Ensures Session.input i
      (fun found => found.length ≤ count.value ∧ ∀ e ∈ found, IsListed source e)
      (readEntries source header count) := by
  refine (keeps_liftExcept_decode _).then fun _ => ?_
  refine (keeps_liftReader (Tables.keeps_openDirectory _ _ _ _)).then fun block => ?_
  refine (ensures_onStream (Tables.ensures_entries ensures_treRecord)).bind
    fun (records, _) ⟨hlength, hrecords⟩ => (keeps_liftExcept_decode _).then fun _ => ?_
  refine (keeps_liftReader (Tables.keeps_openDirectory _ _ _ _)).then fun block => ?_
  refine (ensures_onStream (ensures_ofReader (Names.ensures_namesFromBlob _ _ _))).bind
    fun (names, _) ⟨_, hnames⟩ => ?_
  refine (keeps_readHashes header).then fun hashes => ?_
  refine (ensures_listEntries source hashes 0 _).mono fun found ⟨hfound, hall⟩ => ⟨?_, ?_⟩
  · rw [hfound, List.length_zip]
    exact Nat.le_trans (Nat.min_le_left _ _) hlength
  · intro e he
    obtain ⟨⟨record, name⟩, hmem, properties, rfl⟩ := hall e he
    obtain ⟨hr, hname⟩ := List.of_mem_zip hmem
    have hlisted := isListed_toEntry source (hrecords _ hr) (hnames _ hname)
    exact ⟨hlisted.source_eq, hlisted.codec_eq, hlisted.stop_le_max, hlisted.named⟩

/-- **Whatever the bytes are**, a directory that is decoded has no more entries than are allowed, and
each of them can be written again. -/
theorem ensures_decode (source : Location)
    (i : (Bytes × ByteOrder × Option ℕ) × Options × FileTree) :
    Ensures Session.input i
      (fun found => found.length ≤ i.2.1.maxEntries ∧ ∀ e ∈ found, IsListed source e)
      (decode source) := by
  refine (keeps_liftReader keeps_treHeader).then fun header => ?_
  refine (ensures_checkCount _ _ _).bind fun count ⟨hcount, hle⟩ => ?_
  subst hcount
  refine Ensures.optional (keeps_checkCount _ _ _) ?_
  exact (ensures_readEntries source header _ i).mono
    fun found ⟨hlength, hlisted⟩ => ⟨Nat.le_trans hlength hle, hlisted⟩

/-- Nor has it more entries than its header has room for. -/
theorem admits_of_decode (h : decode source x = .ok found y) :
    ∃ header t, Reader.treHeader x.stream = .ok header t ∧ header.Admits found.length := by
  rw [decode, bind_eq_ok] at h
  obtain ⟨header, _, hread, h⟩ := h
  obtain ⟨t, hheader, rfl⟩ := liftReader_eq_ok.mp hread
  obtain ⟨count, _, hcount, h⟩ := bind_eq_ok.mp h
  obtain ⟨-, -, rfl, rfl⟩ := checkCount_eq_ok.mp hcount
  obtain ⟨z, hrecords, h⟩ := optional_eq_ok.mp h
  have hnarrow : header.IsNarrow := (ensures_treHeader.of_ok rfl hheader).2
  have hlength : found.length ≤ header.records :=
    ((ensures_readEntries source header ⟨header.records⟩ z.input).of_ok rfl h).2.1
  refine ⟨header, t, hheader, hnarrow, hlength, fun hnone => ?_⟩
  obtain ⟨-, _, hcheck⟩ | ⟨hsome, -⟩ := hrecords
  · have hlimit : header.recordCompressed < Word.max :=
      Nat.lt_trans hnarrow.recordCompressed_lt (by decide)
    exact (Word.le_iff_satMul_le hlimit).mp (checkCount_eq_ok.mp hcheck).2.1
  · exact absurd hnone hsome

/-- A directory that is read has the entries that were decoded, if in another order. -/
theorem of_readDirectory (h : format.readDirectory source x = .ok entries y) :
    (∃ header t, Reader.treHeader { x.stream with position := 0 } = .ok header t ∧
      header.Admits entries.length) ∧
    entries.length ≤ x.context.options.maxEntries ∧ ∀ e ∈ entries, IsListed source e := by
  obtain ⟨found, hdecode, hfinish⟩ := Format.readDirectory_eq_ok.mp h
  obtain ⟨header, t, hheader, hadmits⟩ := admits_of_decode hdecode
  obtain ⟨-, hlength, hlisted⟩ := (ensures_decode source x.input).of_ok x.input_started hdecode
  have hperm := Listing.perm_arrange y.context.options.sortByOffset found
  rw [(Listing.finish_eq_ok.mp hfinish).1, hperm.length_eq]
  exact ⟨⟨header, t, hheader, hadmits⟩, hlength, fun e he => hlisted e (hperm.mem_iff.mp he)⟩

end Tre

end Packfile
