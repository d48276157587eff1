import Packfile.Proofs.BlockRoundTrip
import Packfile.Proofs.TreReading

/-!
# TRE archives, written and read

`Packfile.Proofs.TreWriting` says which bytes the writer leaves for a list of files, and
`Packfile.Proofs.TreReading` what is known of a directory whose bytes may be anything. Here the two
meet: the archive of a plan is decoded as the entries of that plan, without a warning.

The reader computes every position anew. It takes the place of the records from the header, and
that of each later block from the sizes of those before it, so the one thing that has to be shown is
that the blocks lie where the header says (`Plan.IsExact.drop_eq`). Of the compressor nothing is
used but that its output inflates to its input. It may be asked for an empty block, and what it
gives for one is not empty.

This takes a plan that is exact. From 178956971 records on that are not compressed, the size that
the header gives them has gone on from zero. Such an archive is written without a complaint, and
refused when it is read, since its records do not fit into their block
(`Tre.readDirectory_of_not_fits`).

Writing an archive that is open is a run of the writer as well, one piece for each file. Its files
are copies of entries (`IsCopy`), so that what is read in the end is what could be read before. The
open archive has not so many records that the size of their block would be wrong, and neither has
the one that is written.

## Main definitions

* `Tre.Placed.entry`, `Tre.Plan.entries` — what a plan is decoded as
* `Tre.IsCopy` — files that stand for entries of an open archive

## Main results

* `Tre.exists_decode` — the archive of a plan is decoded
* `Tre.readDirectory_of_writeArchive`, `Tre.readDirectory_of_encode`
* `Tre.readDirectory_of_write` — both, and where they fail
-/

namespace Packfile

open Run Reading

/-! ### Blocks -/

section

variable {compress : Bytes → Bytes} {bytes content rest : Bytes} {s : Stream} {start : ℕ}

/-- What a block was made of is what it decodes to. -/
theorem Tre.Compression.undo_codec (hcompress : Zlib.Inverts compress) (c : Tre.Compression)
    (content : Bytes) :
    c.codec.undo ⟨Block.stored c.isCompressed content compress, .finished⟩
      = .ok ⟨content, .finished⟩ := by
  cases c with
  | none => rfl
  | zlib =>
    obtain ⟨rest, hrest⟩ := hcompress content
    exact congrArg Except.ok (Feed.inflate_of_complete hrest)

/-- A directory that was stored as a block is opened. -/
theorem Reading.openDirectory_of_drop (hcompress : Zlib.Inverts compress) {c : Tre.Compression}
    (block : Bytes) (hblock : block = Block.stored c.isCompressed content compress)
    (hs : s.IsOver bytes) (hfit : start + block.length ≤ bytes.length)
    (hmax : start + block.length ≤ Word.max) (h : bytes.drop start = block ++ rest) :
    ∃ t, Reader.openDirectory start block.length content.length c.codec s
      = .ok (.ofBytes content) t ∧ t.source = s.source := by
  have hundo := Tre.Compression.undo_codec hcompress c content
  rw [← hblock] at hundo
  have hfail : ∀ limit ∈ s.failAt, start + block.length ≤ limit := by
    intro limit hlimit
    rw [hs.healthy] at hlimit
    cases hlimit
  obtain ⟨t, ht, hsource⟩ := exists_openDirectory (by rwa [hs.holds]) (by rwa [hs.length_eq]) hmax
    hfail hundo
  rw [hs.little] at ht
  exact ⟨t, ht, hsource⟩

end

/-! ### What a plan is decoded as -/

namespace Tre

section

variable {compress : Bytes → Bytes} {source : Location} {x : Session}

/-- The entry of a file. -/
def Placed.entry (compress : Bytes → Bytes) (source : Location) (p : Placed) : Entry :=
  (toEntry source (p.record compress) p.file.name).withProperty "md5"
    (.bytes (Md5.digest (p.file.stored compress)))

/-- The entries of a plan. -/
def Plan.entries (p : Plan) (source : Location) : List Entry :=
  p.placed.map (Placed.entry p.compress source)

theorem Placed.decoded_entry (p : Placed) :
    (p.entry compress source).decoded = p.file.content.length := by
  simp only [Placed.entry, Entry.withProperty, toEntry, Placed.record, File.stored]
  cases p.file.compression with
  | none => rfl
  | zlib => rfl

theorem Placed.get?_entry (compress : Bytes → Bytes) (source : Location) (p : Placed) :
    (p.entry compress source).properties.get? "crc"
        = some (.int (nameChecksum p.file.name)) ∧
      (p.entry compress source).properties.get? "md5"
        = some (.bytes (Md5.digest (p.file.stored compress))) := by
  constructor
  · exact Properties.get?_insert _ _ _ _
  · exact Properties.get?_insert _ _ _ _

/-- Entries that are listed with the digests of their data have them, and nothing is warned of. -/
theorem listEntries_of_placed (ps : List Placed) (index : ℕ) (before : Bytes)
    (hbefore : before.length = index * hashSize)
    (hmax : (before ++ ps.flatMap fun p => Md5.digest (p.file.stored compress)).length ≤ Word.max) :
    listEntries source (some (before ++ ps.flatMap fun p => Md5.digest (p.file.stored compress)))
        index (ps.map fun p => (p.record compress, p.file.name)) x
      = .ok (ps.map (Placed.entry compress source)) x := by
  induction ps generalizing index before with
  | nil => rfl
  | cons p ps ih =>
    have hdigest : (Md5.digest (p.file.stored compress)).length = hashSize :=
      Md5.length_digest _
    rw [List.flatMap_cons, ← List.append_assoc] at hmax ⊢
    have hrest := ih (index + 1) (before ++ Md5.digest (p.file.stored compress))
      (by rw [List.length_append, hdigest, hbefore, Nat.add_mul]; rfl) hmax
    have hproduct : (liftM (Checked.product index hashSize) : Decode ℕ) x
        = .ok (index * hashSize) x := by
      refine liftExcept_decode_eq_ok.mpr ⟨Checked.product_of_le ?_, rfl⟩
      simp only [List.length_append] at hmax
      omega
    have hpart : Decode.ofReader (Reader.ofExcept (part
        ((before ++ Md5.digest (p.file.stored compress)) ++
          ps.flatMap fun p => Md5.digest (p.file.stored compress)) (index * hashSize) hashSize)) x
        = .ok (Md5.digest (p.file.stored compress)) x := by
      refine ofReader_eq_ok.mpr ⟨_, ofExcept_eq_ok.mpr ⟨?_, rfl⟩, rfl⟩
      have hfits : index * hashSize + hashSize ≤ ((before ++ Md5.digest (p.file.stored compress))
          ++ ps.flatMap fun p => Md5.digest (p.file.stored compress)).length := by
        simp only [List.length_append]
        rw [hdigest]
        omega
      rw [part_of_le hfits (Nat.le_trans hfits hmax), List.append_assoc, List.drop_left' hbefore,
        List.take_left' hdigest]
    have hchecksum : ¬ (nameChecksum p.file.name != (p.record compress).checksum) = true := by
      simp [Placed.record]
    rw [List.map_cons, listEntries, if_neg hchecksum]
    dsimp only
    rw [bind_of_ok hproduct, bind_of_ok hpart]
    exact bind_of_ok hrest

end

/-! ### Where the blocks are -/

section

variable {p : Plan}

theorem length_headerBytes (header : Header) : header.bytes.length = headerSize := by
  simp [Header.bytes, magic, headerSize]

theorem Plan.length_hashes (p : Plan) : p.hashes.length = hashSize * p.files.length := by
  have hdigest : ∀ f : File, (Md5.digest (f.stored p.compress)).length = hashSize :=
    fun f => Md5.length_digest _
  rw [hashes]
  exact Tables.length_flatMap hdigest p.files

/-- The blocks of an exact plan start where those before them end. -/
theorem Plan.IsExact.starts_eq (hp : p.IsExact) :
    p.header.recordStart = headerSize + p.data.length ∧
      p.header.nameStart = p.header.recordStart + p.recordBlock.length ∧
      p.header.hashStart = p.header.nameStart + p.nameBlock.length := by
  refine ⟨rfl, ?_, rfl⟩
  rw [← hp.statedSize_eq]
  rfl

theorem Plan.IsExact.length_bytes (hp : p.IsExact) :
    p.bytes.length = p.header.hashStart + p.hashes.length := by
  obtain ⟨hrecords, hnames, hhashes⟩ := hp.starts_eq
  rw [hhashes, hnames, hrecords]
  simp only [Plan.bytes, List.length_append, length_headerBytes]

/-- The blocks lie where the header says. -/
theorem Plan.IsExact.drop_eq (hp : p.IsExact) :
    p.bytes.drop headerSize = p.data ++ (p.recordBlock ++ (p.nameBlock ++ p.hashes)) ∧
      p.bytes.drop p.header.recordStart = p.recordBlock ++ (p.nameBlock ++ p.hashes) ∧
      p.bytes.drop p.header.nameStart = p.nameBlock ++ p.hashes ∧
      p.bytes.drop p.header.hashStart = p.hashes := by
  obtain ⟨hrecordStart, hnameStart, hhashStart⟩ := hp.starts_eq
  have h₁ : p.bytes.drop headerSize = p.data ++ (p.recordBlock ++ (p.nameBlock ++ p.hashes)) := by
    simp only [Plan.bytes, List.append_assoc]
    exact List.drop_left' (length_headerBytes _)
  have h₂ : p.bytes.drop p.header.recordStart = p.recordBlock ++ (p.nameBlock ++ p.hashes) := by
    rw [hrecordStart, ← List.drop_drop, h₁, List.drop_left]
  have h₃ : p.bytes.drop p.header.nameStart = p.nameBlock ++ p.hashes := by
    rw [hnameStart, ← List.drop_drop, h₂, List.drop_left]
  refine ⟨h₁, h₂, h₃, ?_⟩
  rw [hhashStart, ← List.drop_drop, h₃, List.drop_left]

/-- An archive is far from being longer than a word can say. -/
theorem Plan.IsExact.length_le (hp : p.IsExact) : p.bytes.length ≤ Word.max := by
  have hstart := hp.header.recordStart_lt
  have hrecords := hp.header.recordCompressed_lt
  have hnames := hp.header.nameCompressed_lt
  have hcount : p.files.length < 2 ^ 32 := hp.header.records_lt
  rw [hp.length_bytes, p.length_hashes, hashSize, Header.hashStart, Header.nameStart, Word.max_eq]
  omega

end

/-! ### Reading a planned archive -/

section

variable {p : Plan} {source : Location} {x : Session}

/-- The records are read back. -/
theorem exists_readRecords (hp : p.IsExact) (hcompress : Zlib.Inverts p.compress)
    (hx : x.stream.IsOver p.bytes) :
    ∃ block t y, Reader.openDirectory p.header.recordStart p.header.recordCompressed
        (p.files.length * recordSize) p.recordCompression.codec x.stream = .ok block t ∧
      Decode.readTable ⟨p.files.length⟩ (Tables.entries Reader.treRecord) { x with stream := block }
        = .ok p.records y ∧ ({ y with stream := t } : Session).quiet = x.quiet := by
  have hlength := hp.length_bytes
  have hmax := hp.length_le
  have hsize : (p.records.flatMap Record.bytes).length = p.files.length * recordSize := by
    rw [Tables.length_flatMap length_recordBytes, p.length_records, Nat.mul_comm]
  have hstop : p.header.recordStart + p.recordBlock.length ≤ p.bytes.length := by
    have := hp.starts_eq
    omega
  obtain ⟨t, hopen, ht⟩ := openDirectory_of_drop hcompress p.recordBlock rfl hx hstop
    (Nat.le_trans hstop hmax) hp.drop_eq.2.1
  rw [hsize, ← hp.statedSize_eq] at hopen
  obtain ⟨y, htable, hstream, hquiet⟩ := Tables.readTable_of_ahead
    (x := { x with stream := .ofBytes (p.records.flatMap Record.bytes) })
    Record.bytes Reader.treRecord p.records
    (fun r hr s rest _ h => treRecord_of_ahead (hp.records r hr) h) (List.append_nil _).symm
  rw [p.length_records] at htable
  exact ⟨_, t, y, hopen, htable, Session.quiet_of_onStream hquiet ht⟩

/-- The names are read back. -/
theorem exists_readNames (hp : p.IsExact) (hcompress : Zlib.Inverts p.compress)
    (hplain : ∀ f ∈ p.files, Utf8.IsPlain f.name) (hx : x.stream.IsOver p.bytes) :
    ∃ block t u, Reader.openDirectory p.header.nameStart p.header.nameCompressed
        p.header.nameUncompressed p.nameCompression.codec x.stream = .ok block t ∧
      Reader.namesFromBlob 0 p.header.nameUncompressed (p.records.map Record.nameOffset) block
        = .ok (p.files.map File.name) u ∧ ({ x with stream := t } : Session).quiet = x.quiet := by
  have hlength := hp.length_bytes
  have hmax := hp.length_le
  have hstop : p.header.nameStart + p.nameBlock.length ≤ p.bytes.length := by
    have : p.header.hashStart = p.header.nameStart + p.nameBlock.length := rfl
    omega
  obtain ⟨t, hopen, ht⟩ := openDirectory_of_drop hcompress p.nameBlock rfl hx hstop
    (Nat.le_trans hstop hmax) hp.drop_eq.2.2.1
  have hoffsets : p.records.map Record.nameOffset = Names.starts 0 (p.files.map File.name) := by
    rw [← map_nameStart_place p.compress headerSize, Plan.records, List.map_map]
    rfl
  have hnames : ∀ name ∈ p.files.map File.name, Utf8.IsPlain name := by
    intro name hname
    obtain ⟨f, hf, rfl⟩ := List.mem_map.mp hname
    exact hplain f hf
  have hnamesLength : 0 + p.names.length ≤ Word.max := by
    have hlt : p.names.length < 2 ^ 32 := hp.header.nameUncompressed_lt
    rw [Word.max_eq]
    omega
  have hnamesEq : p.names.drop 0 = (p.files.map File.name).flatMap Names.terminated ++ [] :=
    (List.append_nil _).symm
  obtain ⟨u, hread, -⟩ := Names.namesFromBlob_of_starts 0 p.names.length
    (Stream.isOver_ofBytes p.names) hnames (by omega) hnamesLength (Nat.le_refl _) hnamesEq
  refine ⟨_, t, u, hopen, ?_, x.quiet_of_source ht⟩
  rw [hoffsets]
  exact hread

/-- The digests are all there. -/
theorem exists_readHashes (hp : p.IsExact) (hx : x.stream.IsOver p.bytes) :
    ∃ y, readHashes p.header x = .ok (some p.hashes) y ∧ y.quiet = x.quiet := by
  have hlength := hp.length_bytes
  have hhashes := p.length_hashes
  have hmax := hp.length_le
  have hsize : p.header.records * hashSize = p.hashes.length := by
    rw [hhashes, Nat.mul_comm]
    rfl
  have hproduct : Checked.product p.header.records hashSize = .ok p.hashes.length := by
    rw [← hsize]
    exact Checked.product_of_le (by omega)
  have hrange : Reader.inRange x.stream.length p.header.hashStart p.hashes.length = true := by
    rw [hx.length_eq]
    exact inRange_iff.mpr ⟨by omega, by omega⟩
  have hover : ({ x.stream with position := p.header.hashStart } : Stream).IsOver p.bytes :=
    Stream.isOver_goto hx
  have hahead : ({ x.stream with position := p.header.hashStart } : Stream).ahead = p.hashes := by
    rw [hover.ahead_eq]
    exact hp.drop_eq.2.2.2
  have hseek : (liftM (Reader.seek p.header.hashStart) : Decode Unit) x
      = .ok () { x with stream := { x.stream with position := p.header.hashStart } } :=
    liftReader_eq_ok.mpr ⟨_, seek_eq_ok.mpr ⟨by rw [hx.length_eq]; omega, rfl⟩, rfl⟩
  obtain ⟨t, hbytes, ht⟩ : ∃ t, Reader.bytes p.hashes.length
      { x.stream with position := p.header.hashStart } = .ok p.hashes t ∧
        t.source = x.stream.source := by
    refine ⟨_, bytes_eq_ok.mpr ⟨?_, ?_, rfl⟩, rfl⟩
    · rw [hahead]
    · rw [hahead, List.take_length]
  refine ⟨_, ?_, x.quiet_of_source ht⟩
  rw [readHashes, bind_of_ok (liftExcept_decode_eq_ok.mpr ⟨hproduct, rfl⟩),
    bind_of_ok (liftExcept_decode_eq_ok.mpr ⟨hp.header.offsets_eq.2, rfl⟩),
    bind_of_ok (liftLength_eq_ok.mpr ⟨rfl, rfl⟩), if_pos hrange, bind_of_ok hseek]
  exact bind_of_ok (liftReader_eq_ok.mpr ⟨t, hbytes, rfl⟩)

/-- The header is read back. -/
theorem treHeader_of_isOver {s : Stream} (hp : p.IsNarrow) (hs : s.IsOver p.bytes)
    (hstart : s.position = 0) :
    Reader.treHeader s = .ok p.header (s.advance headerSize) := by
  have hahead : s.ahead
      = p.header.bytes ++ (p.data ++ (p.recordBlock ++ (p.nameBlock ++ p.hashes))) := by
    rw [hs.ahead_eq, hstart, List.drop_zero]
    simp only [Plan.bytes, List.append_assoc]
  exact treHeader_of_ahead hp.header hahead

/-- The number of files passes for one that the block of names has room for. -/
theorem checkCount_names (hcount : p.files.length ≤ x.context.options.maxEntries) :
    Decode.checkCount p.header.records 1 p.header.nameUncompressed x = .ok ⟨p.files.length⟩ x := by
  refine checkCount_of_le hcount ?_
  rw [Nat.one_mul]
  exact p.length_le_names

/-- The number of files passes for one that an uncompressed block of records has room for. -/
theorem checkCount_records (hp : p.IsExact)
    (hcount : p.files.length ≤ x.context.options.maxEntries) (hnone : p.recordCompression = .none) :
    Decode.checkCount p.header.records recordSize p.header.recordCompressed x
      = .ok ⟨p.files.length⟩ x := by
  refine checkCount_of_le hcount ?_
  show recordSize * p.files.length ≤ p.statedSize
  rw [hp.statedSize_eq, Plan.length_recordBlock hnone, Nat.mul_comm]

/-- The records, the names and the digests make up the entries. -/
theorem listEntries_records (source : Location) (hp : p.IsExact) (x : Session) :
    listEntries source (some p.hashes) 0 (p.records.zip (p.files.map File.name)) x
      = .ok (p.entries source) x := by
  have hfiles : p.placed.map Placed.file = p.files := map_file_place _ _ _ _
  have hpairs : p.records.zip (p.files.map File.name)
      = p.placed.map fun q => (q.record p.compress, q.file.name) := by
    rw [← hfiles, Plan.records, List.map_map, List.zip_map']
    rfl
  have hdigests : p.hashes = p.placed.flatMap fun q => Md5.digest (q.file.stored p.compress) := by
    rw [Plan.hashes, ← hfiles, List.flatMap_map]
  rw [hpairs, hdigests]
  refine listEntries_of_placed p.placed 0 [] rfl ?_
  rw [List.nil_append, ← hdigests]
  have := hp.length_bytes
  have := hp.length_le
  omega

/-- **The archive of a plan is decoded as its entries**, and nothing is warned of. -/
theorem exists_decode (source : Location) (hp : p.IsExact) (hcompress : Zlib.Inverts p.compress)
    (hplain : ∀ f ∈ p.files, Utf8.IsPlain f.name) (hx : x.stream.IsOver p.bytes)
    (hstart : x.stream.position = 0)
    (hcount : p.files.length ≤ x.context.options.maxEntries) :
    ∃ y, decode source x = .ok (p.entries source) y ∧ y.quiet = x.quiet := by
  have hheader := treHeader_of_isOver hp.toIsNarrow hx hstart
  have hover : (x.stream.advance headerSize).IsOver p.bytes := Stream.isOver_advance hx
  have hchecked := checkCount_names (x := { x with stream := x.stream.advance headerSize }) hcount
  have hrecords := checkCount_records (x := { x with stream := x.stream.advance headerSize }) hp
    hcount
  have hproduct : Checked.product p.header.records recordSize
      = .ok (p.files.length * recordSize) := by
    refine Checked.product_of_le ?_
    have hlt : p.header.records < 2 ^ 32 := hp.header.records_lt
    rw [recordSize, Word.max_eq]
    omega
  -- the two blocks and the digests, each read from where the one before it left the stream
  obtain ⟨recordBlock, t₁, y₁, hopen₁, htable, hquiet₁⟩ := exists_readRecords hp hcompress
    (x := { x with stream := x.stream.advance headerSize }) hover
  have hover₁ : t₁.IsOver p.bytes :=
    hover.of_source (Session.source_of_input (Session.input_of_quiet hquiet₁))
  obtain ⟨nameBlock, t₂, u₂, hopen₂, hblob, hquiet₂⟩ := exists_readNames hp hcompress hplain
    (x := { y₁ with stream := t₁ }) hover₁
  have hover₂ : t₂.IsOver p.bytes :=
    hover₁.of_source (Session.source_of_input (Session.input_of_quiet hquiet₂))
  obtain ⟨y₃, hhashes, hquiet₃⟩ := exists_readHashes hp (x := { y₁ with stream := t₂ }) hover₂
  have htableStep : Decode.onStream recordBlock
      (Decode.readTable ⟨p.files.length⟩ (Tables.entries Reader.treRecord)) { x with stream := t₁ }
        = .ok (p.records, y₁.stream) { y₁ with stream := t₁ } :=
    onStream_eq_ok.mpr ⟨y₁, htable, rfl, rfl⟩
  have hblobStep : Decode.onStream nameBlock (Decode.ofReader (Reader.namesFromBlob 0
      p.header.nameUncompressed (p.records.map Record.nameOffset))) { y₁ with stream := t₂ }
        = .ok (p.files.map File.name, u₂) { y₁ with stream := t₂ } :=
    onStream_eq_ok.mpr ⟨_, ofReader_eq_ok.mpr ⟨u₂, hblob, rfl⟩, rfl, rfl⟩
  refine ⟨y₃, ?_, hquiet₃.trans (hquiet₂.trans (hquiet₁.trans (x.quiet_of_source rfl)))⟩
  rw [decode, bind_of_ok (liftReader_eq_ok.mpr ⟨_, hheader, rfl⟩), bind_of_ok hchecked]
  refine optional_eq_ok.mpr ⟨{ x with stream := x.stream.advance headerSize }, ?_, ?_⟩
  · by_cases hnone : p.recordCompression = .none
    · exact .inl ⟨hnone, _, hrecords hnone⟩
    · exact .inr ⟨hnone, rfl⟩
  refine (bind_of_ok (liftExcept_decode_eq_ok.mpr ⟨hproduct, rfl⟩)).trans ?_
  refine (bind_of_ok (liftReader_eq_ok.mpr ⟨t₁, hopen₁, rfl⟩)).trans ?_
  refine (bind_of_ok htableStep).trans ?_
  refine (bind_of_ok (liftExcept_decode_eq_ok.mpr ⟨hp.header.offsets_eq.1, rfl⟩)).trans ?_
  refine (bind_of_ok (liftReader_eq_ok.mpr ⟨t₂, hopen₂, rfl⟩)).trans ?_
  refine (bind_of_ok hblobStep).trans ?_
  exact (bind_of_ok hhashes).trans (listEntries_records source hp y₃)

/-- A file lies in the archive, and reads as its content. -/
theorem contentIn_entry (source : Location) (hp : p.IsExact)
    (hcompress : Zlib.Inverts p.compress) {q : Placed} (hq : q ∈ p.placed) :
    (q.entry p.compress source).FitsIn p.bytes ∧
      (q.entry p.compress source).storedIn p.bytes = q.file.stored p.compress ∧
      (q.entry p.compress source).contentIn p.bytes = .ok q.file.content := by
  have hstored : (q.entry p.compress source).storedIn p.bytes = q.file.stored p.compress :=
    stored_of_mem_place hp.drop_eq.1 hq
  have hundo : (q.entry p.compress source).codec.undo ⟨q.file.stored p.compress, .finished⟩
      = .ok ⟨q.file.content, .finished⟩ :=
    Compression.undo_codec hcompress q.file.compression q.file.content
  have hfit : q.start + (q.file.stored p.compress).length ≤ p.bytes.length := by
    have hle : q.start + (q.file.stored p.compress).length ≤ headerSize + p.data.length :=
      (le_of_mem_place hq).2
    have hlength := congrArg List.length hp.drop_eq.1
    have hbytes := hp.length_bytes
    have := hp.starts_eq
    omega
  exact ⟨⟨hfit, Nat.le_trans hfit hp.length_le⟩, hstored,
    Entry.contentIn_of_undo hstored (Placed.decoded_entry q) hundo⟩

/-- The entries of a plan are in order, and lie in the archive. -/
theorem finish_entries (hp : p.IsExact) (hcompress : Zlib.Inverts p.compress)
    (hlength : source.length = p.bytes.length) (sorted : Bool) :
    Listing.finish sorted (p.entries source) = .ok (p.entries source) := by
  have hrising : (p.entries source).Pairwise fun a b => a.offset ≤ b.offset := by
    rw [Plan.entries, List.pairwise_map]
    exact pairwise_place _ _ _ _
  refine Listing.finish_eq_ok.mpr
    ⟨(Listing.arrange_of_rising source ?_ hrising).symm, ?_⟩
  · intro e he
    obtain ⟨q, -, rfl⟩ := List.mem_map.mp he
    rfl
  · intro e he
    obtain ⟨q, hq, rfl⟩ := List.mem_map.mp he
    have hfits := (contentIn_entry source hp hcompress hq).1.stop_le
    have hle : (q.entry p.compress source).offset + (q.entry p.compress source).stored
        ≤ (q.entry p.compress source).source.length := by
      rw [← hlength] at hfits
      exact hfits
    exact ⟨Nat.le_trans (Nat.le_add_right _ _) hle, Nat.le_trans (Nat.min_le_left _ _) hle⟩

theorem readDirectory_of_plan (source : Location) (hp : p.IsExact)
    (hcompress : Zlib.Inverts p.compress)
    (hplain : ∀ f ∈ p.files, Utf8.IsPlain f.name) (hx : x.stream.IsOver p.bytes)
    (hlength : source.length = p.bytes.length)
    (hcount : p.files.length ≤ x.context.options.maxEntries) :
    ∃ y, format.readDirectory source x = .ok (p.entries source) y ∧ y.warnings = x.warnings := by
  obtain ⟨y, hdecode, hquiet⟩ := exists_decode (x := x.started) source hp hcompress
    hplain (Stream.isOver_goto hx) rfl hcount
  refine ⟨y, Format.readDirectory_eq_ok.mpr
    ⟨_, hdecode, finish_entries hp hcompress hlength _⟩, ?_⟩
  exact (Session.warnings_of_quiet hquiet).trans x.warnings_started

/-- **Where the size of the records is beyond 32 bits**, the archive that was written is refused. -/
theorem readDirectory_of_not_fits (source : Location) (hp : p.IsNarrow)
    (hnone : p.recordCompression = .none) (hlarge : 2 ^ 32 ≤ p.files.length * recordSize)
    (hx : x.stream.IsOver p.bytes) (hcount : p.files.length ≤ x.context.options.maxEntries) :
    ∃ y, format.readDirectory source x = .error (.exceeds "directory size"
      (p.files.length * recordSize) (p.files.length * recordSize % 2 ^ 32)) y := by
  have hheader := treHeader_of_isOver (s := x.started.stream) hp (Stream.isOver_goto hx) rfl
  have hrecords : p.files.length < 2 ^ 32 := hp.header.records_lt
  have hsize : Word.satMul p.header.records recordSize = p.files.length * recordSize := by
    refine Word.satMul_of_le ?_
    show p.files.length * recordSize ≤ _
    rw [recordSize, Word.max_eq]
    omega
  have hstated : p.header.recordCompressed = p.files.length * recordSize % 2 ^ 32 := if_pos hnone
  have hroom : p.header.recordCompressed < Word.satMul p.header.records recordSize := by
    rw [hsize, hstated]
    exact Nat.lt_of_lt_of_le (Nat.mod_lt _ (by decide)) hlarge
  have hchecked := checkCount_names
    (x := { x.started with stream := x.started.stream.advance headerSize }) hcount
  have hrefused := checkCount_of_lt
    (x := { x.started with stream := x.started.stream.advance headerSize }) hcount hroom
  have hdecode : decode source x.started = .error (.exceeds "directory size"
      (Word.satMul p.header.records recordSize) p.header.recordCompressed)
      { x.started with stream := x.started.stream.advance headerSize } := by
    rw [decode, bind_of_ok (liftReader_eq_ok.mpr ⟨_, hheader, rfl⟩), bind_of_ok hchecked]
    exact (congrFun (if_pos hnone) _).trans (bind_of_error hrefused)
  rw [hstated, hsize] at hdecode
  exact ⟨_, Format.readDirectory_of_error hdecode⟩

/-- What is known of the entry of a file. -/
theorem of_getElem?_entries (hp : p.IsExact) (hcompress : Zlib.Inverts p.compress)
    (hsource : source.isPrimary = true) {i : ℕ} {e : Entry} {f : File}
    (he : (p.entries source)[i]? = some e) (hf : p.files[i]? = some f) :
    e.name = some f.name ∧ e.decoded = f.content.length ∧ e.codec = f.compression.codec ∧
      e.properties.get? "crc" = some (.int (nameChecksum f.name)) ∧
      e.properties.get? "md5" = some (.bytes (Md5.digest (e.storedIn p.bytes))) ∧
      ∀ (a : Archive) (tree : FileTree), a.entries = p.entries source →
        a.stream.IsOver p.bytes → (a.readEntry tree i).1 = .ok f.content := by
  have hget := he
  rw [Plan.entries, List.getElem?_map, Option.map_eq_some_iff] at he
  obtain ⟨q, hq, rfl⟩ := he
  have hfile : q.file = f := by
    have hfiles : p.placed.map Placed.file = p.files := map_file_place _ _ _ _
    rw [← hfiles, List.getElem?_map, hq] at hf
    exact Option.some.inj hf
  subst hfile
  obtain ⟨hcrc, hmd5⟩ := q.get?_entry p.compress source
  obtain ⟨hfits, hstored, hcontent⟩ :=
    contentIn_entry source hp hcompress (List.mem_of_getElem? hq)
  refine ⟨rfl, q.decoded_entry, rfl, hcrc, by rw [hmd5, hstored], fun a tree hentries hover => ?_⟩
  rw [Archive.readEntry_of_isOver hover (by rw [hentries, hget]) hsource hfits, hcontent]

/-- **Files that were written are read.** There is an entry for each file, in order and without a
warning, with the checksum of its name and the digest of its stored data, and it reads as what was
written. -/
theorem readDirectory_of_writeArchive {compress : Bytes → Bytes}
    {recordCompression nameCompression : Compression} {files : List File} {out : Bytes} {w : Writer}
    (hcompress : Zlib.Inverts compress) (hplain : ∀ f ∈ files, Utf8.IsPlain f.name)
    (h : writeArchive files (Writer.make recordCompression nameCompression compress) = .ok out w)
    (hx : x.stream.IsOver out) (hsource : source.isPrimary = true)
    (hlength : source.length = out.length)
    (hcount : files.length ≤ x.context.options.maxEntries)
    (hfits : recordCompression = .none → files.length * recordSize < 2 ^ 32) :
    ∃ entries y, format.readDirectory source x = .ok entries y ∧ y.warnings = x.warnings ∧
      entries.length = files.length ∧
      ∀ (i : ℕ) (e : Entry) (f : File), entries[i]? = some e → files[i]? = some f →
        e.name = some f.name ∧ e.decoded = f.content.length ∧ e.codec = f.compression.codec ∧
        e.properties.get? "crc" = some (.int (nameChecksum f.name)) ∧
        e.properties.get? "md5" = some (.bytes (Md5.digest (e.storedIn out))) ∧
        ∀ (a : Archive) (tree : FileTree), a.entries = entries → a.stream.IsOver out →
          (a.readEntry tree i).1 = .ok f.content := by
  obtain ⟨rfl, hnarrow⟩ := of_writeArchive h
  have hp : Plan.IsExact ⟨compress, recordCompression, nameCompression, files⟩ := ⟨hnarrow, hfits⟩
  obtain ⟨y, hread, hwarnings⟩ := readDirectory_of_plan source hp hcompress hplain hx hlength hcount
  refine ⟨_, y, hread, hwarnings, ?_, ?_⟩
  · rw [Plan.entries, List.length_map, Plan.placed, length_place]
  · intro i e f he hf
    exact of_getElem?_entries hp hcompress hsource he hf

end

/-! ### Writing an archive that is open -/

section

variable {compress : Bytes → Bytes} {bytes out : Bytes} {s t : Stream} {w w' : Writer}
  {source target : Location} {x y z : Session} {listing : List Entry}

/-- A file that stands for an entry of the archive of `bytes`. -/
structure IsCopy (bytes : Bytes) (e : Entry) (f : File) : Prop where
  name_eq : e.name = some f.name
  compression_eq : f.compression = Compression.ofCodec e.codec
  isPrimary : e.source.isPrimary = true
  fits : e.FitsIn bytes
  content_eq : e.contentIn bytes = .ok f.content

/-- A file that stands for an edited entry, with what the entry reads as in a stream like `s`. -/
structure IsFile (s : Stream) (e : EditedEntry) (f : File) : Prop where
  name_eq : e.entry.name = some f.name
  compression_eq : f.compression = Compression.ofCodec e.entry.codec
  content_eq : ∃ u v, u.source = s.source ∧ e.contentBytes u = .ok f.content v

theorem keeps_contentBytes (e : EditedEntry) : Keeps Stream.source e.contentBytes := by
  rw [EditedEntry.contentBytes]
  cases e.content with
  | replaced bytes => exact keeps_pure _
  | kept =>
    exact Keeps.guard ((keeps_checkRange _ _ _).bind fun _ => (keeps_seek _).bind fun _ =>
      Tables.keeps_content _ _ _)

/-- Writing entries is a run of the writer over a file for each of them. -/
theorem of_writeEntries {edits : List EditedEntry} (h : writeEntries edits w s = .ok w' t) :
    ∃ files, writeFiles files w = .ok () w' ∧ List.Forall₂ (IsFile s) edits files := by
  induction edits generalizing w s with
  | nil =>
    rw [writeEntries, pure_eq_ok] at h
    rw [h.1]
    exact ⟨[], rfl, .nil⟩
  | cons e edits ih =>
    simp only [writeEntries, bind_eq_ok, liftExcept_eq_ok, name_eq_ok] at h
    obtain ⟨content, _, hread, name, u, ⟨hname, rfl⟩, h⟩ := h
    have hsource := (keeps_contentBytes e).of_ok hread
    generalize hcall : (do
      Writer.startFile name (.ofCodec e.entry.codec)
      Writer.write content : Write Unit) w = result at h
    cases result with
    | error error v => exact absurd h (by simp [throw_eq_ok])
    | ok _ v =>
      obtain ⟨files, hfiles, hall⟩ := ih h
      obtain ⟨_, v', hstart, hwrite⟩ := bind_eq_ok.mp hcall
      refine ⟨⟨name, .ofCodec e.entry.codec, [content]⟩ :: files, ?_, .cons ?_ ?_⟩
      · have hfile : writeFile ⟨name, .ofCodec e.entry.codec, [content]⟩ w = .ok () v := by
          simp only [writeFile, writePieces, bind_eq_ok]
          exact ⟨(), v', hstart, (), v, hwrite, rfl⟩
        rw [writeFiles, bind_of_ok hfile]
        exact hfiles
      · refine ⟨hname, rfl, s, u, rfl, ?_⟩
        rw [File.content, List.flatten_singleton]
        exact hread
      · refine hall.imp fun e f hf => ⟨hf.name_eq, hf.compression_eq, ?_⟩
        obtain ⟨u', v', hu', hcontent⟩ := hf.content_eq
        exact ⟨u', v', hu'.trans hsource, hcontent⟩

/-- **What is written is the archive of a plan**, with the compressions that the header of the open
archive names. -/
theorem of_encode_edits {edits : List EditedEntry} (h : encode edits compress s = .ok out t) :
    ∃ header u files, Reader.treHeader { s with position := 0 } = .ok header u ∧
      List.Forall₂ (IsFile s) edits files ∧
      (⟨compress, header.recordCompression, header.nameCompression, files⟩ : Plan).IsNarrow ∧
      out = (⟨compress, header.recordCompression, header.nameCompression, files⟩ : Plan).bytes := by
  simp only [encode, bind_eq_ok, seek_eq_ok] at h
  obtain ⟨_, _, ⟨-, rfl⟩, header, u, hheader, w, v, hwrite, h⟩ := h
  have hsource : u.source = ({ s with position := 0 } : Stream).source :=
    keeps_treHeader.of_ok hheader
  obtain ⟨files, hfiles, hall⟩ := of_writeEntries hwrite
  have harchive : ∃ w', writeArchive files
      (Writer.make header.recordCompression header.nameCompression compress) = .ok out w' := by
    cases hfinish : Writer.finish w with
    | error error w' =>
      rw [hfinish] at h
      exact absurd h (by simp [throw_eq_ok])
    | ok found w' =>
      rw [hfinish] at h
      rw [(pure_eq_ok.mp h).1]
      exact ⟨w', bind_eq_ok.mpr ⟨(), w, hfiles, hfinish⟩⟩
  obtain ⟨w', harchive⟩ := harchive
  obtain ⟨rfl, hp⟩ := of_writeArchive harchive
  refine ⟨header, u, files, hheader, hall.imp fun e f hf => ⟨hf.name_eq, hf.compression_eq, ?_⟩, hp,
    rfl⟩
  obtain ⟨u', v', hu', hcontent⟩ := hf.content_eq
  exact ⟨u', v', hu'.trans hsource, hcontent⟩

/-- An entry that is kept is copied. -/
theorem isCopy_of_isFile {e : Entry} {f : File} (hs : s.IsOver bytes)
    (h : IsFile s (EditedEntry.keep e) f) : IsCopy bytes e f := by
  obtain ⟨u, v, hu, hcontent⟩ := h.content_eq
  obtain ⟨hprimary, hfits, hread, -⟩ := (contentBytes_eq_ok (hs.of_source hu)).mp hcontent
  exact ⟨h.name_eq, h.compression_eq, hprimary, hfits, hread⟩

theorem ofCodec_codec (c : Compression) : Compression.ofCodec c.codec = c := by
  cases c <;> rfl

/-- What is written from a directory is the archive of copies of its entries. -/
theorem of_encode (hs : s.IsOver bytes)
    (h : encode (listing.map EditedEntry.keep) compress s = .ok out t) :
    ∃ header u files, Reader.treHeader (.ofBytes bytes) = .ok header u ∧
      List.Forall₂ (IsCopy bytes) listing files ∧
      (⟨compress, header.recordCompression, header.nameCompression, files⟩ : Plan).IsNarrow ∧
      out = (⟨compress, header.recordCompression, header.nameCompression, files⟩ : Plan).bytes := by
  obtain ⟨header, u, files, hheader, hall, hp, hout⟩ := of_encode_edits h
  rw [Stream.eq_ofBytes_of_isOver hs] at hheader
  rw [List.forall₂_map_left_iff] at hall
  exact ⟨header, u, files, hheader, hall.imp fun e f hf => isCopy_of_isFile hs hf, hp, hout⟩

/-- Copies have the names of their entries, and so plain ones. -/
theorem isPlain_of_copies {files : List File} (hlisted : ∀ e ∈ listing, IsListed source e)
    (hcopies : List.Forall₂ (IsCopy bytes) listing files) : ∀ f ∈ files, Utf8.IsPlain f.name := by
  intro f hf
  obtain ⟨e, he, hcopy⟩ := exists_of_forall₂ hcopies hf
  obtain ⟨name, hname, hplain⟩ := (hlisted e he).named
  rw [hcopy.name_eq, Option.some.injEq] at hname
  rw [hname]
  exact hplain

/-- **An archive that was read and written is read again.** Its entries come back in their order,
each with its name, length and codec, and each reads as it did; the blocks of the directory are
compressed as they were. -/
theorem readDirectory_of_encode (hcompress : Zlib.Inverts compress) (hx : x.stream.IsOver bytes)
    (hlisting : format.readDirectory source x = .ok listing y) (hs : s.IsOver bytes)
    (h : encode (listing.map EditedEntry.keep) compress s = .ok out t) (hz : z.stream.IsOver out)
    (htarget : target.isPrimary = true) (hlength : target.length = out.length)
    (hlimit : x.context.options.maxEntries ≤ z.context.options.maxEntries) :
    (∃ header u header' u', Reader.treHeader (.ofBytes bytes) = .ok header u ∧
      Reader.treHeader (.ofBytes out) = .ok header' u' ∧
      header'.recordCompression = header.recordCompression ∧
      header'.nameCompression = header.nameCompression) ∧
    ∃ entries v, format.readDirectory target z = .ok entries v ∧
      entries.length = listing.length ∧
      ∀ (i : ℕ) (e e' : Entry), listing[i]? = some e → entries[i]? = some e' →
        e'.name = e.name ∧ e'.decoded = e.decoded ∧ e'.codec = e.codec ∧
        ∃ content, ∀ (a a' : Archive) (tree : FileTree), a.entries = listing →
          a.stream.IsOver bytes → a'.entries = entries → a'.stream.IsOver out →
          (a.readEntry tree i).1 = .ok content ∧ (a'.readEntry tree i).1 = .ok content := by
  obtain ⟨⟨found, _, hfound, hadmits⟩, hcount, hlisted⟩ := of_readDirectory hlisting
  obtain ⟨header, u, files, hheader, hcopies, hnarrow, rfl⟩ := of_encode hs h
  -- it is the same header that has admitted the entries and that they are written with
  obtain rfl : found = header := by
    rw [Stream.eq_ofBytes_of_isOver hx, hheader] at hfound
    exact (EStateM.Result.ok.inj hfound).1.symm
  have hp : Plan.IsExact ⟨compress, found.recordCompression, found.nameCompression, files⟩ :=
    ⟨hnarrow, fun hnone => by rw [← hcopies.length_eq]; exact hadmits.fits hnone⟩
  have hplain := isPlain_of_copies hlisted hcopies
  obtain ⟨v, hread, -⟩ := readDirectory_of_plan target hp hcompress hplain hz hlength
    (by rw [← hcopies.length_eq]; exact Nat.le_trans hcount hlimit)
  refine ⟨⟨found, u, _, _, hheader, treHeader_of_isOver hnarrow (Stream.isOver_ofBytes _) rfl, rfl, rfl⟩,
    _, v, hread, ?_, ?_⟩
  · rw [Plan.entries, List.length_map, Plan.placed, length_place, hcopies.length_eq]
  · intro i e e' he he'
    obtain ⟨f, hf⟩ : ∃ f, files[i]? = some f := by
      have hi := (List.getElem?_eq_some_iff.mp he).1
      rw [hcopies.length_eq] at hi
      exact ⟨_, List.getElem?_eq_getElem hi⟩
    have hcopy := of_getElem? hcopies he hf
    obtain ⟨c, hcodec, -⟩ := (hlisted e (List.mem_of_getElem? he)).codec_eq
    obtain ⟨hname, hdecoded, hcodec', -, -, hcontent⟩ :=
      of_getElem?_entries hp hcompress htarget he' hf
    refine ⟨hname.trans hcopy.name_eq.symm, ?_, ?_, f.content, ?_⟩
    · rw [hdecoded, Entry.length_of_contentIn hcopy.content_eq]
    · rw [hcodec', hcopy.compression_eq, hcodec, ofCodec_codec]
    · intro a a' tree ha hover ha' hover'
      refine ⟨?_, hcontent a' tree ha' hover'⟩
      rw [Archive.readEntry_of_isOver hover (by rw [ha, he]) hcopy.isPrimary hcopy.fits,
        hcopy.content_eq]

end

/-- **Writing and reading are inverse**, if the size of the records fits into 32 bits. Files that
were written are read, in order and without a warning, each with the checksum of its name, the
digest of its stored data and its content. Where the records are not compressed and there are too
many of them for their size, the archive that was written is refused for that size. An archive that
is read, written and read again has the entries that it had in any case. -/
theorem readDirectory_of_write {compress : Bytes → Bytes} (hcompress : Zlib.Inverts compress) :
    (∀ {recordCompression nameCompression : Compression} {files : List File} {out : Bytes}
      {w : Writer} {source : Location} {x : Session},
      (∀ f ∈ files, Utf8.IsPlain f.name) →
      writeArchive files (Writer.make recordCompression nameCompression compress) = .ok out w →
      x.stream.IsOver out → source.isPrimary = true → source.length = out.length →
      files.length ≤ x.context.options.maxEntries →
      ((recordCompression = .none → files.length * recordSize < 2 ^ 32) →
        ∃ entries y, format.readDirectory source x = .ok entries y ∧ y.warnings = x.warnings ∧
          entries.length = files.length ∧
          ∀ (i : ℕ) (e : Entry) (f : File), entries[i]? = some e → files[i]? = some f →
            e.name = some f.name ∧ e.decoded = f.content.length ∧ e.codec = f.compression.codec ∧
            e.properties.get? "crc" = some (.int (nameChecksum f.name)) ∧
            e.properties.get? "md5" = some (.bytes (Md5.digest (e.storedIn out))) ∧
            ∀ (a : Archive) (tree : FileTree), a.entries = entries → a.stream.IsOver out →
              (a.readEntry tree i).1 = .ok f.content) ∧
      (recordCompression = .none → 2 ^ 32 ≤ files.length * recordSize →
        ∃ y, format.readDirectory source x = .error (.exceeds "directory size"
          (files.length * recordSize) (files.length * recordSize % 2 ^ 32)) y)) ∧
    ∀ {bytes out : Bytes} {source target : Location} {x y z : Session} {listing : List Entry}
      {s t : Stream},
      x.stream.IsOver bytes → format.readDirectory source x = .ok listing y → s.IsOver bytes →
      encode (listing.map EditedEntry.keep) compress s = .ok out t → z.stream.IsOver out →
      target.isPrimary = true → target.length = out.length →
      x.context.options.maxEntries ≤ z.context.options.maxEntries →
      (∃ header u header' u', Reader.treHeader (.ofBytes bytes) = .ok header u ∧
        Reader.treHeader (.ofBytes out) = .ok header' u' ∧
        header'.recordCompression = header.recordCompression ∧
        header'.nameCompression = header.nameCompression) ∧
      ∃ entries v, format.readDirectory target z = .ok entries v ∧
        entries.length = listing.length ∧
        ∀ (i : ℕ) (e e' : Entry), listing[i]? = some e → entries[i]? = some e' →
          e'.name = e.name ∧ e'.decoded = e.decoded ∧ e'.codec = e.codec ∧
          ∃ content, ∀ (a a' : Archive) (tree : FileTree), a.entries = listing →
            a.stream.IsOver bytes → a'.entries = entries → a'.stream.IsOver out →
            (a.readEntry tree i).1 = .ok content ∧ (a'.readEntry tree i).1 = .ok content := by
  constructor
  · intro recordCompression nameCompression files out w source x hplain h hx hsource hlength hcount
    refine ⟨readDirectory_of_writeArchive hcompress hplain h hx hsource hlength hcount, ?_⟩
    obtain ⟨rfl, hp⟩ := of_writeArchive h
    intro hnone hlarge
    exact readDirectory_of_not_fits
      (p := ⟨compress, recordCompression, nameCompression, files⟩) source hp hnone hlarge hx hcount
  · intro bytes out source target x y z listing s t hx hlisting hs h hz htarget hlength hlimit
    exact readDirectory_of_encode hcompress hx hlisting hs h hz htarget hlength hlimit

/-- An archive of a file in two pieces and of a compressed one. -/
def two : Plan :=
  ⟨Zlib.compress, .none, .zlib, [⟨"a", .none, [[0x68], [0x69]]⟩, ⟨"b", .zlib, [[0x21]]⟩]⟩

theorem exists_writeArchive_two :
    ∃ out w, writeArchive two.files (Writer.make .none .zlib) = .ok out w :=
  exists_of_isOk (by decide +kernel)

theorem exists_encode_two : ∃ out t, encode ((two.entries (.memory two.bytes.length)).map
    EditedEntry.keep) Zlib.compress (.ofBytes two.bytes) = .ok out t :=
  exists_of_isOk (by decide +kernel)

/-- The archive of two files is written, read, written from what was read, and read again. -/
theorem readDirectory_of_write_two :
    (∃ w, writeArchive two.files (Writer.make .none .zlib) = .ok two.bytes w) ∧
      ∃ entries y, format.readDirectory (.memory two.bytes.length) { stream := .ofBytes two.bytes }
          = .ok entries y ∧ entries.length = 2 ∧
        ∃ out t, encode (entries.map EditedEntry.keep) Zlib.compress (.ofBytes two.bytes)
            = .ok out t ∧
          ∃ entries' v, format.readDirectory (.memory out.length) { stream := .ofBytes out }
            = .ok entries' v ∧ entries'.length = 2 := by
  have hinverse := readDirectory_of_write Zlib.inverts_compress
  have hplain : ∀ f ∈ two.files, Utf8.IsPlain f.name := by
    rw [two, List.forall_mem_cons, List.forall_mem_singleton]
    exact ⟨by decide, by decide⟩
  obtain ⟨out, w, hwrite⟩ := exists_writeArchive_two
  obtain ⟨rfl, hnarrow⟩ : out = two.bytes ∧ two.IsNarrow := of_writeArchive hwrite
  have hp : two.IsExact := hnarrow.isExact (by decide)
  have hprimary : ∀ n, (Location.memory n).isPrimary = true := fun _ => rfl
  obtain ⟨entries, y, hread, -, hlength, -⟩ := (hinverse.1
    (x := { stream := .ofBytes two.bytes }) hplain hwrite (Stream.isOver_ofBytes _)
    (hprimary two.bytes.length) rfl (by decide)).1 (fun _ => by decide)
  obtain ⟨y', hread', -⟩ := readDirectory_of_plan (p := two)
    (x := { stream := .ofBytes two.bytes }) (.memory two.bytes.length) hp Zlib.inverts_compress hplain
    (Stream.isOver_ofBytes _) rfl (by decide)
  obtain ⟨rfl, rfl⟩ : entries = two.entries (.memory two.bytes.length) ∧ y = y' := by
    have := hread.symm.trans hread'
    rw [EStateM.Result.ok.injEq] at this
    exact this
  obtain ⟨out, t, hencode⟩ := exists_encode_two
  obtain ⟨-, entries', v, hagain, hlength', -⟩ := hinverse.2
    (x := { stream := .ofBytes two.bytes }) (z := { stream := .ofBytes out })
    (Stream.isOver_ofBytes _) hread (Stream.isOver_ofBytes _) hencode (Stream.isOver_ofBytes _)
    (hprimary out.length) rfl (Nat.le_refl _)
  exact ⟨⟨w, hwrite⟩, _, y, hread, hlength, out, t, hencode, entries', v, hagain,
    hlength'.trans hlength⟩

/-- A file without a name and without content. -/
def blank : File := ⟨"", .none, []⟩

section

variable {p : Plan} {current : Option File} {w : Writer} {k n : ℕ}

/-- Of files without names and contents there is a byte for each. -/
theorem sizes_of_blanks (h : p.files = List.replicate k blank) :
    p.data = [] ∧ p.names.length = k := by
  have hstored : blank.stored p.compress = [] := rfl
  constructor
  · rw [Plan.data, h, List.flatMap_replicate, hstored]
    exact List.flatten_replicate_nil
  · rw [Plan.names, h, List.map_replicate, List.flatMap_replicate]
    simp [blank, Names.terminated, Utf8.encode]

/-- A file without content is ended. -/
theorem Plan.Holds.exists_finishFile (hw : p.Holds current w)
    (h : (p.close current).files = List.replicate k blank) :
    ∃ v, Writer.finishFile w = .ok () v := by
  cases hfinish : Writer.finishFile w with
  | ok u v => exact ⟨v, rfl⟩
  | error e v =>
    obtain ⟨content, record, hcurrent, hlarge, -⟩ := of_finishFile_eq_error hfinish
    cases current with
    | none => cases (hw.closed_of_none rfl).symm.trans hcurrent
    | some f =>
      have hmem : f ∈ p.files ++ [f] := List.mem_concat_self
      rw [show p.files ++ [f] = _ from h] at hmem
      obtain rfl := List.eq_of_mem_replicate hmem
      obtain ⟨block, hblock, hfilled⟩ := (hw.opens_of_some _ rfl).current_eq
      obtain rfl := Option.some.inj (hblock.symm.trans hcurrent)
      have hcontent : blank.content = [] := rfl
      have hstored : Block.stored blank.compression.isCompressed [] w.compress = [] := rfl
      rw [IsOversized, hfilled.size_eq, hfilled.bytes_eq, hcontent, hstored, or_self] at hlarge
      exact absurd hlarge (Nat.not_lt_zero _)

/-- Files without names and contents are written, as long as there is room for the zeros behind
their names. -/
theorem Plan.Holds.exists_writeFiles_blanks (hw : p.Holds current w)
    (h : (p.close current).files = List.replicate k blank) (hroom : k + n ≤ Word.max32) :
    ∃ v, Tre.writeFiles (List.replicate n blank) w = .ok () v := by
  induction n generalizing p current w k with
  | zero => exact ⟨w, rfl⟩
  | succ n ih =>
    obtain ⟨v, hfinish⟩ := hw.exists_finishFile h
    obtain ⟨hdata, hnames⟩ := sizes_of_blanks h
    have hv := hw.finishFile hfinish
    have hsize : v.nameBlock.size = k := hv.nameBlock.size_eq.trans hnames
    cases hstart : Writer.startFile "" .none w with
    | error e w' =>
      obtain herror | ⟨v', record, hv', hfull, -⟩ := of_startFile_eq_error hstart
      · cases hfinish.symm.trans herror
      · obtain rfl : v = v' := (EStateM.Result.ok.inj (hfinish.symm.trans hv')).2
        have hheader : headerSize ≤ Word.max32 := by decide
        rw [hv.dataBlock_eq, hdata, hsize, List.length_nil] at hfull
        omega
    | ok u v =>
      have hfile : Tre.writeFile blank w = .ok () v := bind_of_ok hstart
      have hfiles : ((p.close current).close (some blank)).files = List.replicate (k + 1) blank := by
        rw [List.replicate_succ', ← h]
        rfl
      obtain ⟨v', hrest⟩ := ih (hw.writeFile hfile) hfiles (by omega)
      exact ⟨v', (bind_of_ok hfile).trans hrest⟩

end

/-- So many files without names and contents are written. -/
theorem exists_writeArchive_blanks {n : ℕ} (h : n ≤ Word.max32) :
    ∃ out w, writeArchive (List.replicate n blank) (Writer.make .none .none) = .ok out w := by
  have hmake := holds_make Zlib.compress .none .none
  obtain ⟨w, hfiles⟩ := hmake.exists_writeFiles_blanks (n := n) rfl (by rwa [Nat.zero_add])
  obtain ⟨p, current, hw, hclose⟩ := hmake.writeFiles hfiles
  have hblanks : (p.close current).files = List.replicate n blank := by rw [hclose]; rfl
  obtain ⟨v, hfinish⟩ := hw.exists_finishFile hblanks
  obtain ⟨hdata, hnames⟩ := sizes_of_blanks hblanks
  have hv := hw.finishFile hfinish
  rw [hclose] at hv hdata hnames
  have hsize : v.nameBlock.size = n := hv.nameBlock.size_eq.trans hnames
  have hbytes : v.nameBlock.bytes v.compress = v.nameBlock.content :=
    (hv.nameBlock.bytes_eq v.compress).trans hv.nameBlock.content_eq.symm
  have hheader : headerSize ≤ Word.max32 := by decide
  obtain ⟨out, hout⟩ := exists_finish hfinish
    (by rwa [hv.dataBlock_eq, hdata, List.length_nil, Nat.add_zero])
    (fun hsome => absurd hv.recordCompression_eq hsome) (by rwa [hsize])
    (by rwa [hbytes, ← Block.size_eq, hsize])
  exact ⟨out, v, (bind_of_ok hfiles).trans hout⟩

/-- From so many such files on, the archive is refused, although no more files are in it than are
allowed. -/
theorem exists_unreadable {n : ℕ} (hlarge : 2 ^ 32 ≤ n * recordSize) (h : n ≤ Word.max32) :
    ∃ out w, (∀ f ∈ List.replicate n blank, Utf8.IsPlain f.name) ∧
      writeArchive (List.replicate n blank) (Writer.make .none .none) = .ok out w ∧
      ∃ y, format.readDirectory (.memory out.length)
          { stream := .ofBytes out, context := { options := { maxEntries := n } } }
        = .error (.exceeds "directory size" (n * recordSize) (n * recordSize % 2 ^ 32)) y := by
  obtain ⟨out, w, hwrite⟩ := exists_writeArchive_blanks h
  have hlength : (List.replicate n blank).length = n := List.length_replicate
  obtain ⟨hout, hp⟩ := of_writeArchive hwrite
  refine ⟨out, w, ?_, hwrite, ?_⟩
  · intro f hf
    rw [List.eq_of_mem_replicate hf]
    decide
  · obtain ⟨y, hread⟩ := readDirectory_of_not_fits
      (x := { stream := .ofBytes out, context := { options := { maxEntries := n } } })
      (.memory out.length) hp rfl (by rwa [hlength]) (hout ▸ Stream.isOver_ofBytes _)
      (Nat.le_of_eq hlength)
    rw [hlength] at hread
    exact ⟨y, hread⟩

/-- The least number of them. -/
theorem unreadable_of_blanks : ∃ out w,
    (∀ f ∈ List.replicate 178956971 blank, Utf8.IsPlain f.name) ∧
    writeArchive (List.replicate 178956971 blank) (Writer.make .none .none) = .ok out w ∧
    ∃ y, format.readDirectory (.memory out.length)
        { stream := .ofBytes out, context := { options := { maxEntries := 178956971 } } }
      = .error (.exceeds "directory size" 4294967304 8) y := by
  have hsize : 178956971 * recordSize = 4294967304 := by rw [recordSize]
  have hrest : 4294967304 % 2 ^ 32 = 8 := by decide
  have hmax : 178956971 ≤ Word.max32 := by rw [Word.max32]; omega
  have h := exists_unreadable (n := 178956971) (by omega) hmax
  rw [hsize, hrest] at h
  exact h

end Tre

end Packfile
