import Packfile.Proofs.OfsRoundTrip
import Packfile.Proofs.TreReading
import Packfile.Proofs.Walks
import Packfile.Proofs.XarcRoundTrip
import Packfile.Registry

/-!
# What every decoder sees to

The decoders read bytes that nobody vouches for, each in its own way: records that are checked one
by one, lengths between offsets, running sums, lengths that the data state themselves, trees of
folders. All of them end with entries of one kind, `Entry.IsSound`, and no more of them than the
caller allows. What is missing from there to a directory is the comparison with the length of the
part, which is the same for all formats and made behind the decoder.

## Main definitions

* `Entry.IsRange` — a range of a part, stored as it is
* `Entry.IsSound` — what every decoder sees to
* `Format.IsSound` — a format whose decoder does so, and changes nothing but positions and reports

## Main results

* `Format.isSound_of_mem` — every format of the library is sound
-/

namespace Packfile

open Run Reading

/-! ### What is seen to -/

/-- A part of its own, that is there and has the length that is stated. -/
def Location.IsPart (files : FileTree) (l : Location) : Prop :=
  l.isPrimary = false ∧ ∃ path, l.path = some path ∧ files.length path = .ok l.length

namespace Entry

variable {source : Location} {files : FileTree} {e e' : Entry}

/-- A range of a part, which is the content as it is. -/
structure IsRange (source : Location) (e : Entry) : Prop where
  source_eq : e.source = source
  codec_eq : e.codec = []
  decoded_eq : e.decoded = e.stored
  stop_le_max : e.offset + e.stored ≤ Word.max

/-- What is known of an entry before it is held against its part. -/
structure IsSound (source : Location) (files : FileTree) (e : Entry) : Prop where
  /-- The entry has a name. -/
  named : ∃ name, e.name = some name
  /-- The entry lies in the archive that is read, or in a part that is there. -/
  located : e.source = source ∨ e.source.IsPart files
  /-- Keys can be used. -/
  hasKeys : e.codec.HasKeys
  /-- What is not compressed is as long as it is stored. -/
  decoded_eq : e.codec.isCompressed = false → e.decoded = e.stored
  /-- The end of the stored bytes is a word. -/
  stop_le_max : e.offset + e.stored ≤ Word.max

theorem IsRange.of_data (h : e.IsRange source) (hdata : e'.data = e.data) : e'.IsRange source := by
  simp only [data, Prod.mk.injEq] at hdata
  obtain ⟨hsource, hoffset, hstored, hdecoded, hcodec⟩ := hdata
  refine ⟨hsource.trans h.source_eq, hcodec.trans h.codec_eq, ?_, ?_⟩
  · rw [hdecoded, hstored, h.decoded_eq]
  · rw [hoffset, hstored]
    exact h.stop_le_max

/-- A range that has a name. -/
theorem IsRange.isSound (h : e.IsRange source) (hname : ∃ name, e.name = some name) :
    e.IsSound source files where
  named := hname
  located := .inl h.source_eq
  hasKeys := by
    rw [h.codec_eq]
    exact fun t ht => absurd ht List.not_mem_nil
  decoded_eq := fun _ => h.decoded_eq
  stop_le_max := h.stop_le_max

end Entry

/-- Whatever the bytes are, the decoder of the format changes nothing but positions and reports, finds
no more entries than are allowed, and all that it finds is sound. -/
def Format.IsSound (format : Format) : Prop :=
  ∀ source i, Ensures Session.input i
    (fun found => found.length ≤ i.2.1.maxEntries ∧ ∀ e ∈ found, e.IsSound source i.2.2)
    (format.decode source)

theorem Checked.sum_eq_ok {a b n : ℕ} :
    Checked.sum a b = .ok n ↔ n = a + b ∧ a + b ≤ Word.max := by
  rw [sum]
  by_cases h : a + b ≤ Word.max
  · simp [Word.add?, h, orOverflow, eq_comm]
  · simp [Word.add?, h, orOverflow]

/-- The last steps of the formats without names make ranges sound. -/
theorem Listing.ensures_isSound {source : Location} {entries : List Entry}
    {i : (Bytes × ByteOrder × Option ℕ) × Options × FileTree} (extension : String)
    (hlength : entries.length ≤ i.2.1.maxEntries) (hentries : ∀ e ∈ entries, e.IsRange source) :
    Ensures Session.input i
      (fun found => found.length ≤ i.2.1.maxEntries ∧ ∀ e ∈ found, e.IsSound source i.2.2)
      (do
        let hinted ← sniffHints entries
        let found ← Decode.ofReader (Reader.ofExcept (orFail hinted))
        return generate extension found) := by
  refine (ensures_named extension entries).mono fun found ⟨hdata, hnamed⟩ => ⟨?_, fun e he => ?_⟩
  · have hlen := congrArg List.length hdata
    rw [List.length_map, List.length_map] at hlen
    rw [hlen]
    exact hlength
  · obtain ⟨e', he', heq⟩ := exists_of_map_data hdata he
    exact ((hentries e' he').of_data heq).isSound (hnamed e he)

variable {source : Location} {i : (Bytes × ByteOrder × Option ℕ) × Options × FileTree}

/-! ### LUMP: running sums -/

namespace Lump

/-- An entry starts where the data before it end, and its own end is a word. -/
theorem ensures_readRecord {view : Bytes × ByteOrder × Option ℕ} (directory next : ℕ) :
    Ensures Stream.source view
      (fun result => ∀ e, result.1 = .entry e → e.IsRange source ∧ ∃ name, e.name = some name)
      (readRecord source directory next) := by
  refine (keeps_fixedString _).then fun name => keeps_u32.then fun length => ?_
  refine Ensures.ite (fun _ => ensures_pure ?_) fun _ => ?_
  · rintro e ⟨⟩
  refine ensures_liftExcept.bind fun stop hstop => Ensures.guard fun _ => ?_
  obtain ⟨rfl, hmax⟩ := Checked.sum_eq_ok.mp hstop
  refine Ensures.ite (fun _ => ensures_pure ?_) fun _ => ensures_pure ?_
  · rintro e ⟨⟩
  · rintro e ⟨⟩
    exact ⟨⟨rfl, rfl, rfl, hmax⟩, name, rfl⟩

theorem isSound : format.IsSound := by
  intro source i
  refine (keeps_liftReader (keeps_skip _)).then fun _ => ?_
  refine (keeps_liftReader keeps_u32).then fun directory => ?_
  refine (keeps_liftReader keeps_length).then fun _ => Ensures.guard fun _ => ?_
  refine (keeps_liftReader (keeps_seek _)).then fun _ => ?_
  refine Walks.ensures_readUntil (fun next _ => ensures_ofReader ?_) _
  refine (ensures_readRecord directory next).mono fun result h e he => ?_
  obtain ⟨hrange, hname⟩ := h e he
  exact hrange.isSound hname

end Lump

/-! ### DTRE: a tree of folders -/

namespace Dtre

/-- The data of a file node lie in the stream, and the file has no name yet. -/
theorem ensures_readNode {view : Bytes × ByteOrder × Option ℕ} :
    Ensures Stream.source view (fun node => ∀ name e, node = .file name e → e.IsRange source)
      (readNode source) := by
  refine keeps_u8.then fun kind => keeps_u8.then fun _ => (keeps_fixedString _).then fun name => ?_
  refine Ensures.ite (fun _ => ?_) fun _ => Ensures.ite (fun _ => ?_) fun _ => ensures_throw _
  · refine keeps_u32.then fun offset => keeps_u32.then fun length => ?_
    refine (ensures_checkRange _ _ _).bind fun _ ⟨_, hmax⟩ => ensures_pure ?_
    rintro name e ⟨⟩
    exact ⟨rfl, rfl, rfl, hmax⟩
  · refine keeps_u32.then fun _ => ensures_pure ?_
    rintro name e ⟨⟩

theorem ensures_readNodes {view : Bytes × ByteOrder × Option ℕ} (count : ℕ)
    {found : Array TreeNode} (hfound : ∀ name e, TreeNode.file name e ∈ found → e.IsRange source) :
    Ensures Stream.source view
      (fun nodes => ∀ name e, TreeNode.file name e ∈ nodes → e.IsRange source)
      (readNodes source count found) := by
  induction count generalizing found with
  | zero => exact ensures_pure hfound
  | succ count ih =>
    refine ensures_readNode.bind fun node hnode => ih fun name e hmem => ?_
    rcases Array.mem_push.mp hmem with hmem | heq
    · exact hfound name e hmem
    · exact hnode name e heq.symm

theorem isSound : format.IsSound := by
  intro source i
  refine (keeps_liftReader (keeps_skip _)).then fun _ => ?_
  refine (keeps_liftReader keeps_u32).then fun root => ?_
  refine (keeps_liftReader (keeps_checkRange _ _ _)).then fun _ => ?_
  refine (keeps_liftReader (keeps_seek _)).then fun _ => ?_
  refine (ensures_liftReader ensures_readNode).bind fun node _ => ?_
  cases node with
  | file name e => exact ensures_throw _
  | folder name offset =>
    refine Walks.ensures_walkTree (fun offset => ?_) name offset
    refine (keeps_liftReader (keeps_seek _)).then fun _ => ?_
    refine (keeps_liftReader keeps_u32).then fun declared => ?_
    refine (keeps_liftReader keeps_remaining).then fun _ => ?_
    refine (ensures_checkCount _ _ _).bind fun count _ => ?_
    refine (ensures_liftReader (ensures_readNodes _ ?_)).bind fun nodes hnodes => ensures_pure ?_
    · exact fun _ _ hmem => absurd hmem (Array.not_mem_empty _)
    · intro name e hmem full
      have hrange : (e.rename full).IsRange source :=
        (hnodes name e (Array.mem_toList_iff.mp hmem)).of_data rfl
      exact hrange.isSound ⟨full, rfl⟩

end Dtre

/-! ### OFS: lengths between offsets -/

namespace Ofs

/-- An entry ends at one of the offsets, or at the end of the last one. -/
theorem of_mem_lengths {offsets lens : List ℕ} {stop : ℕ}
    (h : Listing.lengths offsets stop = .ok lens) {p : ℕ × ℕ} (hp : p ∈ offsets.zip lens) :
    p.1 + p.2 = stop ∨ p.1 + p.2 ∈ offsets := by
  induction offsets generalizing lens with
  | nil => exact absurd hp List.not_mem_nil
  | cons offset offsets ih =>
    simp only [Listing.lengths, except_bind_eq_ok, except_pure_eq_ok, gap_eq_ok] at h
    obtain ⟨length, hnext, rest, hrest, rfl⟩ := h
    rcases List.mem_cons.mp hp with rfl | hmem
    · cases offsets with
      | nil => exact .inl hnext
      | cons next offsets =>
        right
        rw [hnext, List.headD_cons]
        exact List.mem_cons_of_mem _ List.mem_cons_self
    · rcases ih hrest hmem with hstop | hoffset
      · exact .inl hstop
      · exact .inr (List.mem_cons_of_mem _ hoffset)

theorem ensures_listEntries (source : Location) (index : ℕ) (ps : List (ℕ × ℕ)) :
    Ensures Session.input i
      (· = ps.map fun p => { source, offset := p.1, stored := p.2 })
      (listEntries source index ps) := by
  intro x hx
  obtain ⟨y, hy, -, hquiet⟩ := exists_listEntries source index ps x
  refine ⟨by rw [after_of_ok hy, Session.input_of_quiet hquiet, hx], fun found t h => ?_⟩
  rw [hy] at h
  cases h
  rfl

theorem isSound : format.IsSound := by
  intro source i
  refine (keeps_liftReader keeps_u32).then fun first => Ensures.guard fun _ => ?_
  refine (keeps_liftReader keeps_length).then fun _ => ?_
  refine (ensures_checkCount _ _ _).bind fun count ⟨hcount, hle⟩ => ?_
  refine (keeps_liftReader (keeps_seek _)).then fun _ => ?_
  refine (ensures_liftReader (Tables.ensures_offsetTable count)).bind fun offsets h => ?_
  obtain ⟨hlength, hoffsets⟩ := h
  subst hcount
  refine Ensures.guard fun _ => Ensures.optional (keeps_report _) ?_
  refine (ensures_ofReader ensures_ofExcept).bind fun lens hlens => ?_
  refine (ensures_listEntries source 0 _).bind fun entries hentries => ?_
  subst hentries
  refine Listing.ensures_isSound defaultExtension ?_ fun e he => ?_
  · dsimp only at hlength
    rw [List.length_map, List.length_zip, List.length_dropLast]
    omega
  · obtain ⟨p, hp, rfl⟩ := List.mem_map.mp he
    refine ⟨rfl, rfl, rfl, ?_⟩
    have hstop : p.1 + p.2 = offsets.getLastD 0 ∨ p.1 + p.2 ∈ offsets.dropLast :=
      of_mem_lengths hlens hp
    have hlt : p.1 + p.2 < 2 ^ 32 := by
      rcases hstop with hlast | hmem
      · rw [hlast]
        cases hoffset : offsets.getLast? with
        | none => simp [List.getLastD_eq_getLast?, hoffset]
        | some last =>
          rw [List.getLastD_eq_getLast?, hoffset]
          exact hoffsets last (List.mem_of_getLast? hoffset)
      · exact hoffsets _ (List.dropLast_subset _ hmem)
    have hmax := Word.max_eq
    show p.1 + p.2 ≤ Word.max
    omega

end Ofs

/-! ### SPRB: lengths that the data state -/

namespace Sprb

theorem keeps_readPalettes (count number : ℕ) :
    Keeps Session.input (readPalettes count number) := by
  induction count generalizing number with
  | zero => exact keeps_pure _
  | succ count ih =>
    exact (keeps_liftReader (keeps_bytes _)).bind fun _ => (keeps_liftExcept_decode _).bind fun _ =>
      (keeps_addPalette _).bind fun _ => ih _

/-- A slot that is in use is an entry at its offset, of no length yet. -/
theorem ensures_listSprites (source : Location) (slot index : ℕ) (offsets : List ℕ) :
    Ensures Session.input i
      (fun entries => entries.length ≤ offsets.length ∧
        ∀ e ∈ entries, e.source = source ∧ e.codec = [] ∧ e.offset ∈ offsets)
      (listSprites source slot index offsets) := by
  induction offsets generalizing slot index with
  | nil => exact ensures_pure ⟨Nat.le_refl _, fun e he => absurd he List.not_mem_nil⟩
  | cons offset offsets ih =>
    rw [listSprites]
    refine Ensures.ite (fun _ => ?_) fun _ => ?_
    · refine (ih _ _).mono fun entries ⟨hle, hall⟩ => ⟨Nat.le_succ_of_le hle, fun e he => ?_⟩
      obtain ⟨hsource, hcodec, hmem⟩ := hall e he
      exact ⟨hsource, hcodec, List.mem_cons_of_mem _ hmem⟩
    · refine (keeps_liftReader (keeps_checkRange _ _ _)).then fun _ => ?_
      refine (keeps_report _).then fun _ => (keeps_liftExcept_decode _).then fun _ => ?_
      refine (ih _ _).bind fun entries ⟨hle, hall⟩ => ?_
      refine ensures_pure ⟨Nat.succ_le_succ hle, fun e he => ?_⟩
      rcases List.mem_cons.mp he with rfl | hmem
      · exact ⟨rfl, rfl, List.mem_cons_self⟩
      · obtain ⟨hsource, hcodec, hoffset⟩ := hall e hmem
        exact ⟨hsource, hcodec, List.mem_cons_of_mem _ hoffset⟩

/-- A description adds properties, and nothing else. -/
theorem ensures_describe {view : Bytes × ByteOrder × Option ℕ} (palettes : List Palette)
    (paletteCount : ℕ) (e : Entry) :
    Ensures Stream.source view (fun e' => e'.data = e.data) (describe palettes paletteCount e) := by
  refine (keeps_liftExcept _).then fun _ => (keeps_seek _).then fun _ => ?_
  refine keeps_u16.then fun width => keeps_u16.then fun height => keeps_u8.then fun number => ?_
  cases palettes[number]? with
  | none => exact ensures_throw _
  | some palette => exact ensures_pure rfl

/-- A length that was scanned ends a range. -/
theorem isRange_withStored {e : Entry} {stated : ℕ} (hsource : e.source = source)
    (hcodec : e.codec = []) (hoffset : e.offset < 2 ^ 32) (hstated : stated < 256 ^ 4) :
    (e.withStored (stated + spriteLength.excluded)).IsRange source where
  source_eq := hsource
  codec_eq := hcodec
  decoded_eq := by simp [Entry.withStored, hcodec, Codec.isIdentity]
  stop_le_max := by
    have hexcluded : spriteLength.excluded = 9 := rfl
    have hmax := Word.max_eq
    show e.offset + (stated + spriteLength.excluded) ≤ Word.max
    omega

theorem isSound : format.IsSound := by
  intro source i
  refine (keeps_liftReader (keeps_skip _)).then fun _ => ?_
  refine (keeps_liftReader keeps_u16).then fun slots => ?_
  refine (keeps_liftReader keeps_u16).then fun palettes => ?_
  refine (keeps_liftReader keeps_remaining).then fun _ => ?_
  refine (keeps_checkCount _ _ _).then fun paletteCount => ?_
  refine (keeps_readPalettes _ _).then fun _ => (keeps_liftReader keeps_remaining).then fun _ => ?_
  refine (ensures_checkCount _ _ _).bind fun slotCount ⟨hcount, hle⟩ => ?_
  subst hcount
  refine (ensures_liftReader (Tables.ensures_offsetTable _)).bind
    fun offsets ⟨hlength, hoffsets⟩ => ?_
  refine (ensures_listSprites source 0 0 offsets).bind fun entries ⟨hentries, hall⟩ => ?_
  refine (ensures_liftReader (Listing.ensures_updateEach (Listing.keeps_scanLength spriteLength)
    entries)).bind fun scanned hscanned => ?_
  refine (ensures_ofReader ensures_ofExcept).bind fun found hfound => ?_
  have hupdated := hscanned found (Listing.orFail_eq_ok.mp hfound)
  refine keeps_get.then fun _ => ?_
  refine (ensures_mapM fun e _ => ensures_ofReader (ensures_describe _ _ e)).bind
    fun described ⟨hdescribed, hdata⟩ => ?_
  refine Listing.ensures_isSound defaultExtension ?_ fun e he => ?_
  · dsimp only at hlength
    rw [hdescribed, ← hupdated.length_eq]
    omega
  · obtain ⟨e', he', heq⟩ := hdata e he
    obtain ⟨e₀, he₀, u, v, hscan⟩ := exists_of_forall₂ hupdated he'
    obtain ⟨stated, hstated, rfl⟩ := Listing.of_scanLength hscan
    obtain ⟨hsource, hcodec, hmem⟩ := hall e₀ he₀
    exact (isRange_withStored hsource hcodec (hoffsets _ hmem) hstated).of_data heq

end Sprb

/-! ### RPAK: an enciphered directory -/

namespace Rpak

theorem hasKeys_codecOf (flags : ℕ) : (codecOf flags).HasKeys := by
  intro transform hmem
  rcases List.mem_append.mp hmem with hmem | hmem
  all_goals
    split at hmem
    · rw [List.mem_singleton.mp hmem]
      rfl
    · exact absurd hmem List.not_mem_nil

theorem isCompressed_codecOf (flags : ℕ) : (codecOf flags).isCompressed = hasZlib flags := by
  rw [codecOf]
  cases hasXor flags <;> cases hasZlib flags <;> rfl

/-- A slot is an entry only if its lengths agree with its flags and its data lie in the stream. -/
theorem of_action {slot : Slot} {length : ℕ} {files : FileTree} {e : Entry}
    (h : slot.action source length = .ok (.entry e)) : e.IsSound source files := by
  rw [Slot.action] at h
  split at h
  · cases h
  split at h
  · cases h
  split at h
  · cases h
  split at h
  · cases h
  next hlengths hrange =>
    cases h
    simp only [Bool.not_eq_true', Bool.not_eq_false] at hrange
    refine ⟨⟨slot.name, rfl⟩, .inl rfl, hasKeys_codecOf _, fun hcodec => ?_,
      (inRange_iff.mp hrange).2⟩
    have hzlib : hasZlib slot.flags = false := (isCompressed_codecOf _).symm.trans hcodec
    show slot.decoded = slot.stored
    simpa [hzlib] using hlengths

theorem keeps_readSlot : Keeps Stream.source readSlot :=
  (keeps_fixedString _).bind fun _ => keeps_u32.bind fun _ => keeps_u32.bind fun _ =>
    keeps_u32.bind fun _ => keeps_u32.bind fun _ => keeps_pure _

theorem isSound : format.IsSound := by
  intro source i
  refine (keeps_liftReader (keeps_skip _)).then fun _ => ?_
  refine (keeps_liftReader keeps_u32).then fun found => Ensures.guard fun _ => ?_
  refine (keeps_liftReader keeps_u32).then fun declared => ?_
  refine (keeps_liftReader keeps_u32).then fun size => ?_
  refine (keeps_liftReader keeps_remaining).then fun _ => ?_
  refine (ensures_checkCount _ _ _).bind fun count ⟨hcount, hle⟩ => ?_
  subst hcount
  refine (keeps_liftExcept_decode _).then fun expected => Ensures.guard fun _ => ?_
  refine (keeps_liftReader (Tables.keeps_openDirectory _ _ _ _)).then fun directory => ?_
  refine (keeps_liftReader keeps_length).then fun length => ?_
  refine (ensures_onStream (Tables.ensures_readTable (P := fun e => e.IsSound source i.2.2)
    fun _ => (keeps_ofReader keeps_readSlot).then fun slot => ?_)).bind
      fun (entries, _) ⟨hlength, hall⟩ => ensures_pure ⟨Nat.le_trans hlength hle, hall⟩
  refine (ensures_ofReader ensures_ofExcept).mono fun action haction e he => ?_
  subst he
  exact of_action haction

end Rpak

/-! ### SPK: parts in files of their own -/

namespace Spk

variable {files : FileTree} {parts : List Location}

/-- A part that is there is found, and then those behind it. -/
theorem openParts_of_length {directory : String} {count index length : ℕ}
    (h : files.length (partPath index directory) = .ok length) :
    openParts files directory (count + 1) index = (do
      let part ← Checked.within Word.max16 (index + 1)
      let rest ← openParts files directory count (index + 1)
      return { part, path := some (partPath index directory), length } :: rest) := by
  conv_lhs => unfold openParts
  dsimp only
  rw [h]

/-- A part that is not there ends the search. -/
theorem openParts_of_error {directory : String} {count index : ℕ} {problem : ResourceProblem}
    (h : files.length (partPath index directory) = .error problem) :
    openParts files directory (count + 1) index
      = .error (.resource (partPath index directory) problem) := by
  unfold openParts
  dsimp only
  rw [h]

/-- What is known of parts that were found: the first is there, and the others were found. -/
theorem openParts_succ_eq_ok {directory : String} {count index : ℕ} :
    openParts files directory (count + 1) index = .ok parts ↔
      ∃ length rest, files.length (partPath index directory) = .ok length ∧
        index + 1 ≤ Word.max16 ∧ openParts files directory count (index + 1) = .ok rest ∧
        parts = { part := index + 1, path := some (partPath index directory), length } :: rest := by
  cases hlength : files.length (partPath index directory) with
  | error problem => simp [openParts_of_error hlength]
  | ok length =>
    simp only [openParts_of_length hlength, except_bind_eq_ok, except_pure_eq_ok,
      Checked.within_eq_ok]
    constructor
    · rintro ⟨_, ⟨rfl, hle⟩, rest, hrest, rfl⟩
      exact ⟨length, rest, rfl, hle, hrest, rfl⟩
    · rintro ⟨_, rest, ⟨⟩, hle, hrest, rfl⟩
      exact ⟨_, ⟨rfl, hle⟩, rest, hrest, rfl⟩

/-- Every part is there when it is opened. -/
theorem of_openParts {directory : String} {count index : ℕ}
    (h : openParts files directory count index = .ok parts) : ∀ l ∈ parts, l.IsPart files := by
  induction count generalizing index parts with
  | zero =>
    cases h
    exact fun l hl => absurd hl List.not_mem_nil
  | succ count ih =>
    obtain ⟨length, rest, hlength, -, hrest, rfl⟩ := openParts_succ_eq_ok.mp h
    intro l hl
    rcases List.mem_cons.mp hl with rfl | hmem
    · exact ⟨rfl, _, rfl, hlength⟩
    · exact ih hrest l hmem

theorem keeps_readFolder (index : ℕ) : Keeps Stream.source (readFolder index) :=
  (keeps_fixedString _).bind fun _ => keeps_u32.bind fun _ => Keeps.guard <|
    keeps_u32.bind fun _ => keeps_u32.bind fun _ => keeps_pure _

/-- What a file record says of its data. -/
structure FileRecord.IsNarrow (file : FileRecord) : Prop where
  offset_lt : file.offset < 2 ^ 32
  stored_lt : file.stored < 2 ^ 32

theorem ensures_readFile {view : Bytes × ByteOrder × Option ℕ} (parts : ℕ) :
    Ensures Stream.source view FileRecord.IsNarrow (readFile parts) := by
  refine keeps_u32.then fun _ => keeps_u16.then fun _ => keeps_u16.then fun _ => ?_
  refine ensures_u32.bind fun _ hoffset => ensures_u32.bind fun _ hstored => ?_
  refine keeps_u32.then fun _ => Ensures.guard fun _ => Ensures.guard fun _ => ?_
  exact ensures_pure ⟨hoffset, hstored⟩

/-- The codec that flags stand for. -/
def codecOf (flags : ℕ) : Codec := if hasZlib flags then [.zlib] else []

theorem isCompressed_codecOf (flags : ℕ) : (codecOf flags).isCompressed = hasZlib flags := by
  rw [codecOf]
  cases hasZlib flags <;> rfl

theorem hasKeys_codecOf (flags : ℕ) : (codecOf flags).HasKeys := by
  intro transform hmem
  rw [codecOf] at hmem
  split_ifs at hmem
  · rw [List.mem_singleton.mp hmem]
    rfl
  · cases hmem

/-- The entry of a file record in a part. -/
def FileRecord.entry (file : FileRecord) (part : Location) (name : String) : Entry :=
  { source := part, name := some name, offset := file.offset, stored := file.stored,
    decoded := file.decoded, codec := codecOf file.flags,
    properties := [("hash", .int file.hash)] }

/-- An entry is made of a file record when its data lie in its part and its lengths agree with its
flags. -/
theorem toEntry_eq_ok {file : FileRecord} {name : String} {e : Entry} :
    toEntry parts file name = .ok e ↔ ∃ part, parts[file.part]? = some part ∧
      Word.satAdd file.offset file.stored ≤ part.length ∧
      (hasZlib file.flags = false → file.decoded = file.stored) ∧ e = file.entry part name := by
  rw [toEntry]
  cases hpart : parts[file.part]? with
  | none => simp
  | some part =>
    dsimp only
    by_cases hstop : part.length < Word.satAdd file.offset file.stored
    · rw [if_pos hstop]
      constructor
      · intro h
        simp [except_bind_eq_ok] at h
      · rintro ⟨_, ⟨⟩, hle, -⟩
        exact absurd hstop (Nat.not_lt.mpr hle)
    rw [if_neg hstop]
    cases hzlib : hasZlib file.flags with
    | true =>
      have hentry : file.entry part name
          = { file.entry part name with decoded := file.decoded, codec := [.zlib] } := by
        rw [FileRecord.entry, codecOf, hzlib]
        rfl
      constructor
      · rintro ⟨⟩
        exact ⟨part, rfl, Nat.not_lt.mp hstop, fun h => absurd h (by decide), hentry.symm⟩
      · rintro ⟨_, ⟨⟩, -, -, rfl⟩
        exact congrArg Except.ok hentry.symm
    | false =>
      by_cases hlengths : file.decoded = file.stored
      · have hentry : file.entry part name
            = { file.entry part name with decoded := file.stored, codec := [] } := by
          rw [FileRecord.entry, codecOf, hzlib, hlengths]
          rfl
        rw [if_neg (by decide), if_neg (by simpa using hlengths)]
        constructor
        · rintro ⟨⟩
          exact ⟨part, rfl, Nat.not_lt.mp hstop, fun _ => hlengths, hentry.symm⟩
        · rintro ⟨_, ⟨⟩, -, -, rfl⟩
          exact congrArg Except.ok hentry.symm
      · rw [if_neg (by decide), if_pos (by simpa using hlengths)]
        constructor
        · rintro ⟨⟩
        · rintro ⟨_, ⟨⟩, -, hsame, -⟩
          exact absurd (hsame rfl) hlengths

/-- A file lies in a part that is there, and its lengths agree with its flags. -/
theorem of_toEntry {file : FileRecord} {name : String} {e : Entry}
    (hparts : ∀ l ∈ parts, l.IsPart files) (hfile : file.IsNarrow)
    (h : toEntry parts file name = .ok e) : e.IsSound source files := by
  obtain ⟨part, hpart, -, hlengths, rfl⟩ := toEntry_eq_ok.mp h
  have hmax : file.offset + file.stored ≤ Word.max := by
    have := hfile.offset_lt
    have := hfile.stored_lt
    rw [Word.max_eq]
    omega
  refine ⟨⟨name, rfl⟩, .inr (hparts part (List.mem_of_getElem? hpart)), hasKeys_codecOf _, ?_, hmax⟩
  intro hcodec
  exact hlengths ((isCompressed_codecOf _).symm.trans hcodec)

theorem of_listEntries {pairs : List (FileRecord × String)} {entries : List Entry}
    (h : listEntries parts pairs = .ok entries) :
    List.Forall₂ (fun p e => toEntry parts p.1 p.2 = .ok e) pairs entries := by
  induction pairs generalizing entries with
  | nil =>
    cases h
    exact .nil
  | cons p pairs ih =>
    simp only [listEntries, except_bind_eq_ok, except_pure_eq_ok] at h
    obtain ⟨e, he, rest, hrest, rfl⟩ := h
    exact .cons he (ih hrest)

theorem isSound : format.IsSound := by
  intro source i
  show Ensures Session.input i _ (decode source)
  rw [decode]
  cases source.path with
  | none => exact ensures_throw _
  | some directory =>
    refine (keeps_liftReader (keeps_skip _)).then fun _ => ?_
    refine (keeps_liftReader keeps_u16).then fun partCount => ?_
    refine (keeps_liftReader keeps_u16).then fun folders => ?_
    refine (keeps_liftReader keeps_u32).then fun declared => ?_
    refine (keeps_liftReader keeps_remaining).then fun _ => ?_
    refine (keeps_checkCount _ _ _).then fun folderCount => ?_
    refine (Tables.ensures_readTable (P := fun _ => True) fun index => ?_).bind fun folders _ => ?_
    · refine (keeps_ofReader (keeps_readFolder index)).then fun _ => ensures_pure ?_
      exact fun _ _ => trivial
    refine (keeps_liftReader keeps_remaining).then fun _ => ?_
    refine (ensures_checkCount _ _ _).bind fun count ⟨hcount, hle⟩ => ?_
    subst hcount
    refine (Tables.ensures_entries (ensures_readFile partCount)).bind
      fun records ⟨hlength, hrecords⟩ => ?_
    refine ensures_files.bind fun reachable hreachable => ?_
    subst hreachable
    refine (ensures_ofReader ensures_ofExcept).bind fun parts hparts => ?_
    refine Keeps.then (Keeps.ite (keeps_pure _) keeps_names) fun table => ?_
    split
    · exact ensures_throw _
    · next names =>
      refine (ensures_ofReader ensures_ofExcept).mono fun found hfound => ?_
      have hall := of_listEntries hfound
      refine ⟨?_, fun e he => ?_⟩
      · rw [← hall.length_eq, List.length_zip]
        exact Nat.le_trans (Nat.min_le_left _ _) (Nat.le_trans hlength hle)
      · obtain ⟨p, hp, hentry⟩ := exists_of_forall₂ hall he
        exact of_toEntry (of_openParts hparts) (hrecords p.1 (List.of_mem_zip hp).1) hentry

end Spk

/-! ### All formats -/

theorem Xarc.isSound : format.IsSound := by
  intro source i
  refine (ensures_decode source i).mono fun found ⟨hlength, hall⟩ => ⟨hlength, fun e he => ?_⟩
  obtain ⟨hsource, hcodec, hdecoded, hfits, name, hname, -⟩ := hall e he
  exact Entry.IsRange.isSound ⟨hsource, hcodec, hdecoded, hfits.stop_le_max⟩ ⟨name, hname⟩

theorem Tre.isSound : format.IsSound := by
  intro source i
  refine (ensures_decode source i).mono fun found ⟨hlength, hall⟩ => ⟨hlength, fun e he => ?_⟩
  obtain ⟨hsource, ⟨c, hcodec, hdecoded⟩, hmax, name, hname, -⟩ := hall e he
  refine ⟨⟨name, hname⟩, .inl hsource, ?_, fun h => ?_, hmax⟩
  · rw [hcodec]
    cases c with
    | none => exact fun t ht => absurd ht List.not_mem_nil
    | zlib =>
      intro t ht
      rw [List.mem_singleton.mp ht]
      rfl
  · refine hdecoded ?_
    rw [hcodec] at h
    cases c with
    | none => rfl
    | zlib => cases h

/-- **Every format of the library is sound.** -/
theorem Format.isSound_of_mem {format : Format} (h : format ∈ Registry.standard.formats) :
    format.IsSound := by
  simp only [Registry.standard, List.mem_cons, List.not_mem_nil, or_false] at h
  rcases h with rfl | rfl | rfl | rfl | rfl | rfl | rfl | rfl
  · exact Xarc.isSound
  · exact Ofs.isSound
  · exact Dtre.isSound
  · exact Tre.isSound
  · exact Rpak.isSound
  · exact Spk.isSound
  · exact Sprb.isSound
  · exact Lump.isSound

end Packfile
