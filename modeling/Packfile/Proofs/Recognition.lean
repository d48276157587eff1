import Packfile.Proofs.Candidates
import Packfile.Proofs.Selection
import Packfile.Proofs.TreRoundTrip
import Packfile.Proofs.XarcRoundTrip

/-!
# What is written is recognized

An archive that was written is opened in the format that it was written in, under whatever path it
is found. Its own format is a candidate for it and can read it; what has to be shown is that no
other candidate comes first and can read it as well.

## One reading at most

A stream that starts with the magic of one format does not start with that of another. An offset
list has no magic, and may start with one by chance: a magic is a number, and may be the size of a
table. But every magic is a number of more offsets than the standard options let a directory have.
So no stream can be read both as an offset list and in a format with a magic, and a format that is a
candidate and can read the stream is the only one (`Registry.eq_of_readAlone`). The extension, which
may favour another candidate, is not to be feared, for that candidate fails.

## Main definitions

* `Format.Takes` — streams that a format is a candidate for and can read
* `Registry.IsOpenedAs` — byte strings that are opened in a format, wherever they come from

## Main results

* `Registry.openStream_of_readAlone` — what a candidate can read is opened in its format
* `Registry.isOpenedAs_of_encode` — what is written is opened in its own format
-/

namespace Packfile

open Run Reading

variable {bytes : Bytes} {source : Location} {s : Stream} {files : FileTree}

/-! ### One reading at most -/

/-- What is read as an offset list has no more offsets than are allowed. -/
theorem Ofs.length_table_le {options : Options} {entries : List Entry} (hs : s.IsOver bytes)
    (h : format.readAlone source s options files = .ok entries) :
    (table bytes).length ≤ options.maxEntries := by
  obtain ⟨y, hread⟩ := Format.readAlone_eq_ok.mp h
  obtain ⟨found, hdecode, -⟩ := Format.readDirectory_eq_ok.mp hread
  have hstart : ({ s with position := 0 } : Stream).IsOver bytes := Stream.isOver_goto hs
  obtain ⟨lens, -, hcount⟩ := isTable_of_decode hstart rfl hdecode
  exact hcount

namespace Registry

variable {f g : Format} {entries found : List Entry}

/-- Every magic is a number of more offsets than the standard options allow. -/
theorem maxEntries_lt_of_mem_marked {mark : Bytes} (h : (f, mark) ∈ marked) :
    ({} : Options).maxEntries < ByteOrder.little.decode mark / 4 := by
  have hall : ∀ mark ∈ marked.map Prod.snd,
      ({} : Options).maxEntries < ByteOrder.little.decode mark / 4 := by decide
  exact hall mark (List.mem_map_of_mem h)

/-- What a format with a magic is a candidate for is no offset list of those that the standard options
allow. -/
theorem maxEntries_lt_of_isCandidate {mark : Bytes} (hs : s.IsOver bytes) (h : (f, mark) ∈ marked)
    (hcandidate : f.IsCandidate source s) :
    ({} : Options).maxEntries < (Ofs.table bytes).length := by
  rw [Ofs.length_table, take_of_isCandidate hs h hcandidate]
  exact maxEntries_lt_of_mem_marked h

theorem mem_standard : f ∈ standard.formats ↔ f = Ofs.format ∨ ∃ mark, (f, mark) ∈ marked := by
  rw [formats_perm.mem_iff, List.mem_cons, List.mem_map]
  simp only [Prod.exists, exists_and_right, exists_eq_right]

/-- **No two candidates can read a stream** under the standard options. -/
theorem eq_of_readAlone (hs : s.IsOver bytes) (hf : f ∈ standard.formats)
    (hg : g ∈ standard.formats) (hfc : f.IsCandidate source s) (hgc : g.IsCandidate source s)
    (hfr : f.readAlone source s {} files = .ok entries)
    (hgr : g.readAlone source s {} files = .ok found) : f = g := by
  -- an offset list and a magic exclude each other by the limit, two magics by their first bytes
  rcases mem_standard.mp hf with rfl | ⟨mark, hmark⟩
  · rcases mem_standard.mp hg with rfl | ⟨mark', hmark'⟩
    · rfl
    · have hlt := maxEntries_lt_of_isCandidate hs hmark' hgc
      exact absurd (Ofs.length_table_le hs hfr) (Nat.not_le.mpr hlt)
  · rcases mem_standard.mp hg with rfl | ⟨mark', hmark'⟩
    · have hlt := maxEntries_lt_of_isCandidate hs hmark hfc
      exact absurd (Ofs.length_table_le hs hgr) (Nat.not_le.mpr hlt)
    · exact eq_of_isCandidate hs hmark hmark' hfc hgc

/-- **What a candidate can read is opened in its format**, whatever else the stream is a candidate
for. -/
theorem openStream_of_readAlone (hs : s.IsOver bytes) (hf : f ∈ standard.formats)
    (hcandidate : f.IsCandidate source s) (hread : f.readAlone source s {} files = .ok entries) :
    ∃ archive y, standard.openStream source (.opening s {} files) = .ok (.recognized archive) y ∧
      archive.format = f.id ∧ archive.entries = entries := by
  obtain ⟨result, y, hopen, hchosen, -⟩ :=
    exists_openStream (fun _ (h : _ ∈ standard.formats) => h) source s {} files
  obtain ⟨archive, rfl, hformat, hentries⟩ := hchosen.of_only (mem_ranking.mpr ⟨hf, hcandidate⟩) hread
    fun g hg found hfound => by
      obtain ⟨hmem, hgc⟩ := mem_ranking.mp hg
      exact eq_of_readAlone hs hmem hf hgc hcandidate hfound hread
  exact ⟨archive, y, hopen, hformat, hentries⟩

/-- Under the standard registry and options the bytes are an archive of `count` entries in the format
of the given identifier, from whatever path they come, or from none. -/
def IsOpenedAs (bytes : Bytes) (id : String) (count : ℕ) : Prop :=
  ∀ (path : Option String) (s : Stream) (files : FileTree), s.IsOver bytes →
    ∃ archive y, standard.openStream { path, length := bytes.length } (.opening s {} files)
        = .ok (.recognized archive) y ∧
      archive.format = id ∧ archive.entries.length = count

end Registry

/-! ### What is written can be read

Each encoder is linked to its own format here: the layout that it leaves is the one that the rating
looks for, and the decoder reads it. -/

/-- The format is a candidate for the stream and can read it on its own, with so many entries. -/
structure Format.Takes (format : Format) (source : Location) (s : Stream) (files : FileTree)
    (count : ℕ) : Prop where
  /-- The format is a candidate. -/
  isCandidate : format.IsCandidate source s
  /-- The format can read the stream. -/
  exists_entries : ∃ entries, format.readAlone source s {} files = .ok entries ∧
    entries.length = count

section

variable {edits : List EditedEntry} {out : Bytes} {t u : Stream}

theorem Xarc.takes_of_encode
    (hplain : ∀ e ∈ edits, ∀ name, e.entry.name = some name → Utf8.IsPlain name)
    (h : encode edits s = .ok out t) (hcount : edits.length ≤ ({} : Options).maxEntries)
    (hu : u.IsOver out) (hlength : source.length = out.length) :
    format.Takes source u files edits.length := by
  obtain ⟨records, names, contents, harchive, hnames, hreserved, -⟩ :=
    of_encode (P := fun _ _ => True)
      (fun _ _ _ _ _ (_ : True) _ => ⟨trivial, trivial⟩) hplain trivial h
  have hrecordsLength : records.length = edits.length := by
    simpa only [List.length_map] using congrArg List.length hreserved
  have hnamesLength : edits.length = names.length := by
    simpa only [List.length_map] using congrArg List.length hnames
  have hstart : ({ u with position := 0 } : Stream).IsOver out := Stream.isOver_goto hu
  obtain ⟨entries, y, hread, hentries⟩ := harchive.exists_readDirectory
    (z := .opening { u with position := 0 } {} files) (hrecordsLength.trans hnamesLength).symm
    hstart hlength (Nat.le_trans (Nat.le_of_eq hrecordsLength) hcount)
  refine ⟨(isCandidate_iff hu).mpr ⟨?_, ?_⟩, entries, Format.readAlone_eq_ok.mpr ⟨y, hread⟩,
    hentries.trans hrecordsLength⟩
  · rw [harchive.out_eq]
    simp only [List.append_assoc]
    exact List.prefix_append _ _
  · rw [harchive.length_eq, dataStart, namesStart, headerSize]
    omega

/-- Offsets of contents that follow each other do not fall. -/
theorem Ofs.isChain_starts (k : ℕ) (contents : List Bytes) :
    (starts k contents).IsChain (· ≤ ·) := by
  induction contents generalizing k with
  | nil => exact .singleton k
  | cons content contents ih =>
    -- behind an offset there is always another one, be it the end
    cases contents with
    | nil => exact List.isChain_cons_cons.mpr ⟨Nat.le_add_right _ _, ih _⟩
    | cons next contents => exact List.isChain_cons_cons.mpr ⟨Nat.le_add_right _ _, ih _⟩

theorem Ofs.takes_of_encode (h : encode edits s = .ok out t)
    (hcount : edits.length + 1 ≤ ({} : Options).maxEntries) (hu : u.IsOver out)
    (hlength : source.length = out.length) : format.Takes source u files edits.length := by
  obtain ⟨contents, hcontents, hstarts, hout⟩ := encode_eq_ok.mp h
  have hcontentsLength : contents.length = edits.length := length_of_mapM hcontents
  rw [← hcontentsLength] at hstarts hout hcount
  have hstart : ({ u with position := 0 } : Stream).IsOver out := Stream.isOver_goto hu
  obtain ⟨found, y, hread, hdata⟩ := exists_readDirectory source
    (x := .opening { u with position := 0 } {} files) hstarts hout hstart hlength hcount
  obtain ⟨htable, htableEq, hend, -⟩ := isTable_of_encode hstarts hout
  refine ⟨(isCandidate_iff hu).mpr ⟨htable.first_le, htable.le_first, htable.dvd_first,
    htable.table_le, ?_, hend⟩, found, Format.readAlone_eq_ok.mpr ⟨y, hread⟩, ?_⟩
  · rw [htableEq]
    exact isChain_starts _ _
  · rw [(forall₂_of_map_eq hdata).length_eq, length_places, hcontentsLength]

theorem Tre.takes_of_encode {compress : Bytes → Bytes}
    (hcompress : Zlib.Inverts compress)
    (hplain : ∀ e ∈ edits, ∀ name, e.entry.name = some name → Utf8.IsPlain name)
    (h : encode edits compress s = .ok out t) (hcount : edits.length ≤ ({} : Options).maxEntries)
    (hu : u.IsOver out) (hlength : source.length = out.length) :
    format.Takes source u files edits.length := by
  obtain ⟨header, _, written, -, hfiles, hnarrow, rfl⟩ := of_encode_edits h
  have hallowed : written.length ≤ ({} : Options).maxEntries := by rwa [← hfiles.length_eq]
  have hp : Plan.IsExact ⟨compress, header.recordCompression, header.nameCompression, written⟩ :=
    hnarrow.isExact hallowed
  have hwritten : ∀ f ∈ written, Utf8.IsPlain f.name := by
    intro f hf
    obtain ⟨e, he, hfile⟩ := exists_of_forall₂ hfiles hf
    exact hplain e he f.name hfile.name_eq
  have hstart : ({ u with position := 0 } : Stream).IsOver _ := Stream.isOver_goto hu
  obtain ⟨y, hread, -⟩ := readDirectory_of_plan (x := .opening { u with position := 0 } {} files)
    source hp hcompress hwritten hstart hlength hallowed
  refine ⟨(isCandidate_iff hu).mpr (succeeds_treHeader.mp ?_), _,
    Format.readAlone_eq_ok.mpr ⟨y, hread⟩, ?_⟩
  · exact ⟨_, _, treHeader_of_isOver hnarrow (Stream.isOver_healthyAt _ 0) rfl⟩
  · rw [Plan.entries, List.length_map, Plan.placed, length_place, hfiles.length_eq]

end

/-! ### What is written is opened in its own format -/

namespace Registry

variable {out : Bytes} {f : Format} {count : ℕ}

/-- Bytes that a format takes, wherever they come from, are opened in it. -/
theorem isOpenedAs_of_takes (hf : f ∈ standard.formats)
    (h : ∀ (source : Location) (u : Stream) (files : FileTree), u.IsOver out →
      source.length = out.length → f.Takes source u files count) :
    IsOpenedAs out f.id count := by
  intro path u files hu
  obtain ⟨hcandidate, entries, hread, hcount⟩ := h { path, length := out.length } u files hu rfl
  obtain ⟨archive, y, hopen, hformat, hentries⟩ :=
    openStream_of_readAlone hu hf hcandidate hread
  exact ⟨archive, y, hopen, hformat, by rw [hentries, hcount]⟩

/-- **What is written is opened in its own format**, with an entry for each that was written, as long
as the standard options allow that many: of an open archive, whatever it is, and of any edits with
plain names. -/
theorem isOpenedAs_of_encode (s : Stream) {edits : List EditedEntry}
    (hplain : ∀ e ∈ edits, ∀ name, e.entry.name = some name → Utf8.IsPlain name) :
    (∀ {out : Bytes} {t : Stream}, Xarc.encode edits s = .ok out t →
      edits.length ≤ ({} : Options).maxEntries → IsOpenedAs out "xarc" edits.length) ∧
    (∀ {out : Bytes} {t : Stream}, Ofs.encode edits s = .ok out t →
      edits.length + 1 ≤ ({} : Options).maxEntries → IsOpenedAs out "ofs" edits.length) ∧
    ∀ {compress : Bytes → Bytes} {out : Bytes} {t : Stream}, Zlib.Inverts compress →
      Tre.encode edits compress s = .ok out t →
      edits.length ≤ ({} : Options).maxEntries → IsOpenedAs out "tre" edits.length := by
  refine ⟨fun h hcount => ?_, fun h hcount => ?_, fun hcompress h hcount => ?_⟩
  · exact isOpenedAs_of_takes (f := Xarc.format) (by simp [standard])
      fun _ _ _ hu hlength => Xarc.takes_of_encode hplain h hcount hu hlength
  · exact isOpenedAs_of_takes (f := Ofs.format) (by simp [standard])
      fun _ _ _ hu hlength => Ofs.takes_of_encode h hcount hu hlength
  · exact isOpenedAs_of_takes (f := Tre.format) (by simp [standard])
      fun _ _ _ hu hlength => Tre.takes_of_encode hcompress hplain h hcount hu hlength

/-- A new entry. -/
def lone : List EditedEntry :=
  [.replace { source := .memory 0, name := some "a", offset := 0 } [0x68, 0x69]]

/-- A new entry is written in all three formats, in place of what an archive of two files held. -/
theorem isOpenedAs_of_encode_lone :
    (∀ e ∈ lone, ∀ name, e.entry.name = some name → Utf8.IsPlain name) ∧
    (∃ out t, Xarc.encode lone (.ofBytes Tre.two.bytes) = .ok out t ∧ IsOpenedAs out "xarc" 1) ∧
    (∃ out t, Ofs.encode lone (.ofBytes Tre.two.bytes) = .ok out t ∧ IsOpenedAs out "ofs" 1) ∧
    ∃ out t, Tre.encode lone Zlib.compress (.ofBytes Tre.two.bytes) = .ok out t ∧
      IsOpenedAs out "tre" 1 := by
  have hplain : ∀ e ∈ lone, ∀ name, e.entry.name = some name → Utf8.IsPlain name := by
    rw [lone, List.forall_mem_singleton]
    rintro name ⟨rfl⟩
    decide
  obtain ⟨hxarc, hofs, htre⟩ := isOpenedAs_of_encode (.ofBytes Tre.two.bytes) hplain
  obtain ⟨xarc, t, hx⟩ : ∃ out t, Xarc.encode lone (.ofBytes Tre.two.bytes) = .ok out t :=
    exists_of_isOk (by decide +kernel)
  obtain ⟨ofs, u, ho⟩ : ∃ out t, Ofs.encode lone (.ofBytes Tre.two.bytes) = .ok out t :=
    exists_of_isOk (by decide +kernel)
  obtain ⟨tre, v, ht⟩ : ∃ out t, Tre.encode lone Zlib.compress (.ofBytes Tre.two.bytes)
      = .ok out t := exists_of_isOk (by decide +kernel)
  exact ⟨hplain, ⟨xarc, t, hx, hxarc hx (by decide)⟩, ⟨ofs, u, ho, hofs ho (by decide)⟩,
    tre, v, ht, htre Zlib.inverts_compress ht (by decide)⟩

end Registry

end Packfile
