import Packfile.Proofs.Recognition

/-!
# Archives that are written from an open one

A format that can write writes edits of the archive that is open: entries of it, with their own or
with other content, and new ones. What comes of them does not depend on the format. The archive that
is written is recognized as one of its format, and lists the edits in their order, each under its
name and with the content that it stands for: the one that it was given, or the one that its entry
has in the open archive. A format of which this is true is *faithful*; XARC and TRE are.

The law asks two things of the edits. Content is kept only of entries that the format has found in
the open archive, and names can be ended by a zero. Names that were read can be, so it is only of
new names that this has to be known.

## Main definitions

* `Entry.HoldsIn` — an entry and its content in the bytes of its archive
* `EditedEntry.StandsFor` — the content that an edit is written with
* `IsRewriting` — the entries that edits were written as
* `Format.IsFaithful` — formats that read what they wrote

## Main results

* `Xarc.isFaithful`, `Tre.isFaithful`
-/

namespace Packfile

open Run Reading

/-! ### Contents before and after -/

/-- The entry lies in the bytes of the archive that was opened, and reads as the content. -/
structure Entry.HoldsIn (e : Entry) (bytes content : Bytes) : Prop where
  /-- The entry is in no other part. -/
  isPrimary : e.source.isPrimary = true
  /-- It lies in the bytes. -/
  fits : e.FitsIn bytes
  /-- It reads as the content. -/
  contentIn_eq : e.contentIn bytes = .ok content

theorem Archive.readEntry_of_holdsIn {a : Archive} {e : Entry} {bytes content : Bytes} {i : ℕ}
    (h : e.HoldsIn bytes content) (hover : a.stream.IsOver bytes) (hget : a.entries[i]? = some e)
    (files : FileTree) : (a.readEntry files i).1 = .ok content := by
  rw [Archive.readEntry_of_isOver hover hget h.isPrimary h.fits, h.contentIn_eq]

/-- The content that an edit is written with when the archive of `bytes` is open: the one it was
given, or the one of its entry. -/
def EditedEntry.StandsFor (edit : EditedEntry) (bytes content : Bytes) : Prop :=
  match edit.content with
  | .replaced found => content = found
  | .kept => edit.entry.HoldsIn bytes content

/-- The entries, in an archive of the bytes `out`, are what edits of the archive of `bytes` were
written as. -/
structure IsRewriting (bytes out : Bytes) (edits : List EditedEntry) (entries : List Entry) :
    Prop where
  /-- There is an entry for each edit. -/
  length_eq : entries.length = edits.length
  /-- It has the name of the edit and the content that the edit stands for. -/
  holds : ∀ {i : ℕ} {edit : EditedEntry} {e : Entry}, edits[i]? = some edit →
    entries[i]? = some e → e.name = edit.entry.name ∧
      ∃ content, edit.StandsFor bytes content ∧ e.HoldsIn out content

/-- The format has found the listing in the bytes, on its own, and may write the edits. -/
structure Format.Admits (format : Format) (bytes : Bytes) (listing : List Entry)
    (edits : List EditedEntry) : Prop where
  /-- The format has found the listing. -/
  exists_readAlone : ∃ source s options files, source.isPrimary = true ∧ s.IsOver bytes ∧
    format.readAlone source s options files = .ok listing
  /-- Content is kept only of what is listed. -/
  mem_of_kept : ∀ edit ∈ edits, edit.content = .kept → edit.entry ∈ listing
  /-- Every name can be ended by a zero. -/
  isPlain : ∀ edit ∈ edits, ∀ name, edit.entry.name = some name → Utf8.IsPlain name

/-- The format reads what it wrote. -/
structure Format.IsFaithful (format : Format) : Prop where
  /-- The entries that it finds have names, which can be ended by a zero. -/
  named : ∀ {bytes source s options files listing}, s.IsOver bytes →
    format.readAlone source s options files = .ok listing →
      ∀ e ∈ listing, ∃ name, e.name = some name ∧ Utf8.IsPlain name
  /-- What it writes is recognized, and what it finds there is what was written. -/
  rewritten : ∀ {encode bytes out target listing edits s t u files}, format.encode = some encode →
    format.Admits bytes listing edits → s.IsOver bytes → encode edits s = .ok out t →
    edits.length ≤ ({} : Options).maxEntries → target.isPrimary = true →
    target.length = out.length → u.IsOver out →
      format.IsCandidate target u ∧ ∃ entries,
        format.readAlone target u {} files = .ok entries ∧ IsRewriting bytes out edits entries

section

variable {bytes out content : Bytes} {source target : Location} {listing : List Entry}
  {edits : List EditedEntry} {edit : EditedEntry} {s t u : Stream} {files : FileTree}

/-! ### XARC -/

namespace Xarc

/-- What is written for an edit is the content that it stands for. -/
theorem standsFor_of_contentBytes (hprimary : source.isPrimary = true)
    (hlisted : edit.content = .kept → IsListed source bytes edit.entry) (hs : s.IsOver bytes)
    (h : contentBytes edit s = .ok content t) :
    edit.StandsFor bytes content ∧ t.IsOver bytes := by
  rw [EditedEntry.StandsFor]
  cases hedited : edit.content with
  | replaced found =>
    rw [contentBytes, hedited] at h
    obtain ⟨rfl, rfl⟩ := pure_eq_ok.mp h
    exact ⟨rfl, hs⟩
  | kept =>
    have hlisted := hlisted hedited
    have hsource : edit.entry.source.isPrimary = true := by rw [hlisted.source_eq, hprimary]
    rw [contentBytes_of_copied hedited hlisted.codec_eq hsource] at h
    obtain ⟨rfl, ht⟩ := of_preserve hs h
    exact ⟨⟨hsource, hlisted.fits, Entry.contentIn_of_identity hlisted.codec_eq hlisted.decoded_eq
      hlisted.fits.stop_le⟩, ht⟩

/-- An archive in step with edits is read as what they stand for. -/
theorem exists_readAlone {records : List Record} {names : List String} {contents : List Bytes}
    (harchive : IsArchive out records names contents)
    (hnames : edits.map (fun e => e.entry.name) = names.map some)
    (hrecords : records.length = edits.length)
    (hcontents : List.Forall₂ (EditedEntry.StandsFor · bytes ·) edits contents)
    (hcount : edits.length ≤ ({} : Options).maxEntries) (hprimary : target.isPrimary = true)
    (hlength : target.length = out.length) (hu : u.IsOver out) :
    ∃ entries, format.readAlone target u {} files = .ok entries ∧
      IsRewriting bytes out edits entries := by
  have hnamesLength : names.length = records.length := by
    have hsame := congrArg List.length hnames
    rw [List.length_map, List.length_map] at hsame
    omega
  obtain ⟨w, hdecode, -⟩ := exists_decode
    (x := (Session.opening { u with position := 0 } {} files).started) target harchive hnamesLength
    (Stream.isOver_goto (Stream.isOver_goto hu)) rfl (by rw [hrecords]; exact hcount)
  refine ⟨_, Format.readAlone_eq_ok.mpr ⟨w, Format.readDirectory_eq_ok.mpr
    ⟨_, hdecode, finish_entries harchive hnamesLength hlength _⟩⟩, ?_, ?_⟩
  · rw [List.length_zipWith, hnamesLength, Nat.min_self, hrecords]
  · intro i edit e hedit he
    rw [List.getElem?_zipWith_eq_some] at he
    obtain ⟨r, name, hr, hname, rfl⟩ := he
    obtain ⟨content, hcontent⟩ : ∃ content, contents[i]? = some content := by
      have hi := (List.getElem?_eq_some_iff.mp hedit).1
      rw [hcontents.length_eq] at hi
      exact ⟨_, List.getElem?_eq_getElem hi⟩
    have hnameEq : edit.entry.name = some name := by
      have hsame := congrArg (·[i]?) hnames
      simpa only [List.getElem?_map, hedit, hname, Option.map_some, Option.some.injEq] using hsame
    obtain ⟨-, -, hfits, hread⟩ := contentIn_toEntry target harchive hnamesLength hr hcontent name
    have hstands := of_getElem? (R := fun edit content => edit.StandsFor bytes content) hcontents
      hedit hcontent
    exact ⟨hnameEq.symm, content, hstands, hprimary, hfits, hread⟩

theorem isFaithful : format.IsFaithful where
  named {bytes source s options files listing} hs hlisting e he := by
    obtain ⟨y, hread⟩ := Format.readAlone_eq_ok.mp hlisting
    have hstart : ({ s with position := 0 } : Stream).IsOver bytes := Stream.isOver_goto hs
    exact (of_readDirectory hstart hread e he).named
  rewritten {encode bytes out target listing edits s t u files} hencode hadmits hs h hcount hprimary
      hlength hu := by
    cases hencode
    obtain ⟨source, s', options, files', hsource, hs', hlisting⟩ := hadmits.exists_readAlone
    obtain ⟨y, hread⟩ := Format.readAlone_eq_ok.mp hlisting
    have hstart : ({ s' with position := 0 } : Stream).IsOver bytes := Stream.isOver_goto hs'
    have hlisted := of_readDirectory hstart hread
    obtain ⟨records, names, contents, harchive, hnames, hreserved, hcontents⟩ :=
      of_encode (P := (EditedEntry.StandsFor · _ ·))
        (fun e he s t content hs => standsFor_of_contentBytes hsource
          (fun hkept => hlisted _ (hadmits.mem_of_kept e he hkept)) hs)
        hadmits.isPlain hs h
    have hrecords := congrArg List.length hreserved
    rw [List.length_map, List.length_map] at hrecords
    have htakes : format.Takes target u files edits.length :=
      takes_of_encode hadmits.isPlain h hcount hu hlength
    exact ⟨htakes.isCandidate,
      exists_readAlone harchive hnames hrecords hcontents hcount hprimary hlength hu⟩

end Xarc

/-! ### TRE -/

namespace Tre

/-- What a file has been written with is the content that its edit stands for. -/
theorem standsFor_of_isFile {f : File} (hs : s.IsOver bytes) (h : IsFile s edit f) :
    edit.StandsFor bytes f.content := by
  rw [EditedEntry.StandsFor]
  cases hedited : edit.content with
  | replaced found =>
    obtain ⟨v, w, -, hcontent⟩ := h.content_eq
    rw [EditedEntry.contentBytes, hedited] at hcontent
    exact (pure_eq_ok.mp hcontent).1
  | kept =>
    obtain ⟨entry, content⟩ := edit
    cases hedited
    have hcopy := isCopy_of_isFile hs h
    exact ⟨hcopy.isPrimary, hcopy.fits, hcopy.content_eq⟩

/-- The archive of a plan is read as its files. -/
theorem isRewriting_entries {p : Plan} (hp : p.IsExact) (hcompress : Zlib.Inverts p.compress)
    (hfiles : List.Forall₂ (IsFile s) edits p.files) (hs : s.IsOver bytes)
    (hprimary : target.isPrimary = true) : IsRewriting bytes p.bytes edits (p.entries target) := by
  have hplaced : p.placed.map Placed.file = p.files := map_file_place _ _ _ _
  constructor
  · rw [Plan.entries, List.length_map, Plan.placed, length_place, hfiles.length_eq]
  · intro i edit e hedit he
    rw [Plan.entries, List.getElem?_map, Option.map_eq_some_iff] at he
    obtain ⟨q, hq, rfl⟩ := he
    have hfile : p.files[i]? = some q.file := by
      rw [← hplaced, List.getElem?_map, hq]
      rfl
    have hwritten := of_getElem? hfiles hedit hfile
    obtain ⟨hfits, -, hread⟩ := contentIn_entry target hp hcompress (List.mem_of_getElem? hq)
    exact ⟨hwritten.name_eq.symm, _, standsFor_of_isFile hs hwritten, hprimary, hfits, hread⟩

theorem isFaithful : format.IsFaithful where
  named hs hlisting e he := by
    obtain ⟨y, hread⟩ := Format.readAlone_eq_ok.mp hlisting
    exact ((of_readDirectory hread).2.2 e he).named
  rewritten {encode bytes out target listing edits s t u files} hencode hadmits hs h hcount hprimary
      hlength hu := by
    cases hencode
    have htakes : format.Takes target u files edits.length :=
      takes_of_encode Zlib.inverts_compress hadmits.isPlain h hcount hu hlength
    obtain ⟨header, v, written, -, hfiles, hnarrow, rfl⟩ := of_encode_edits h
    have hallowed : written.length ≤ ({} : Options).maxEntries := by rwa [← hfiles.length_eq]
    have hp : Plan.IsExact
        ⟨Zlib.compress, header.recordCompression, header.nameCompression, written⟩ :=
      hnarrow.isExact hallowed
    have hplain : ∀ f ∈ written, Utf8.IsPlain f.name := by
      intro f hf
      obtain ⟨edit, hedit, hfile⟩ := exists_of_forall₂ hfiles hf
      exact hadmits.isPlain edit hedit f.name hfile.name_eq
    have hstart : ({ u with position := 0 } : Stream).IsOver _ := Stream.isOver_goto hu
    obtain ⟨y, hread, -⟩ := readDirectory_of_plan
      (x := .opening { u with position := 0 } {} files) target hp Zlib.inverts_compress hplain
      hstart hlength hallowed
    exact ⟨htakes.isCandidate, _, Format.readAlone_eq_ok.mpr ⟨y, hread⟩,
      isRewriting_entries hp Zlib.inverts_compress hfiles hs hprimary⟩

end Tre

end

end Packfile
