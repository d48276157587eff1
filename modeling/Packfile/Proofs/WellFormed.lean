import Packfile.Proofs.Decoders
import Packfile.Proofs.FileChanges

/-!
# Directories that were read are well formed

Whatever bytes a directory is read from, a reading that succeeds has entries that make sense: not
more than the caller allows, each with a name, each inside its part, and none that claims another
length than it stores without a compression to account for it. And an archive with such a directory
can be used: every entry opens, and what it reads as has the length that the directory declares.

Two things are needed besides the soundness of the decoders. Every directory is held against the
lengths of its parts before it is let out, and these are the true lengths: that of the stream, which
the caller states, and those of the part files, which the decoder looks up. And the end of an entry
is a word, so the sum that stops at the largest word is the exact one.

A decoder that looks up the length of a part does not look into it, and takes a folder for a part as
well. Nothing can be read of an entry in such a part.

## Main definitions

* `Listing.IsWellFormed` — what is promised of a directory
* `Location.IsNoFolder` — a part that is not a folder
* `Archive.IsReadable` — what is promised of reading its entries

## Main results

* `Format.wellFormed_of_readDirectory` — both hold of every directory that is read
-/

namespace Packfile

open Run

/-- What is promised of every directory, under a limit on the number of entries. -/
structure Listing.IsWellFormed (limit : ℕ) (entries : List Entry) : Prop where
  /-- There are no more entries than are allowed. -/
  length_le : entries.length ≤ limit
  /-- Every entry has a name. -/
  named : ∀ e ∈ entries, ∃ name, e.name = some name
  /-- The stored bytes of every entry lie in its part. The sum is exact. -/
  stop_le : ∀ e ∈ entries, e.offset + e.stored ≤ e.source.length
  /-- Without a compression the content is as long as what is stored. -/
  decoded_eq : ∀ e ∈ entries, e.codec.isCompressed = false → e.decoded = e.stored

/-- A part of its own is not a folder. -/
def Location.IsNoFolder (files : FileTree) (l : Location) : Prop :=
  l.isPrimary = false → ∀ path, l.path = some path → ¬ files.LeadsToFolder path

/-- What is promised of the entries of an archive whose parts are among the files. -/
structure Archive.IsReadable (a : Archive) (files : FileTree) : Prop where
  /-- Every entry can be opened. -/
  opens : ∀ index e, a.entries[index]? = some e → e.source.IsNoFolder files →
    ∃ r, (a.openEntry files index).1 = .ok (e, r)
  /-- An entry without compression is read, and has the declared length. -/
  reads : ∀ index e, a.entries[index]? = some e → e.source.IsNoFolder files →
    e.codec.isCompressed = false →
      ∃ content, (a.readEntry files index).1 = .ok content ∧ content.length = e.decoded
  /-- Whatever is read has the declared length. -/
  length_eq : ∀ index e content, a.entries[index]? = some e →
    (a.readEntry files index).1 = .ok content → content.length = e.decoded

namespace Entry

variable {source : Location} {files : FileTree} {e : Entry}

/-- The end of a sound entry is compared exactly. -/
theorem IsSound.stop_eq (h : e.IsSound source files) : e.stop = e.offset + e.stored :=
  Word.satAdd_of_le h.stop_le_max

/-- The part of a sound entry has the length that is stated. -/
theorem IsSound.exists_hasPart (h : e.IsSound source files) {a : Archive}
    (hfile : e.source.IsNoFolder files) (hprimary : source.isPrimary = true)
    (hhealthy : a.stream.failAt = none)
    (hlength : source.length = a.stream.length) :
    ∃ bytes, a.HasPart files e bytes ∧ bytes.length = e.source.length := by
  rcases h.located with hsource | ⟨hother, path, hpath, hlength⟩
  · refine ⟨a.stream.bytes, .primary ?_ hhealthy rfl, ?_⟩
    · rw [hsource]
      exact hprimary
    · rw [hsource, hlength]
      rfl
  · rcases FileTree.read_of_length hlength with hfolder | ⟨bytes, hread, hlen⟩
    · exact absurd hfolder (hfile hother path hpath)
    · exact ⟨bytes, .other hother path hpath hread, hlen.symm⟩

end Entry

namespace Archive

variable {source : Location} {files : FileTree} {a : Archive}

/-- Nothing is read of an entry whose part is a folder. -/
theorem isNoFolder_of_readEntry {index : ℕ} {e : Entry} {content : Bytes}
    (hget : a.entries[index]? = some e) (h : (a.readEntry files index).1 = .ok content) :
    e.source.IsNoFolder files := by
  intro hother path hpath hfolder
  have hstream : Stream.ofFile files path = .error (.resource path .isDirectory) := by
    rw [Stream.ofFile, hfolder.read_eq]
  have hpart : openPart files e = .error (.resource path .isDirectory) := by
    rw [openPart, hpath]
    dsimp only
    rw [hstream]
  have hopen : a.openEntry files index = (.error (.resource path .isDirectory), a) := by
    rw [openEntry, hget]
    dsimp only
    rw [openContent, if_neg (by rw [hother]; decide), hpart]
  rw [readEntry, hopen] at h
  cases h

section

variable (hsound : ∀ e ∈ a.entries, e.IsSound source files)
  (hstop : ∀ e ∈ a.entries, e.offset + e.stored ≤ e.source.length)
  (hprimary : source.isPrimary = true) (hhealthy : a.stream.failAt = none)
  (hlength : source.length = a.stream.length)
include hsound hstop hprimary hhealthy hlength

/-- A sound entry that lies in its part has a part, and lies in it. -/
theorem exists_hasPart_of_isSound (index : ℕ) (e : Entry) (hget : a.entries[index]? = some e)
    (hfile : e.source.IsNoFolder files) : ∃ bytes, a.HasPart files e bytes ∧ e.FitsIn bytes := by
  have hmem := List.mem_of_getElem? hget
  obtain ⟨bytes, hbytes, hlen⟩ := (hsound e hmem).exists_hasPart hfile hprimary hhealthy hlength
  refine ⟨bytes, hbytes, ?_, (hsound e hmem).stop_le_max⟩
  rw [hlen]
  exact hstop e hmem

/-- An archive of sound entries that lie in their parts is readable. -/
theorem isReadable_of_isSound : a.IsReadable files := by
  have hpart := exists_hasPart_of_isSound hsound hstop hprimary hhealthy hlength
  refine ⟨fun index e hget hfile => ?_, fun index e hget hfile hcodec => ?_,
    fun index e content hget h => ?_⟩
  · obtain ⟨bytes, hbytes, hfit⟩ := hpart index e hget hfile
    obtain ⟨r, hr⟩ := Entry.exists_readerIn (hsound e (List.mem_of_getElem? hget)).hasKeys bytes
    refine ⟨r, ?_⟩
    rw [openEntry_eq hget hbytes hfit, hr]
    rfl
  · obtain ⟨bytes, hbytes, hfit⟩ := hpart index e hget hfile
    have hs := hsound e (List.mem_of_getElem? hget)
    obtain ⟨content, hcontent⟩ :=
      Entry.exists_contentIn hs.hasKeys hcodec (hs.decoded_eq hcodec) hfit.stop_le
    refine ⟨content, ?_, Entry.length_of_contentIn hcontent⟩
    rw [readEntry_eq hget hbytes hfit, hcontent]
  · obtain ⟨bytes, hbytes, hfit⟩ := hpart index e hget (isNoFolder_of_readEntry hget h)
    rw [readEntry_eq hget hbytes hfit] at h
    exact Entry.length_of_contentIn h

end

end Archive

namespace Format

/-- The entries of a directory that is read are sound, lie in their parts, and are not too many. The
input stays as it is. -/
theorem isSound_of_readDirectory {format : Format}
    (hformat : format ∈ Registry.standard.formats) {source : Location} {x y : Session}
    {entries : List Entry} (h : format.readDirectory source x = .ok entries y) :
    y.input = x.input ∧ entries.length ≤ x.context.options.maxEntries ∧
      (∀ e ∈ entries, e.IsSound source x.files) ∧
        ∀ e ∈ entries, e.offset + e.stored ≤ e.source.length := by
  obtain ⟨found, hdecode, hfinish⟩ := readDirectory_eq_ok.mp h
  obtain ⟨hinput, hcount, hfound⟩ :=
    (isSound_of_mem hformat source x.input).of_ok x.input_started hdecode
  obtain ⟨rfl, hbounds⟩ := Listing.finish_eq_ok.mp hfinish
  have hperm := Listing.perm_arrange y.context.options.sortByOffset found
  have hsound : ∀ e ∈ Listing.arrange y.context.options.sortByOffset found,
      e.IsSound source x.files := fun e he => hfound e (hperm.mem_iff.mp he)
  refine ⟨hinput, ?_, hsound, fun e he => ?_⟩
  · rw [hperm.length_eq]
    exact hcount
  · rw [← (hsound e he).stop_eq]
    exact (hbounds e (hperm.mem_iff.mp he)).2

/-- **Every directory that is read is well formed, and every entry of it can be read.** The stream
is healthy, at any position and of either byte order; the source states its true length. The archive
is the one that the reading leaves, with its stream at any position. -/
theorem wellFormed_of_readDirectory {format : Format}
    (hformat : format ∈ Registry.standard.formats) {source : Location} {x y : Session}
    {entries : List Entry} (hhealthy : x.stream.failAt = none)
    (hprimary : source.isPrimary = true) (hlength : source.length = x.stream.length)
    (h : format.readDirectory source x = .ok entries y) :
    Listing.IsWellFormed x.context.options.maxEntries entries ∧
      ∀ a : Archive, a.entries = entries → a.stream.source = y.stream.source →
        a.IsReadable x.files := by
  obtain ⟨hinput, hcount, hsound, hstop⟩ := isSound_of_readDirectory hformat h
  refine ⟨⟨hcount, fun e he => (hsound e he).named, hstop, fun e he => (hsound e he).decoded_eq⟩, ?_⟩
  intro a hentries hstream
  rw [← hentries] at hsound hstop
  have hsource : a.stream.source = x.stream.source := hstream.trans (Session.source_of_input hinput)
  refine Archive.isReadable_of_isSound hsound hstop hprimary ?_ ?_
  · rw [← hhealthy]
    exact congrArg (fun s => s.2.2) hsource
  · rw [hlength]
    exact (congrArg (fun s => s.1.length) hsource).symm

/-- An archive whose two files lie in a part of its own: one as it is, one that is not the zlib stream
it is said to be. -/
def spanned : Session where
  stream := .ofBytes
    [0x53, 0x50, 0x4B, 0x31, 1, 0, 0, 0, 2, 0, 0, 0,
      7, 0, 0, 0, 0, 0, 0, 0, 0, 0, 0, 0, 2, 0, 0, 0, 2, 0, 0, 0,
      9, 0, 0, 0, 0, 0, 1, 0, 1, 0, 0, 0, 2, 0, 0, 0, 5, 0, 0, 0]
  files := { nodes := [(["a.000"], .file 0 [0x68, 0x69, 0x21])] }

theorem exists_readDirectory_spanned : ∃ entries y,
    Spk.format.readDirectory (.file "a.spk" 52) spanned = .ok entries y :=
  exists_of_isOk (by decide +kernel)

/-- The directory of the spanned archive is well formed, and its entries can be opened. -/
theorem wellFormed_of_readDirectory_spanned :
    ∃ entries y, Spk.format.readDirectory (.file "a.spk" 52) spanned = .ok entries y ∧
      Listing.IsWellFormed 1048576 entries ∧
        Archive.IsReadable ⟨"spk", y.stream, entries⟩ spanned.files := by
  obtain ⟨entries, y, h⟩ := exists_readDirectory_spanned
  have hformat : Spk.format ∈ Registry.standard.formats := by simp [Registry.standard]
  obtain ⟨hwell, hread⟩ := wellFormed_of_readDirectory hformat (x := spanned) rfl rfl rfl h
  exact ⟨entries, y, h, hwell, hread ⟨"spk", y.stream, entries⟩ rfl rfl⟩

end Format

end Packfile
