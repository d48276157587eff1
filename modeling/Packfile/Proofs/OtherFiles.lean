import Packfile.Proofs.Desks
import Packfile.Proofs.HiddenParts

/-!
# Files that do not matter

A decode has the files within reach in its session, and a format may look at them: the parts of an
SPK archive are found there, and the table of names for its hashes. Most formats do not. An archive
in one of these is opened as the same archive wherever its bytes are found, whatever lies beside
them.

## Scope

This is shown for XARC and TRE, and on the way for offset lists, the only other format that such an
archive may be tried in.

## Main definitions

* `Session.SameButFiles` — sessions that differ in the files within reach
* `Decode.IgnoresFiles` — decodes that cannot tell such sessions apart

## Main results

* `Registry.ignoresFiles_of_mem_ranking` — what an XARC or TRE archive may be tried in
* `Input.Opens.of_read` — the same bytes are opened as the same archive
-/

namespace Packfile

open Run Reading

variable {α β : Type}

namespace Session

/-- The second session is the first one with other files within reach. -/
def SameButFiles (x y : Session) : Prop := y = { x with files := y.files }

variable {x y : Session}

theorem sameButFiles_opening (s : Stream) (options : Options) (files others : FileTree) :
    (opening s options files).SameButFiles (opening s options others) := rfl

theorem SameButFiles.stream_eq (h : x.SameButFiles y) : y.stream = x.stream := by rw [h]

theorem SameButFiles.context_eq (h : x.SameButFiles y) : y.context = x.context := by rw [h]

/-- The sessions may go on with another stream, as long as it is one for both. -/
theorem SameButFiles.withStream (h : x.SameButFiles y) (s : Stream) :
    ({ x with stream := s } : Session).SameButFiles { y with stream := s } := by
  rw [SameButFiles, h]

/-- The files may differ, and nothing is an excuse for anything else. -/
def anyFiles : Tolerance Error Session where
  loose := SameButFiles
  excuses _ := False

end Session

/-- The decode does the same whatever files are within reach. -/
abbrev Decode.IgnoresFiles (body : Decode α) : Prop :=
  Coupled Session.anyFiles Session.SameButFiles Session.SameButFiles body

/-- A decode that ignores the files ends with the same value in other ones. -/
theorem Decode.IgnoresFiles.of_ok {body : Decode α} (h : body.IgnoresFiles) {x y z : Session}
    (hxy : x.SameButFiles y) {a : α} (hx : body x = .ok a z) :
    ∃ u, body y = .ok a u ∧ z.SameButFiles u := Decode.Ignores.of_ok h hxy hx

/-- The decoder of the format does. -/
def Format.IgnoresFiles (format : Format) : Prop :=
  ∀ source, (format.decode source).IgnoresFiles

/-! ### Formats that ignore the files -/

/-- Only SPK asks for the files or for the name table, so to all others they are hidden. -/
theorem Session.hides_sameButFiles : Session.Hides Session.SameButFiles where
  stream_eq h := h.stream_eq
  maxEntries_eq h := by rw [h.context_eq]
  palettes_eq h := by rw [h.context_eq]
  withStream h := h.withStream
  withPalettes h _ := by rw [Session.SameButFiles, h]
  withReport h _ := by rw [Session.SameButFiles, h]

open Session (hides_sameButFiles)

theorem Reading.ignoresFiles_options : Decode.options.IgnoresFiles :=
  coupled_query fun _ _ h => by rw [h.context_eq]

theorem Xarc.ignoresFiles : format.IgnoresFiles := fun source =>
  Xarc.ignores hides_sameButFiles source

theorem Ofs.ignoresFiles : format.IgnoresFiles := fun source =>
  Ofs.ignores hides_sameButFiles source

theorem Tre.ignoresFiles : format.IgnoresFiles := fun source =>
  Tre.ignores hides_sameButFiles source

/-! ### Opening beside other files -/

namespace Format

variable {format : Format}

/-- XARC and TRE, by their identifiers. -/
theorem ignoresFiles_of_id (hmem : format ∈ Registry.standard.formats)
    (hid : format.id = "xarc" ∨ format.id = "tre") : format.IgnoresFiles := by
  simp only [Registry.standard, List.mem_cons, List.not_mem_nil, or_false] at hmem
  rcases hmem with rfl | rfl | rfl | rfl | rfl | rfl | rfl | rfl
  · exact Xarc.ignoresFiles
  · exact Ofs.ignoresFiles
  · exact absurd hid (by decide)
  · exact Tre.ignoresFiles
  · exact absurd hid (by decide)
  · exact absurd hid (by decide)
  · exact absurd hid (by decide)
  · exact absurd hid (by decide)

theorem IgnoresFiles.readDirectory (h : format.IgnoresFiles) (source : Location) :
    (format.readDirectory source).IgnoresFiles :=
  hides_sameButFiles.clearPalettes.bind fun _ => (hides_sameButFiles.liftReader _).bind fun _ =>
    (h source).bind fun _ => ignoresFiles_options.bind fun _ => hides_sameButFiles.ofReader _

end Format

namespace Registry

variable {f g : Format} {source : Location} {s : Stream} {bytes : Bytes} {options : Options}
  {files : FileTree} {archive : Archive} {x : Session}

theorem ignoresFiles_tryAll (source : Location) {candidates : List Candidate}
    (h : ∀ c ∈ candidates, c.format.IgnoresFiles) (first : Option (String × Error)) :
    (tryAll source candidates first).IgnoresFiles := by
  induction candidates generalizing first with
  | nil => cases first <;> exact coupled_pure _
  | cons candidate candidates ih =>
    have hread := (h candidate List.mem_cons_self).readDirectory source
    refine (Session.Hides.attempt hread).bind fun result => ?_
    cases result with
    | ok entries =>
      refine coupled_query (f := fun x : Session => Identification.recognized
        { format := candidate.format.id, stream := x.stream, entries }) fun x y hxy => ?_
      rw [hxy.stream_eq]
    | error e =>
      refine (hides_sameButFiles.report _).bind fun _ => ih (fun c hc => ?_) _
      exact h c (List.mem_cons_of_mem _ hc)

/-- **What an XARC or TRE archive may be tried in** ignores the files: it is the format itself, or
that of offset lists, which have no magic. -/
theorem ignoresFiles_of_mem_ranking (hs : s.IsOver bytes) (hf : f ∈ standard.ranking source s)
    (hid : f.id = "xarc" ∨ f.id = "tre") (hg : g ∈ standard.ranking source s) :
    g.IgnoresFiles := by
  obtain ⟨hfmem, hfc⟩ := mem_ranking.mp hf
  obtain ⟨hgmem, hgc⟩ := mem_ranking.mp hg
  rcases mem_standard.mp hgmem with rfl | ⟨mark, hmark⟩
  · exact Ofs.ignoresFiles
  · rcases mem_standard.mp hfmem with rfl | ⟨mark', hmark'⟩
    · exact absurd hid (by decide)
    · rw [eq_of_isCandidate hs hmark hmark' hgc hfc]
      exact Format.ignoresFiles_of_id hfmem hid

theorem openStream_of_sameButFiles (hs : s.IsOver bytes)
    (h : standard.openStream source (.opening s options files) = .ok (.recognized archive) x)
    (hformat : archive.format = "xarc" ∨ archive.format = "tre") (others : FileTree) :
    ∃ y, standard.openStream source (.opening s options others) = .ok (.recognized archive) y := by
  have hstandard : ∀ f ∈ standard.formats, f ∈ standard.formats := fun _ h => h
  obtain ⟨f, hf, hid, -⟩ := (firstSuccess_of_openStream h).1.exists_mem
  rw [hid] at hformat
  have hignores : ∀ c ∈ (standard.ranking source s).map fun f =>
      (⟨f, f.confidence source s⟩ : Candidate), c.format.IgnoresFiles := by
    intro c hc
    obtain ⟨g, hg, rfl⟩ := List.mem_map.mp hc
    exact ignoresFiles_of_mem_ranking hs hf hformat hg
  rw [openStream_eq hstandard] at h ⊢
  obtain ⟨y, hy, -⟩ := (ignoresFiles_tryAll source hignores none).of_ok
    (Session.sameButFiles_opening s options files others) h
  exact ⟨y, hy⟩

theorem openAs_of_sameButFiles {id : String}
    (h : standard.openAs id source (.opening s options files) = .ok archive x)
    (hformat : archive.format = "xarc" ∨ archive.format = "tre") (others : FileTree) :
    ∃ y, standard.openAs id source (.opening s options others) = .ok archive y := by
  obtain ⟨f, hfind, hid, hread, hstream⟩ := openAs_eq_ok.mp h
  rw [hid] at hformat
  have hignores := Format.ignoresFiles_of_id (List.mem_of_find?_eq_some hfind) hformat
  obtain ⟨y, hy, hsame⟩ := (hignores.readDirectory source).of_ok
    (Session.sameButFiles_opening s options files others) hread
  exact ⟨y, openAs_eq_ok.mpr ⟨f, hfind, hid, hy, by rw [hstream, hsame.stream_eq]⟩⟩

end Registry

variable {files others : FileTree} {archive : Archive}

/-- **The same bytes are opened as the same archive**, whatever other files there are, if it is one
in XARC or TRE. -/
theorem Input.Opens.of_read {input : Input} (h : input.Opens files archive)
    (hformat : archive.format = "xarc" ∨ archive.format = "tre")
    (hread : others.read input.file = files.read input.file) : input.Opens others archive := by
  cases hgiven : input.format with
  | none =>
    obtain ⟨bytes, x, hbytes, hopen⟩ := (Input.opens_iff_of_none hgiven).mp h
    obtain ⟨y, hother⟩ := Registry.openStream_of_sameButFiles (Stream.isOver_ofBytes bytes) hopen
      hformat others
    exact (Input.opens_iff_of_none hgiven).mpr ⟨bytes, y, hread.trans hbytes, hother⟩
  | some id =>
    obtain ⟨bytes, x, hbytes, hopen⟩ := (Input.opens_iff_of_some hgiven).mp h
    obtain ⟨y, hother⟩ := Registry.openAs_of_sameButFiles hopen hformat others
    exact (Input.opens_iff_of_some hgiven).mpr ⟨bytes, y, hread.trans hbytes, hother⟩

end Packfile
