import Mathlib.Data.List.Nodup
import Packfile.Proofs.Ratings

/-!
# Which formats a stream may be in

At the standard threshold the candidates for a stream are read off its bytes. A format with a magic
is one if the stream starts with the magic and is long enough, the format without a magic if the
stream starts with a consistent table. The location of the stream, and with it every extension, has
no say.

No two magics agree in their first four bytes, so no two formats with a magic are candidates for one
stream. A table of offsets may well start with a magic, though: `Ofs` may be a candidate together
with one other format.

## Main definitions

* `Registry.marked` — the formats with a magic, by their first four bytes

## Main results

* `Registry.length_filter_marked` — one format with a magic at most
* `Registry.candidacy` — the candidates, by content
-/

namespace Packfile

namespace Registry

variable {bytes : Bytes} {source other : Location} {s : Stream} {format : Format} {mark : Bytes}

theorem mem_candidates : format ∈ standard.candidates source s ↔
    format ∈ standard.formats ∧ format.IsCandidate source s := List.mem_filter

/-! ### Formats with a magic exclude each other -/

/-- The formats with a magic, and the first four bytes of their archives. -/
def marked : List (Format × Bytes) :=
  [(Xarc.format, Xarc.magic), (Dtre.format, Dtre.magic), (Tre.format, Tre.magic.take 4),
    (Rpak.format, Rpak.magic), (Spk.format, Spk.magic), (Sprb.format, Sprb.magic),
    (Lump.format, Lump.magic)]

/-- All formats but one have a magic. -/
theorem formats_perm : standard.formats.Perm (Ofs.format :: marked.map Prod.fst) :=
  .swap _ _ _

/-- What a format with a magic is a candidate for starts with the magic. -/
theorem take_of_isCandidate (hs : s.IsOver bytes) (hmem : (format, mark) ∈ marked)
    (h : format.IsCandidate source s) : bytes.take 4 = mark := by
  have htake {magic : Bytes} (hmagic : magic <+: bytes) : bytes.take magic.length = magic :=
    (List.prefix_iff_eq_take.mp hmagic).symm
  simp only [marked, List.mem_cons, Prod.mk.injEq, List.not_mem_nil, or_false] at hmem
  rcases hmem with ⟨rfl, rfl⟩ | ⟨rfl, rfl⟩ | ⟨rfl, rfl⟩ | ⟨rfl, rfl⟩ | ⟨rfl, rfl⟩ | ⟨rfl, rfl⟩ |
    ⟨rfl, rfl⟩
  · exact htake ((Xarc.isCandidate_iff hs).mp h).1
  · exact htake ((Dtre.isCandidate_iff hs).mp h).1
  · have hmagic := htake ((Tre.isCandidate_iff hs).mp h).starts
    rw [← hmagic, List.take_take]
    rfl
  · exact htake ((Rpak.isCandidate_iff hs).mp h).1
  · exact htake ((Spk.isCandidate_iff hs).mp h).1
  · exact htake ((Sprb.isCandidate_iff hs).mp h).1
  · exact htake ((Lump.isCandidate_iff hs).mp h).1

/-- One stream starts with the magic of one format. -/
theorem eq_of_isCandidate {f g : Format} {mark' : Bytes} (hs : s.IsOver bytes)
    (hf : (f, mark) ∈ marked) (hg : (g, mark') ∈ marked) (hfc : f.IsCandidate source s)
    (hgc : g.IsCandidate source s) : f = g := by
  have hnodup : (marked.map Prod.snd).Nodup := by decide
  have hsame : mark = mark' :=
    (take_of_isCandidate hs hf hfc).symm.trans (take_of_isCandidate hs hg hgc)
  exact congrArg Prod.fst (List.inj_on_of_nodup_map hnodup hf hg hsame)

/-- Of elements with different keys no more than one has a given key. -/
theorem length_filter_le_one {α κ : Type} {p : α → Bool} {l : List α} (key : α → κ) (k : κ)
    (hnodup : (l.map key).Nodup) (hkey : ∀ a ∈ l, p a = true → key a = k) :
    (l.filter p).length ≤ 1 := by
  have hsub : ((l.filter p).map key).Nodup := hnodup.sublist (List.filter_sublist.map key)
  have hconst : (l.filter p).map key = List.replicate (l.filter p).length k := by
    refine List.map_eq_replicate_iff.mpr fun a ha => ?_
    obtain ⟨hmem, hp⟩ := List.mem_filter.mp ha
    exact hkey a hmem hp
  rw [hconst] at hsub
  exact List.nodup_replicate.mp hsub

/-- **No two formats with a magic are candidates** for one stream. -/
theorem length_filter_marked (hs : s.IsOver bytes) (source : Location) :
    ((marked.map Prod.fst).filter fun format =>
      (format.confidence source s).reaches standard.threshold).length ≤ 1 := by
  rw [List.filter_map, List.length_map]
  refine length_filter_le_one Prod.snd (bytes.take 4) (by decide) ?_
  rintro ⟨format, mark⟩ hmem h
  exact (take_of_isCandidate hs hmem h).symm

/-- So there are two candidates at most, and of two the one without a magic is one. -/
theorem length_candidates (hs : s.IsOver bytes) (source : Location) :
    (standard.candidates source s).length ≤ 2 ∧
      ((standard.candidates source s).length = 2 → Ofs.format ∈ standard.candidates source s) := by
  have hmarked := length_filter_marked hs source
  have hperm := (formats_perm.filter fun format =>
    (format.confidence source s).reaches standard.threshold).length_eq
  rw [mem_candidates, candidates, hperm, List.filter_cons]
  split
  · next h =>
    rw [List.length_cons]
    exact ⟨by omega, fun _ => ⟨by simp [standard], h⟩⟩
  · exact ⟨by omega, fun h => by omega⟩

/-! ### The candidates for a stream -/

/-- The location of a stream has no say. -/
theorem isCandidate_congr (hs : s.IsOver bytes) (h : format ∈ standard.formats)
    (source other : Location) : format.IsCandidate other s ↔ format.IsCandidate source s := by
  simp only [standard, List.mem_cons, List.not_mem_nil, or_false] at h
  rcases h with rfl | rfl | rfl | rfl | rfl | rfl | rfl | rfl
  · exact (Xarc.isCandidate_iff hs).trans (Xarc.isCandidate_iff hs).symm
  · exact (Ofs.isCandidate_iff hs).trans (Ofs.isCandidate_iff hs).symm
  · exact (Dtre.isCandidate_iff hs).trans (Dtre.isCandidate_iff hs).symm
  · exact (Tre.isCandidate_iff hs).trans (Tre.isCandidate_iff hs).symm
  · exact (Rpak.isCandidate_iff hs).trans (Rpak.isCandidate_iff hs).symm
  · exact (Spk.isCandidate_iff hs).trans (Spk.isCandidate_iff hs).symm
  · exact (Sprb.isCandidate_iff hs).trans (Sprb.isCandidate_iff hs).symm
  · exact (Lump.isCandidate_iff hs).trans (Lump.isCandidate_iff hs).symm

theorem candidates_congr (hs : s.IsOver bytes) (source other : Location) :
    standard.candidates other s = standard.candidates source s :=
  List.filter_congr fun _ h => Bool.eq_iff_iff.mpr (isCandidate_congr hs h source other)

/-- **Candidacy at the standard threshold** is decided by the bytes of the stream, wherever it comes
from and wherever it stands: by a magic and the room for what a rating reads behind it, by a header
that can be read, or by a table that passes its check. There are two candidates at most, and if there
are two then one of them is the format without a magic. -/
theorem candidacy (hs : s.IsOver bytes) (source : Location) :
    ((Xarc.format.IsCandidate source s ↔ Xarc.magic <+: bytes ∧ 8 ≤ bytes.length) ∧
      (Dtre.format.IsCandidate source s ↔ Dtre.magic <+: bytes ∧ 8 ≤ bytes.length) ∧
      (Sprb.format.IsCandidate source s ↔ Sprb.magic <+: bytes ∧ 8 ≤ bytes.length) ∧
      (Lump.format.IsCandidate source s ↔ Lump.magic <+: bytes ∧ 8 ≤ bytes.length) ∧
      (Spk.format.IsCandidate source s ↔ Spk.magic <+: bytes ∧ 12 ≤ bytes.length) ∧
      (Rpak.format.IsCandidate source s ↔ Rpak.magic <+: bytes ∧ 16 ≤ bytes.length)) ∧
    ((Tre.format.IsCandidate source s ↔ Tre.HasHeader bytes) ∧
      (Tre.HasHeader bytes ↔ ∃ header t, Reader.treHeader (.ofBytes bytes) = .ok header t)) ∧
    ((Ofs.format.IsCandidate source s ↔ Ofs.HasTable bytes) ∧
      (Ofs.HasTable bytes ↔ ∃ t, Ofs.isConsistent (.ofBytes bytes) = .ok true t)) ∧
    (∀ other, standard.candidates other s = standard.candidates source s) ∧
    (standard.candidates source s).length ≤ 2 ∧
    ((standard.candidates source s).length = 2 → Ofs.format ∈ standard.candidates source s) := by
  obtain ⟨hlength, htwo⟩ := length_candidates hs source
  refine ⟨⟨Xarc.isCandidate_iff hs, Dtre.isCandidate_iff hs, Sprb.isCandidate_iff hs,
    Lump.isCandidate_iff hs, Spk.isCandidate_iff hs, Rpak.isCandidate_iff hs⟩,
    ⟨Tre.isCandidate_iff hs, ?_⟩, ⟨Ofs.isCandidate_iff hs, ?_⟩,
    fun other => candidates_congr hs source other, hlength, htwo⟩
  · exact Tre.succeeds_treHeader.symm
  · exact (Ofs.isConsistent_iff (p := 0)).symm

/-- An empty table under the extension of another format, in a stream that stands at its end. -/
theorem candidacy_of_table :
    let bytes : Bytes := [8, 0, 0, 0, 8, 0, 0, 0]
    (Stream.healthyAt bytes 8).IsOver bytes ∧
      Ofs.format.IsCandidate (.file "saves.xarc" 8) (.healthyAt bytes 8) ∧
      ¬ Xarc.format.IsCandidate (.file "saves.xarc" 8) (.healthyAt bytes 8) ∧
      standard.candidates (.memory 8) (.healthyAt bytes 8)
        = standard.candidates (.file "saves.xarc" 8) (.healthyAt bytes 8) := by
  intro bytes
  have hs : (Stream.healthyAt bytes 8).IsOver bytes := Stream.isOver_healthyAt bytes 8
  obtain ⟨⟨hxarc, -⟩, -, ⟨hofs, -⟩, hother, -⟩ := candidacy hs (.file "saves.xarc" 8)
  refine ⟨hs, hofs.mpr ?_, fun h => absurd (hxarc.mp h).1 (by decide), hother _⟩
  exact ⟨by decide, by decide, by decide, by decide, by decide, by decide⟩

end Registry

end Packfile
