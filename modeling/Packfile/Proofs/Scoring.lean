import Packfile.Proofs.Selection

/-!
# Scores

Eight ratings share one stream, and each of them reads where it likes and may fail wherever it is.
None of them can be told by what it leaves behind. The shell around a rating puts the position back
after a success and after a failure, and nothing else of a stream is ever changed. Nor does a rating
depend on where it starts: the first thing that it does is to go to the start of the stream.

So a score is a function of the contents of the stream, of its byte order, of where its storage
fails and of the name of the file, and that other formats have been scored before changes nothing.
Formats that are not of this library are covered as well, as long as they are pure: all that could
disturb the others is a rating that leaves the stream in another byte order.

## Main definitions

* `Reader.IsAbsolute` — a reader that finds its own place

## Main results

* `Format.isAbsolute_rate_of_mem` — every rating of the library finds its own place
* `Registry.score_pure` — scoring leaves the stream alone, and depends neither on where it stands
  nor on what has been scored before
-/

namespace Packfile

open Run Reading

/-! ### Readers that find their own place -/

namespace Reader

variable {α β : Type} {body : Reader α}

/-- What the reader does, the position that it leaves included, does not depend on the position at
which it starts. -/
def IsAbsolute (body : Reader α) : Prop :=
  ∀ (s : Stream) (p : ℕ), body { s with position := p } = body s

/-- Only the first step counts: after it, both runs are at the same place. -/
theorem IsAbsolute.bind (h : body.IsAbsolute) (f : α → Reader β) :
    IsAbsolute (body >>= f) := by
  intro s p
  show EStateM.bind body f { s with position := p } = EStateM.bind body f s
  rw [EStateM.bind, EStateM.bind, h s p]

/-- Going to the start never fails. A place further on would not do: a stream that is too short for
it stays where it is. -/
theorem isAbsolute_seek_zero : (Reader.seek 0).IsAbsolute := by
  intro s p
  have hstart (t : Stream) : Reader.seek 0 t = .ok () { t with position := 0 } :=
    seek_eq_ok.mpr ⟨Nat.zero_le _, rfl⟩
  rw [hstart, hstart]

theorem isAbsolute_leadingBytes (width : ℕ) : (Reader.leadingBytes width).IsAbsolute :=
  isAbsolute_seek_zero.bind _

end Reader

theorem Ofs.isAbsolute_isConsistent : Ofs.isConsistent.IsAbsolute :=
  Reader.isAbsolute_seek_zero.bind _

namespace Format

variable {format : Format} {source : Location}

/-- Every rating finds its own place. -/
theorem isAbsolute_rate_of_mem (h : format ∈ Registry.standard.formats) (source : Location) :
    (format.rate source).IsAbsolute := by
  simp only [Registry.standard, List.mem_cons, List.not_mem_nil, or_false] at h
  rcases h with rfl | rfl | rfl | rfl | rfl | rfl | rfl | rfl
  -- an offset list has no magic, and its check goes to the start itself
  case inr.inl => exact Ofs.isAbsolute_isConsistent.bind _
  all_goals exact (Reader.isAbsolute_leadingBytes _).bind _

theorem confidence_congr (h : (format.rate source).IsAbsolute) (s : Stream) (p : ℕ) :
    format.confidence source { s with position := p } = format.confidence source s := by
  rw [confidence_eq, confidence_eq, h s p]

end Format

/-! ### Registries -/

namespace Registry

/-- **Scoring is pure, and does not depend on the position.** A format scores a stream the same at
every position, on any storage, and leaves the stream there. In a registry every format is scored
once for each time that it is listed, and its score is the one that it gives on its own, whichever
pure formats are listed with it, and in whatever order. -/
theorem score_pure (source : Location) (s : Stream) (p : ℕ) :
    (∀ format ∈ standard.formats, format.score source { s with position := p }
      = .ok (format.confidence source s) { s with position := p }) ∧
    ∀ registry : Registry, (∀ f ∈ registry.formats, f ∈ standard.formats ∨ f.IsPure) →
      ∃ candidates, registry.identify source { s with position := p }
          = .ok candidates { s with position := p } ∧
        (candidates.map Candidate.format).Perm registry.formats ∧
        ∀ candidate ∈ candidates, candidate.format ∈ standard.formats →
          candidate.confidence = candidate.format.confidence source s := by
  have hplaced : ∀ format ∈ standard.formats,
      format.confidence source { s with position := p } = format.confidence source s :=
    fun format hmem => Format.confidence_congr (Format.isAbsolute_rate_of_mem hmem source) s p
  refine ⟨fun format hmem => ?_, fun registry hformats => ?_⟩
  · rw [Format.isPure_of_mem hmem source _, hplaced format hmem]
  · have hpure : ∀ f ∈ registry.formats, f.IsPure :=
      fun f hf => (hformats f hf).elim Format.isPure_of_mem id
    refine ⟨_, identify_eq hpure source _, ?_, ?_⟩
    · rw [List.map_map, bestFirst]
      have hid : Candidate.format ∘ (fun f : Format =>
          (⟨f, f.confidence source { s with position := p }⟩ : Candidate)) = id := rfl
      rw [hid, List.map_id]
      exact List.mergeSort_perm _ _
    · intro candidate hcandidate hmem
      obtain ⟨f, -, rfl⟩ := List.mem_map.mp hcandidate
      exact hplaced f hmem

/-- The storage fails within the number behind the magic. -/
def cutShort : Stream := { bytes := Xarc.magic ++ [1, 0, 0, 0], failAt := some 6 }

/-- A rating that fails midway scores nothing and leaves the stream behind its end, between two
other formats and listed twice. -/
theorem score_pure_cutShort :
    Xarc.format.score (.memory 8) { cutShort with position := 100 }
      = .ok .zero { cutShort with position := 100 } ∧
    ∃ candidates, identify { formats := [Lump.format, Xarc.format, Xarc.format, Ofs.format] }
        (.memory 8) { cutShort with position := 100 }
        = .ok candidates { cutShort with position := 100 } ∧
      candidates.length = 4 ∧
      ∀ candidate ∈ candidates, candidate.format = Xarc.format → candidate.confidence = .zero := by
  have hxarc : Xarc.format ∈ standard.formats := by simp [standard]
  have hzero : Xarc.format.confidence (.memory 8) cutShort = .zero := by decide
  obtain ⟨hscore, hidentify⟩ := score_pure (.memory 8) cutShort 100
  obtain ⟨candidates, h, hperm, hconfidence⟩ :=
    hidentify { formats := [Lump.format, Xarc.format, Xarc.format, Ofs.format] }
      fun f hf => .inl (by
        simp only [List.mem_cons, List.not_mem_nil, or_false] at hf
        rcases hf with rfl | rfl | rfl | rfl <;> simp [standard])
  refine ⟨hzero ▸ hscore _ hxarc, candidates, h, ?_, fun candidate hmem hformat => ?_⟩
  · rw [← List.length_map (f := Candidate.format), hperm.length_eq]
    rfl
  · rw [hconfidence candidate hmem (hformat ▸ hxarc), hformat, hzero]

end Registry

end Packfile
