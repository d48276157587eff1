import Packfile.Proofs.Couplings
import Packfile.Registry

/-!
# What decoders do not see of a session

A decoder reads the stream of its session and asks for the limit on entries and for the palettes.
SPK asks for the files within reach and for the name table as well. That is all that a decoder sees,
and whatever else two sessions differ in is hidden from it: both runs do the same, and leave sessions
that differ in no more than that.

Which part is hidden is left open. A relation between sessions says what may differ, `Session.Hides`
says that none of it is seen, and every decoder respects every such relation, since it is put
together from steps that do. The steps that read the stream need no attention: a reader does not have
a session, so two sessions with the same stream run it alike, whatever it is.

## Main definitions

* `Session.Hides` — relations between sessions that are the same to a decoder
* `Decode.Ignores` — computations that such sessions run alike

## Main results

* `Hides.ofReader`, `Hides.onStream`, `Hides.attempt` — steps of a decode
* `Hides.readTable`, `Hides.readUntil`, `Hides.walkTree` — walks
* `Xarc.ignores` and its kin — the decoders
-/

namespace Packfile

open Run

/-! ### Hidden parts -/

namespace Session

/-- Related sessions are the same to a decoder: it finds the same in both of them, and whatever it
does to both leaves them related. -/
structure Hides (R : Session → Session → Prop) : Prop where
  /-- The stream is seen. -/
  stream_eq : ∀ {x y}, R x y → y.stream = x.stream
  /-- The limit is seen. -/
  maxEntries_eq : ∀ {x y}, R x y → y.context.options.maxEntries = x.context.options.maxEntries
  /-- The palettes are seen. -/
  palettes_eq : ∀ {x y}, R x y → y.context.palettes = x.context.palettes
  /-- Both sessions may go on with another stream. -/
  withStream : ∀ {x y}, R x y → ∀ s, R { x with stream := s } { y with stream := s }
  /-- Both sessions may get other palettes. -/
  withPalettes : ∀ {x y}, R x y → ∀ palettes,
    R { x with context := { x.context with palettes } }
      { y with context := { y.context with palettes } }
  /-- Something may be reported in both sessions. -/
  withReport : ∀ {x y}, R x y → ∀ r,
    R { x with reports := x.reports.push r } { y with reports := y.reports.push r }

/-- What two runs in related sessions may differ in. Nothing excuses them. -/
def hidden (R : Session → Session → Prop) : Tolerance Error Session where
  loose := R
  excuses _ := False

end Session

/-- Related sessions run the computation alike. -/
abbrev Decode.Ignores {α : Type} (R : Session → Session → Prop) (body : Decode α) : Prop :=
  Coupled (Session.hidden R) R R body

namespace Decode

variable {α : Type} {R : Session → Session → Prop} {body : Decode α} {x y z : Session} {a : α}

/-- Nothing is excused, so the runs agree. -/
theorem Ignores.agree (h : body.Ignores R) (hxy : R x y) : Agree R R (body x) (body y) :=
  Coupled.agree h (fun _ hexcused => hexcused) hxy

/-- What one session ends with, a related one ends with as well. -/
theorem Ignores.of_ok (h : body.Ignores R) (hxy : R x y) (hx : body x = .ok a z) :
    ∃ u, body y = .ok a u ∧ R z u := by
  have hagree := h.agree hxy
  rw [hx] at hagree
  exact hagree.of_ok_left

end Decode

namespace Session.Hides

variable {α β σ : Type} {R : Session → Session → Prop}

theorem loose : ∀ x y, R x y → (hidden R).loose x y := fun _ _ hxy => hxy

/-! ### Steps of a decode -/

/-- A reader sees nothing but the stream. -/
theorem ofReader (h : Hides R) (body : Reader α) : (Decode.ofReader body).Ignores R := by
  intro x y hxy
  left
  unfold Decode.ofReader
  rw [h.stream_eq hxy]
  cases body x.stream with
  | ok a s => exact .ok (h.withStream hxy s)
  | error e s => exact .error (h.withStream hxy s)

theorem liftReader (h : Hides R) (body : Reader α) : (liftM body : Decode α).Ignores R :=
  h.ofReader body

theorem liftExcept (h : Hides R) (result : Except Error α) : (liftM result : Decode α).Ignores R :=
  h.ofReader (Reader.ofExcept result)

theorem report (h : Hides R) (r : Report) : (Decode.report r).Ignores R :=
  coupled_modify fun _ _ hxy => h.withReport hxy r

theorem clearPalettes (h : Hides R) : Decode.clearPalettes.Ignores R :=
  coupled_modify fun _ _ hxy => h.withPalettes hxy []

theorem addPalette (h : Hides R) (palette : Palette) : (Decode.addPalette palette).Ignores R := by
  refine coupled_modify fun x y hxy => ?_
  rw [h.palettes_eq hxy]
  exact h.withPalettes hxy _

/-- Of the options a decoder asks for the limit only. -/
theorem limited (h : Hides R) {f : Options → Decode α}
    (hlimit : ∀ o o', o'.maxEntries = o.maxEntries → f o' = f o)
    (hf : ∀ o, (f o).Ignores R) : (Decode.options >>= f).Ignores R := by
  intro x y hxy
  show Agree R R (f x.context.options x) (f y.context.options y) ∨ _
  rw [hlimit _ _ (h.maxEntries_eq hxy)]
  exact .inl ((hf _).agree hxy)

theorem checkCount (h : Hides R) (count recordSize available : ℕ) :
    (Decode.checkCount count recordSize available).Ignores R :=
  h.limited (fun _ _ heq => by rw [heq]) fun _ => h.ofReader _

theorem checkRoom (h : Hides R) (found : ℕ) : (Decode.checkRoom found).Ignores R :=
  h.limited (fun _ _ heq => by rw [heq]) fun _ => Coupled.ite
    ((h.liftExcept _).bind fun _ => coupled_throw loose _) (coupled_pure _)

theorem onStream (h : Hides R) {body : Decode α} (hbody : body.Ignores R) (s : Stream) :
    (Decode.onStream s body).Ignores R := by
  intro x y hxy
  left
  have hagree := hbody.agree (h.withStream hxy s)
  unfold Decode.onStream
  rw [h.stream_eq hxy]
  generalize body { x with stream := s } = r at hagree
  generalize body { y with stream := s } = r' at hagree
  cases hagree with
  | ok huv =>
    dsimp only
    rw [h.stream_eq huv]
    exact .ok (h.withStream huv _)
  | error huv => exact .error (h.withStream huv _)

theorem attempt {body : Decode α} (hbody : body.Ignores R) : (Decode.attempt body).Ignores R := by
  intro x y hxy
  left
  have hagree := hbody.agree hxy
  unfold Decode.attempt
  generalize body x = r at hagree
  generalize body y = r' at hagree
  cases hagree with
  | ok huv => exact .ok huv
  | error huv => exact .ok huv

/-! ### Walks -/

theorem tableFrom (h : Hides R) {read : ℕ → Decode (RecordAction α)}
    (hread : ∀ index, (read index).Ignores R) (count index : ℕ) (found : Array α) :
    (Decode.tableFrom read count index found).Ignores R := by
  induction count generalizing index found with
  | zero => exact coupled_pure _
  | succ count ih =>
    refine (h.liftReader _).bind fun offset => (hread index).bind fun action => ?_
    cases action with
    | finish => exact coupled_pure _
    | skip => exact (h.report _).bind fun _ => ih _ _
    | entry value => exact (h.report _).bind fun _ => ih _ _

theorem readTable (h : Hides R) (count : EntryCount) {read : ℕ → Decode (RecordAction α)}
    (hread : ∀ index, (read index).Ignores R) : (Decode.readTable count read).Ignores R :=
  (h.tableFrom hread _ _ _).bind fun _ => coupled_pure _

/-- A table of records that are entries one and all. -/
theorem readEntries (h : Hides R) (count : EntryCount) (body : ℕ → Reader α) :
    (Decode.readTable count fun index =>
      return .entry (← Decode.ofReader (body index))).Ignores R :=
  h.readTable count fun _ => (h.ofReader _).bind fun _ => coupled_pure _

theorem untilFrom (h : Hides R) (stop recordSize : ℕ)
    {read : σ → ℕ → Decode (RecordAction α × σ)}
    (hread : ∀ state index, (read state index).Ignores R) (rounds : ℕ) (state : σ) (index : ℕ)
    (found : Array α) :
    (Decode.untilFrom stop recordSize read rounds state index found).Ignores R := by
  induction rounds generalizing state index found with
  | zero => exact coupled_pure _
  | succ rounds ih =>
    refine (h.liftReader _).bind fun offset => Coupled.ite ?_ ((h.checkRoom _).bind fun _ => ?_)
    · exact Coupled.optional (h.report _) (coupled_pure _)
    refine (attempt (hread state index)).bind fun result => ?_
    -- a record that cannot be read, the end of the directory, or one more record
    cases result with
    | error e => exact Coupled.guard loose ((h.report _).bind fun _ => coupled_pure _)
    | ok result =>
      obtain ⟨action, state⟩ := result
      cases action with
      | finish => exact coupled_pure _
      | skip => exact (h.report _).bind fun _ => (h.liftExcept _).bind fun _ => ih _ _ _
      | entry value => exact (h.report _).bind fun _ => (h.liftExcept _).bind fun _ => ih _ _ _

theorem readUntil (h : Hides R) (stop recordSize : ℕ) (start : σ)
    {read : σ → ℕ → Decode (RecordAction α × σ)}
    (hread : ∀ state index, (read state index).Ignores R) :
    (Decode.readUntil stop recordSize start read).Ignores R :=
  (h.liftReader _).bind fun _ => (h.liftReader _).bind fun _ =>
    (h.untilFrom _ _ hread _ _ _ _).bind fun _ => coupled_pure _

theorem addFile (h : Hides R) (path name : String) (entry : Entry) (walk : TreeWalk) :
    (Decode.addFile path name entry walk).Ignores R :=
  (h.checkRoom _).bind fun _ => (h.ofReader _).bind fun _ => (h.report _).bind fun _ =>
    coupled_pure _

theorem walkFolder (h : Hides R) {readFolder : ℕ → Decode (List TreeNode)}
    (hread : ∀ offset, (readFolder offset).Ignores R) (maxDepth levels depth : ℕ) (path : String)
    (offset : ℕ) (walk : TreeWalk) :
    (Decode.walkFolder readFolder maxDepth levels depth path offset walk).Ignores R := by
  induction levels generalizing depth path offset walk with
  | zero => exact coupled_throw loose _
  | succ levels ih =>
    rw [Decode.walkFolder]
    refine Coupled.guard loose ((hread offset).bind fun nodes => ?_)
    refine coupled_foldlM _ fun walk node _ => ?_
    cases node with
    | file name entry => exact h.addFile _ _ _ _
    | folder name offset => exact (h.liftExcept _).bind fun _ => ih _ _ _ _

theorem walkTree (h : Hides R) {readFolder : ℕ → Decode (List TreeNode)}
    (hread : ∀ offset, (readFolder offset).Ignores R) (rootName : String) (root maxDepth : ℕ) :
    (Decode.walkTree rootName root maxDepth readFolder).Ignores R :=
  (h.walkFolder hread _ _ _ _ _ _).bind fun _ => coupled_pure _

end Session.Hides

/-! ### The decoders -/

open Session (Hides)

variable {R : Session → Session → Prop}

theorem Xarc.ignores (h : Hides R) (source : Location) : (decode source).Ignores R := by
  refine (h.liftReader _).bind fun _ => (h.liftReader _).bind fun _ => ?_
  refine (h.liftReader _).bind fun _ => (h.checkCount _ _ _).bind fun _ => ?_
  refine (h.readEntries _ fun _ => readRecord).bind fun _ => ?_
  refine (h.liftReader _).bind fun _ => (h.liftReader _).bind fun _ => ?_
  exact (h.liftExcept _).bind fun _ => (h.liftReader _).bind fun _ => coupled_pure _

namespace Ofs

theorem ignores_listEntries (h : Hides R) (source : Location) (index : ℕ)
    (places : List (ℕ × ℕ)) : (listEntries source index places).Ignores R := by
  induction places generalizing index with
  | nil => exact coupled_pure _
  | cons place places ih =>
    exact (h.report _).bind fun _ => (ih _).bind fun _ => coupled_pure _

theorem ignores (h : Hides R) (source : Location) : (decode source).Ignores R := by
  refine (h.liftReader _).bind fun _ => Coupled.guard Hides.loose ?_
  refine (h.liftReader _).bind fun _ => (h.checkCount _ _ _).bind fun _ => ?_
  refine (h.liftReader _).bind fun _ => (h.liftReader _).bind fun _ => ?_
  refine Coupled.guard Hides.loose (Coupled.optional (h.report _) ?_)
  refine (h.ofReader _).bind fun _ => (ignores_listEntries h _ _ _).bind fun _ => ?_
  exact (h.liftReader _).bind fun _ => (h.ofReader _).bind fun _ => coupled_pure _

end Ofs

theorem Dtre.ignores (h : Hides R) (source : Location) : (decode source).Ignores R := by
  refine (h.liftReader _).bind fun _ => (h.liftReader _).bind fun _ => ?_
  refine (h.liftReader _).bind fun _ => (h.liftReader _).bind fun _ => ?_
  refine (h.liftReader _).bind fun node => ?_
  cases node with
  | file name e => exact coupled_throw Hides.loose _
  | folder name offset =>
    refine h.walkTree (fun offset => ?_) _ _ _
    refine (h.liftReader _).bind fun _ => (h.liftReader _).bind fun _ => ?_
    refine (h.liftReader _).bind fun _ => (h.checkCount _ _ _).bind fun _ => ?_
    exact (h.liftReader _).bind fun _ => coupled_pure _

namespace Tre

theorem ignores_readHashes (h : Hides R) (header : Header) : (readHashes header).Ignores R := by
  refine (h.liftExcept _).bind fun _ => (h.liftExcept _).bind fun _ => ?_
  refine (h.liftReader _).bind fun _ => ?_
  refine Coupled.ite ?_ ((h.report _).bind fun _ => coupled_pure _)
  exact (h.liftReader _).bind fun _ => (h.liftReader _).bind fun _ => coupled_pure _

theorem ignores_listEntries (h : Hides R) (source : Location) (hashes : Option Bytes) (index : ℕ)
    (pairs : List (Record × String)) : (listEntries source hashes index pairs).Ignores R := by
  induction pairs generalizing index with
  | nil => exact coupled_pure _
  | cons pair pairs ih =>
    refine Coupled.optional (h.report _) ?_
    cases hashes with
    | none => exact (coupled_pure _).bind fun _ => (ih _).bind fun _ => coupled_pure _
    | some hashes =>
      refine (h.liftExcept _).bind fun _ => (h.ofReader _).bind fun _ => ?_
      exact (coupled_pure _).bind fun _ => (ih _).bind fun _ => coupled_pure _

theorem ignores (h : Hides R) (source : Location) : (decode source).Ignores R := by
  refine (h.liftReader _).bind fun header => (h.checkCount _ _ _).bind fun _ => ?_
  refine Coupled.optional (h.checkCount _ _ _) ?_
  refine (h.liftExcept _).bind fun _ => (h.liftReader _).bind fun block => ?_
  refine (h.onStream (h.readEntries _ _) _).bind fun records => ?_
  refine (h.liftExcept _).bind fun _ => (h.liftReader _).bind fun block => ?_
  refine (h.onStream (h.ofReader _) _).bind fun names => ?_
  exact (ignores_readHashes h _).bind fun _ => ignores_listEntries h _ _ _ _

end Tre

theorem Rpak.ignores (h : Hides R) (source : Location) : (decode source).Ignores R := by
  refine (h.liftReader _).bind fun _ => (h.liftReader _).bind fun _ => ?_
  refine Coupled.guard Hides.loose ((h.liftReader _).bind fun _ => ?_)
  refine (h.liftReader _).bind fun _ => (h.liftReader _).bind fun _ => ?_
  refine (h.checkCount _ _ _).bind fun _ => (h.liftExcept _).bind fun _ => ?_
  refine Coupled.guard Hides.loose ?_
  refine (h.liftReader _).bind fun _ => (h.liftReader _).bind fun _ => ?_
  refine (h.onStream (h.readTable _ fun _ => ?_) _).bind fun _ => coupled_pure _
  exact (h.ofReader _).bind fun _ => h.ofReader _

/-- To this one the files and the names must look the same as well. -/
theorem Spk.ignores (h : Hides R) (hfiles : Decode.files.Ignores R)
    (hnames : Decode.names.Ignores R) (source : Location) : (decode source).Ignores R := by
  rw [decode]
  cases source.path with
  | none => exact coupled_throw Hides.loose _
  | some directory =>
    refine (h.liftReader _).bind fun _ => (h.liftReader _).bind fun _ => ?_
    refine (h.liftReader _).bind fun _ => (h.liftReader _).bind fun _ => ?_
    refine (h.liftReader _).bind fun _ => (h.checkCount _ _ _).bind fun _ => ?_
    refine (h.readEntries _ _).bind fun _ => (h.liftReader _).bind fun _ => ?_
    refine (h.checkCount _ _ _).bind fun _ => (h.readEntries _ _).bind fun _ => ?_
    refine hfiles.bind fun _ => (h.ofReader _).bind fun _ => ?_
    refine Coupled.bind (Coupled.ite (coupled_pure _) hnames) fun _ => ?_
    split
    · exact coupled_throw Hides.loose _
    · exact h.ofReader _

namespace Sprb

theorem ignores_readPalettes (h : Hides R) (count number : ℕ) :
    (readPalettes count number).Ignores R := by
  induction count generalizing number with
  | zero => exact coupled_pure _
  | succ count ih =>
    exact (h.liftReader _).bind fun _ => (h.liftExcept _).bind fun _ =>
      (h.addPalette _).bind fun _ => ih _

theorem ignores_listSprites (h : Hides R) (source : Location) (slot index : ℕ)
    (offsets : List ℕ) : (listSprites source slot index offsets).Ignores R := by
  induction offsets generalizing slot index with
  | nil => exact coupled_pure _
  | cons offset offsets ih =>
    rw [listSprites]
    refine Coupled.ite (ih _ _) ((h.liftReader _).bind fun _ => (h.report _).bind fun _ => ?_)
    exact (h.liftExcept _).bind fun _ => (ih _ _).bind fun _ => coupled_pure _

theorem ignores (h : Hides R) (source : Location) : (decode source).Ignores R := by
  refine (h.liftReader _).bind fun _ => (h.liftReader _).bind fun _ => ?_
  refine (h.liftReader _).bind fun _ => (h.liftReader _).bind fun _ => ?_
  refine (h.checkCount _ _ _).bind fun _ => (ignores_readPalettes h _ _).bind fun _ => ?_
  refine (h.liftReader _).bind fun _ => (h.checkCount _ _ _).bind fun _ => ?_
  refine (h.liftReader _).bind fun _ => (ignores_listSprites h _ _ _ _).bind fun _ => ?_
  refine (h.liftReader _).bind fun _ => (h.ofReader _).bind fun _ => ?_
  refine Coupled.get (fun x y hxy => ?_) fun x => ?_
  · rw [h.palettes_eq hxy]
  refine (coupled_mapM fun _ _ => h.ofReader _).bind fun _ => ?_
  exact (h.liftReader _).bind fun _ => (h.ofReader _).bind fun _ => coupled_pure _

end Sprb

theorem Lump.ignores (h : Hides R) (source : Location) : (decode source).Ignores R := by
  refine (h.liftReader _).bind fun _ => (h.liftReader _).bind fun _ => ?_
  refine (h.liftReader _).bind fun _ => Coupled.guard Hides.loose ?_
  exact (h.liftReader _).bind fun _ => h.readUntil _ _ _ fun _ _ => h.ofReader _

end Packfile
