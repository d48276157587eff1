import Packfile.Proofs.Selection

/-!
# Decodes one after another

One context serves any number of decodes. Between them it keeps two things: the palettes of the
archive decoded last, and the name table once it has been loaded. Neither can be noticed by a later
decode. The palettes are forgotten before a directory is read, and the name table is what would be
loaded again, as long as its file stays the same. So a decode finds in a context that others have
used, after success or failure, what it finds in a fresh one.

## What a decode may leave behind

A reading that gives up in the middle leaves what it had got: some of its palettes, and the stream
at whatever position. The invariant that carries the argument does not mention any of this. It is
that a decode keeps the *environment* of its session: what the caller allows, the files, and the
names that it would find. That this is all a decode can see, blindness says.

## Main definitions

* `Options.namesIn` — the names that a caller finds
* `Context.Reached` — contexts that finitely many decodes leave behind

## Main results

* `Format.keeps_environment` — a decode keeps the environment of its session
* `Format.outcome_of_reached` — a decode does not see the decodes before it
-/

namespace Packfile

open Run Reading

/-- The names that a caller finds among the files: those of the file that the options name. -/
def Options.namesIn (options : Options) (files : FileTree) : NameTable :=
  match options.nameTable with
  | none => .empty
  | some path => (NameTable.load? files path).getD .empty

/-- The contexts that finitely many decodes leave behind, the first of them in a fresh context. Each
decode has a stream, files and reports of its own, and it may fail; the names that its files offer
are always `table`. -/
inductive Context.Reached (options : Options) (table : NameTable) : Context → Prop
  /-- A fresh context. -/
  | fresh : Context.Reached options table { options }
  /-- The context behind one more decode. -/
  | decoded {x : Session} (h : x.context.Reached options table)
      (hnames : options.namesIn x.files = table) {format : Format}
      (hformat : format ∈ Registry.standard.formats) (source : Location) :
      Context.Reached options table (Decode.outcome (format.readDirectory source) x).2.context

variable {options : Options} {table : NameTable} {format : Format} {x y : Session}
  {env : Options × FileTree × NameTable}

/-! ### Decodes in one environment -/

theorem Session.nameTable_of_names {names : Option NameTable}
    (hnames : names = none ∨ names = some table) (hoptions : x.context.options = options)
    (hcontext : x.context.names = names) (hfile : options.namesIn x.files = table) :
    x.nameTable = table := by
  subst hoptions hcontext
  rw [nameTable]
  rcases hnames with hnone | hsome
  · rw [hnone, ← hfile, Options.namesIn]
    cases x.context.options.nameTable <;> rfl
  · rw [hsome]

/-- Sessions on one stream and in one environment are akin, wherever their streams were left. -/
theorem Session.akin_of_environment (hstream : y.stream.source = x.stream.source)
    (hx : x.environment = env) (hy : y.environment = env) : x.Akin False env y := by
  simp only [Stream.source, Prod.mk.injEq] at hstream
  obtain ⟨hbytes, horder, hfails⟩ := hstream
  exact ⟨⟨hbytes, horder, False.elim, .inl hfails⟩, hx, hy⟩

namespace Format

/-- A decode ends in akin sessions with the same, and leaves them alike. -/
theorem outcome_of_akin (h : format ∈ Registry.standard.formats) (source : Location)
    (hxy : x.Akin False env y) :
    (Decode.outcome (format.readDirectory source) x).1
        = (Decode.outcome (format.readDirectory source) y).1 ∧
      (Decode.outcome (format.readDirectory source) x).2.Like False False env
        (Decode.outcome (format.readDirectory source) y).2 := by
  unfold Decode.outcome
  -- on storage that is the same for both there is no excuse
  have hagree := ((isBlind_of_mem h).readDirectory source).agree (fun _ hexcused => hexcused.1) hxy
  generalize format.readDirectory source x = r at hagree
  generalize format.readDirectory source y = r' at hagree
  cases hagree with
  | ok hlike => exact ⟨rfl, hlike⟩
  | error hlike => exact ⟨rfl, hlike⟩

/-- A decode keeps the environment of its session. -/
theorem keeps_environment (h : format ∈ Registry.standard.formats) (source : Location)
    (x : Session) :
    (Decode.outcome (format.readDirectory source) x).2.environment = x.environment :=
  (outcome_of_akin h source (Session.akin_of_environment rfl rfl rfl)).2.environment_left

end Format

/-! ### Any number of decodes -/

/-- What is known of a context that has been reached: the options are those of the caller, and the
name table, if it has been loaded, is the one that would be loaded. -/
structure Context.IsIntact (options : Options) (table : NameTable) (c : Context) : Prop where
  /-- The options. -/
  options_eq : c.options = options
  /-- The name table. -/
  names_eq : c.names = none ∨ c.names = some table

theorem Context.IsIntact.environment_eq (h : x.context.IsIntact options table)
    (hnames : options.namesIn x.files = table) : x.environment = (options, x.files, table) := by
  have htable : x.nameTable = table :=
    Session.nameTable_of_names h.names_eq h.options_eq rfl hnames
  rw [Session.environment, h.options_eq, htable]

theorem Context.IsIntact.of_environment_eq {files : FileTree}
    (h : x.environment = (options, files, table)) : x.context.IsIntact options table := by
  simp only [Session.environment, Prod.mk.injEq] at h
  obtain ⟨hoptions, -, htable⟩ := h
  refine ⟨hoptions, ?_⟩
  rw [Session.nameTable] at htable
  cases hnames : x.context.names with
  | none => exact .inl rfl
  | some found =>
    rw [hnames] at htable
    exact .inr (congrArg some htable)

/-- Every decode keeps a context intact, so finitely many do. -/
theorem Context.Reached.isIntact {c : Context} (h : c.Reached options table) :
    c.IsIntact options table := by
  induction h with
  | fresh => exact ⟨rfl, .inl rfl⟩
  | @decoded x _ hnames format hformat source ih =>
    have hkept := Format.keeps_environment hformat source x
    rw [ih.environment_eq hnames] at hkept
    exact .of_environment_eq hkept

namespace Format

/-- **A decode does not see the decodes before it.** In a context that finitely many decodes have
left behind, each of them successful or not, by any decoder and on any stream, a directory is read
as it is in a fresh context of the same options and from the start of the stream, wherever the stream
was left: the entries or the error are the same, and so are the palettes that the context keeps. -/
theorem outcome_of_reached (hformat : format ∈ Registry.standard.formats)
    (hreached : x.context.Reached options table) (hnames : options.namesIn x.files = table)
    (source : Location) :
    (Decode.outcome (format.readDirectory source) x).1
        = (Decode.outcome (format.readDirectory source)
            (.opening { x.stream with position := 0 } options x.files)).1 ∧
      (Decode.outcome (format.readDirectory source) x).2.context.palettes
        = (Decode.outcome (format.readDirectory source)
            (.opening { x.stream with position := 0 } options x.files)).2.context.palettes := by
  have hakin : x.Akin False (options, x.files, table)
      (.opening { x.stream with position := 0 } options x.files) := by
    refine Session.akin_of_environment rfl (hreached.isIntact.environment_eq hnames) ?_
    exact Context.IsIntact.environment_eq Context.Reached.fresh.isIntact hnames
  obtain ⟨hresult, hlike⟩ := outcome_of_akin hformat source hakin
  exact ⟨hresult, hlike.palettes_eq.symm⟩

/-- A bank of one palette and no sprites. -/
def paletteBank : Session where
  stream := .ofBytes (Sprb.magic ++ [0, 0, 1, 0] ++ List.replicate 768 0x40)

/-- The context that it leaves behind. -/
def usedContext : Context :=
  (Decode.outcome (Sprb.format.readDirectory (.memory 776)) paletteBank).2.context

/-- A bank of one sprite, which asks for a palette that the bank does not have. The stream stands at
its end. -/
def spriteBank : Stream where
  bytes := Sprb.magic ++ [1, 0, 0, 0, 12, 0, 0, 0] ++ [0, 0, 0, 0, 1, 0, 1, 0, 0]
  position := 21

/-- A sprite that asks for a missing palette is not given that of an earlier bank. -/
theorem outcome_of_reached_sprite :
    usedContext.Reached {} .empty ∧ usedContext.palettes.length = 1 ∧
      (Decode.outcome (Sprb.format.readDirectory (.memory 21))
          ⟨spriteBank, usedContext, .empty, #[]⟩).1
        = .error (.exceeds "palette index" 0 0) := by
  have hformat : Sprb.format ∈ Registry.standard.formats := by simp [Registry.standard]
  have hreached : usedContext.Reached {} .empty := by
    unfold usedContext
    exact .decoded .fresh rfl hformat (.memory 776)
  have hsession : (⟨spriteBank, usedContext, .empty, #[]⟩ : Session).context.Reached {} .empty := by
    dsimp only
    exact hreached
  have hlater := outcome_of_reached hformat hsession rfl (.memory 21)
  refine ⟨hreached, by decide +kernel, ?_⟩
  rw [hlater.1]
  decide +kernel

end Format

end Packfile
