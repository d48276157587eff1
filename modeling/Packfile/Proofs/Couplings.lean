import Packfile.Proofs.Runs

/-!
# Two runs side by side

Some laws compare one computation with itself, run from two states: a stream and the same stream on
storage that fails somewhere, or a session and the session that an earlier attempt left behind. Such
a law is a relation between the two runs, and like `Keeps` and `Ensures` it goes through a `do`
block one step at a time.

## What two runs may differ in

Runs from states related by `R` *agree* when both end with the same value, in states related by
`R'`, or both with the same error. What is behind an error is known less well than what is behind a
value, so for states behind an error there is a second relation, `loose`, which is the same for a
whole development. And there may be errors that excuse a run from agreeing at all. `Tolerance` holds
these two choices, and `Coupled` is the resulting property of a computation.

An excused error has to end the run that meets it. A computation that turns errors into values can
therefore be coupled only if what comes behind it passes the excused ones on.

## Main definitions

* `Run.Agree` — two results that agree
* `Run.Tolerance`, `Run.Coupled` — computations whose runs agree

## Main results

* `Run.Coupled.bind`, `Run.coupled_mapM`, `Run.coupled_foldlM` — sequences of steps
* `Run.Agree.of_ok_left`, `Run.Coupled.ok_or_error` — what is known of a second run
-/

namespace Packfile.Run

variable {ε σ α β : Type}

/-! ### Agreement -/

/-- Both results are the same value in states related by `R`, or the same error in states related by
`loose`. -/
inductive Agree (loose R : σ → σ → Prop) : EStateM.Result ε σ α → EStateM.Result ε σ α → Prop
  /-- One value. -/
  | ok {a : α} {s t : σ} (h : R s t) : Agree loose R (.ok a s) (.ok a t)
  /-- One error. -/
  | error {e : ε} {s t : σ} (h : loose s t) : Agree loose R (.error e s) (.error e t)

/-- What two runs may differ in. -/
structure Tolerance (ε σ : Type) where
  /-- How states behind an error are related. -/
  loose : σ → σ → Prop
  /-- The errors that excuse a run. -/
  excuses : ε → Prop

/-- The run ended with an error that excuses it. -/
def Excused (T : Tolerance ε σ) (r : EStateM.Result ε σ α) : Prop :=
  ∃ e s, r = .error e s ∧ T.excuses e

/-- From states related by `R` two runs agree, and leave states related by `R'` behind a value,
unless one of them is excused. -/
def Coupled (T : Tolerance ε σ) (R R' : σ → σ → Prop) (x : EStateM ε σ α) : Prop :=
  ∀ s t, R s t → Agree T.loose R' (x s) (x t) ∨ Excused T (x s) ∨ Excused T (x t)

variable {T : Tolerance ε σ} {R R' R'' : σ → σ → Prop} {loose : σ → σ → Prop}

theorem Agree.refl (hloose : ∀ s, loose s s) (hR : ∀ s, R s s) (r : EStateM.Result ε σ α) :
    Agree loose R r r := by
  cases r with
  | ok a s => exact .ok (hR s)
  | error e s => exact .error (hloose s)

theorem Agree.mono {r r' : EStateM.Result ε σ α} (h : Agree loose R r r')
    (hR : ∀ s t, R s t → R' s t) : Agree loose R' r r' := by
  cases h with
  | ok h => exact .ok (hR _ _ h)
  | error h => exact .error h

/-- What agrees with a value is that value. -/
theorem Agree.of_ok_left {a : α} {s : σ} {r : EStateM.Result ε σ α}
    (h : Agree loose R (.ok a s) r) : ∃ t, r = .ok a t ∧ R s t := by
  cases h with
  | ok h => exact ⟨_, rfl, h⟩

theorem Agree.of_ok_right {a : α} {t : σ} {r : EStateM.Result ε σ α}
    (h : Agree loose R r (.ok a t)) : ∃ s, r = .ok a s ∧ R s t := by
  cases h with
  | ok h => exact ⟨_, rfl, h⟩

/-- A choice that both runs make alike. -/
theorem Agree.ite {c : Prop} [Decidable c] {q q' r r' : EStateM.Result ε σ α}
    (hq : Agree loose R q q') (hr : Agree loose R r r') :
    Agree loose R (if c then q else r) (if c then q' else r') := by
  split
  · exact hq
  · exact hr

theorem not_excused_ok {a : α} {s : σ} : ¬ Excused T (.ok a s : EStateM.Result ε σ α) := by
  rintro ⟨_, _, h, -⟩
  cases h

/-- A run that is excused excuses every run that starts with it. -/
theorem Excused.bind {x : EStateM ε σ α} {s : σ} (h : Excused T (x s))
    (f : α → EStateM ε σ β) : Excused T ((x >>= f) s) := by
  obtain ⟨e, u, hx, he⟩ := h
  exact ⟨e, u, bind_of_error hx, he⟩

/-- Where nothing excuses a run, both agree. -/
theorem Coupled.agree {x : EStateM ε σ α} (h : Coupled T R R' x) (hT : ∀ e, ¬ T.excuses e)
    {s t : σ} (hst : R s t) : Agree T.loose R' (x s) (x t) := by
  rcases h s t hst with hagree | ⟨e, _, -, hexcused⟩ | ⟨e, _, -, hexcused⟩
  · exact hagree
  · exact absurd hexcused (hT e)
  · exact absurd hexcused (hT e)

/-- Where one run yields a value the other yields the same value or an error. -/
theorem Coupled.ok_or_error {x : EStateM ε σ α} (h : Coupled T R R' x) {s t s' : σ} {a : α}
    (hst : R s t) (hx : x s = .ok a s') :
    (∃ t', x t = .ok a t' ∧ R' s' t') ∨ ∃ e t', x t = .error e t' ∧ T.excuses e := by
  rcases h s t hst with hagree | hleft | hright
  · rw [hx] at hagree
    exact .inl hagree.of_ok_left
  · rw [hx] at hleft
    exact absurd hleft not_excused_ok
  · exact .inr hright

/-! ### Single steps -/

theorem Coupled.mono {x : EStateM ε σ α} (h : Coupled T R R' x) {S S' : σ → σ → Prop}
    (hS : ∀ s t, S s t → R s t) (hS' : ∀ s t, R' s t → S' s t) : Coupled T S S' x := by
  intro s t hst
  exact (h s t (hS s t hst)).imp_left fun hagree => hagree.mono hS'

theorem coupled_pure (a : α) : Coupled T R R (pure a : EStateM ε σ α) :=
  fun _ _ hst => .inl (.ok hst)

theorem coupled_throw (hR : ∀ s t, R s t → T.loose s t) (e : ε) :
    Coupled T R R' (throw e : EStateM ε σ α) :=
  fun s t hst => .inl (.error (hR s t hst))

theorem coupled_modify {f : σ → σ} (h : ∀ s t, R s t → R' (f s) (f t)) :
    Coupled T R R' (modify f : EStateM ε σ Unit) :=
  fun s t hst => .inl (.ok (h s t hst))

/-- A question to the state that related states answer alike. -/
theorem coupled_query {f : σ → α} (h : ∀ s t, R s t → f s = f t) :
    Coupled T R R (return f (← get) : EStateM ε σ α) := by
  intro s t hst
  show Agree T.loose R (.ok (f s) s) (.ok (f t) t) ∨ _
  rw [h s t hst]
  exact .inl (.ok hst)

/-! ### Sequences of steps -/

theorem Coupled.bind {x : EStateM ε σ α} {f : α → EStateM ε σ β} (hx : Coupled T R R' x)
    (hf : ∀ a, Coupled T R' R'' (f a)) : Coupled T R R'' (x >>= f) := by
  intro s t hst
  rcases hx s t hst with hagree | hleft | hright
  · cases hs : x s with
    | ok a u =>
      rw [hs] at hagree
      obtain ⟨v, ht, huv⟩ := hagree.of_ok_left
      rw [bind_of_ok hs, bind_of_ok ht]
      exact hf a u v huv
    | error e u =>
      cases ht : x t with
      | ok a v =>
        rw [hs, ht] at hagree
        cases hagree
      | error e' v =>
        rw [hs, ht] at hagree
        rw [bind_of_error hs, bind_of_error ht]
        cases hagree with
        | error h => exact .inl (.error h)
  · exact .inr (.inl (hleft.bind f))
  · exact .inr (.inr (hright.bind f))

/-- What follows may depend on the state as far as related states are the same. -/
theorem Coupled.get {f : σ → EStateM ε σ β} (h : ∀ s t, R s t → f s = f t)
    (hf : ∀ s, Coupled T R R' (f s)) : Coupled T R R' (get >>= f) := by
  intro s t hst
  show Agree T.loose R' (f s s) (f t t) ∨ Excused T (f s s) ∨ Excused T (f t t)
  rw [h s t hst]
  exact hf t s t hst

theorem Coupled.ite {c : Prop} [Decidable c] {x y : EStateM ε σ α} (hx : Coupled T R R' x)
    (hy : Coupled T R R' y) : Coupled T R R' (if c then x else y) := by
  split
  · exact hx
  · exact hy

/-- A check in front of what comes next. -/
theorem Coupled.guard {c : Prop} [Decidable c] {e : ε} {f : Unit → EStateM ε σ β}
    (hR : ∀ s t, R s t → T.loose s t) (hf : Coupled T R R' (f ())) :
    Coupled T R R' (if c then (throw e : EStateM ε σ Unit) >>= f else f ()) := by
  split
  · exact (coupled_throw hR e).bind fun _ => hf
  · exact hf

/-- A step that is taken or not, in front of what comes next. -/
theorem Coupled.optional {c : Prop} [Decidable c] {step : EStateM ε σ α} {rest : EStateM ε σ β}
    (hstep : Coupled T R R step) (hrest : Coupled T R R' rest) :
    Coupled T R R' (if c then step >>= fun _ => rest else rest) := by
  split
  · exact hstep.bind fun _ => hrest
  · exact hrest

theorem coupled_mapM {f : α → EStateM ε σ β} {xs : List α}
    (hf : ∀ a ∈ xs, Coupled T R R (f a)) : Coupled T R R (xs.mapM f) := by
  induction xs with
  | nil => exact coupled_pure []
  | cons x xs ih =>
    rw [List.mapM_cons]
    refine (hf x List.mem_cons_self).bind fun _ => ?_
    exact (ih fun a ha => hf a (List.mem_cons_of_mem _ ha)).bind fun _ => coupled_pure _

theorem coupled_foldlM {f : β → α → EStateM ε σ β} {xs : List α} (b : β)
    (hf : ∀ b, ∀ a ∈ xs, Coupled T R R (f b a)) : Coupled T R R (xs.foldlM f b) := by
  induction xs generalizing b with
  | nil => exact coupled_pure b
  | cons x xs ih =>
    rw [List.foldlM_cons]
    refine (hf b x List.mem_cons_self).bind fun b => ih b fun b a ha => ?_
    exact hf b a (List.mem_cons_of_mem _ ha)

end Packfile.Run
