import Mathlib.Data.List.Forall2
import Packfile.Session

/-!
# Runs of readers and decoders

A reader and a decode are both computations that leave a state behind, in success and in failure.
Two things are said of them again and again: what a success of a sequence of steps means for the
steps, and that some part of the state is left alone.

## Success and failure

`bind_eq_ok` takes a successful sequence apart, and `simp only` with it and the lemmas on single
steps turns a whole `do` block into the list of what its steps did. Read from right to left, the
same lemmas put a run together. `bind_eq_error` does the same for a failure: it is that of the first
step, or that of what follows a success of it.

## What is left alone

`Keeps view body` says that `body` does not change what `view` shows of the state. It speaks of both
endings, because a decode that gives up on a record goes on in the state that the failure left.
`Preserves P body` asks for less: the state may change, as long as `P` holds of it.

## What is ensured

`Ensures view i P body` adds to this what is known of a value: from a state that shows `i`, whatever
`body` yields has the property `P`. It is the form in which the decoders are shown to be sound.

## Main definitions

* `Run.after` — the state that is left
* `Run.Keeps` — computations that leave a part of the state alone
* `Run.Preserves` — computations that leave a property of the state alone
* `Run.Ensures` — what they yield besides

## Main results

* `Run.bind_eq_ok`, `Run.pure_eq_ok`, `Run.throw_eq_ok` — success, step by step
* `Run.bind_eq_error` — failure, step by step
* `Run.mapM_of_forall₂`, `Run.ensures_mapM` — a step for each element of a list
* `Run.Keeps.bind`, `Run.Ensures.bind` — the sequence of two steps
-/

namespace Packfile.Run

variable {ε σ ν α β : Type}

/-! ### Success and failure -/

theorem bind_eq_ok {x : EStateM ε σ α} {f : α → EStateM ε σ β} {s t : σ} {b : β} :
    (x >>= f) s = .ok b t ↔ ∃ a u, x s = .ok a u ∧ f a u = .ok b t := by
  show (match x s with | .ok a u => f a u | .error e u => .error e u) = _ ↔ _
  cases h : x s with
  | ok a u =>
    constructor
    · intro hf
      exact ⟨a, u, rfl, hf⟩
    · rintro ⟨_, _, hx, hf⟩
      cases hx
      exact hf
  | error e u => simp

theorem bind_of_ok {x : EStateM ε σ α} {f : α → EStateM ε σ β} {s t : σ} {a : α}
    (h : x s = .ok a t) : (x >>= f) s = f a t := by
  show (match x s with | .ok a u => f a u | .error e u => .error e u) = _
  rw [h]

theorem bind_of_error {x : EStateM ε σ α} {f : α → EStateM ε σ β} {s t : σ} {e : ε}
    (h : x s = .error e t) : (x >>= f) s = .error e t := by
  show (match x s with | .ok a u => f a u | .error e u => .error e u) = _
  rw [h]

theorem pure_eq_ok {a b : α} {s t : σ} :
    (pure a : EStateM ε σ α) s = .ok b t ↔ b = a ∧ t = s := by
  show EStateM.Result.ok a s = .ok b t ↔ _
  simp [eq_comm]

theorem throw_eq_ok {e : ε} {a : α} {s t : σ} :
    (throw e : EStateM ε σ α) s = .ok a t ↔ False := by
  show EStateM.Result.error e s = .ok a t ↔ _
  simp

theorem get_eq_ok {a s t : σ} : (get : EStateM ε σ σ) s = .ok a t ↔ a = s ∧ t = s := by
  show EStateM.Result.ok s s = .ok a t ↔ _
  simp [eq_comm]

theorem modify_eq_ok {f : σ → σ} {s t : σ} {u : Unit} :
    (modify f : EStateM ε σ Unit) s = .ok u t ↔ t = f s := by
  show EStateM.Result.ok () (f s) = .ok u t ↔ _
  simp [eq_comm]

theorem set_eq_ok {a s t : σ} {u : PUnit} : (set a : EStateM ε σ PUnit) s = .ok u t ↔ t = a := by
  show EStateM.Result.ok PUnit.unit a = .ok u t ↔ _
  simp [eq_comm]

/-- A check in front of what comes next has succeeded exactly when it has let the run pass. -/
theorem guard_eq_ok {c : Prop} [Decidable c] {e : ε} {f : Unit → EStateM ε σ β} {s t : σ} {b : β} :
    (if c then (throw e : EStateM ε σ Unit) >>= f else f ()) s = .ok b t ↔
      ¬ c ∧ f () s = .ok b t := by
  by_cases hc : c
  · simp [hc, bind_eq_ok, throw_eq_ok]
  · simp [hc]

/-- A step that is taken or not, in front of what comes next. -/
theorem optional_eq_ok {c : Prop} [Decidable c] {step : EStateM ε σ α} {rest : EStateM ε σ β}
    {s t : σ} {b : β} : (if c then step >>= fun _ => rest else rest) s = .ok b t ↔
      ∃ u, (c ∧ (∃ a, step s = .ok a u) ∨ ¬ c ∧ u = s) ∧ rest u = .ok b t := by
  by_cases hc : c
  · simp only [hc, if_true, bind_eq_ok, true_and, not_true_eq_false, false_and, or_false]
    exact ⟨fun ⟨a, u, hstep, hrest⟩ => ⟨u, ⟨a, hstep⟩, hrest⟩,
      fun ⟨u, ⟨a, hstep⟩, hrest⟩ => ⟨a, u, hstep, hrest⟩⟩
  · simp [hc]

/-- A sequence fails where its first step does, or behind it. -/
theorem bind_eq_error {x : EStateM ε σ α} {f : α → EStateM ε σ β} {s t : σ} {e : ε} :
    (x >>= f) s = .error e t ↔ x s = .error e t ∨ ∃ a u, x s = .ok a u ∧ f a u = .error e t := by
  cases hx : x s with
  | ok a u =>
    rw [bind_of_ok hx]
    constructor
    · intro h
      exact .inr ⟨a, u, rfl, h⟩
    · rintro (h | ⟨_, _, h, hf⟩)
      · cases h
      · cases h
        exact hf
  | error e' u => simp [bind_of_error hx]

theorem pure_eq_error {a : α} {s t : σ} {e : ε} :
    (pure a : EStateM ε σ α) s = .error e t ↔ False := by
  show EStateM.Result.ok a s = .error e t ↔ _
  simp

theorem get_eq_error {s t : σ} {e : ε} : (get : EStateM ε σ σ) s = .error e t ↔ False :=
  pure_eq_error

theorem modify_eq_error {f : σ → σ} {s t : σ} {e : ε} :
    (modify f : EStateM ε σ Unit) s = .error e t ↔ False := by
  show EStateM.Result.ok () (f s) = .error e t ↔ _
  simp

theorem set_eq_error {a s t : σ} {e : ε} :
    (set a : EStateM ε σ PUnit) s = .error e t ↔ False := by
  show EStateM.Result.ok PUnit.unit a = .error e t ↔ _
  simp

theorem except_bind_eq_ok {x : Except ε α} {f : α → Except ε β} {b : β} :
    (x >>= f) = .ok b ↔ ∃ a, x = .ok a ∧ f a = .ok b := by
  cases x with
  | error e =>
    constructor
    · intro h
      cases h
    · rintro ⟨_, h, -⟩
      cases h
  | ok a =>
    constructor
    · intro h
      exact ⟨a, rfl, h⟩
    · rintro ⟨_, h, hf⟩
      cases h
      exact hf

theorem except_pure_eq_ok {a b : α} : (pure a : Except ε α) = .ok b ↔ b = a := by
  show Except.ok a = .ok b ↔ _
  rw [Except.ok.injEq, eq_comm]

theorem except_throw_eq_ok {e : ε} {a : α} : (throw e : Except ε α) = .ok a ↔ False := by
  show Except.error e = .ok a ↔ _
  simp

/-- Whether a run has ended with a value. -/
def isOk : EStateM.Result ε σ α → Bool
  | .ok _ _ => true
  | .error _ _ => false

theorem exists_of_isOk {r : EStateM.Result ε σ α} (h : isOk r = true) : ∃ a t, r = .ok a t := by
  cases r with
  | ok a t => exact ⟨a, t, rfl⟩
  | error e t => cases h

/-- What cannot succeed ends with an error. -/
theorem exists_error_of_ne_ok {r : EStateM.Result ε σ α} (h : ∀ a t, r ≠ .ok a t) :
    ∃ e t, r = .error e t := by
  cases r with
  | ok a t => exact absurd rfl (h a t)
  | error e t => exact ⟨e, t, rfl⟩

/-- A step that succeeds wherever an invariant holds, and keeps it, succeeds for each element of a
list. -/
theorem mapM_of_forall₂ {f : α → EStateM ε σ β} {inv : σ → Prop} {xs : List α} {ys : List β}
    (h : List.Forall₂ (fun x y => ∀ s, inv s → ∃ t, f x s = .ok y t ∧ inv t) xs ys) {s : σ}
    (hs : inv s) : ∃ t, xs.mapM f s = .ok ys t ∧ inv t := by
  induction h generalizing s with
  | nil => exact ⟨s, rfl, hs⟩
  | cons hx _ ih =>
    obtain ⟨u, hu, hinv⟩ := hx s hs
    obtain ⟨t, ht, hinv⟩ := ih hinv
    simp only [List.mapM_cons, bind_eq_ok, pure_eq_ok]
    exact ⟨t, ⟨_, u, hu, _, t, ht, rfl, rfl⟩, hinv⟩

/-- What is known of two lists element by element is known at each index. -/
theorem of_getElem? {R : α → β → Prop} {xs : List α} {ys : List β} {i : ℕ} {x : α} {y : β}
    (h : List.Forall₂ R xs ys) (hx : xs[i]? = some x) (hy : ys[i]? = some y) : R x y := by
  obtain ⟨hi, rfl⟩ := List.getElem?_eq_some_iff.mp hx
  obtain ⟨hj, rfl⟩ := List.getElem?_eq_some_iff.mp hy
  exact h.get hi hj

/-- Whatever is on the right stands against something on the left. -/
theorem exists_of_forall₂ {R : α → β → Prop} {xs : List α} {ys : List β} {y : β}
    (h : List.Forall₂ R xs ys) (hy : y ∈ ys) : ∃ x ∈ xs, R x y := by
  obtain ⟨i, hi, rfl⟩ := List.getElem_of_mem hy
  have hj : i < xs.length := by
    rw [h.length_eq]
    exact hi
  exact ⟨xs[i], List.getElem_mem hj, h.get hj hi⟩

/-- A relation may be used together with membership. -/
theorem forall₂_imp_of_mem {R S : α → β → Prop} {xs : List α} {ys : List β}
    (h : List.Forall₂ R xs ys) (himp : ∀ x ∈ xs, ∀ y ∈ ys, R x y → S x y) :
    List.Forall₂ S xs ys := by
  induction h with
  | nil => exact .nil
  | cons hxy _ ih =>
    refine .cons (himp _ List.mem_cons_self _ List.mem_cons_self hxy) (ih ?_)
    intro x hx y hy
    exact himp x (List.mem_cons_of_mem _ hx) y (List.mem_cons_of_mem _ hy)

/-- Lists that are related to one list between them are related. -/
theorem forall₂_trans {γ : Type} {R : α → β → Prop} {S : β → γ → Prop} {T : α → γ → Prop}
    {xs : List α} {ys : List β} {zs : List γ} (hxy : List.Forall₂ R xs ys)
    (hyz : List.Forall₂ S ys zs) (h : ∀ x y z, R x y → S y z → T x z) : List.Forall₂ T xs zs := by
  induction hxy generalizing zs with
  | nil =>
    cases hyz
    exact .nil
  | cons hR _ ih =>
    cases hyz with
    | cons hS hrest => exact .cons (h _ _ _ hR hS) (ih hrest)

/-- Lists with equal images are related element by element. -/
theorem forall₂_of_map_eq {γ : Type} {f : α → γ} {g : β → γ} {xs : List α} {ys : List β}
    (h : xs.map f = ys.map g) : List.Forall₂ (fun x y => f x = g y) xs ys := by
  rw [← List.forall₂_eq_eq_eq] at h
  exact List.forall₂_map_right_iff.mp (List.forall₂_map_left_iff.mp h)

/-! ### What is left alone -/

/-- The state that a computation leaves, in success and in failure. -/
def after (x : EStateM ε σ α) (s : σ) : σ :=
  match x s with
  | .ok _ t => t
  | .error _ t => t

theorem after_of_ok {x : EStateM ε σ α} {s t : σ} {a : α} (h : x s = .ok a t) : after x s = t := by
  rw [after, h]

/-- What `view` shows of the state is the same before and after. -/
def Keeps (view : σ → ν) (x : EStateM ε σ α) : Prop := ∀ s, view (after x s) = view s

section

variable {view : σ → ν}

theorem Keeps.of_ok {x : EStateM ε σ α} (h : Keeps view x) {s t : σ} {a : α} (hx : x s = .ok a t) :
    view t = view s := by
  rw [← h s, after_of_ok hx]

theorem keeps_pure (a : α) : Keeps view (pure a : EStateM ε σ α) := fun _ => rfl

theorem keeps_throw (e : ε) : Keeps view (throw e : EStateM ε σ α) := fun _ => rfl

theorem keeps_get : Keeps view (get : EStateM ε σ σ) := fun _ => rfl

theorem keeps_modify {f : σ → σ} (h : ∀ s, view (f s) = view s) :
    Keeps view (modify f : EStateM ε σ Unit) := h

theorem after_bind_of_ok {x : EStateM ε σ α} {f : α → EStateM ε σ β} {s t : σ} {a : α}
    (h : x s = .ok a t) : after (x >>= f) s = after (f a) t := by
  rw [after, bind_of_ok h, after]

theorem after_bind_of_error {x : EStateM ε σ α} {f : α → EStateM ε σ β} {s t : σ} {e : ε}
    (h : x s = .error e t) : after (x >>= f) s = after x s := by
  rw [after, bind_of_error h, after, h]

/-- What comes next may give up without changing anything. -/
theorem after_bind_throw (x : EStateM ε σ α) (e : ε) (s : σ) :
    after (x >>= fun _ => (throw e : EStateM ε σ β)) s = after x s := by
  cases h : x s with
  | ok a t =>
    rw [after_bind_of_ok h, after_of_ok h]
    rfl
  | error e' t => exact after_bind_of_error h

theorem isOk_bind_throw (x : EStateM ε σ α) (e : ε) (s : σ) :
    isOk ((x >>= fun _ => (throw e : EStateM ε σ β)) s) = false := by
  cases h : x s with
  | ok a t => rw [bind_of_ok h]; rfl
  | error e' t => rw [bind_of_error h]; rfl

theorem Keeps.bind {x : EStateM ε σ α} {f : α → EStateM ε σ β} (hx : Keeps view x)
    (hf : ∀ a, Keeps view (f a)) : Keeps view (x >>= f) := by
  intro s
  cases h : x s with
  | ok a u =>
    rw [after_bind_of_ok h, hf a u]
    exact hx.of_ok h
  | error e u =>
    rw [after_bind_of_error h]
    exact hx s

theorem Keeps.ite {c : Prop} [Decidable c] {x y : EStateM ε σ α} (hx : Keeps view x)
    (hy : Keeps view y) : Keeps view (if c then x else y) := by
  split
  · exact hx
  · exact hy

/-- A check in front of what comes next changes nothing. -/
theorem Keeps.guard {c : Prop} [Decidable c] {e : ε} {f : Unit → EStateM ε σ β}
    (hf : Keeps view (f ())) :
    Keeps view (if c then (throw e : EStateM ε σ Unit) >>= f else f ()) := by
  split
  · exact fun _ => rfl
  · exact hf

end

/-! ### What is preserved -/

section

variable {P : σ → Prop}

/-- What holds before holds after, in success and in failure. -/
def Preserves (P : σ → Prop) (x : EStateM ε σ α) : Prop := ∀ s, P s → P (after x s)

theorem Keeps.preserves {view : σ → ν} {x : EStateM ε σ α} (h : Keeps view x) (Q : ν → Prop) :
    Preserves (fun s => Q (view s)) x := by
  intro s hs
  rw [h s]
  exact hs

theorem Preserves.bind {x : EStateM ε σ α} {f : α → EStateM ε σ β} (hx : Preserves P x)
    (hf : ∀ a, Preserves P (f a)) : Preserves P (x >>= f) := by
  intro s hs
  have hstep := hx s hs
  cases h : x s with
  | ok a t =>
    rw [after_of_ok h] at hstep
    rw [after_bind_of_ok h]
    exact hf a t hstep
  | error e t =>
    rw [after_bind_of_error h]
    exact hstep

/-- What each step of a sequence preserves is preserved by the sequence, wherever it stops. -/
theorem preserves_forM {f : α → EStateM ε σ PUnit} {xs : List α}
    (hf : ∀ x ∈ xs, Preserves P (f x)) : Preserves P (xs.forM f) := by
  induction xs with
  | nil => exact fun _ h => h
  | cons x xs ih =>
    exact (hf x List.mem_cons_self).bind fun _ => ih fun y hy => hf y (List.mem_cons_of_mem _ hy)

end

/-! ### What is ensured

A reader that runs over bytes which nobody vouches for is described by what it ensures: whatever it
ends with, the part of the state in view is as it was, and whatever it yields has a property that
may depend on that part. Unlike a description of the whole outcome, this goes through a `do` block
one step at a time. -/

section

variable {view : σ → ν} {i : ν} {P Q : α → Prop} {R : β → Prop}

/-- From a state that shows `i`, the computation leaves a state that shows `i`, and what it yields
has the property `P`. -/
def Ensures (view : σ → ν) (i : ν) (P : α → Prop) (x : EStateM ε σ α) : Prop :=
  ∀ s, view s = i → view (after x s) = i ∧ ∀ a t, x s = .ok a t → P a

theorem Ensures.of_ok {x : EStateM ε σ α} (h : Ensures view i P x) {s t : σ} {a : α}
    (hs : view s = i) (hx : x s = .ok a t) : view t = i ∧ P a := by
  obtain ⟨hview, hP⟩ := h s hs
  rw [after_of_ok hx] at hview
  exact ⟨hview, hP a t hx⟩

theorem Ensures.mono {x : EStateM ε σ α} (h : Ensures view i P x) (hPQ : ∀ a, P a → Q a) :
    Ensures view i Q x :=
  fun s hs => ⟨(h s hs).1, fun a t hx => hPQ a ((h s hs).2 a t hx)⟩

theorem Keeps.ensures {x : EStateM ε σ α} (h : Keeps view x) (hP : ∀ s a t, x s = .ok a t → P a) :
    Ensures view i P x :=
  fun s hs => ⟨(h s).trans hs, fun a t hx => hP s a t hx⟩

theorem ensures_pure {a : α} (h : P a) : Ensures view i P (pure a : EStateM ε σ α) := by
  refine (keeps_pure a).ensures fun s b t hb => ?_
  rw [(pure_eq_ok.mp hb).1]
  exact h

theorem ensures_throw (e : ε) : Ensures view i P (throw e : EStateM ε σ α) :=
  (keeps_throw e).ensures fun _ _ _ h => (throw_eq_ok.mp h).elim

theorem Ensures.bind {x : EStateM ε σ α} {f : α → EStateM ε σ β} (hx : Ensures view i P x)
    (hf : ∀ a, P a → Ensures view i R (f a)) : Ensures view i R (x >>= f) := by
  intro s hs
  cases h : x s with
  | ok a u =>
    obtain ⟨hu, hP⟩ := hx.of_ok hs h
    rw [after_bind_of_ok h, bind_of_ok h]
    exact hf a hP u hu
  | error e u =>
    rw [after_bind_of_error h, bind_of_error h]
    exact ⟨(hx s hs).1, fun _ _ hb => nomatch hb⟩

/-- A step of which nothing but that is needed that it keeps what is in view. -/
theorem Keeps.then {x : EStateM ε σ α} {f : α → EStateM ε σ β} (hx : Keeps view x)
    (hf : ∀ a, Ensures view i R (f a)) : Ensures view i R (x >>= f) :=
  Ensures.bind (P := fun _ => True) (hx.ensures fun _ _ _ _ => trivial) fun a _ => hf a

theorem Ensures.ite {c : Prop} [Decidable c] {x y : EStateM ε σ α} (hx : c → Ensures view i P x)
    (hy : ¬ c → Ensures view i P y) : Ensures view i P (if c then x else y) := by
  by_cases hc : c
  · rw [if_pos hc]
    exact hx hc
  · rw [if_neg hc]
    exact hy hc

/-- Behind a check its condition is known to be false. -/
theorem Ensures.guard {c : Prop} [Decidable c] {e : ε} {f : Unit → EStateM ε σ β}
    (hf : ¬ c → Ensures view i R (f ())) :
    Ensures view i R (if c then (throw e : EStateM ε σ Unit) >>= f else f ()) :=
  Ensures.ite (fun _ => Ensures.bind (P := fun _ => False) (ensures_throw e) fun _ h => h.elim) hf

/-- A step that is taken or not, in front of what comes next. -/
theorem Ensures.optional {c : Prop} [Decidable c] {step : EStateM ε σ α} {rest : EStateM ε σ β}
    (hstep : Keeps view step) (hrest : Ensures view i R rest) :
    Ensures view i R (if c then step >>= fun _ => rest else rest) :=
  Ensures.ite (fun _ => hstep.then fun _ => hrest) fun _ => hrest

/-- A step for each element of a list has as many results, and ensures of each what it ensures of
one. -/
theorem ensures_mapM {f : α → EStateM ε σ β} {S : α → β → Prop} {xs : List α}
    (hf : ∀ a ∈ xs, Ensures view i (S a) (f a)) :
    Ensures view i (fun ys => ys.length = xs.length ∧ ∀ y ∈ ys, ∃ x ∈ xs, S x y) (xs.mapM f) := by
  induction xs with
  | nil => exact ensures_pure ⟨rfl, fun y hy => absurd hy List.not_mem_nil⟩
  | cons x xs ih =>
    rw [List.mapM_cons]
    refine (hf x List.mem_cons_self).bind fun y hy => ?_
    refine (ih fun a ha => hf a (List.mem_cons_of_mem _ ha)).bind fun ys ⟨hlength, hys⟩ => ?_
    refine ensures_pure ⟨by rw [List.length_cons, List.length_cons, hlength], fun z hz => ?_⟩
    rcases List.mem_cons.mp hz with rfl | hmem
    · exact ⟨x, List.mem_cons_self, hy⟩
    · obtain ⟨x', hx', hS⟩ := hys z hmem
      exact ⟨x', List.mem_cons_of_mem _ hx', hS⟩

theorem length_of_mapM {f : α → EStateM ε σ β} {xs : List α} {ys : List β} {s t : σ}
    (h : xs.mapM f s = .ok ys t) : ys.length = xs.length := by
  have hf : ∀ a ∈ xs, Ensures (fun _ => ()) () (fun _ => True) (f a) :=
    fun _ _ _ _ => ⟨rfl, fun _ _ _ => trivial⟩
  exact ((ensures_mapM hf).of_ok rfl h).2.1

/-- What each step of a fold ensures again is ensured by the fold. -/
theorem ensures_foldlM {f : β → α → EStateM ε σ β} {xs : List α} {b : β} (hb : R b)
    (hf : ∀ b, ∀ a ∈ xs, R b → Ensures view i R (f b a)) : Ensures view i R (xs.foldlM f b) := by
  induction xs generalizing b with
  | nil => exact ensures_pure hb
  | cons x xs ih =>
    rw [List.foldlM_cons]
    refine (hf b x List.mem_cons_self hb).bind fun b hb => ih hb ?_
    exact fun b a ha => hf b a (List.mem_cons_of_mem _ ha)

end

end Packfile.Run
