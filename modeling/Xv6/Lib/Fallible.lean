import Mathlib

/-!
# Fallible computations as runs

Rules for computations in `Except`. `Follows` reads a computation on states as a run of a finer
relation: its result lies on a path of that relation, and so does the state in which it fails.
-/

namespace Fallible

universe u

open Relation

variable {σ ε : Type*} {α β : Type u}

@[simp]
theorem bind_ok (a : α) (next : α → Except ε β) : (Except.ok a >>= next) = next a := rfl

@[simp]
theorem bind_error (e : ε) (next : α → Except ε β) :
    ((Except.error e : Except ε α) >>= next) = .error e := rfl

@[simp]
theorem pure_eq (a : α) : (pure a : Except ε α) = .ok a := rfl

@[simp]
theorem map_ok (f : α → β) (a : α) : f <$> (Except.ok a : Except ε α) = .ok (f a) := rfl

@[simp]
theorem map_error (f : α → β) (e : ε) : f <$> (Except.error e : Except ε α) = .error e := rfl

theorem bind_eq_ok {first : Except ε α} {next : α → Except ε β} {b : β} :
    first >>= next = .ok b ↔ ∃ a, first = .ok a ∧ next a = .ok b := by
  cases first <;> simp

/-- A computation started in `s` runs along paths of `R`: its result (seen as a state by `view`)
ends one, and if it fails, it fails in a state at the end of one in which `Fails` allows it. -/
def Follows (R : σ → σ → Prop) (Fails : σ → ε → Prop) (view : α → σ) (s : σ)
    (result : Except ε α) : Prop :=
  match result with
  | .ok a => ReflTransGen R s (view a)
  | .error e => ∃ t, ReflTransGen R s t ∧ Fails t e

section Follows

variable {R : σ → σ → Prop} {Fails : σ → ε → Prop} {view : α → σ} {view' : β → σ} {s t : σ}
  {result : Except ε α}

theorem Follows.ok {a : α} (path : ReflTransGen R s (view a)) :
    Follows R Fails view s (.ok a) := path

theorem Follows.fail {e : ε} (allowed : Fails s e) : Follows R Fails view s (.error e) :=
  ⟨s, .refl, allowed⟩

theorem Follows.single {a : α} (step : R s (view a)) : Follows R Fails view s (.ok a) :=
  ReflTransGen.single step

theorem Follows.path {a : α} (follows : Follows R Fails view s result) (run : result = .ok a) :
    ReflTransGen R s (view a) := by
  subst run
  exact follows

theorem Follows.after (path : ReflTransGen R s t) (follows : Follows R Fails view t result) :
    Follows R Fails view s result := by
  cases result with
  | ok a => exact path.trans follows
  | error e =>
      obtain ⟨u, rest, allowed⟩ := follows
      exact ⟨u, path.trans rest, allowed⟩

/-- Sequencing: the second computation may use that the first one has a path. -/
theorem Follows.bind {next : α → Except ε β} (first : Follows R Fails view s result)
    (second : ∀ a, result = .ok a → ReflTransGen R s (view a) →
      Follows R Fails view' (view a) (next a)) :
    Follows R Fails view' s (result >>= next) := by
  cases result with
  | ok a => exact Follows.after (t := view a) first (second a rfl first)
  | error e => exact first

theorem Follows.map {f : α → β} (same : ∀ a, view' (f a) = view a)
    (follows : Follows R Fails view s result) : Follows R Fails view' s (result.map f) := by
  cases result with
  | ok a =>
      change ReflTransGen R s (view' (f a))
      exact (same a).symm ▸ follows
  | error e => exact follows

/-- What holds in the state before and is kept by `R` holds of the result. -/
theorem kept_of_path (Inv : σ → Prop) (kept : ∀ {s t}, R s t → Inv s → Inv t)
    (path : ReflTransGen R s t) (holds : Inv s) : Inv t := by
  induction path with
  | refl => exact holds
  | tail _ step ih => exact kept step ih

/-- The loop rule: every pass follows `R` from states with `Inv`, and keeps `Inv`. -/
theorem Follows.foldlM {σ : Type u} {R : σ → σ → Prop} {Fails : σ → ε → Prop} {s : σ}
    {body : σ → β → Except ε σ} (Inv : σ → Prop)
    (pass : ∀ s a, Inv s → Follows R Fails id s (body s a))
    (kept : ∀ s a t, Inv s → body s a = .ok t → Inv t) (items : List β) (holds : Inv s) :
    Follows R Fails id s (items.foldlM body s) := by
  induction items generalizing s with
  | nil => exact Follows.ok .refl
  | cons a items ih =>
      rw [List.foldlM_cons]
      exact Follows.bind (pass s a holds) fun t run _ => ih (kept s a t holds run)

end Follows

section FailsOnly

variable {P : ε → Prop} {first : Except ε α} {next : α → Except ε β}

/-- The computation fails with errors of one kind only. -/
def FailsOnly (P : ε → Prop) (result : Except ε α) : Prop := ∀ e, result = .error e → P e

theorem FailsOnly.ok (a : α) : FailsOnly P (.ok a : Except ε α) := by
  intro e failed
  cases failed

theorem FailsOnly.error {e : ε} (kind : P e) : FailsOnly P (.error e : Except ε α) := by
  intro e' failed
  exact Except.error.inj failed ▸ kind

theorem FailsOnly.bind (firstFails : FailsOnly P first) (nextFails : ∀ a, FailsOnly P (next a)) :
    FailsOnly P (first >>= next) := by
  cases first with
  | ok a => exact nextFails a
  | error e => exact .error (firstFails e rfl)

theorem FailsOnly.map (f : α → β) (fails : FailsOnly P first) : FailsOnly P (first.map f) := by
  cases first with
  | ok a => exact .ok (f a)
  | error e => exact .error (fails e rfl)

theorem FailsOnly.foldlM {σ : Type u} {body : σ → β → Except ε σ}
    (pass : ∀ s a, FailsOnly P (body s a)) (items : List β) (s : σ) :
    FailsOnly P (items.foldlM body s) := by
  induction items generalizing s with
  | nil => exact .ok s
  | cons a items ih =>
      rw [List.foldlM_cons]
      exact (pass s a).bind ih

end FailsOnly

end Fallible
