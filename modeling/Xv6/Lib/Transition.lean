import Mathlib

/-!
# Guarded transition systems

Runs of a labelled step relation in which every label is admitted by a guard on the state that it
is taken in. The runs of a system in which some labels are restricted are the runs under a guard.
-/

namespace Transition

open Relation

variable {σ τ ε ε' : Type*}

/-- A step whose label is admitted. -/
def GuardedStep (step : σ → ε → σ → Prop) (guard : σ → ε → Prop) (s t : σ) : Prop :=
  ∃ label, guard s label ∧ step s label t

/-- The states of the guarded runs from `start`. -/
def Reachable (step : σ → ε → σ → Prop) (guard : σ → ε → Prop) (start : σ) : σ → Prop :=
  ReflTransGen (GuardedStep step guard) start

section Reachable

variable {step : σ → ε → σ → Prop} {guard guard' : σ → ε → Prop} {start s t : σ}

theorem Reachable.refl : Reachable step guard start start := ReflTransGen.refl

theorem Reachable.next {label : ε} (reach : Reachable step guard start s)
    (admitted : guard s label) (taken : step s label t) : Reachable step guard start t :=
  ReflTransGen.tail reach ⟨label, admitted, taken⟩

/-- What holds at the start and is kept by every admitted step holds in every reachable state.
A step may use that its first state is reachable. -/
theorem Reachable.invariant (reach : Reachable step guard start s) (Inv : σ → Prop)
    (initially : Inv start)
    (kept : ∀ {s label t}, Reachable step guard start s → Inv s → guard s label →
      step s label t → Inv t) : Inv s := by
  induction reach with
  | refl => exact initially
  | tail reach taken ih =>
      obtain ⟨label, admitted, taken⟩ := taken
      exact kept reach ih admitted taken

theorem Reachable.mono (weaker : ∀ s label, guard s label → guard' s label)
    (reach : Reachable step guard start s) : Reachable step guard' start s := by
  induction reach with
  | refl => exact Reachable.refl
  | tail _ taken ih =>
      obtain ⟨label, admitted, taken⟩ := taken
      exact ih.next (weaker _ _ admitted) taken

/-- Only labels that can be taken are ever needed. -/
theorem Reachable.enabled (reach : Reachable step guard start s) :
    Reachable step (fun s label => guard s label ∧ ∃ t, step s label t) start s := by
  induction reach with
  | refl => exact Reachable.refl
  | tail _ taken ih =>
      rcases taken with ⟨label, admitted, taken⟩
      exact ih.next ⟨admitted, _, taken⟩ taken

/-- A refinement mapping: every concrete step is an abstract one or leaves the abstract state as
it was. -/
theorem Reachable.refine {step' : τ → ε' → τ → Prop} {guard' : τ → ε' → Prop} {start' : τ}
    (abstraction : σ → τ) (initially : abstraction start = start')
    (matched : ∀ {s label t}, Reachable step guard start s → guard s label → step s label t →
      abstraction t = abstraction s ∨
        ∃ label', guard' (abstraction s) label' ∧ step' (abstraction s) label' (abstraction t))
    (reach : Reachable step guard start s) :
    Reachable step' guard' start' (abstraction s) := by
  induction reach with
  | refl => exact initially ▸ Reachable.refl
  | tail reach taken ih =>
      obtain ⟨label, admitted, taken⟩ := taken
      rcases matched reach admitted taken with stutter | ⟨label', admitted', taken'⟩
      · exact stutter ▸ ih
      · exact ih.next admitted' taken'

end Reachable

end Transition
