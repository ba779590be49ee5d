import Mathlib

/-!
# Sequences of calls

An implementation performs calls that have results and may fail; a specification relates the state
before a call to the result and the state after it. If the states of the two stay related and the
result of every call is one that the specification allows, then so are the results of every sequence
of calls.
-/

namespace Calls

variable {κ ρ σ τ ε : Type*}

/-- The results of a sequence of calls, and the state after it. -/
def run (perform : κ → σ → Except ε (ρ × σ)) : List κ → σ → Except ε (List ρ × σ)
  | [], s => .ok ([], s)
  | call :: calls, s =>
      match perform call s with
      | .error e => .error e
      | .ok (result, s) =>
          match run perform calls s with
          | .error e => .error e
          | .ok (results, s) => .ok (result :: results, s)

/-- The results and the last state of a sequence of calls, as the specification allows them. -/
inductive Allowed (spec : τ → κ → ρ → τ → Prop) : τ → List κ → List ρ → τ → Prop
  | nil (t : τ) : Allowed spec t [] [] t
  | cons {t u v : τ} {call : κ} {result : ρ} {calls : List κ} {results : List ρ}
      (first : spec t call result u) (rest : Allowed spec u calls results v) :
      Allowed spec t (call :: calls) (result :: results) v

variable {perform : κ → σ → Except ε (ρ × σ)} {spec : τ → κ → ρ → τ → Prop} {s s' : σ} {t : τ}

theorem run_cons {call : κ} {calls : List κ} {result : ρ} {results : List ρ} {u : σ}
    (first : perform call s = .ok (result, u)) (rest : run perform calls u = .ok (results, s')) :
    run perform (call :: calls) s = .ok (result :: results, s') := by
  rw [run, first]
  dsimp only
  rw [rest]

/-- One call at a time is enough. -/
theorem run_allowed (Related : σ → τ → Prop)
    (one : ∀ {s t} (call : κ), Related s t → ∃ result s' t',
      perform call s = .ok (result, s') ∧ spec t call result t' ∧ Related s' t')
    (calls : List κ) (related : Related s t) :
    ∃ results s' t', run perform calls s = .ok (results, s') ∧
      Allowed spec t calls results t' ∧ Related s' t' := by
  induction calls generalizing s t with
  | nil => exact ⟨[], s, t, rfl, .nil t, related⟩
  | cons call calls ih =>
      rcases one call related with ⟨result, s₁, t₁, first, allowed, related₁⟩
      rcases ih related₁ with ⟨results, s', t', rest, allowed', related'⟩
      exact ⟨result :: results, s', t', run_cons first rest, .cons allowed allowed', related'⟩

end Calls
