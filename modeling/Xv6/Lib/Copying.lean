import Mathlib

/-!
# Copies of one cell after another

A copy that moves its cells one at a time reads a cell that it may have written before. It is a copy
of what the cells were at the start exactly when this makes no difference.
-/

namespace Copying

variable {Addr Cell : Type*}

/-- No target is written twice. -/
def Distinct (target : ℕ → Addr) (n : ℕ) : Prop :=
  ∀ j < n, ∀ k < n, target j = target k → j = k

theorem Distinct.mono {target : ℕ → Addr} {m n : ℕ} (distinct : Distinct target n)
    (le : m ≤ n) : Distinct target m :=
  fun j jlt k klt => distinct j (jlt.trans_le le) k (klt.trans_le le)

variable [DecidableEq Addr]

/-- The cells after `n` steps. Step `k` copies the cell at `source k` to `target k`. -/
def copies (target source : ℕ → Addr) (cells : Addr → Cell) : ℕ → Addr → Cell
  | 0 => cells
  | k + 1 =>
      Function.update (copies target source cells k) (target k)
        (copies target source cells k (source k))

variable {target source : ℕ → Addr} {cells : Addr → Cell} {n k : ℕ} {a : Addr}

/-- The first step comes before the others. -/
theorem copies_succ_left (target source : ℕ → Addr) (cells : Addr → Cell) (n : ℕ) :
    copies target source cells (n + 1) =
      copies (fun k => target (k + 1)) (fun k => source (k + 1))
        (Function.update cells (target 0) (cells (source 0))) n := by
  induction n with
  | zero => rfl
  | succ n ih =>
      rw [copies, ih]
      rfl

/-- A cell that is no target keeps what it holds. -/
theorem copies_of_not_target (outside : ∀ k < n, a ≠ target k) :
    copies target source cells n a = cells a := by
  induction n with
  | zero => rfl
  | succ n ih =>
      have last : a ≠ target n := outside n (Nat.lt_succ_self n)
      have before := ih fun k klt => outside k (Nat.lt_succ_of_lt klt)
      simp only [copies, Function.update_of_ne last, before]

variable (source cells)

/-- A target holds what its step has read. -/
theorem copies_target (distinct : Distinct target n) (inside : k < n) :
    copies target source cells n (target k) = copies target source cells k (source k) := by
  induction n with
  | zero => omega
  | succ n ih =>
      rcases Nat.lt_succ_iff_lt_or_eq.mp inside with before | rfl
      · have other : target k ≠ target n := by
          intro same
          have := distinct k inside n (Nat.lt_succ_self n) same
          omega
        simp only [copies, Function.update_of_ne other]
        exact ih (distinct.mono (Nat.le_succ n)) before
      · simp only [copies, Function.update_self]

/-- A step reads what was there at the start, or what an earlier step has left there. -/
theorem copies_source (distinct : Distinct target n) (inside : k < n) :
    copies target source cells n (target k) = cells (source k) ∧ (∀ j < k, source k ≠ target j) ∨
      ∃ j < k, source k = target j ∧
        copies target source cells n (target k) = copies target source cells n (target j) := by
  have read := copies_target source cells distinct inside
  by_cases written : ∃ j < k, source k = target j
  · obtain ⟨j, jlt, same⟩ := written
    refine .inr ⟨j, jlt, same, ?_⟩
    have earlier := copies_target source cells (distinct.mono inside.le) jlt
    rw [read, same, earlier, copies_target source cells distinct (jlt.trans inside)]
  · have untouched : ∀ j < k, source k ≠ target j :=
      fun j jlt same => written ⟨j, jlt, same⟩
    exact .inl ⟨read.trans (copies_of_not_target untouched), untouched⟩

/-- The copy is one of the cells at the start exactly when each step that reads what an earlier one
has written would have read the same there. -/
theorem copied_iff (distinct : Distinct target n) :
    (∀ k < n, copies target source cells n (target k) = cells (source k)) ↔
      ∀ k < n, ∀ j < k, source k = target j → cells (source k) = cells (source j) := by
  constructor
  · intro copied k inside j jlt same
    rcases copies_source source cells distinct inside with
      ⟨_, untouched⟩ | ⟨i, ilt, again, equal⟩
    · exact absurd same (untouched j jlt)
    · have ij : i = j :=
        distinct i (ilt.trans inside) j (jlt.trans inside) (again.symm.trans same)
      subst ij
      calc cells (source k)
          = copies target source cells n (target k) := (copied k inside).symm
        _ = copies target source cells n (target i) := equal
        _ = cells (source i) := copied i (ilt.trans inside)
  · intro agree k
    induction k using Nat.strong_induction_on with
    | _ k ih =>
        intro inside
        rcases copies_source source cells distinct inside with
          ⟨read, _⟩ | ⟨j, jlt, same, equal⟩
        · exact read
        · calc copies target source cells n (target k)
              = copies target source cells n (target j) := equal
            _ = cells (source j) := ih j jlt (jlt.trans inside)
            _ = cells (source k) := (agree k inside j jlt same).symm

end Copying
