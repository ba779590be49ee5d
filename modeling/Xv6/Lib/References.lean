import Mathlib

/-!
# Reference counts

A table whose places may hold a reference, and the number of references to an object. Writing one
place moves one reference.
-/

namespace References

variable {κ α : Type*} [Fintype κ] [DecidableEq α]

/-- The number of places that refer to an object. -/
def count (table : κ → Option α) (a : α) : ℕ :=
  (Finset.univ.filter fun k => table k = some a).card

variable {table : κ → Option α} {a : α} {k : κ}

theorem count_eq_zero : count table a = 0 ↔ ∀ k, table k ≠ some a := by
  unfold count
  rw [Finset.card_eq_zero, Finset.filter_eq_empty_iff]
  exact ⟨fun none k => none (Finset.mem_univ k), fun none k _ => none k⟩

theorem count_pos (holds : table k = some a) : 0 < count table a := by
  refine Nat.pos_of_ne_zero fun zero => ?_
  exact count_eq_zero.1 zero k holds

variable [DecidableEq κ]

/-- A write to one place changes the number of places with a property by that place. -/
theorem card_update {β : Type*} (table : κ → β) (P : β → Prop) [DecidablePred P] (k : κ) (value : β) :
    (Finset.univ.filter fun k' => P (Function.update table k value k')).card +
        (if P (table k) then 1 else 0) =
      (Finset.univ.filter fun k' => P (table k')).card + if P value then 1 else 0 := by
  have others : ∑ k' ∈ Finset.univ.erase k, (if P (Function.update table k value k') then 1 else 0) =
      ∑ k' ∈ Finset.univ.erase k, if P (table k') then 1 else 0 := by
    apply Finset.sum_congr rfl
    intro k' isOther
    rw [Function.update_of_ne (Finset.ne_of_mem_erase isOther)]
  rw [Finset.card_filter, Finset.card_filter, ← Finset.add_sum_erase _ _ (Finset.mem_univ k),
    ← Finset.add_sum_erase _ (fun k' => if P (table k') then 1 else 0) (Finset.mem_univ k),
    Function.update_self, others]
  omega

/-- A write to one place. -/
theorem count_update (table : κ → Option α) (a : α) (k : κ) (value : Option α) :
    count (Function.update table k value) a + (if table k = some a then 1 else 0) =
      count table a + (if value = some a then 1 else 0) :=
  card_update table (· = some a) k value

/-- An empty place gets a reference. -/
theorem count_add (table : κ → Option α) (a b : α) {k : κ} (empty : table k = none) :
    count (Function.update table k (some b)) a = count table a + (if b = a then 1 else 0) := by
  have moved := count_update table a k (some b)
  simpa [empty] using moved

/-- A place gives up its reference. -/
theorem count_remove (table : κ → Option α) (a b : α) {k : κ} (holds : table k = some b) :
    count (Function.update table k none) a + (if b = a then 1 else 0) = count table a := by
  have moved := count_update table a k none
  simpa [holds] using moved

end References
