import Xv6.Lib.Transition

/-!
# Atomic locks

Owners that take and free locks in one step each. A lock can be taken if nobody holds it, and is freed
by whoever holds it.
-/

namespace Mutex

open Transition

variable {κ α : Type*} [DecidableEq κ] [DecidableEq α]

/-- What an owner does with a lock. -/
inductive Move (κ α : Type*) where
  | take (owner : κ) (lock : α)
  | give (owner : κ) (lock : α)

/-- The locks that each owner holds, before and after a move. -/
inductive Step : (κ → List α) → Move κ α → (κ → List α) → Prop
  | take {held : κ → List α} {owner : κ} {lock : α} (free : ∀ other, lock ∉ held other) :
      Step held (.take owner lock) (Function.update held owner (lock :: held owner))
  | give {held : κ → List α} {owner : κ} {lock : α} (holds : lock ∈ held owner) :
      Step held (.give owner lock) (Function.update held owner ((held owner).erase lock))

/-- Every lock is held at most once. -/
structure Exclusive (held : κ → List α) : Prop where
  nodup : ∀ owner, (held owner).Nodup
  single : ∀ lock owner other, lock ∈ held owner → lock ∈ held other → owner = other

/-- The runs from where nothing is held. -/
def Runs (held : κ → List α) : Prop :=
  Reachable Step (fun _ _ => True) (fun _ => []) held

variable {held held' : κ → List α} {move : Move κ α}

theorem Exclusive.step (exclusive : Exclusive held) (step : Step held move held') :
    Exclusive held' := by
  cases step with
  | @take owner lock free =>
      constructor
      · intro other
        by_cases same : other = owner
        · rw [same, Function.update_self]
          exact List.nodup_cons.2 ⟨free owner, exclusive.nodup owner⟩
        · rw [Function.update_of_ne same]
          exact exclusive.nodup other
      · intro lock' first second
        have before : ∀ other, lock' ∈ Function.update held owner (lock :: held owner) other →
            other = owner ∧ lock' = lock ∨ lock' ∈ held other := by
          intro other member
          by_cases same : other = owner
          · rw [same, Function.update_self, List.mem_cons] at member
            rw [same]
            exact member.imp_left fun new => ⟨rfl, new⟩
          · rw [Function.update_of_ne same] at member
            exact .inr member
        intro inFirst inSecond
        rcases before first inFirst with ⟨rfl, rfl⟩ | heldFirst
        · rcases before second inSecond with ⟨rfl, -⟩ | heldSecond
          · rfl
          · exact absurd heldSecond (free second)
        · rcases before second inSecond with ⟨rfl, rfl⟩ | heldSecond
          · exact absurd heldFirst (free first)
          · exact exclusive.single lock' first second heldFirst heldSecond
  | @give owner lock holds =>
      have before : ∀ other lock', lock' ∈ Function.update held owner ((held owner).erase lock) other →
          lock' ∈ held other := by
        intro other lock' member
        by_cases same : other = owner
        · rw [same, Function.update_self] at member
          rw [same]
          exact List.mem_of_mem_erase member
        · rw [Function.update_of_ne same] at member
          exact member
      constructor
      · intro other
        by_cases same : other = owner
        · rw [same, Function.update_self]
          exact (exclusive.nodup owner).erase lock
        · rw [Function.update_of_ne same]
          exact exclusive.nodup other
      · intro lock' first second inFirst inSecond
        exact exclusive.single lock' first second (before first lock' inFirst)
          (before second lock' inSecond)

/-- Mutual exclusion. -/
theorem Runs.exclusive (runs : Runs held) : Exclusive held := by
  refine Reachable.invariant runs Exclusive ⟨fun _ => List.nodup_nil, ?_⟩ ?_
  · intro lock owner other member
    cases member
  · intro held move held' _ exclusive _ step
    exact exclusive.step step

end Mutex
