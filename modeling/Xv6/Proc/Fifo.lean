import Xv6.Lib.Calls
import Xv6.Proc.MultiQueue

/-!
# The rings as queues

Every level of `multiqueue` is a first-in first-out queue of at most `NPROC` processes.
-/

namespace Xv6

namespace MultiQueue

/-- A call on the level `priority - 1`. -/
inductive Call where
  | enque (qindex : Fin numpr) (p : Slot)
  | deque (qindex : Fin numpr)

/-- `enque` has no result, and `deque` a process or 0. -/
def perform : Call → MultiQueue → Except Fault (Option Slot × MultiQueue)
  | .enque qindex p, queue => (queue.enque ((qindex : ℤ) + 1) p).map fun queue => (none, queue)
  | .deque qindex, queue => queue.deque ((qindex : ℤ) + 1)

/-- What each level is for: the processes that wait in it, the oldest first. -/
abbrev Levels := Fin numpr → List Slot

/-- What a call does to the levels. -/
def Fifo (levels : Levels) : Call → Option Slot → Levels → Prop
  | .enque qindex p, result, levels' =>
      result = none ∧ levels' = if (levels qindex).length = nproc then levels
        else Function.update levels qindex (levels qindex ++ [p])
  | .deque qindex, result, levels' =>
      result = (levels qindex).head? ∧ levels' = Function.update levels qindex (levels qindex).tail

/-- The rings hold the processes of the levels. -/
structure Represents (queue : MultiQueue) (levels : Levels) : Prop where
  wellFormed : queue.WellFormed
  rings : ∀ qindex, queue.ring qindex = (levels qindex).map some
  bound : ∀ qindex, (levels qindex).length ≤ nproc

variable {queue : MultiQueue} {levels : Levels}

theorem Represents.length (represents : Represents queue levels) (qindex : Fin numpr) :
    (queue.ring qindex).length = (levels qindex).length := by
  rw [represents.rings, List.length_map]

theorem represents_initial : Represents {} fun _ => [] := by
  refine ⟨wellFormed_initial, ?_, fun _ => Nat.zero_le _⟩
  intro qindex
  revert qindex
  decide

theorem Represents.enque (represents : Represents queue levels) (qindex : Fin numpr) (p : Slot) :
    ∃ queue' levels', perform (.enque qindex p) queue = .ok (none, queue') ∧
      Fifo levels (.enque qindex p) none levels' ∧ Represents queue' levels' := by
  have length := represents.length qindex
  by_cases full : (levels qindex).length = nproc
  · refine ⟨queue, levels, ?_, ⟨rfl, (if_pos full).symm⟩, represents⟩
    rw [perform, enque_full represents.wellFormed (length.trans full)]
    rfl
  · have bound := represents.bound qindex
    have room : (queue.ring qindex).length < nproc := by omega
    rcases enque_spec (p := p) represents.wellFormed room with ⟨queue', enqued, wellFormed, rings⟩
    refine ⟨queue', _, ?_, ⟨rfl, (if_neg full).symm⟩, wellFormed, ?_, ?_⟩
    · rw [perform, enqued]
      rfl
    · intro other
      rw [rings other]
      by_cases same : other = qindex
      · rw [if_pos same, same, Function.update_self, represents.rings, List.map_append, List.map_singleton]
      · rw [if_neg same, Function.update_of_ne same]
        exact represents.rings other
    · intro other
      rw [Function.update_apply]
      split
      · rw [List.length_append, List.length_singleton]
        omega
      · exact represents.bound other

theorem Represents.deque (represents : Represents queue levels) (qindex : Fin numpr) :
    ∃ result queue' levels', perform (.deque qindex) queue = .ok (result, queue') ∧
      Fifo levels (.deque qindex) result levels' ∧ Represents queue' levels' := by
  have ring := represents.rings qindex
  cases waiting : levels qindex with
  | nil =>
      rw [waiting] at ring
      refine ⟨none, queue, levels, deque_empty represents.wellFormed ring, ⟨?_, ?_⟩, represents⟩
      · rw [waiting]
        rfl
      · rw [waiting, List.tail_nil, ← waiting]
        exact (Function.update_eq_self qindex levels).symm
  | cons first rest =>
      rw [waiting, List.map_cons] at ring
      rcases deque_spec represents.wellFormed ring with ⟨queue', dequed, wellFormed, rings⟩
      refine ⟨some first, queue', _, dequed, ⟨?_, rfl⟩, wellFormed, ?_, ?_⟩
      · rw [waiting]
        rfl
      · intro other
        rw [rings other]
        by_cases same : other = qindex
        · rw [if_pos same, same, Function.update_self, waiting, List.tail_cons]
        · rw [if_neg same, Function.update_of_ne same]
          exact represents.rings other
      · intro other
        have bound := represents.bound qindex
        rw [Function.update_apply]
        split
        · rw [List.length_tail]
          omega
        · exact represents.bound other

theorem Represents.perform (represents : Represents queue levels) (call : Call) :
    ∃ result queue' levels', perform call queue = .ok (result, queue') ∧
      Fifo levels call result levels' ∧ Represents queue' levels' := by
  cases call with
  | enque qindex p =>
      rcases represents.enque qindex p with ⟨queue', levels', performed, allowed, represents'⟩
      exact ⟨none, queue', levels', performed, allowed, represents'⟩
  | deque qindex => exact represents.deque qindex

/-- Every sequence of calls has the results of the queues that the levels are, `isempty` says which
of them are empty, and the indices stay inside. -/
theorem multiqueue_fifo (calls : List Call) :
    ∃ results queue levels, Calls.run perform calls {} = .ok (results, queue) ∧
      Calls.Allowed Fifo (fun _ => []) calls results levels ∧ queue.WellFormed ∧
      ∀ qindex, queue.ring qindex = (levels qindex).map some ∧
        queue.isempty ((qindex : ℤ) + 1) = .ok (levels qindex).isEmpty := by
  rcases Calls.run_allowed Represents (fun call represents => represents.perform call) calls
    represents_initial with ⟨results, queue, levels, ran, allowed, represents⟩
  refine ⟨results, queue, levels, ran, allowed, represents.wellFormed, fun qindex => ?_⟩
  refine ⟨represents.rings qindex, ?_⟩
  rw [isempty_eq represents.wellFormed, represents.rings, List.isEmpty_map]

/-- A level that has been filled keeps its 64 processes. -/
example : (Calls.run perform ((List.replicate 65 (.enque 1 3)) ++ [.deque 1, .deque 0]) {}).toOption.map
    (fun last => (last.2.stop 1, last.2.start 1)) = some (64, 1) := by decide +kernel

end MultiQueue

end Xv6
