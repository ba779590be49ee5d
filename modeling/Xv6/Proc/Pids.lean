import Xv6.Proc.Fate
import Xv6.Proc.Marks

/-!
# Process identifiers

`allocproc` gives out the values of `nextpid`, which is only ever incremented, also by calls of
`fork` that fail later. The pids name the processes until the counter leaves the positive numbers.
-/

namespace Xv6

open Relation

variable {ncpu : ℕ}

/-- A pid belongs to one process at most, and a search of the table for it finds that process. -/
structure PidsIdentify (s : State ncpu) : Prop where
  positive : ∀ p, (s.proc p).state ≠ .unused → 0 < (s.proc p).pid
  distinct : ∀ p q, (s.proc p).state ≠ .unused → (s.proc q).state ≠ .unused →
    (s.proc p).pid = (s.proc q).pid → p = q
  found : ∀ p, (s.proc p).state ≠ .unused → findPid (s.proc p).pid s = some p
  /-- `fork` returns a number that is neither 0 nor -1 to the parent -/
  returned : ∀ p np, (s.proc p).frame = .ready np → 0 < (s.proc np).pid

/-- The pids in the table are different values that the counter has had, or 0 in slots that no
process is in. -/
structure Issued (s : State ncpu) : Prop where
  range : ∀ p, 0 ≤ (s.proc p).pid ∧ (s.proc p).pid ≤ s.allocations
  live : ∀ p, (s.proc p).state ≠ .unused → (s.proc p).pid ≠ 0
  distinct : ∀ p q, (s.proc p).pid = (s.proc q).pid → (s.proc p).pid ≠ 0 → p = q

/-- The counter has passed one value for each slot taken. -/
structure PidInv (s : State ncpu) : Prop where
  nextpid : s.nextpid = wrapInt (s.allocations + 1)
  issued : s.allocations < 2 ^ 31 → Issued s

variable {b : Build} {s t u : State ncpu} {admitted : State ncpu → Event ncpu → Prop}
  {chans : Chan → Prop} {c : Fin ncpu} {p q : Slot} {e : Event ncpu}

theorem wrapInt_next (count : ℕ) : wrapInt (wrapInt (count + 1) + 1) = wrapInt ((count + 1 : ℕ) + 1) := by
  unfold wrapInt
  rw [Int.bmod_add_bmod]
  push_cast
  rfl

theorem wrapInt_small {count : ℕ} (small : count + 1 < 2 ^ 31) :
    wrapInt (count + 1) = count + 1 := by
  unfold wrapInt
  apply Int.bmod_eq_of_le <;> omega

theorem PidInv.initial : PidInv ({} : State ncpu) where
  nextpid := (wrapInt_small (by omega : 0 + 1 < 2 ^ 31)).symm
  issued _ := ⟨fun _ => ⟨le_rfl, Int.natCast_nonneg _⟩, fun _ live => absurd rfl live,
    fun _ _ _ used => absurd rfl used⟩

theorem Issued.found (issued : Issued s) (live : (s.proc p).state ≠ .unused) :
    findPid (s.proc p).pid s = some p := by
  cases found : findPid (s.proc p).pid s with
  | none =>
      have other : (s.proc p).pid ≠ (s.proc p).pid := by simpa using find_table_none found p
      exact absurd rfl other
  | some q =>
      have same : (s.proc q).pid = (s.proc p).pid := of_decide_eq_true (find_table_some found)
      rw [issued.distinct p q same.symm (issued.live p live)]

theorem Issued.identify (issued : Issued s) (consistent : Consistent s) : PidsIdentify s := by
  have positive : ∀ p, (s.proc p).state ≠ .unused → 0 < (s.proc p).pid := by
    intro p live
    have nonneg := (issued.range p).1
    have nonzero := issued.live p live
    omega
  refine ⟨positive, ?_, fun p live => issued.found live, ?_⟩
  · intro p q live _ same
    exact issued.distinct p q same (issued.live p live)
  · intro p np frame
    apply positive np
    rw [consistent.forks.embryo p np (by rw [frame]; rfl)]
    simp

/-! ## One action -/

/-- A slot that is in use was in use before, or `allocproc` has taken it. -/
theorem Action.used (consistent : Consistent s) (action : Action b admitted chans s t)
    (live : (t.proc p).state ≠ .unused) :
    (s.proc p).state ≠ .unused ∨ t.hist = .state p .embryo :: s.hist := by
  cases action.fate consistent p with
  | same state _ _ => exact .inl (state ▸ live)
  | taken _ _ _ _ hist => exact .inr hist
  | givenUp _ _ _ unused _ => exact absurd unused live
  | advanced before _ _ => exact .inl before.1
  | woken asleep _ _ _ => exact .inl (by simp [asleep])
  | strayed asleep _ _ _ => exact .inl (by simp [asleep])
  | reaped _ unused _ => exact absurd unused live
  | killed _ _ record =>
      rcases record with record | ⟨asleep, -, -⟩
      · rw [record] at live
        exact .inl live
      · exact .inl (by simp [asleep])
  | faulted running _ => exact .inl (by simp [running])

theorem allocations_taken (hist : t.hist = .state p .embryo :: s.hist) :
    t.allocations = s.allocations + 1 := by
  rw [State.allocations, hist, List.countP_cons_of_pos rfl]
  rfl

/-- An action that gives out no pid. -/
theorem PidInv.kept (inv : PidInv s) (nextpid : t.nextpid = s.nextpid)
    (allocations : t.allocations = s.allocations)
    (used : ∀ p, (t.proc p).state ≠ .unused → (s.proc p).state ≠ .unused)
    (pid : ∀ p, (t.proc p).pid = (s.proc p).pid ∨
      (t.proc p).pid = 0 ∧ (t.proc p).state = .unused) : PidInv t where
  nextpid := by rw [nextpid, allocations, inv.nextpid]
  issued few := by
    have issued := inv.issued (allocations ▸ few)
    refine ⟨fun p => ?_, fun p live => ?_, fun p q same nonzero => ?_⟩
    · have range := issued.range p
      rcases pid p with kept | ⟨zero, -⟩
      · rw [kept, allocations]
        exact range
      · rw [zero]
        omega
    · rcases pid p with kept | ⟨-, unused⟩
      · rw [kept]
        exact issued.live p (used p live)
      · exact absurd unused live
    · rcases pid p with kept | ⟨zero, -⟩
      · rcases pid q with kept' | ⟨zero, -⟩
        · rw [kept] at nonzero
          exact issued.distinct p q (by rw [← kept, ← kept', same]) nonzero
        · exact absurd (same.trans zero) nonzero
      · exact absurd zero nonzero

/-- `allocproc` gives out the next pid. -/
theorem PidInv.taken (inv : PidInv s)
    (used : ∀ q, (t.proc q).state ≠ .unused → (s.proc q).state ≠ .unused ∨ q = p)
    (same : SameMarks (allotted p s) t) (allocations : t.allocations = s.allocations + 1) :
    PidInv t where
  nextpid := by
    rw [same.nextpid, allocations]
    simp only [allotted]
    rw [inv.nextpid, wrapInt_next]
  issued few := by
    have issued := inv.issued (by omega)
    have new : s.nextpid = s.allocations + 1 := by
      rw [inv.nextpid, wrapInt_small (by omega)]
    have pid : ∀ q, (t.proc q).pid = if q = p then (s.allocations : ℤ) + 1 else (s.proc q).pid := by
      intro q
      rw [same.pid, allotted, State.log_proc, State.edit_proc, new]
      split <;> rfl
    refine ⟨fun q => ?_, fun q live => ?_, fun q r same nonzero => ?_⟩
    · have range := issued.range q
      rw [pid, allocations]
      split <;> push_cast <;> omega
    · rw [pid]
      split
      · omega
      · rename_i other
        exact issued.live q ((used q live).resolve_right other)
    · rw [pid, pid] at same
      rw [pid] at nonzero
      have first := issued.range q
      have second := issued.range r
      by_cases isNew : q = p <;> by_cases isNew' : r = p <;>
        simp only [isNew, isNew', if_true, if_false] at same nonzero ⊢
      · omega
      · omega
      · exact issued.distinct q r same nonzero

theorem PidInv.action (inv : PidInv s) (consistent : Consistent s)
    (action : Action b admitted chans s t) : PidInv t := by
  have used := fun p => action.used (p := p) consistent
  -- no slot is taken in an action that leaves the number of allocations as it was
  have still : t.allocations = s.allocations → ∀ p, (t.proc p).state ≠ .unused →
      (s.proc p).state ≠ .unused := by
    intro same p live
    rcases used p live with before | hist
    · exact before
    · have more := allocations_taken hist
      omega
  cases action.marks with
  | same same =>
      exact inv.kept same.nextpid same.allocations (still same.allocations) fun p => .inl (same.pid p)
  | taken _ _ _ hist same =>
      rename_i e p
      refine inv.taken (fun q live => ?_) same (allocations_taken hist)
      rcases used q live with before | hist'
      · exact .inl before
      · rw [hist] at hist'
        simp only [List.cons.injEq, Entry.state.injEq] at hist'
        exact .inr hist'.1.1.symm
  | cleared unused same =>
      rename_i p
      refine inv.kept same.nextpid same.allocations (still same.allocations) fun q => ?_
      rw [same.pid, cleared, State.edit_proc]
      split
      · rename_i isCleared
        exact .inr ⟨rfl, isCleared ▸ unused⟩
      · exact .inl rfl
  | killed _ _ same =>
      refine inv.kept same.nextpid same.allocations (still same.allocations) fun q => .inl ?_
      rw [same.pid, markKilled, State.edit_proc]
      split <;> simp_all
  | faulted _ _ same =>
      refine inv.kept same.nextpid same.allocations (still same.allocations) fun q => .inl ?_
      rw [same.pid, markKilled, State.edit_proc]
      split <;> simp_all

theorem pidInv_of_reach (reach : AnyReach b s) : PidInv s :=
  invariant_of_reach reach PidInv .initial fun consistent inv action => inv.action consistent action

/-! ## Runs -/

/-- An event takes one slot at most, and the process in it gets the next pid. -/
theorem allocations_step (consistent : Consistent s) (step : Steps b s e t) :
    t.allocations = s.allocations ∨ t.allocations = s.allocations + 1 ∧
      ∃ p, (t.proc p).state ≠ .unused ∧ (t.proc p).pid = s.nextpid := by
  by_cases allocates : e.Allocates
  · cases e with
    | userinitAlloc kstack pgdir =>
        rcases Option.ite_none_right_eq_some.mp step with ⟨-, run⟩
        rcases userinitAlloc_ok (Option.some.inj run) with ⟨p, -, rfl⟩
        exact .inr ⟨allocations_taken rfl, p, by simp, by simp⟩
    | fork c =>
        rcases syscall_some step with ⟨p, -, -, run⟩
        rcases Except.ok.inj run with rfl
        unfold fork
        split
        · exact .inl rfl
        · rename_i np u alloc
          rcases allocproc_some alloc with ⟨-, rfl⟩
          refine .inr ⟨allocations_taken rfl, np, ?_, ?_⟩ <;>
            simp only [State.edit_proc, Function.update_apply] <;> split <;> simp_all
    | _ => exact absurd allocates id
  · left
    have follows : Fallible.Follows (Action b (fun _ e' => e' = e) (wakes s e)) _ id s (.ok t) :=
      step_follows consistent rfl step
    refine (Fallible.kept_of_path (fun u => Consistent u ∧ u.allocations = s.allocations)
      ?_ follows ⟨consistent, rfl⟩).2
    rintro u v action ⟨consistent, same⟩
    refine ⟨consistent.action action, ?_⟩
    cases action.marks with
    | same kept => exact kept.allocations.trans same
    | taken allowed allocates' _ _ _ => exact absurd (allowed ▸ allocates') allocates
    | cleared _ kept => exact kept.allocations.trans same
    | killed _ _ kept => exact kept.allocations.trans same
    | faulted _ _ kept => exact kept.allocations.trans same

/-- The state after a list of events, whatever they are. -/
abbrev runEvents (b : Build) (events : List (Event ncpu)) : Option (State ncpu) :=
  run b (fun _ _ => true) events {}

theorem runEvents_reach {events : List (Event ncpu)} (done : runEvents b events = some s) : AnyReach b s :=
  run_reach (fun _ _ _ => trivial) .refl done

theorem run_append {events : List (Event ncpu)} (s : State ncpu) :
    run b (fun _ _ => true) (events ++ [e]) s = some t ↔
      ∃ u, run b (fun _ _ => true) events s = some u ∧ Steps b u e t := by
  induction events generalizing s with
  | nil =>
      simp only [List.nil_append, run, if_true, Steps]
      cases taken : step b s e with
      | none => simp [taken]
      | some result => cases result <;> simp [taken]
  | cons first events ih =>
      simp only [List.cons_append, run, if_true]
      cases taken : step b s first with
      | none => simp
      | some result =>
          cases result with
          | error f => simp
          | ok u => exact ih u

theorem reach_runEvents (reach : AnyReach b s) : ∃ events, runEvents b events = some s := by
  induction reach with
  | refl => exact ⟨[], rfl⟩
  | tail _ taken ih =>
      rcases ih with ⟨events, done⟩
      rcases taken with ⟨e, -, taken⟩
      exact ⟨events ++ [e], (run_append _).mpr ⟨_, done, taken⟩⟩

/-- Nothing takes an allocation back. -/
theorem allocations_mono {earlier events : List (Event ncpu)} (isPrefix : earlier <+: events)
    (first : runEvents b earlier = some t) (done : runEvents b events = some s) :
    t.allocations ≤ s.allocations := by
  rcases isPrefix with ⟨later, rfl⟩
  induction later using List.reverseRecOn generalizing s with
  | nil =>
      rw [List.append_nil] at done
      rw [Option.some.inj (first.symm.trans done)]
  | append_singleton later e ih =>
      rw [← List.append_assoc] at done
      rcases (run_append _).mp done with ⟨u, before, taken⟩
      have := ih before
      rcases allocations_step (consistent_of_reach (runEvents_reach before)) taken with same | ⟨more, -⟩ <;> omega

/-- When the counter has left the positive numbers, the next process gets a negative pid. -/
theorem runEvents_overflow {events : List (Event ncpu)} (done : runEvents b events = some s)
    (many : 2 ^ 31 ≤ s.allocations) :
    ∃ earlier t, earlier <+: events ∧ runEvents b earlier = some t ∧ ¬PidsIdentify t := by
  induction events using List.reverseRecOn generalizing s with
  | nil =>
      rw [← Option.some.inj done] at many
      simp [State.allocations] at many
  | append_singleton events e ih =>
      rcases (run_append _).mp done with ⟨u, before, taken⟩
      by_cases already : 2 ^ 31 ≤ u.allocations
      · rcases ih before already with ⟨earlier, t, isPrefix, run, wrong⟩
        exact ⟨earlier, t, isPrefix.trans (List.prefix_append _ _), run, wrong⟩
      · refine ⟨events ++ [e], s, List.prefix_rfl, done, fun right => ?_⟩
        have reach := runEvents_reach before
        rcases allocations_step (consistent_of_reach reach) taken with same | ⟨more, p, live, pid⟩
        · omega
        · have positive := right.positive p live
          have last : u.allocations = 2147483647 := by omega
          rw [pid, (pidInv_of_reach reach).nextpid, last] at positive
          exact absurd positive (by decide)

/-- In every run, the pids identify the processes in all states if and only if fewer than 2^31 slots
have been taken by its end. -/
theorem pids_identify {events : List (Event ncpu)} (done : runEvents b events = some s) :
    (∀ earlier t, earlier <+: events → runEvents b earlier = some t → PidsIdentify t) ↔
      s.allocations < 2 ^ 31 := by
  constructor
  · intro right
    by_contra many
    rcases runEvents_overflow done (not_lt.mp many) with ⟨earlier, t, isPrefix, run, wrong⟩
    exact wrong (right earlier t isPrefix run)
  · intro few earlier t isPrefix run
    have reach := runEvents_reach run
    have before := allocations_mono isPrefix run done
    exact ((pidInv_of_reach reach).issued (by omega)).identify (consistent_of_reach reach)

theorem runEvents_after {events : List (Event ncpu)} (done : (runEvents b events).isSome = true) :
    runEvents b events = some (after b events) := by
  rcases Option.isSome_iff_exists.mp done with ⟨t, ends⟩
  have isAfter : after b events = t := by
    unfold runEvents at ends
    rw [after, ends]
    rfl
  rw [ends, isAfter]

/-- Init and its first child have pids 1 and 2. -/
theorem pids_identify_firstChild :
    (∀ earlier t, earlier <+: boot 1 ++ forks 1 → runEvents .default earlier = some t →
      PidsIdentify t) ↔ (after .default (boot 1 ++ forks 1)).allocations < 2 ^ 31 :=
  pids_identify (runEvents_after (by decide +kernel))

/-- A call of `fork` finds a free slot but no memory. -/
theorem failing_fork (reach : AnyReach b s) (current : s.cpu c = some p)
    (user : (s.proc p).frame = .user) (free : ∃ q, (s.proc q).state = .unused) :
    ∃ t, AnyReach b t ∧ t.allocations = s.allocations + 1 ∧ t.cpu c = some p ∧
      (t.proc p).frame = .user ∧ ∃ q, (t.proc q).state = .unused := by
  have running := (consistent_of_reach reach).cpus.running c p current
  cases alloc : allocproc s with
  | none =>
      rcases free with ⟨q, unused⟩
      unfold allocproc at alloc
      split at alloc
      · rename_i found
        have used := find_table_none found q
        simp [unused] at used
      · cases alloc
  | some result =>
      rcases result with ⟨np, u⟩
      rcases allocproc_some alloc with ⟨unused, taken⟩
      have different : p ≠ np := by
        rintro rfl
        rw [running] at unused
        cases unused
      have called : Steps b s (.fork c) (u.edit p fun q => { q with frame := .kstack np }) := by
        simp only [Steps, step, syscall, current, user, if_true, fork, alloc]
      have current' : (u.edit p fun q => { q with frame := .kstack np }).cpu c = some p := by
        rw [taken]
        exact current
      have failed : Steps b (u.edit p fun q => { q with frame := .kstack np }) (.forkKstack c none)
          (forkKstack p np none (u.edit p fun q => { q with frame := .kstack np })) := by
        simp only [Steps, step, current', State.edit_proc_self]
      refine ⟨_, (reach.next trivial called).next trivial failed, ?_, current', ?_, np, ?_⟩
      · refine (allocations_taken (p := np) (s := s) (t := u) (by rw [taken])).symm ▸ ?_
        rfl
      · simp [forkKstack]
      · simp [forkKstack, allocprocKstack, State.edit_proc, different.symm]

/-- Init calls `fork` in vain again and again. -/
theorem many_allocations (count : ℕ) : ∃ s : State 1, AnyReach .default s ∧
    s.allocations = count + 1 ∧ s.cpu 0 = some 0 ∧ (s.proc 0).frame = .user ∧
    ∃ q, (s.proc q).state = .unused := by
  induction count with
  | zero =>
      have ends : (after .default (boot 1)).allocations = 1 ∧
          (after .default (boot 1)).cpu 0 = some 0 ∧
          ((after .default (boot 1)).proc 0).frame = .user ∧
          ((after .default (boot 1)).proc 1).state = .unused := by decide +kernel
      exact ⟨_, after_reach (by decide +kernel), ends.1, ends.2.1, ends.2.2.1, 1, ends.2.2.2⟩
  | succ count ih =>
      rcases ih with ⟨s, reach, allocations, current, user, free⟩
      rcases failing_fork reach current user free with ⟨t, reach', more, current', user', free'⟩
      exact ⟨t, reach', by omega, current', user', free'⟩

/-- After 2^31 - 2 calls of `fork` that fail, the next process gets a negative pid. -/
theorem pids_identify_incorrect : ¬∀ s : State 1, AnyReach .default s → PidsIdentify s := by
  intro claimed
  rcases many_allocations (2 ^ 31 - 1) with ⟨s, reach, allocations, -⟩
  rcases reach_runEvents reach with ⟨events, done⟩
  rcases runEvents_overflow done (by omega) with ⟨earlier, t, -, run, wrong⟩
  exact wrong (claimed t (runEvents_reach run))

end Xv6
