import Xv6.Proc.Touch

/-!
# The invariant of all runs

What holds in every state that the kernel can reach, and that no event fails there but the exit of
init. In the MLQ build this is about the runs in which the calls of `chpr` are orderly.
-/

namespace Xv6

open Relation Fallible Transition

variable {ncpu : ℕ}

/-- The calls of `chpr` are those that the rings survive. -/
def Tame (b : Build) (s : State ncpu) : Event ncpu → Prop
  | .chpr _ pid priority => b = .mlq → Orderly pid priority s
  | _ => True

structure Good (b : Build) (s : State ncpu) : Prop where
  consistent : Consistent s
  levels : LevelInv b s
  ready : ReadyInv b s
  undropped : b ≠ .default → ∀ p, Entry.dropped p ∉ s.hist

variable {b : Build} {s t u : State ncpu} {chans : Chan → Prop} {p : Slot}
  {guard : State ncpu → Event ncpu → Prop}

theorem Good.initial : Good b ({} : State ncpu) where
  consistent := Consistent.initial
  levels _ := PriorityInv.initial
  ready := by
    cases b with
    | default => trivial
    | fcfs => exact HeapInv.initial
    | mlq => exact RingInv.initial
    | dmlq => exact RingInv.initial
  undropped _ _ := List.not_mem_nil

/-! ## The ready queue -/

theorem ReadyInv.quiet (inv : ReadyInv b s) (quiet : Quiet s t) : ReadyInv b t := by
  cases b with
  | default => trivial
  | fcfs => exact HeapInv.quiet inv quiet
  | mlq => exact RingInv.quiet inv quiet
  | dmlq => exact RingInv.quiet inv quiet

/-- A process that becomes `RUNNABLE` gets its place in the ready queue. -/
theorem ReadyInv.enter (inv : ReadyInv b s) (enters : Enters b p s u) :
    ∃ t, addReady b p u = .ok t ∧ ReadyInv b t ∧ t.hist = u.hist := by
  cases b with
  | default => exact ⟨u, rfl, trivial, rfl⟩
  | fcfs =>
      obtain ⟨pqueue, run, inv'⟩ := HeapInv.addReady inv enters
      exact ⟨_, run, inv', rfl⟩
  | mlq =>
      obtain ⟨multiqueue, _, _, run, _, inv'⟩ := RingInv.addReady inv (.inl rfl) enters
      exact ⟨_, run, inv', rfl⟩
  | dmlq =>
      obtain ⟨multiqueue, _, _, run, _, inv'⟩ := RingInv.addReady inv (.inr rfl) enters
      exact ⟨_, run, inv', rfl⟩

/-- The scheduler's choice is a `RUNNABLE` process, if there is one. -/
theorem ReadyInv.pick (inv : ReadyInv b s) (queued : b ≠ .default) :
    (∀ p, (s.proc p).state ≠ .runnable) ∧ pickNext b s = .ok (none, s) ∨
    ∃ p u, pickNext b s = .ok (some p, u) ∧ (s.proc p).state = .runnable ∧ u.hist = s.hist ∧
      ∀ t, Leaves p u t → ReadyInv b t := by
  by_cases idle : ∀ p, (s.proc p).state ≠ .runnable
  · refine .inl ⟨idle, ?_⟩
    cases b with
    | default => exact absurd rfl queued
    | fcfs => exact HeapInv.pickNone inv idle
    | mlq => exact RingInv.pickNone inv (.inl rfl) idle
    | dmlq => exact RingInv.pickNone inv (.inr rfl) idle
  · push Not at idle
    obtain ⟨r, runnable⟩ := idle
    right
    cases b with
    | default => exact absurd rfl queued
    | fcfs =>
        obtain ⟨p, pqueue, run, runnable, -, after⟩ := HeapInv.pick inv runnable
        exact ⟨p, _, run, runnable, rfl, after⟩
    | mlq =>
        obtain ⟨p, _, _, multiqueue, run, runnable, -, -, -, -, after⟩ :=
          RingInv.pick inv (.inl rfl) runnable
        exact ⟨p, _, run, runnable, rfl, after⟩
    | dmlq =>
        obtain ⟨p, _, _, multiqueue, run, runnable, -, -, -, -, after⟩ :=
          RingInv.pick inv (.inr rfl) runnable
        exact ⟨p, _, run, runnable, rfl, after⟩

theorem ReadyInv.touch (inv : ReadyInv b s) (queued : b ≠ .default)
    (undropped : ∀ p, Entry.dropped p ∉ s.hist) (touch : Touch b (Tame b) s t) :
    ReadyInv b t ∧ ∀ p, Entry.dropped p ∉ t.hist := by
  cases touch with
  | quiet quiet =>
      refine ⟨inv.quiet quiet, fun p => ?_⟩
      obtain ⟨entries, hist, calm⟩ := quiet.hist
      rw [hist, List.mem_append]
      rintro (new | old)
      · exact (calm _ new p).2 rfl
      · exact undropped p old
  | enter enters run =>
      obtain ⟨t', run', inv', hist⟩ := inv.enter enters
      obtain rfl := Except.ok.inj (run.symm.trans run')
      refine ⟨inv', fun p => ?_⟩
      rw [hist, enters.hist]
      simp [undropped p]
  | pickNone run =>
      rcases inv.pick queued with ⟨-, run'⟩ | ⟨p, u, run', -⟩
      · obtain ⟨-, rfl⟩ := Prod.mk.inj (Except.ok.inj (run.symm.trans run'))
        exact ⟨inv, undropped⟩
      · obtain ⟨impossible, -⟩ := Prod.mk.inj (Except.ok.inj (run.symm.trans run'))
        cases impossible
  | leave run leaves =>
      rcases inv.pick queued with ⟨-, run'⟩ | ⟨p, u, run', -, same, after⟩
      · obtain ⟨impossible, -⟩ := Prod.mk.inj (Except.ok.inj (run.symm.trans run'))
        cases impossible
      · obtain ⟨samePick, rfl⟩ := Prod.mk.inj (Except.ok.inj (run.symm.trans run'))
        obtain rfl := Option.some.inj samePick
        refine ⟨after t leaves, fun p => ?_⟩
        obtain ⟨entries, hist, calm⟩ := leaves.hist
        rw [hist, same, List.mem_append]
        rintro (new | old)
        · exact (calm _ new p).2 rfl
        · exact undropped p old
  | chpr mlq allowed run =>
      subst mlq
      obtain ⟨t', run', inv', hist⟩ := RingInv.chpr inv (allowed rfl)
      obtain rfl := Except.ok.inj (run.symm.trans run')
      exact ⟨inv', hist ▸ undropped⟩

theorem tame_setsLevels : SetsLevels b (@Tame ncpu b) :=
  fun _ _ _ _ mlq allowed => (allowed mlq).1

/-- Every action keeps the invariant. -/
theorem Good.action (good : Good b s) (action : Action b (Tame b) chans s t) : Good b t := by
  have consistent := good.consistent.action action
  have levels : LevelInv b t := fun multilevel =>
    (good.levels multilevel).action good.consistent multilevel tame_setsLevels action
  by_cases queued : b = .default
  · refine ⟨consistent, levels, ?_, fun isQueued => absurd queued isQueued⟩
    subst queued
    trivial
  · have touched := touch_action good.consistent good.levels queued action
    have kept : ReadyInv b t ∧ ∀ p, Entry.dropped p ∉ t.hist :=
      kept_of_path (fun s => ReadyInv b s ∧ ∀ p, Entry.dropped p ∉ s.hist)
        (fun touch inv => inv.1.touch queued inv.2 touch) touched
        ⟨good.ready, good.undropped queued⟩
    exact ⟨consistent, levels, kept.1, fun _ => kept.2⟩

theorem Good.path (good : Good b s) (path : ReflTransGen (Action b (Tame b) chans) s t) :
    Good b t :=
  kept_of_path (Good b) (fun action good => good.action action) path good

/-! ## No event fails -/

theorem wake_ok (levels : LevelInv b s) (ready : ReadyInv b s)
    (asleep : (s.proc p).state = .sleeping) :
    ∃ t, wake b p s = .ok t ∧ LevelInv b t ∧ ReadyInv b t := by
  obtain ⟨t, run, inv, -⟩ := ready.enter (Enters.wake levels asleep)
  exact ⟨t, run, fun multilevel => (levels multilevel).wake asleep run, inv⟩

theorem wakeup1_ok (levels : LevelInv b s) (ready : ReadyInv b s) (chan : Chan) :
    ∃ t, wakeup1 b chan s = .ok t := by
  unfold wakeup1
  generalize table = slots
  induction slots generalizing s with
  | nil => exact ⟨s, rfl⟩
  | cons p slots ih =>
      rw [List.foldlM_cons]
      split
      · rename_i asleep
        obtain ⟨u, run, levels', ready'⟩ := wake_ok levels ready asleep.1
        rw [run]
        exact ih levels' ready'
      · exact ih levels ready

theorem kill_ok_of_good (good : Good b s) (pid : ℤ) : ∃ result t, kill b pid s = .ok (result, t) := by
  unfold kill
  split
  · exact ⟨_, _, rfl⟩
  · rename_i p found
    have levels : LevelInv b (markKilled p s) := fun multilevel =>
      (good.levels multilevel).markKilled
    have ready : ReadyInv b (markKilled p s) :=
      good.ready.quiet (quiet_edit .rfl fun _ => ⟨rfl, rfl⟩)
    dsimp only
    rw [show (s.edit p fun q => { q with killed := true }) = markKilled p s from rfl]
    split
    · rename_i asleep
      obtain ⟨t, run, -⟩ := wake_ok levels ready asleep
      exact ⟨0, t, by rw [run]; rfl⟩
    · exact ⟨_, _, rfl⟩

theorem chpr_ok_of_good (good : Good b s) {c : Fin ncpu} {pid priority : ℤ}
    (allowed : Tame b s (.chpr c pid priority)) : ∃ t, chpr b pid priority s = .ok t := by
  by_cases mlq : b = .mlq
  · subst mlq
    obtain ⟨t, run, -⟩ := RingInv.chpr good.ready (allowed rfl)
    exact ⟨t, run⟩
  · exact ⟨s, if_pos mlq⟩

/-- The process that the scheduler picks is `RUNNABLE`. -/
theorem Good.picks (good : Good b s) (picks : Picks b p s u) : (s.proc p).state = .runnable := by
  rcases picks with run | ⟨-, -, runnable⟩
  · by_cases queued : b = .default
    · subst queued
      cases run
    · rcases good.ready.pick queued with ⟨-, run'⟩ | ⟨q, v, run', runnable, -⟩
      · obtain ⟨impossible, -⟩ := Prod.mk.inj (Except.ok.inj (run.symm.trans run'))
        cases impossible
      · obtain ⟨same, -⟩ := Prod.mk.inj (Except.ok.inj (run.symm.trans run'))
        exact Option.some.inj same ▸ runnable
  · exact runnable

/-- A process that becomes `RUNNABLE` where the code makes it so gets its place in the queue. -/
theorem setRunnable_ok (ready : ReadyInv b s) (before : (s.proc p).state ≠ .runnable)
    (level : b.Multilevel → InRange (s.proc p).priority) :
    ∃ t, addReady b p (s.setState p .runnable) = .ok t := by
  obtain ⟨t, run, -⟩ := ready.enter (Enters.setRunnable before level)
  exact ⟨t, run⟩

/-- Nothing goes wrong but the exit of init. -/
theorem Good.stuck (good : Good b s) {f : Fault} (stuck : Stuck b (Tame b) s f) :
    f = .panic "init exiting" := by
  have forks := good.consistent.forks
  cases stuck with
  | initExiting => rfl
  | userinitAlloc boot run =>
      exfalso
      have unused := forks.start boot 0
      unfold userinitAlloc allocproc at run
      split at run
      · rename_i none
        split at none
        · rename_i found
          simpa [unused] using find_table_none found 0
        · cases none
      · cases run
  | userinitReady boot run =>
      rename_i p
      have embryo := forks.boot p boot p
      obtain ⟨t, run'⟩ := setRunnable_ok good.ready (by simp [embryo])
        (fun multilevel => (good.levels multilevel).boot p boot)
      rw [userinitReady, run'] at run
      cases run
  | forkReady current frame run =>
      rename_i c p np
      have embryo := forks.embryo p np (by rw [frame]; rfl)
      obtain ⟨t, run'⟩ := setRunnable_ok good.ready (by simp [embryo])
        (fun multilevel => (good.levels multilevel).ready p np frame)
      rw [forkReady, run'] at run
      cases run
  | kill run =>
      obtain ⟨_, _, run'⟩ := kill_ok_of_good good _
      cases run.symm.trans run'
  | chpr allowed run =>
      obtain ⟨_, run'⟩ := chpr_ok_of_good good allowed
      cases run.symm.trans run'
  | wake asleep run =>
      obtain ⟨_, run', -⟩ := wake_ok good.levels good.ready asleep
      cases run.symm.trans run'
  | reparent current user run =>
      unfold reparent at run
      split at run
      · dsimp only at run
        split at run
        · obtain ⟨_, run'⟩ := wakeup1_ok (fun multilevel => (good.levels multilevel).setParent)
            (good.ready.quiet quiet_setParent) (.ofProc s.initproc)
          cases run.symm.trans run'
        · cases run
      · cases run
  | yield current run =>
      rename_i c p
      have running := good.consistent.cpus.running c p current
      obtain ⟨_, run'⟩ := setRunnable_ok good.ready (by simp [running])
        (fun multilevel => (good.levels multilevel).live p (.inl (.inr (.inr running))))
      cases run.symm.trans run'
  | pick run =>
      by_cases queued : b = .default
      · subst queued
        cases run
      · rcases good.ready.pick queued with ⟨-, run'⟩ | ⟨_, _, run', -⟩ <;>
          cases run.symm.trans run'
  | dispatch picks notRunnable => exact absurd (good.picks picks) notRunnable

/-! ## Runs -/

/-- An event succeeds, or is the exit of init. -/
theorem Good.step (good : Good b s) {e : Event ncpu} {result : Except Fault (State ncpu)}
    (tame : Tame b s e) (taken : Xv6.step b s e = some result) :
    (∃ t, result = .ok t ∧ Good b t) ∨ result = .error (.panic "init exiting") := by
  have follows := step_follows good.consistent tame taken
  cases result with
  | ok t => exact .inl ⟨t, rfl, good.path follows⟩
  | error f =>
      obtain ⟨t, path, stuck⟩ := follows
      exact .inr (congrArg _ ((good.path path).stuck stuck))

theorem good_of_reach (tame : ∀ s e, guard s e → Tame b s e) (reach : KernelReach b guard s) :
    Good b s := by
  refine reach.invariant (Good b) Good.initial fun _ good allowed taken => ?_
  rcases good.step (tame _ _ allowed) taken with ⟨t, same, good⟩ | impossible
  · exact Except.ok.inj same ▸ good
  · cases impossible

theorem tame_of_ne_mlq (notMlq : b ≠ .mlq) (s : State ncpu) (e : Event ncpu) : Tame b s e := by
  cases e <;> first | exact fun mlq => absurd mlq notMlq | trivial

end Xv6
