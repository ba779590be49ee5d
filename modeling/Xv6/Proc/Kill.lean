import Xv6.Proc.Fate
import Xv6.Proc.Invariant

/-!
# `kill`

`kill` marks the first slot of the table that holds the pid, whatever its state is. A slot that is
`UNUSED` holds 0, or the pid of a process whose `fork` has failed; the mark then stays in the slot
for the process that takes it next.
-/

namespace Xv6

variable {ncpu : ℕ}

/-- The ready queue of `t` is that of `s` with `p` added. -/
def Queued (b : Build) (p : Slot) (s t : State ncpu) : Prop :=
  match b with
  | .default => t.pqueue = s.pqueue ∧ t.multiqueue = s.multiqueue
  | .fcfs => t.pqueue.toList.Perm (p :: s.pqueue.toList) ∧ t.multiqueue = s.multiqueue
  | .mlq | .dmlq => t.pqueue = s.pqueue ∧ ∃ qindex : Fin numpr, (t.proc p).priority = qindex + 1 ∧
      ∀ other, t.multiqueue.ring other = if other = qindex then
        s.multiqueue.ring qindex ++ [some p] else s.multiqueue.ring other

/-- `kill` changes the process `p`, and wakes it if it is asleep. -/
structure KillsOnly (b : Build) (p : Slot) (s t : State ncpu) : Prop where
  rest : SameRest s t
  others : ∀ q, q ≠ p → t.proc q = s.proc q
  awake : (s.proc p).state ≠ .sleeping → t.proc p = { s.proc p with killed := true } ∧
    t.pqueue = s.pqueue ∧ t.multiqueue = s.multiqueue
  asleep : (s.proc p).state = .sleeping →
    t.proc p = woken b { s.proc p with killed := true } ∧ Queued b p s t

/-- The call of `kill` reports whether there is a process with the pid and kills that one. -/
structure KillCorrect (b : Build) (pid : ℤ) (s : State ncpu) : Prop where
  found : (∃ p, (s.proc p).state ≠ .unused ∧ (s.proc p).pid = pid) →
    ∃ p t, ((s.proc p).state ≠ .unused ∧ (s.proc p).pid = pid) ∧ kill b pid s = .ok (0, t) ∧
      KillsOnly b p s t
  unknown : (∀ p, (s.proc p).state ≠ .unused → (s.proc p).pid ≠ pid) →
    kill b pid s = .ok (-1, s)

/-- The first slot with the pid is not `UNUSED`. -/
def FindsProcess (pid : ℤ) (s : State ncpu) : Prop :=
  ∀ p, findPid pid s = some p → (s.proc p).state ≠ .unused

/-- The event neither kills a slot that is `UNUSED` nor gives up one that is killed. -/
structure Clean (b : Build) (s : State ncpu) (e : Event ncpu) : Prop where
  tame : Tame b s e
  finds : ∀ c pid, e = .kill c pid → FindsProcess pid s
  givesUp : ∀ np, GivesUp s e np → (s.proc np).killed = false

variable {b : Build} {s t u : State ncpu} {chans : Chan → Prop} {p : Slot} {pid : ℤ}

/-! ## The ready queue -/

theorem ReadyInv.queued (inv : ReadyInv b s) (enters : Enters b p s u)
    (run : addReady b p u = .ok t) : Queued b p s t := by
  cases b with
  | default => exact Except.ok.inj run ▸ ⟨enters.pqueue, enters.multiqueue⟩
  | fcfs =>
      have heap : HeapInv s := inv
      have room : u.pqueue.size < nproc := enters.pqueue ▸ heap.room enters.before
      simp only [addReady, room, if_true] at run
      rcases Except.ok.inj run with rfl
      refine ⟨?_, enters.multiqueue⟩
      rw [← enters.pqueue]
      exact PQueue.insert_perm room
  | mlq =>
      rcases RingInv.addReady inv (.inl rfl) enters with ⟨_, qindex, level, run', appended, -⟩
      rcases Except.ok.inj (run.symm.trans run') with rfl
      exact ⟨enters.pqueue, qindex, level, appended⟩
  | dmlq =>
      rcases RingInv.addReady inv (.inr rfl) enters with ⟨_, qindex, level, run', appended, -⟩
      rcases Except.ok.inj (run.symm.trans run') with rfl
      exact ⟨enters.pqueue, qindex, level, appended⟩

/-! ## One call -/

theorem findPid_some (found : findPid pid s = some p) : (s.proc p).pid = pid :=
  of_decide_eq_true (find_table_some found)

theorem findPid_none (found : findPid pid s = none) (p : Slot) : (s.proc p).pid ≠ pid := by
  simpa using find_table_none found p

theorem markKilled_proc (q : Slot) : (markKilled p s).proc q =
    if q = p then { s.proc p with killed := true } else s.proc q := by
  simp [markKilled, State.edit_proc]

theorem Good.markKilled (good : Good b s) : LevelInv b (markKilled p s) ∧
    ReadyInv b (markKilled p s) :=
  ⟨fun multilevel => (good.levels multilevel).markKilled,
    good.ready.quiet (quiet_edit .rfl fun _ => ⟨rfl, rfl⟩)⟩

/-- What a call of `kill` does to the slot that it finds. -/
theorem Good.kill (good : Good b s) (found : findPid pid s = some p) :
    ∃ t, kill b pid s = .ok (0, t) ∧ KillsOnly b p s t := by
  rcases kill_ok_of_good good pid with ⟨result, t, run⟩
  rcases kill_ok run with ⟨none, -⟩ | ⟨q, found', rfl, cases⟩
  · cases none.symm.trans found
  rcases Option.some.inj (found.symm.trans found') with rfl
  refine ⟨t, run, ?_⟩
  rcases cases with ⟨asleep, wakes⟩ | ⟨awake, rfl⟩
  · have record := wake_proc wakes
    have rest : SameRest (Xv6.markKilled p s) t := wake_rest wakes
    refine ⟨⟨rest.initproc, rest.nextpid, rest.ticks, rest.cpu, rest.boot⟩, fun q different => ?_,
      fun awake => absurd asleep awake, fun _ => ⟨?_, ?_⟩⟩
    · rw [record, if_neg different, markKilled_proc, if_neg different]
    · rw [record, if_pos rfl, markKilled_proc, if_pos rfl]
    · have marked := good.markKilled (p := p)
      have enters := Enters.wake (p := p) marked.1 (by rwa [markKilled_state])
      exact marked.2.queued enters wakes
  · refine ⟨⟨rfl, rfl, rfl, rfl, rfl⟩, fun q different => ?_, fun _ => ⟨?_, rfl, rfl⟩,
      fun asleep => absurd asleep awake⟩
    · rw [markKilled_proc, if_neg different]
    · rw [markKilled_proc, if_pos rfl]

/-- No `UNUSED` slot is marked. -/
def UnusedClean (s : State ncpu) : Prop :=
  ∀ p, (s.proc p).state = .unused → (s.proc p).killed = false

/-- A call of `kill` is right if and only if the first slot with the pid is not `UNUSED`. -/
theorem Good.killCorrect_iff (good : Good b s) (clean : UnusedClean s) :
    KillCorrect b pid s ↔ FindsProcess pid s := by
  constructor
  · intro correct p found unused
    rcases good.kill found with ⟨t, run, kills⟩
    have marked := (kills.awake (by simp [unused])).1
    by_cases known : ∃ q, (s.proc q).state ≠ .unused ∧ (s.proc q).pid = pid
    · rcases correct.found known with ⟨q, t', ⟨used, -⟩, run', kills'⟩
      rcases Prod.mk.inj (Except.ok.inj (run.symm.trans run')) with ⟨-, rfl⟩
      have different : p ≠ q := by
        rintro rfl
        exact used unused
      -- the mark of the wrong slot is new
      have untouched := kills'.others p different
      rw [marked] at untouched
      have killed := congrArg Proc.killed untouched
      simp [clean p unused] at killed
    · push Not at known
      have run' := correct.unknown known
      cases run.symm.trans run'
  · intro finds
    cases found : findPid pid s with
    | none =>
        refine ⟨?_, fun _ => by simp [Xv6.kill, found]⟩
        rintro ⟨p, -, known⟩
        exact absurd known (findPid_none found p)
    | some p =>
        rcases good.kill found with ⟨t, run, kills⟩
        have process := And.intro (finds p found) (findPid_some found)
        exact ⟨fun _ => ⟨p, t, process, run, kills⟩,
          fun unknown => absurd process.2 (unknown p process.1)⟩

/-! ## Runs -/

theorem UnusedClean.action (clean : UnusedClean s) (consistent : Consistent s)
    (action : Action b (Clean b) chans s t) : UnusedClean t := by
  intro p unused
  cases action.fate consistent p with
  | same state _ life => exact life.2.1.trans (clean p (state ▸ unused))
  | taken _ embryo => simp [embryo] at unused
  | givenUp allowed givesUp _ _ life => exact life.2.1.trans (allowed.givesUp p givesUp)
  | advanced _ after => exact absurd unused after.1
  | woken _ _ record => simp [record, woken] at unused
  | strayed _ _ running => simp [running] at unused
  | reaped _ _ killed => exact killed
  | killed allowed found record =>
      rcases record with record | ⟨-, -, record⟩
      · rw [record] at unused
        exact absurd unused (allowed.finds _ _ rfl p found)
      · simp [record, woken] at unused
  | faulted running record => simp [record, running] at unused

/-- `kill` is right where it finds a process, and `allocproc` takes no slot that is killed. -/
structure KillsProcesses (b : Build) (s : State ncpu) : Prop where
  kill : ∀ pid, KillCorrect b pid s ↔ FindsProcess pid s
  fresh : ∀ p t, allocproc s = some (p, t) → (s.proc p).killed = false

theorem kills_processes (reach : KernelReach b (Clean b) s) : KillsProcesses b s := by
  have good := good_of_reach (fun _ _ clean => Clean.tame clean) reach
  have clean : UnusedClean s := invariant_of_reach reach UnusedClean (fun _ _ => rfl)
    fun consistent clean action => clean.action consistent action
  refine ⟨fun pid => good.killCorrect_iff clean, fun p t taken => ?_⟩
  exact clean p (allocproc_some taken).1

/-- A test for some events that are `Clean`. -/
def cleanEvent (s : State ncpu) : Event ncpu → Bool
  | .chpr _ _ _ | .forkKstack _ none | .forkCopyuvm _ none => false
  | .kill _ pid => (findPid pid s).all fun p => (s.proc p).state ≠ .unused
  | _ => true

theorem cleanEvent_clean (s : State ncpu) (e : Event ncpu) (admitted : cleanEvent s e = true) :
    Clean b s e := by
  refine ⟨?_, ?_, ?_⟩
  · cases e with
    | chpr c pid priority => cases admitted
    | _ => trivial
  · rintro c pid rfl p found
    simpa [cleanEvent, found] using admitted
  · rintro np ⟨c, p, -, ⟨rfl, -⟩ | ⟨rfl, -⟩⟩ <;> cases admitted

/-- Init sleeps and is killed by its child. -/
theorem kills_processes_slept : KillsProcesses .dmlq
    (after .dmlq (boot 2 ++ (forks 2 ++ [.sleep 0 7, .scheduler 0, .kill 0 1]))) :=
  kills_processes (after_reach_of cleanEvent_clean (by decide +kernel))

/-- A call of `kill` with pid 0 marks the slot that `allocproc` takes next. -/
theorem kill_incorrect :
    (¬∀ s : State 1, AnyReach .default s → ∀ pid, KillCorrect .default pid s) ∧
      ¬∀ s : State 1, AnyReach .default s →
        ∀ p t, allocproc s = some (p, t) → (s.proc p).killed = false := by
  constructor
  · intro claimed
    have reach : AnyReach .default (after .default (boot 1)) := after_reach (by decide +kernel)
    have unknown : ∀ p, ((after .default (boot 1)).proc p).state ≠ .unused →
        ((after .default (boot 1)).proc p).pid ≠ 0 := by decide +kernel
    have run := (claimed _ reach 0).unknown unknown
    have result : (kill .default 0 (after .default (boot 1))).toOption.map Prod.fst =
        some 0 := by decide +kernel
    rw [run] at result
    cases result
  · intro claimed
    have reach : AnyReach .default (after .default (boot 1 ++ [.kill 0 0])) :=
      after_reach (by decide +kernel)
    have killed : (allocproc (after .default (boot 1 ++ [.kill 0 0]))).any (fun taken =>
        ((after .default (boot 1 ++ [.kill 0 0])).proc taken.1).killed) = true := by
      decide +kernel
    rcases (Option.any_eq_true _ _).mp killed with ⟨⟨p, t⟩, taken, marked⟩
    simp [claimed _ reach p t taken] at marked

end Xv6
