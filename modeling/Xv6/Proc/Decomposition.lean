import Xv6.Proc.Consistent

/-!
# Events as paths of actions

Every event of the kernel runs along a path of actions, and if it fails, it fails in a state on
that path, for one of the reasons that `Stuck` lists.
-/

namespace Xv6

open Relation Fallible

variable {ncpu : ℕ}

/-- The channels that an event wakes up. -/
def wakes (s : State ncpu) : Event ncpu → Chan → Prop
  | .wakeup chan => fun x => x = chan
  | .exit c => fun x => ∃ p, s.cpu c = some p ∧
      (x = .ofProc (s.proc p).parent ∨ x = .ofProc s.initproc)
  | _ => fun _ => False

/-- Why an event can fail in this state. -/
inductive Stuck (b : Build) (admitted : State ncpu → Event ncpu → Prop) (s : State ncpu) :
    Fault → Prop where
  | initExiting : Stuck b admitted s (.panic "init exiting")
  | userinitAlloc {kstack pgdir : Page} {f : Fault} (boot : s.boot = .start)
      (run : userinitAlloc b kstack pgdir s = .error f) : Stuck b admitted s f
  | userinitReady {p : Slot} {f : Fault} (boot : s.boot = .allocated p)
      (run : userinitReady b p s = .error f) : Stuck b admitted s f
  | forkReady {c : Fin ncpu} {p np : Slot} {f : Fault} (current : s.cpu c = some p)
      (frame : (s.proc p).frame = .ready np) (run : forkReady b p np s = .error f) :
      Stuck b admitted s f
  | kill {pid : ℤ} {f : Fault} (run : kill b pid s = .error f) : Stuck b admitted s f
  | chpr {c : Fin ncpu} {pid priority : ℤ} {f : Fault}
      (allowed : admitted s (.chpr c pid priority)) (run : chpr b pid priority s = .error f) :
      Stuck b admitted s f
  | wake {p : Slot} {f : Fault} (asleep : (s.proc p).state = .sleeping)
      (run : wake b p s = .error f) : Stuck b admitted s f
  | reparent {c : Fin ncpu} {curproc p : Slot} {f : Fault} (current : s.cpu c = some curproc)
      (user : (s.proc curproc).frame = .user) (run : reparent b curproc s p = .error f) :
      Stuck b admitted s f
  | yield {c : Fin ncpu} {p : Slot} {f : Fault} (current : s.cpu c = some p)
      (run : addReady b p (s.setState p .runnable) = .error f) : Stuck b admitted s f
  | pick {f : Fault} (run : pickNext b s = .error f) : Stuck b admitted s f
  | dispatch {p : Slot} {s' : State ncpu} {f : Fault} (picks : Picks b p s s')
      (notRunnable : (s.proc p).state ≠ .runnable) : Stuck b admitted s f

variable {b : Build} {s t : State ncpu} {admitted : State ncpu → Event ncpu → Prop}
  {chans : Chan → Prop} {c : Fin ncpu} {p : Slot} {guard : State ncpu → Event ncpu → Prop}

theorem Consistent.path (inv : Consistent s) (path : ReflTransGen (Action b admitted chans) s t) :
    Consistent t :=
  kept_of_path Consistent (fun action inv => inv.action action) path inv

/-! ## Dispatching a process -/

/-- `waitPass` reaps a child or puts the process to sleep. -/
theorem waitPass_path (stats : Bool) (current : s.cpu c = some p)
    (user : (s.proc p).frame = .user) :
    ReflTransGen (Action b admitted chans) s
      (if (waitPass stats p s).1.isSome then (waitPass stats p s).2
        else (waitPass stats p s).2.setCpu c none) := by
  unfold waitPass
  split
  · rename_i child found
    have test := of_decide_eq_true (find_table_some found)
    exact .single (.reap current test.1 test.2)
  · rename_i found
    dsimp only
    split
    · exact .refl
    · refine .single (.sleep current user ?_ ?_)
      · cases stats <;> simp
      · intro _ q child zombie
        have := find_table_none found q
        simp [child, zombie] at this

/-- The part of the path after the switch to the process. -/
theorem resume_path {result : Bool × State ncpu} (current : s.cpu c = some p)
    (user : (s.proc p).context ≠ .yield → (s.proc p).frame = .user)
    (run : resume p s = .ok result) :
    ReflTransGen (Action b admitted chans) s
      (if result.1 then result.2 else result.2.setCpu c none) := by
  have tidied : Action b admitted chans s (s.edit p fun q => { q with chan := .null }) :=
    .tidy current
  unfold resume at run
  cases context : (s.proc p).context <;> simp only [context, Except.ok.injEq, reduceCtorEq] at run
  case forkret => exact run ▸ .refl
  case yield => exact run ▸ .refl
  case sleep => exact run ▸ .single tidied
  case wait =>
    subst run
    exact .head tidied (waitPass_path false current (by simpa using user (by simp [context])))
  case waitnstats =>
    subst run
    exact .head tidied (waitPass_path true current (by simpa using user (by simp [context])))

/-- A process that can be switched to is. -/
theorem runProc_eq (inv : Consistent s)
    (ready : (s.proc p).state = .runnable ∨ (s.proc p).state = .sleeping) :
    runProc c p s = resume p (dispatched c p s) := by
  have stack := inv.saved.alive p (by unfold Proc.Alive; grind)
  unfold runProc
  rw [if_neg stack.1, if_neg stack.2, if_neg (by grind)]
  rfl

/-- Any other process cannot be switched to. -/
theorem runProc_error (inv : Consistent s)
    (notReady : ¬((s.proc p).state = .runnable ∨ (s.proc p).state = .sleeping)) :
    ∃ f, runProc c p s = .error f := by
  unfold runProc
  split
  · exact ⟨_, rfl⟩
  split
  · exact ⟨_, rfl⟩
  split
  · exact ⟨_, rfl⟩
  · have zombie : (s.proc p).state = .zombie := by
      cases state : (s.proc p).state <;> simp_all
    have context := inv.saved.zombie p zombie
    refine ⟨.panic "zombie exit", ?_⟩
    simp [resume, context]

theorem runProc_follows (inv : Consistent s) (idle : s.cpu c = none) {s' : State ncpu}
    (picks : Picks b p s s') :
    Follows (Action b admitted chans) (Stuck b admitted)
      (fun result => if result.1 then result.2 else result.2.setCpu c none) s
      (runProc c p s') := by
  obtain ⟨pqueue, multiqueue, rfl⟩ := picks.frame
  have inv' : Consistent { s with pqueue, multiqueue } := inv.congr rfl rfl rfl rfl
  by_cases ready : (s.proc p).state = .runnable ∨ (s.proc p).state = .sleeping
  · rw [runProc_eq inv' ready]
    have dispatch : Action b admitted chans s (dispatched c p { s with pqueue, multiqueue }) :=
      .dispatch idle picks ready
    refine Follows.after (.single dispatch) ?_
    cases run : resume p (dispatched c p { s with pqueue, multiqueue }) with
    | error f =>
        have resumable := inv.saved.resumable p ready
        have : (s.proc p).context = .exit := by
          unfold resume at run
          cases context : (s.proc p).context <;>
            simp [dispatched, context] at run
          rfl
        exact absurd this resumable
    | ok result =>
        refine resume_path (by simp [dispatched]) ?_ run
        intro context
        simp only [dispatched, State.edit_proc_self, State.setState_proc_self,
          State.setCpu_proc] at context ⊢
        by_contra busy
        have := inv.forks.idle p busy
        have := inv.forks.yielded p busy
        grind
  · obtain ⟨f, run⟩ := runProc_error (c := c) inv' ready
    rw [run]
    exact Follows.fail (.dispatch picks (fun runnable => ready (.inl runnable)))

/-- The scheduler of the `DEFAULT` build, from any place of the table. -/
theorem scanTable_follows (inv : Consistent s) (idle : s.cpu c = none) (slots : List Slot) :
    Follows (Action .default admitted chans) (Stuck .default admitted) id s
      (scanTable c slots s) := by
  induction slots generalizing s with
  | nil => exact Follows.ok .refl
  | cons p slots ih =>
      unfold scanTable
      split
      · exact ih inv idle
      · rename_i runnable
        rw [not_not] at runnable
        refine Follows.bind (runProc_follows inv idle (.inr ⟨rfl, rfl, runnable⟩)) ?_
        rintro ⟨running, u⟩ - path
        cases running with
        | true => exact Follows.ok .refl
        | false => exact ih (inv.path path) (by simp)

/-- After a process has given up its CPU. -/
theorem toScheduler_follows (inv : Consistent s)
    (path : ReflTransGen (Action b admitted chans) s (t.setCpu c none)) :
    Follows (Action b admitted chans) (Stuck b admitted) id s (toScheduler b c p t) := by
  cases b with
  | default => exact Follows.after path (scanTable_follows (inv.path path) (by simp) _)
  | fcfs => exact Follows.ok path
  | mlq => exact Follows.ok path
  | dmlq => exact Follows.ok path

theorem scheduler_follows (inv : Consistent s) (idle : s.cpu c = none) :
    Follows (Action b admitted chans) (Stuck b admitted) id s (scheduler b c s) := by
  by_cases isDefault : b = .default
  · subst isDefault
    exact scanTable_follows inv idle table
  rw [scheduler_queued isDefault]
  cases run : pickNext b s with
  | error f => exact Follows.fail (.pick run)
  | ok result =>
      obtain ⟨picked, t⟩ := result
      cases picked with
      | none => exact Follows.ok (.single (.pickNone run))
      | some p =>
          change Follows _ _ id s (runProc c p t >>= _)
          refine (runProc_follows inv idle (.inl run)).bind ?_
          rintro ⟨running, u⟩ - -
          exact Follows.ok .refl

/-! ## The other events -/

theorem wakeup1_follows {chan : Chan} (woken : chans chan) :
    Follows (Action b admitted chans) (Stuck b admitted) id s (wakeup1 b chan s) := by
  refine Follows.foldlM (fun _ => True) (fun u p _ => ?_) (fun _ _ _ _ _ => trivial) _
    trivial
  split
  · rename_i asleep
    cases run : wake b p u with
    | error f => exact Follows.fail (.wake asleep.1 run)
    | ok t => exact Follows.single (.wake asleep.1 (asleep.2 ▸ woken) run)
  · exact Follows.ok .refl

theorem reparent_follows (current : s.cpu c = some p) (user : (s.proc p).frame = .user)
    (notInit : s.initproc ≠ some p) (woken : chans (.ofProc s.initproc)) :
    Follows (Action b admitted chans) (Stuck b admitted) id s (table.foldlM (reparent b p) s) := by
  refine Follows.foldlM (fun u => u.cpu c = some p ∧ (u.proc p).frame = .user ∧
    u.initproc = s.initproc) (fun u q inv => ?_) (fun u q t inv run => ?_) _ ⟨current, user, rfl⟩
  · obtain ⟨current, user, init⟩ := inv
    cases run : reparent b p u q with
    | error f => exact Follows.fail (.reparent current user run)
    | ok t => exact Follows.single (.reparent current user (init ▸ woken) run)
  · obtain ⟨current, user, init⟩ := inv
    have adopts := (reparent_pass (init ▸ notInit) run).1
    exact ⟨adopts.rest.cpu ▸ current, (adopts.frame p).trans user, adopts.rest.initproc.trans init⟩

theorem exit_follows (inv : Consistent s) (current : s.cpu c = some p)
    (user : (s.proc p).frame = .user) :
    Follows (Action b admitted (wakes s (.exit c))) (Stuck b admitted) id s (exit b c p s) := by
  unfold exit
  split
  · exact Follows.fail .initExiting
  rename_i notInit
  have parentWoken : Follows (Action b admitted (wakes s (.exit c))) (Stuck b admitted) id s
      (wakeup1 b (.ofProc (s.proc p).parent) s) := wakeup1_follows ⟨p, current, .inl rfl⟩
  refine parentWoken.bind ?_
  intro u run path
  have rest := wakeup1_rest run
  have adopts := adopts_wakeup1 p run
  have passedOn : Follows (Action b admitted (wakes s (.exit c))) (Stuck b admitted) id u
      (table.foldlM (reparent b p) u) :=
    reparent_follows (c := c) (rest.cpu ▸ current) ((adopts.frame p).trans user)
      (rest.initproc ▸ notInit) ⟨p, current, .inr (rest.initproc ▸ rfl)⟩
  refine passedOn.bind ?_
  intro v run' path'
  obtain ⟨adopts', left⟩ := reparent_loop (rest.initproc ▸ notInit) run'
  have both := adopts.trans adopts'
  refine toScheduler_follows ((inv.path path).path path') (.single (.zombie ?_ ?_ ?_ ?_ ?_))
  · exact both.rest.cpu ▸ current
  · exact (both.frame p).trans user
  · exact both.rest.initproc ▸ notInit
  · exact fun q => left q (mem_table q)
  · rintro q parent ⟨asleep, chan⟩
    -- a parent that sleeps now was asleep when `exit` called `wakeup1`
    have := wakeup1_proc run q
    have := adopts'.state q
    have := adopts'.chan q
    have := both.parent p
    have := inv.family.irrefl p
    grind [woken, Chan.ofProc]

theorem wait_follows (inv : Consistent s) (stats : Bool) (current : s.cpu c = some p)
    (user : (s.proc p).frame = .user) :
    Follows (Action b admitted chans) (Stuck b admitted) id s (wait b stats c p s) := by
  have path : ReflTransGen (Action b admitted chans) s _ := waitPass_path stats current user
  unfold wait
  generalize waitPass stats p s = result at path
  obtain ⟨found, t⟩ := result
  cases found with
  | none => exact toScheduler_follows inv path
  | some result => exact Follows.ok path

theorem sleep_follows (inv : Consistent s) {address : ℕ} (current : s.cpu c = some p)
    (user : (s.proc p).frame = .user) :
    Follows (Action b admitted chans) (Stuck b admitted) id s
      (sleep b c p (.object address) s) :=
  toScheduler_follows inv (.single (.sleep current user (.inl rfl) fun chan => nomatch chan))

theorem yield_follows (inv : Consistent s) (current : s.cpu c = some p) :
    Follows (Action b admitted chans) (Stuck b admitted) id s (yield b c p s) := by
  unfold yield
  cases run : addReady b p (s.setState p .runnable) with
  | error f => exact Follows.fail (.yield current run)
  | ok t => exact toScheduler_follows inv (.single (.yield current run))

theorem trapTimer_follows (inv : Consistent s) (current : s.cpu c = some p) :
    Follows (Action b admitted chans) (Stuck b admitted) id s (trapTimer b c p s) := by
  unfold trapTimer
  split
  · cases b with
    | default => exact yield_follows inv current
    | fcfs => exact Follows.ok .refl
    | mlq => exact yield_follows inv current
    | dmlq =>
        have demoted : Action .dmlq admitted chans s _ := .demote current rfl
        exact Follows.after (.single demoted)
          (yield_follows (inv.action demoted) (by simpa using current))
  · exact Follows.ok .refl

theorem syscall_some {code : Slot → Except Fault (State ncpu)}
    {result : Except Fault (State ncpu)} (taken : syscall c s code = some result) :
    ∃ p, s.cpu c = some p ∧ (s.proc p).frame = .user ∧ result = code p := by
  unfold syscall at taken
  split at taken
  · cases taken
  · rename_i p current
    split at taken
    · exact ⟨p, current, ‹_›, (Option.some.inj taken).symm⟩
    · cases taken

theorem onCpu_some {code : Slot → Except Fault (State ncpu)}
    {result : Except Fault (State ncpu)} (taken : onCpu c s code = some result) :
    ∃ p, s.cpu c = some p ∧ result = code p := by
  obtain ⟨p, current, eq⟩ := Option.map_eq_some_iff.mp taken
  exact ⟨p, current, eq.symm⟩

/-- Every event runs along a path of actions. -/
theorem step_follows (inv : Consistent s) {e : Event ncpu} {result : Except Fault (State ncpu)}
    (allowed : admitted s e) (taken : step b s e = some result) :
    Follows (Action b admitted (wakes s e)) (Stuck b admitted) id s result := by
  have leaf : ∀ {t}, Leaf b s e t →
      Follows (Action b admitted (wakes s e)) (Stuck b admitted) id s (.ok t) :=
    fun leaf => Follows.single (.leaf allowed leaf)
  cases e with
  | userinitAlloc kstack pgdir =>
      obtain ⟨boot, eq⟩ := Option.ite_none_right_eq_some.mp taken
      obtain rfl := Option.some.inj eq
      cases run : userinitAlloc b kstack pgdir s with
      | error f => exact Follows.fail (.userinitAlloc boot run)
      | ok t => exact leaf (.userinitAlloc boot run)
  | userinitReady =>
      simp only [step] at taken
      split at taken
      · rename_i p boot
        obtain rfl := Option.some.inj taken
        cases run : userinitReady b p s with
        | error f => exact Follows.fail (.userinitReady boot run)
        | ok t => exact leaf (.userinitReady boot run)
      · cases taken
  | scheduler c =>
      obtain ⟨idle, eq⟩ := Option.ite_none_right_eq_some.mp taken
      obtain rfl := Option.some.inj eq
      exact scheduler_follows inv idle
  | fork c =>
      obtain ⟨p, current, user, rfl⟩ := syscall_some taken
      exact leaf (.fork current user)
  | forkKstack c page =>
      simp only [step] at taken
      split at taken
      · cases taken
      · rename_i p current
        split at taken
        · rename_i np frame
          obtain rfl := Option.some.inj taken
          exact leaf (.forkKstack current frame)
        · cases taken
  | forkCopyuvm c page =>
      simp only [step] at taken
      split at taken
      · cases taken
      · rename_i p current
        split at taken
        · rename_i np frame
          obtain rfl := Option.some.inj taken
          exact leaf (.forkCopyuvm current frame)
        · cases taken
  | forkReady c =>
      simp only [step] at taken
      split at taken
      · cases taken
      · rename_i p current
        split at taken
        · rename_i np frame
          obtain rfl := Option.some.inj taken
          cases run : forkReady b p np s with
          | error f => exact Follows.fail (.forkReady current frame run)
          | ok t => exact leaf (.forkReady current frame run)
        · cases taken
  | exec c pgdir =>
      obtain ⟨p, current, user, rfl⟩ := syscall_some taken
      exact leaf (.exec current user)
  | exit c =>
      obtain ⟨p, current, user, rfl⟩ := syscall_some taken
      exact exit_follows inv current user
  | wait c =>
      obtain ⟨p, current, user, rfl⟩ := syscall_some taken
      exact wait_follows inv false current user
  | waitnstats c =>
      obtain ⟨p, current, user, rfl⟩ := syscall_some taken
      exact wait_follows inv true current user
  | sleep c address =>
      obtain ⟨p, current, user, rfl⟩ := syscall_some taken
      exact sleep_follows inv current user
  | wakeup chan =>
      obtain rfl := Option.some.inj taken
      exact wakeup1_follows rfl
  | kill c pid =>
      obtain ⟨p, -, -, rfl⟩ := syscall_some taken
      cases run : kill b pid s with
      | error f => exact Follows.fail (.kill run)
      | ok result => exact leaf (.kill run)
  | yield c =>
      obtain ⟨p, current, rfl⟩ := onCpu_some taken
      exact yield_follows inv current
  | trapTimer c =>
      obtain ⟨p, current, rfl⟩ := onCpu_some taken
      exact trapTimer_follows inv current
  | trapFault c =>
      obtain ⟨p, current, -, rfl⟩ := syscall_some taken
      exact leaf (.trapFault current)
  | chpr c pid priority =>
      obtain ⟨p, -, -, rfl⟩ := syscall_some taken
      cases run : chpr b pid priority s with
      | error f => exact Follows.fail (.chpr allowed run)
      | ok t => exact leaf (.chpr run)
  | tick =>
      obtain rfl := Option.some.inj taken
      exact leaf .tick
  | updateprocesstimes =>
      obtain rfl := Option.some.inj taken
      exact leaf .updateprocesstimes

/-- The invariants of the table hold whatever the calls of `chpr` are. -/
theorem consistent_of_reach (reach : KernelReach b guard s) : Consistent s := by
  refine reach.invariant Consistent Consistent.initial fun {s e t} _ inv allowed taken => ?_
  have follows : Follows (Action b guard (wakes s e)) _ id s (.ok t) :=
    step_follows inv allowed taken
  exact inv.path follows

/-- What every action keeps in consistent states holds in every reachable state. -/
theorem invariant_of_reach (reach : KernelReach b guard s) (Inv : State ncpu → Prop)
    (initially : Inv {})
    (kept : ∀ {s t : State ncpu} {chans : Chan → Prop}, Consistent s → Inv s →
      Action b guard chans s t → Inv t) : Inv s := by
  refine reach.invariant Inv initially fun {s e t} reach inv allowed taken => ?_
  have consistent := consistent_of_reach reach
  have follows : Follows (Action b guard (wakes s e)) _ id s (.ok t) :=
    step_follows consistent allowed taken
  exact (kept_of_path (fun s => Consistent s ∧ Inv s)
    (fun action inv => ⟨inv.1.action action, kept inv.1 inv.2 action⟩) follows
    ⟨consistent, inv⟩).2

end Xv6
