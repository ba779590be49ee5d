import Xv6.Proc.Marks
import Xv6.Proc.Reaping

/-!
# Init

Init adopts every process whose parent exits, so it must never exit: `exit` panics if it is called
by `initproc`. Init does not call `exit` itself, but `trap` calls it for every process that it finds
killed. The only way for others to bring init down is thus to have its killed flag set.
-/

namespace Xv6

open Fallible

variable {ncpu : ℕ}

/-- Init neither calls `exit` nor faults. It is still led to `exit` by `trap` if it is killed. -/
def InitBehaves (s : State ncpu) : Event ncpu → Prop
  | .exit c => ∀ p, s.cpu c = some p → s.initproc = some p → (s.proc p).killed = true
  | .trapFault c => ∀ p, s.cpu c = some p → s.initproc ≠ some p
  | _ => True

/-- The event is not a call of `kill` that finds init. -/
def SparesInit (s : State ncpu) : Event ncpu → Prop
  | .kill _ pid => ∀ p, findPid pid s = some p → s.initproc ≠ some p
  | _ => True

/-- Init behaves and is left alone. -/
def InitLeftAlone (s : State ncpu) (e : Event ncpu) : Prop := InitBehaves s e ∧ SparesInit s e

/-- The killed flag of init is set. -/
def InitMarked (s : State ncpu) : Prop := ∃ i, s.initproc = some i ∧ (s.proc i).killed = true

/-- Init is not on its way to `exit`, and adopts all orphans. -/
structure InitSafe (b : Build) (s : State ncpu) : Prop where
  unmarked : ¬InitMarked s
  /-- where init runs, it does not enter `exit` -/
  stays : ∀ c i, s.cpu c = some i → s.initproc = some i → ¬InitBehaves s (.exit c)
  noPanic : ∀ e, InitBehaves s e → step b s e ≠ some (.error (.panic "init exiting"))
  alive : s.boot = .done → ∃ i, s.initproc = some i ∧ (s.proc i).Alive
  /-- every process but init has a parent that has started and not exited -/
  parent : ∀ p, s.initproc ≠ some p → (s.proc p).Alive ∨ (s.proc p).state = .zombie →
    ∃ q, (s.proc p).parent = some q ∧ (s.proc q).Alive
  /-- a parent with a `ZOMBIE` child reaps one as soon as it calls `wait` -/
  wait : ∀ c p child, s.cpu c = some p → (s.proc p).frame = .user →
    (s.proc child).state = .zombie → (s.proc child).parent = some p →
    ∃ q, (s.proc q).state = .zombie ∧ (s.proc q).parent = some p ∧
      step b s (.wait c) = some (.ok (reap false p q s))

variable {b : Build} {s t : State ncpu} {admitted : State ncpu → Event ncpu → Prop}
  {chans : Chan → Prop} {c : Fin ncpu} {p q : Slot}

/-! ## The panic -/

/-- The kernel does not fail because init exits. -/
def Fault.NotInit (f : Fault) : Prop := f ≠ .panic "init exiting"

namespace MultiQueue

variable {queue : MultiQueue} {qindex : Fin numpr} {priority : ℤ}

theorem level_fails (qindex : ℤ) : FailsOnly Fault.NotInit (level qindex) := by
  unfold level
  split
  · exact .ok _
  · exact .error (by simp [Fault.NotInit])

theorem cell_fails (qindex : Fin numpr) (index : ℤ) :
    FailsOnly Fault.NotInit (cell qindex index) := by
  unfold cell
  dsimp only
  split
  · exact .ok _
  · exact .error (by simp [Fault.NotInit])

theorem read_fails (index : ℤ) : FailsOnly Fault.NotInit (queue.read qindex index) :=
  (cell_fails _ _).bind fun _ => .ok _

theorem write_fails (index : ℤ) (p : Option Slot) :
    FailsOnly Fault.NotInit (queue.write qindex index p) :=
  (cell_fails _ _).bind fun _ => .ok _

theorem enque_fails (priority : ℤ) (p : Slot) (queue : MultiQueue) :
    FailsOnly Fault.NotInit (queue.enque priority p) := by
  refine (level_fails _).bind fun qindex => ?_
  split
  · exact .ok _
  · exact (write_fails _ _).bind fun _ => .ok _

theorem deque_fails (priority : ℤ) : FailsOnly Fault.NotInit (queue.deque priority) := by
  refine (level_fails _).bind fun qindex => ?_
  split
  · exact .ok _
  · exact (read_fails _).bind fun _ => .ok _

theorem swapqueFind_fails (pidOf : Slot → ℤ) (pid : ℤ) (fuel : ℕ) (i : ℤ) :
    FailsOnly Fault.NotInit (swapqueFind pidOf pid qindex queue fuel i) := by
  induction fuel generalizing i with
  | zero => exact .error (by simp [Fault.NotInit])
  | succ fuel ih =>
      unfold swapqueFind
      split
      · exact .ok _
      · refine (read_fails i).bind fun found => ?_
        cases found with
        | none => exact .error (by simp [Fault.NotInit])
        | some p =>
            dsimp only
            split
            · exact .ok _
            · exact ih _

theorem swapqueShift_fails (fuel : ℕ) (j : ℤ) (queue : MultiQueue) :
    FailsOnly Fault.NotInit (swapqueShift qindex fuel j queue) := by
  induction fuel generalizing j queue with
  | zero => exact .error (by simp [Fault.NotInit])
  | succ fuel ih =>
      unfold swapqueShift
      split
      · exact .ok _
      · exact (read_fails j).bind fun p => (write_fails _ _).bind fun queue => ih _ _

theorem swapque_fails (pidOf : Slot → ℤ) (priority1 priority2 pid : ℤ) :
    FailsOnly Fault.NotInit (queue.swapque pidOf priority1 priority2 pid) := by
  refine (level_fails _).bind fun qindex1 => (swapqueFind_fails _ _ _ _).bind fun found => ?_
  cases found with
  | none => exact .ok _
  | some found =>
      exact (swapqueShift_fails _ _ _).bind fun queue => enque_fails _ _ _

end MultiQueue

theorem addReady_fails : FailsOnly Fault.NotInit (addReady b p s) := by
  cases b with
  | default => exact .ok _
  | fcfs => exact .ok _
  | mlq => exact (MultiQueue.enque_fails _ _ _).bind fun _ => .ok _
  | dmlq => exact (MultiQueue.enque_fails _ _ _).bind fun _ => .ok _

theorem wakeup1_fails (chan : Chan) (s : State ncpu) :
    FailsOnly Fault.NotInit (wakeup1 b chan s) := by
  refine FailsOnly.foldlM (fun u p => ?_) table s
  split
  · exact addReady_fails
  · exact .ok _

theorem reparent_fails (curproc : Slot) (s : State ncpu) (p : Slot) :
    FailsOnly Fault.NotInit (reparent b curproc s p) := by
  unfold reparent
  split
  · dsimp only
    split
    · exact wakeup1_fails _ _
    · exact .ok _
  · exact .ok _

theorem runProc_fails (c : Fin ncpu) (p : Slot) (s : State ncpu) :
    FailsOnly Fault.NotInit (runProc c p s) := by
  unfold runProc
  split
  · exact .error (by simp [Fault.NotInit])
  split
  · exact .error (by simp [Fault.NotInit])
  split
  · exact .error (by simp [Fault.NotInit])
  unfold resume
  dsimp only
  split
  · exact .ok _
  · exact .ok _
  · exact .ok _
  · exact .ok _
  · exact .ok _
  · exact .error (by simp [Fault.NotInit])

theorem scanTable_fails (c : Fin ncpu) (slots : List Slot) (s : State ncpu) :
    FailsOnly Fault.NotInit (scanTable c slots s) := by
  induction slots generalizing s with
  | nil => exact .ok _
  | cons p slots ih =>
      unfold scanTable
      split
      · exact ih s
      · refine (runProc_fails c p s).bind fun result => ?_
        rcases result with ⟨running, u⟩
        cases running with
        | true => exact .ok _
        | false => exact ih _

theorem toScheduler_fails (s : State ncpu) :
    FailsOnly Fault.NotInit (toScheduler b c p s) := by
  cases b with
  | default => exact scanTable_fails c _ _
  | fcfs => exact .ok _
  | mlq => exact .ok _
  | dmlq => exact .ok _

theorem pickLevel_fails (levels : List ℤ) (queue : MultiQueue) :
    FailsOnly Fault.NotInit (pickLevel levels queue) := by
  induction levels with
  | nil => exact .ok _
  | cons pr levels ih =>
      unfold pickLevel
      refine FailsOnly.bind ((MultiQueue.level_fails _).bind fun _ => .ok _) fun isempty => ?_
      cases isempty with
      | true => exact ih
      | false => exact MultiQueue.deque_fails _

theorem scheduler_fails (c : Fin ncpu) (s : State ncpu) :
    FailsOnly Fault.NotInit (scheduler b c s) := by
  have picked : ∀ choice : Option Slot × State ncpu,
      FailsOnly Fault.NotInit (runPicked c choice) := by
    rintro ⟨p, u⟩
    cases p with
    | none => exact .ok _
    | some p => exact (runProc_fails c p u).bind fun _ => .ok _
  cases b with
  | default => exact scanTable_fails c _ _
  | fcfs => exact FailsOnly.bind (.ok _) picked
  | mlq => exact FailsOnly.bind ((pickLevel_fails _ _).bind fun _ => .ok _) picked
  | dmlq => exact FailsOnly.bind ((pickLevel_fails _ _).bind fun _ => .ok _) picked

theorem yield_fails (c : Fin ncpu) (p : Slot) (s : State ncpu) :
    FailsOnly Fault.NotInit (yield b c p s) :=
  addReady_fails.bind fun _ => toScheduler_fails _

theorem trapTimer_fails (c : Fin ncpu) (p : Slot) (s : State ncpu) :
    FailsOnly Fault.NotInit (trapTimer b c p s) := by
  unfold trapTimer
  split
  · cases b with
    | default => exact yield_fails c p _
    | fcfs => exact .ok _
    | mlq => exact yield_fails c p _
    | dmlq => exact yield_fails c p _
  · exact .ok _

theorem wait_fails (stats : Bool) (c : Fin ncpu) (p : Slot) (s : State ncpu) :
    FailsOnly Fault.NotInit (wait b stats c p s) := by
  unfold wait
  split
  · exact .ok _
  · exact toScheduler_fails _

theorem kill_fails (pid : ℤ) (s : State ncpu) : FailsOnly Fault.NotInit (kill b pid s) := by
  unfold kill
  split
  · exact .ok _
  · dsimp only
    split
    · exact FailsOnly.bind addReady_fails fun _ => .ok _
    · exact .ok _

theorem chpr_fails (pid priority : ℤ) (s : State ncpu) :
    FailsOnly Fault.NotInit (chpr b pid priority s) := by
  unfold chpr
  split
  · exact .ok _
  split
  · exact .error (by simp [Fault.NotInit])
  dsimp only
  split
  · split
    · exact (MultiQueue.swapque_fails _ _ _ _).bind fun _ => .ok _
    · exact .ok _
  · exact .ok _

/-- Only init's own call of `exit` ends in the panic. -/
theorem exit_fails (notInit : s.initproc ≠ some p) : FailsOnly Fault.NotInit (exit b c p s) := by
  unfold exit
  rw [if_neg notInit]
  exact (wakeup1_fails _ _).bind fun u => (FailsOnly.foldlM (reparent_fails p) table u).bind
    fun v => toScheduler_fails _

theorem syscall_fails {code : Slot → Except Fault (State ncpu)}
    {result : Except Fault (State ncpu)} (fails : ∀ p, s.cpu c = some p → FailsOnly Fault.NotInit (code p))
    (taken : syscall c s code = some result) : FailsOnly Fault.NotInit result := by
  rcases syscall_some taken with ⟨p, current, -, rfl⟩
  exact fails p current

/-- No step leads to the panic, unless init calls `exit`. -/
theorem step_fails {e : Event ncpu} {result : Except Fault (State ncpu)}
    (notExit : ∀ c p, e = .exit c → s.cpu c = some p → s.initproc ≠ some p)
    (taken : step b s e = some result) : FailsOnly Fault.NotInit result := by
  cases e with
  | userinitAlloc kstack pgdir =>
      rcases Option.ite_none_right_eq_some.mp taken with ⟨-, same⟩
      rcases Option.some.inj same with rfl
      unfold userinitAlloc
      split
      · exact .error (by simp [Fault.NotInit])
      · exact .ok _
  | userinitReady =>
      simp only [step] at taken
      split at taken
      · rcases Option.some.inj taken with rfl
        exact addReady_fails.bind fun _ => .ok _
      · cases taken
  | scheduler c =>
      rcases Option.ite_none_right_eq_some.mp taken with ⟨-, same⟩
      rcases Option.some.inj same with rfl
      exact scheduler_fails c s
  | fork c => exact syscall_fails (fun p _ => .ok _) taken
  | forkKstack c page =>
      simp only [step] at taken
      split at taken
      · cases taken
      split at taken
      · rcases Option.some.inj taken with rfl
        exact .ok _
      · cases taken
  | forkCopyuvm c page =>
      simp only [step] at taken
      split at taken
      · cases taken
      split at taken
      · rcases Option.some.inj taken with rfl
        exact .ok _
      · cases taken
  | forkReady c =>
      simp only [step] at taken
      split at taken
      · cases taken
      split at taken
      · rcases Option.some.inj taken with rfl
        exact addReady_fails.bind fun _ => .ok _
      · cases taken
  | exec c pgdir => exact syscall_fails (fun p _ => .ok _) taken
  | exit c =>
      exact syscall_fails (fun p current => exit_fails (notExit c p rfl current)) taken
  | wait c => exact syscall_fails (fun p _ => wait_fails false c p s) taken
  | waitnstats c => exact syscall_fails (fun p _ => wait_fails true c p s) taken
  | sleep c address => exact syscall_fails (fun p _ => toScheduler_fails _) taken
  | wakeup chan => exact Option.some.inj taken ▸ wakeup1_fails chan s
  | kill c pid => exact syscall_fails (fun p _ => (kill_fails pid s).map _) taken
  | yield c =>
      rcases onCpu_some taken with ⟨p, -, rfl⟩
      exact yield_fails c p s
  | trapTimer c =>
      rcases onCpu_some taken with ⟨p, -, rfl⟩
      exact trapTimer_fails c p s
  | trapFault c => exact syscall_fails (fun p _ => .ok _) taken
  | chpr c pid priority => exact syscall_fails (fun p _ => chpr_fails pid priority s) taken
  | tick => exact Option.some.inj taken ▸ .ok _
  | updateprocesstimes => exact Option.some.inj taken ▸ .ok _

/-! ## The killed flag of init -/

/-- Init stays who it is once `userinit` is done. -/
def KeepsInit (s t : State ncpu) : Prop := t.initproc = s.initproc ∧ t.boot = s.boot

theorem SameRest.keepsInit (rest : SameRest s t) : KeepsInit s t := ⟨rest.initproc, rest.boot⟩

theorem KeepsInit.addReady (run : addReady b p s = .ok t) : KeepsInit s t := by
  rcases addReady_frame run with ⟨_, _, _, rfl, -⟩
  exact ⟨rfl, rfl⟩

theorem Leaf.keepsInit {e : Event ncpu} (leaf : Leaf b s e t) (booted : s.boot = .done) :
    KeepsInit s t := by
  cases leaf with
  | userinitAlloc boot run => cases booted.symm.trans boot
  | userinitReady boot run => cases booted.symm.trans boot
  | fork current user =>
      unfold Xv6.fork
      split
      · exact ⟨rfl, rfl⟩
      · rename_i np u alloc
        rcases allocproc_some alloc with ⟨-, rfl⟩
        exact ⟨rfl, rfl⟩
  | forkKstack current frame =>
      rename_i page
      cases page <;> exact ⟨rfl, rfl⟩
  | forkCopyuvm current frame =>
      rename_i c q np page
      cases page with
      | none => exact ⟨rfl, rfl⟩
      | some page =>
          unfold Xv6.forkCopyuvm
          dsimp only
          split <;> exact ⟨rfl, rfl⟩
  | forkReady current frame run =>
      rcases bind_eq_ok.mp run with ⟨u, added, eq⟩
      rcases Except.ok.inj eq with rfl
      have keeps := KeepsInit.addReady added
      exact ⟨keeps.1, keeps.2⟩
  | exec current user => exact ⟨rfl, rfl⟩
  | kill run =>
      rcases kill_ok run with ⟨-, -, rfl⟩ | ⟨q, -, -, ⟨-, woken⟩ | ⟨-, rfl⟩⟩
      · exact ⟨rfl, rfl⟩
      · exact (wake_rest woken).keepsInit
      · exact ⟨rfl, rfl⟩
  | trapFault current => exact ⟨rfl, rfl⟩
  | chpr run =>
      rcases chpr_ok run with rfl | ⟨-, q, multiqueue, -, rfl⟩ <;> exact ⟨rfl, rfl⟩
  | tick => exact ⟨rfl, rfl⟩
  | updateprocesstimes => exact ⟨rfl, rfl⟩

theorem Action.keepsInit (action : Action b admitted chans s t) (booted : s.boot = .done) :
    KeepsInit s t := by
  cases action with
  | leaf _ leaf => exact leaf.keepsInit booted
  | wake _ _ run => exact (wake_rest run).keepsInit
  | reparent current user chan run =>
      rename_i c curproc p
      unfold Xv6.reparent at run
      split at run
      · dsimp only at run
        split at run
        · exact (wakeup1_rest run).keepsInit
        · exact Except.ok.inj run ▸ ⟨rfl, rfl⟩
      · exact Except.ok.inj run ▸ ⟨rfl, rfl⟩
  | yield current run =>
      have keeps := KeepsInit.addReady run
      exact ⟨keeps.1, keeps.2⟩
  | pickNone run =>
      rcases pickNext_frame run with ⟨_, _, rfl⟩
      exact ⟨rfl, rfl⟩
  | dispatch idle picks ready =>
      rcases picks.frame with ⟨_, _, rfl⟩
      exact ⟨rfl, rfl⟩
  | _ => exact ⟨rfl, rfl⟩

/-- Nobody is killed before `userinit` is done, and init is not killed. -/
def InitUnmarked (s : State ncpu) : Prop :=
  ∀ p, (s.proc p).killed = true → s.boot = .done ∧ s.initproc ≠ some p

/-- What is known of an event in a run in which init is left alone. -/
def LeftAlone (b : Build) (s : State ncpu) (e : Event ncpu) : Prop :=
  InitLeftAlone s e ∧ ∃ t, Steps b s e t

/-- A killed flag that an action sets is not that of init. -/
theorem InitUnmarked.action (unmarked : InitUnmarked s) (consistent : Consistent s)
    (action : Action b (LeftAlone b) chans s t) : InitUnmarked t := by
  intro p marked
  have before : s.boot = .done ∧ s.initproc ≠ some p := by
    cases action.marks with
    | same same => exact unmarked p (same.killed p ▸ marked)
    | taken _ _ _ _ same =>
        rw [same.killed] at marked
        simp only [allotted, State.log_proc, State.edit_proc] at marked
        grind [InitUnmarked]
    | cleared _ same =>
        rw [same.killed] at marked
        simp only [cleared, State.edit_proc] at marked
        grind [InitUnmarked]
    | killed allowed found same =>
        rename_i c pid q
        rw [same.killed, markKilled, State.edit_proc] at marked
        split at marked
        · rename_i isFound
          rcases allowed.2 with ⟨u, taken⟩
          rcases syscall_some taken with ⟨r, current, -, -⟩
          exact ⟨consistent.booted current, isFound ▸ allowed.1.2 q found⟩
        · exact unmarked p marked
    | faulted allowed current same =>
        rename_i c q
        rw [same.killed, markKilled, State.edit_proc] at marked
        split at marked
        · rename_i isCurrent
          exact ⟨consistent.booted current, isCurrent ▸ allowed.1.1 q current⟩
        · exact unmarked p marked
  have keeps := action.keepsInit before.1
  exact ⟨keeps.2.trans before.1, keeps.1 ▸ before.2⟩

theorem unmarked_of_reach (reach : KernelReach b InitLeftAlone s) : InitUnmarked s := by
  have enabled : KernelReach b (LeftAlone b) s := reach.enabled
  refine invariant_of_reach enabled InitUnmarked ?_ fun consistent unmarked action =>
    unmarked.action consistent action
  intro p marked
  cases marked

theorem initSafe_of_reach (reach : KernelReach b InitLeftAlone s) : InitSafe b s := by
  have consistent := consistent_of_reach reach
  have unmarked := unmarked_of_reach reach
  have notKilled : ∀ i, s.initproc = some i → (s.proc i).killed ≠ true := by
    intro i init marked
    exact (unmarked i marked).2 init
  refine ⟨?_, ?_, ?_, consistent.family.init, ?_, ?_⟩
  · rintro ⟨i, init, marked⟩
    exact notKilled i init marked
  · intro c i current init behaves
    exact notKilled i init (behaves i current init)
  · intro e behaves failed
    refine step_fails ?_ failed _ rfl rfl
    rintro c p rfl current init
    exact notKilled p init (behaves p current init)
  · intro p notInit live
    rcases Option.ne_none_iff_exists'.mp (consistent.family.child p live notInit) with ⟨q, parent⟩
    exact ⟨q, parent, consistent.family.parent p q live parent⟩
  · intro c p child current user zombie own
    rcases wait_reaps (b := b) current user zombie own with ⟨q, isZombie, child, waits, -⟩
    exact ⟨q, isZombie, child, waits⟩

/-- A call of `kill` that finds init sets its killed flag. -/
theorem kill_marksInit {pid : ℤ} (taken : Steps b s (.kill c pid) t) (found : findPid pid s = some p)
    (init : s.initproc = some p) : InitMarked t := by
  rcases syscall_some taken with ⟨r, -, -, run⟩
  cases kills : kill b pid s with
  | error f =>
      rw [kills] at run
      cases run
  | ok result =>
      rcases result with ⟨result, u⟩
      rw [kills] at run
      rcases Except.ok.inj run with rfl
      rcases kill_ok kills with ⟨none, -⟩ | ⟨q, found', -, ⟨-, woken⟩ | ⟨-, rfl⟩⟩
      · cases found.symm.trans none
      · rcases Option.some.inj (found.symm.trans found') with rfl
        refine ⟨p, (wake_rest woken).initproc.trans init, ?_⟩
        rw [wake_proc woken, if_pos rfl]
        simp [Xv6.woken, markKilled]
      · rcases Option.some.inj (found.symm.trans found') with rfl
        exact ⟨p, init, by simp [markKilled]⟩

/-- In every run in which init is left alone it never enters `exit`. A call of `kill` that finds it
marks it for `exit`, and no other event does. -/
theorem init_survives (reach : KernelReach b InitLeftAlone s) : InitSafe b s ∧
    ∀ e t, InitBehaves s e → Steps b s e t → (InitMarked t ↔ ¬SparesInit s e) := by
  refine ⟨initSafe_of_reach reach, fun e t behaves taken => ⟨?_, ?_⟩⟩
  · intro marked spares
    exact (initSafe_of_reach (reach.next ⟨behaves, spares⟩ taken)).unmarked marked
  · intro finds
    cases e with
    | kill c pid =>
        simp only [SparesInit, not_forall, not_not] at finds
        rcases finds with ⟨p, found, init⟩
        exact kill_marksInit taken found init
    | _ => exact absurd trivial finds

/-- A test for the events of runs in which init behaves. -/
def initBehaves (s : State ncpu) : Event ncpu → Bool
  | .exit c | .trapFault c => (s.cpu c).all fun p => s.initproc ≠ some p
  | _ => true

theorem initBehaves_behaves (s : State ncpu) (e : Event ncpu) (admitted : initBehaves s e = true) :
    InitBehaves s e := by
  cases e with
  | exit c =>
      intro p current init
      simp [initBehaves, current, init] at admitted
  | trapFault c =>
      intro p current init
      simp [initBehaves, current, init] at admitted
  | _ => trivial

/-- A test for some events that leave init alone. -/
def leavesAlone (s : State ncpu) (e : Event ncpu) : Bool :=
  initBehaves s e && match e with
    | .kill _ pid => (findPid pid s).all fun p => s.initproc ≠ some p
    | _ => true

theorem leavesAlone_leftAlone (s : State ncpu) (e : Event ncpu)
    (admitted : leavesAlone s e = true) : InitLeftAlone s e := by
  rcases Bool.and_eq_true_iff.mp admitted with ⟨behaves, spares⟩
  refine ⟨initBehaves_behaves s e behaves, ?_⟩
  cases e with
  | kill c pid =>
      intro p found init
      simp [found, init] at spares
  | _ => trivial

/-- Init waits, and its child is killed by itself and exits. -/
def childKilled (ncpu : ℕ) [NeZero ncpu] : List (Event ncpu) :=
  boot ncpu ++ (forks ncpu ++ [.wait 0, .kill 0 2, .exit 0])

/-- The child of init is left to init. -/
theorem init_survives_childKilled :
    InitSafe .default (after .default (childKilled 1)) ∧
      ∀ e t, InitBehaves (after .default (childKilled 1)) e →
        Steps .default (after .default (childKilled 1)) e t →
        (InitMarked t ↔ ¬SparesInit (after .default (childKilled 1)) e) :=
  init_survives (after_reach_of leavesAlone_leftAlone (by decide +kernel))

theorem exit_panics (current : s.cpu c = some p) (user : (s.proc p).frame = .user)
    (init : s.initproc = some p) : step b s (.exit c) = some (.error (.panic "init exiting")) := by
  simp only [step, syscall, current, user, if_true, exit, init]
  rfl

/-- A child of init kills init while it waits, and init returns from `wait`. -/
def initKilled (ncpu : ℕ) [NeZero ncpu] : List (Event ncpu) :=
  boot ncpu ++ (forks ncpu ++ [.wait 0, .kill 0 1, .sleep 0 7, .scheduler 0])

/-- Init is led to `exit`. -/
theorem init_survives_incorrect :
    ¬∀ s : State 1, KernelReach .default InitBehaves s → InitSafe .default s := by
  intro claimed
  have reach : KernelReach .default InitBehaves (after .default (initKilled 1)) :=
    after_reach_of initBehaves_behaves (by decide +kernel)
  have ends : (after .default (initKilled 1)).cpu 0 = some 0 ∧
      (after .default (initKilled 1)).initproc = some 0 ∧
      ((after .default (initKilled 1)).proc 0).frame = .user ∧
      ((after .default (initKilled 1)).proc 0).killed = true := by decide +kernel
  rcases ends with ⟨current, init, user, killed⟩
  apply (claimed _ reach).noPanic (.exit 0)
  · intro p current' _
    rw [← Option.some.inj (current.symm.trans current')]
    exact killed
  · exact exit_panics current user init

end Xv6
