import Xv6.Lib.Mutex
import Xv6.Proc.Kernel
import Xv6.Sync.Interrupts

/-!
# What spinlocks guarantee

The results about every interleaving of the instructions of all CPUs, with interrupts and with
processes that go from one CPU to another.
-/

namespace Xv6.Spin

open Transition

variable {ncpu : ℕ} {s s' : Machine ncpu} {c d : Fin ncpu} {f : Frame} {below : List Frame}
  {i : Instr} {rest : List Instr} {lk : LockName} {label : Label ncpu}

/-! ## A run -/

/-- A CPU runs its next instructions. -/
def turns (c : Fin ncpu) (count : ℕ) : List (Label ncpu) := List.replicate count (.run c)

/-- The first process is dispatched, takes a lock and calls `myproc`, while another CPU is on its way
to `ptable.lock`. -/
def lockRun : List (Label 2) :=
  turns 0 17 ++ (.dispatch 0 (some 0) :: turns 1 10 ++ (turns 0 15 ++ (.iret 0 ::
    .call 0 (.acquire (.other 7)) :: turns 0 16 ++ (.call 0 .myproc :: turns 0 8))))

/-- The process takes the same lock again, up to the check in `acquire`. -/
def againRun : List (Label 2) := lockRun ++ (.call 0 (.acquire (.other 7)) :: turns 0 13)

theorem lockRun_ends : (run lockRun (boot 2)).isSome := by decide +kernel

theorem againRun_ends : (run againRun (boot 2)).isSome := by decide +kernel

def lockEnd : Machine 2 := (run lockRun (boot 2)).get lockRun_ends

def againEnd : Machine 2 := (run againRun (boot 2)).get againRun_ends

theorem lockEnd_runs : Runs lockEnd :=
  runs_of_run lockRun Reachable.refl (Option.some_get _).symm

theorem againEnd_runs : Runs againEnd :=
  runs_of_run againRun Reachable.refl (Option.some_get _).symm

/-- A running CPU and the instruction that it is at. -/
structure At (s : Machine ncpu) (c : Fin ncpu) (l : Locals) (i : Instr) (rest : List Instr) :
    Prop where
  alive : (s.cpu c).panicked = none
  top : ∃ below, s.stack (s.cpu c).thread = { todo := i :: rest, locals := l } :: below

theorem exists_at (alive : (s.cpu c).panicked = none)
    (top : ((s.stack (s.cpu c).thread).head?.bind (·.todo.head?)) = some i) :
    ∃ l rest, At s c l i rest := by
  rcases Option.bind_eq_some_iff.1 top with ⟨⟨todo, l⟩, first, next⟩
  rcases List.head?_eq_some_iff.1 first with ⟨below, stack⟩
  rcases List.head?_eq_some_iff.1 next with ⟨rest, rfl⟩
  exact ⟨l, rest, alive, below, stack⟩

theorem At.pre {l : Locals} (runs : Runs s) (here : At s c l i rest) :
    Pre (i :: rest) l (s.view c) := by
  rcases here.top with ⟨below, stack⟩
  rcases runs.inv.active c here.alive with ⟨f, below', stack', pre, -⟩
  cases stack.symm.trans stack'
  exact pre

/-! ## Atomic locks -/

/-- The locks that each CPU holds. -/
def Machine.held (s : Machine ncpu) (c : Fin ncpu) : List LockName := (s.cpu c).held

theorem held_setCpu (s : Machine ncpu) (c : Fin ncpu) (cpu : Cpu ncpu) :
    (s.setCpu c cpu).held = Function.update s.held c cpu.held := by
  funext d
  unfold Machine.held
  by_cases here : d = c
  · rw [here, setCpu_self, Function.update_self]
  · rw [setCpu_other _ _ here, Function.update_of_ne here]

/-- A change of the flags of a CPU. -/
theorem held_flags (s : Machine ncpu) (c : Fin ncpu) {cpu : Cpu ncpu}
    (held : cpu.held = (s.cpu c).held) : (s.setCpu c cpu).held = s.held := by
  rw [held_setCpu, held]
  exact Function.update_eq_self ..

/-- An instruction leaves the locks that are held as they are, or takes one that is free, or frees one
that its CPU holds. -/
theorem exec_held {l l' : Locals} (inv : Inv s) (wp : i.wp (Pre rest) l (s.view c))
    (ran : exec s c l i = some (.next s' l')) :
    s'.held = s.held ∨ ∃ move, Mutex.Step s.held move s'.held := by
  cases i with
  | xchg lk =>
      simp only [exec] at ran
      split at ran <;> rename_i taken
      · cases ran
      · cases ran
        refine .inr ⟨.take c lk, ?_⟩
        rw [held_setCpu]
        refine .take ?_
        intro other member
        exact taken ((inv.locks.locked lk).2 ⟨other, member⟩)
  | unlock lk =>
      cases ran
      refine .inr ⟨.give c lk, ?_⟩
      rw [held_setCpu]
      exact .give wp.1
  | setState state =>
      unfold exec at ran
      dsimp only at ran
      split at ran <;> cases ran
      exact .inl rfl
  | _ =>
      left
      unfold exec mycpu at ran
      dsimp only at ran
      repeat' split at ran
      all_goals cases ran
      all_goals first | rfl | exact held_flags s c rfl

theorem take_held (inv : Inv s) (taken : take s label = some s') :
    s'.held = s.held ∨ ∃ move, Mutex.Step s.held move s'.held := by
  unfold take at taken
  cases label with
  | run c =>
      dsimp only at taken
      split at taken
      · rename_i f below stack alive
        split at taken
        · cases taken
        · rename_i i rest todo
          rcases Option.map_eq_some_iff.1 taken with ⟨outcome, ran, rfl⟩
          rcases inv.active c alive with ⟨f', below', stack', pre, -⟩
          cases stack.symm.trans stack'
          rw [todo] at pre
          cases outcome with
          | panic why => exact .inl (held_flags s c rfl)
          | next s₁ l =>
              have step := exec_held inv pre.wp ran
              exact step
          | spin => exact .inl rfl
          | goto code => exact .inl rfl
      · cases taken
  | dispatch c choice =>
      dsimp only at taken
      repeat' split at taken
      all_goals cases taken
      · exact .inl rfl
      · exact .inl (held_flags _ c rfl)
  | call c procedure =>
      dsimp only at taken
      repeat' split at taken
      all_goals cases taken
      exact .inl rfl
  | interrupt c =>
      dsimp only at taken
      split at taken <;> cases taken
      exact .inl (held_flags _ c rfl)
  | iret c =>
      dsimp only at taken
      repeat' split at taken
      all_goals cases taken
      exact .inl (held_flags _ c rfl)
  | spawn c p =>
      dsimp only at taken
      repeat' split at taken
      all_goals cases taken
      exact .inl rfl
  | wake c p =>
      dsimp only at taken
      repeat' split at taken
      all_goals cases taken
      exact .inl rfl

theorem Runs.atomic (runs : Runs s) : Mutex.Runs s.held := by
  refine Reachable.refine Machine.held rfl ?_ runs
  intro s label t reach _ taken
  rcases take_held (Runs.inv reach) taken with same | ⟨move, step⟩
  · exact .inl same
  · exact .inr ⟨move, trivial, step⟩

/-- What a CPU does that runs its next instruction. -/
theorem At.take_run {l l' : Locals} (here : At s c l i rest)
    (ran : exec s c l i = some (.next s' l')) : ∃ stack,
    take s (.run c) = some (s'.setStack (s.cpu c).thread stack) := by
  rcases here.top with ⟨below, stack⟩
  refine ⟨{ todo := rest, locals := l' } :: below, ?_⟩
  simp only [take, stack, here.alive, ran, Option.map_some]

/-- Seen from the locks, every interleaving is a run of atomic locks. A CPU holds the lock when its
`acquire` returns, and no longer after the store of its `release`. -/
theorem Runs.refines (runs : Runs s) : Mutex.Runs s.held ∧
    (∀ c l lk rest s', At s c l (.setCpu lk) rest → take s (.run c) = some s' → lk ∈ s'.held c) ∧
    (∀ c l lk rest s', At s c l (.unlock lk) rest → take s (.run c) = some s' → lk ∉ s'.held c) := by
  refine ⟨runs.atomic, ?_, ?_⟩
  · intro c l lk rest s' here taken
    rcases (here.pre runs).wp with ⟨off, member, -⟩
    have ran : exec s c l (.setCpu lk) =
        some (.next (s.setLock lk { s.lock lk with cpu := some c }) l) := by
      simp only [exec, mycpu_off off]
    rcases here.take_run ran with ⟨stack, same⟩
    cases taken.symm.trans same
    exact member
  · intro c l lk rest s' here taken
    rcases here.take_run rfl with ⟨stack, same⟩
    cases taken.symm.trans same
    show lk ∉ ((s.setLock lk _).setCpu c _).held c
    rw [held_setCpu, Function.update_self]
    exact (runs.inv.locks.nodup c).not_mem_erase

theorem refines_lockEnd : lockEnd.held 0 = [.other 7] ∧ Mutex.Runs lockEnd.held :=
  ⟨by decide +kernel, (Runs.refines lockEnd_runs).1⟩

/-- A lock's word is 1 exactly while one CPU, and only one, is between its `xchg` and the store in
`release`; and only that CPU's name can be in the lock. So `acquire` and `release` are told by
`holding` whether their own CPU holds the lock. -/
theorem locked_iff (runs : Runs s) (lk : LockName) :
    ((s.lock lk).locked = true ↔ ∃! c, lk ∈ s.held c) ∧
      (∀ c, (s.lock lk).cpu = some c → lk ∈ s.held c) ∧
      ∀ c l rest, At s c l (.checkAcquire lk) rest ∨ At s c l (.checkRelease lk) rest →
        (l.r = true ↔ lk ∈ s.held c) := by
  have exclusive := runs.atomic.exclusive
  refine ⟨(runs.inv.locks.locked lk).trans ⟨?_, ?_⟩, runs.inv.locks.named lk, ?_⟩
  · rintro ⟨c, member⟩
    exact ⟨c, member, fun d other => exclusive.single lk d c other member⟩
  · rintro ⟨c, member, -⟩
    exact ⟨c, member⟩
  · rintro c l rest (here | here)
    · exact (here.pre runs).wp.1
    · exact (here.pre runs).wp.1

theorem locked_iff_lockEnd : (lockEnd.lock (.other 7)).locked = true ∧
    ∃! c, LockName.other 7 ∈ lockEnd.held c :=
  ⟨by decide +kernel, ((locked_iff lockEnd_runs (.other 7)).1).1 (by decide +kernel)⟩

/-! ## Panics -/

/-- The mistakes of callers that `spinlock.c`, `sched` and `sleep` find. -/
inductive Misuse (cpu : Cpu ncpu) : Instr → Panic → Prop
  | acquire {lk : LockName} (held : lk ∈ cpu.held) : Misuse cpu (.checkAcquire lk) .acquire
  | release {lk : LockName} (free : lk ∉ cpu.held) : Misuse cpu (.checkRelease lk) .release
  | locks (others : cpu.held ≠ [.ptable]) : Misuse cpu .checkSched .schedLocks
  | sched (held : cpu.held = [.ptable]) (null : cpu.thread.proc = none) :
      Misuse cpu .checkSched .trap
  | sleep (null : cpu.thread.proc = none) : Misuse cpu .checkSleep .sleep
  | sleepWithoutLk : Misuse cpu (.checkLk none) .sleepWithoutLk
  | state {state : ProcState} (null : cpu.thread.proc = none) : Misuse cpu (.setState state) .trap

theorem held_eq_ptable {held : List LockName} {ncli : ℤ} (member : .ptable ∈ held)
    (count : ncli = held.length) (one : ncli = 1) : held = [.ptable] := by
  rcases List.length_eq_one_iff.1 (show held.length = 1 by omega) with ⟨lk, single⟩
  rw [single, List.mem_singleton] at member
  rw [single, member]

/-- The only panics are those that tell of a mistake of the caller, and each mistake leads to one:
nothing that other CPUs or interrupts do between the instructions makes a check fail or pass. -/
theorem panics_iff {l : Locals} {why : Panic} (runs : Runs s) (here : At s c l i rest) :
    exec s c l i = some (.panic why) ↔ Misuse (s.cpu c) i why := by
  have wp := (here.pre runs).wp
  constructor
  · intro ran
    cases i with
    | checkAcquire lk =>
        simp only [exec] at ran
        split at ran <;> rename_i r
        · cases ran
          exact .acquire (wp.1.1 r)
        · cases ran
    | checkRelease lk =>
        simp only [exec] at ran
        split at ran <;> rename_i r
        · cases ran
        · cases ran
          exact .release fun member => r (wp.1.2 member)
    | checkSleep =>
        rcases wp with ⟨p, -⟩
        simp only [exec, p, Option.join_some] at ran
        split at ran <;> rename_i null
        · cases ran
          exact .sleep null
        · cases ran
    | checkLk lk =>
        cases lk with
        | none =>
            cases ran
            exact .sleepWithoutLk
        | some lk => cases ran
    | setState state =>
        rcases wp with ⟨p, -⟩
        simp only [exec, p, Option.join_some] at ran
        split at ran <;> rename_i null
        · cases ran
          exact .state null
        · cases ran
    | checkSched =>
        rcases wp with ⟨r, off, p, stopped, member, count, -⟩
        have off' : (s.cpu c).interrupts = false := off
        simp only [exec, r, mycpu_off off, p, Option.join_some, off'] at ran
        split at ran <;> rename_i none
        · exact absurd none (by decide)
        · split at ran <;> rename_i one
          · cases ran
            refine .locks fun only => one ?_
            have ncli : (s.cpu c).ncli = (s.cpu c).held.length := count
            rw [ncli, only]
            rfl
          · split at ran
            · rename_i null
              cases ran
              refine .sched (held_eq_ptable member count (not_not.1 one)) null
            · rename_i q process
              have running : s.state q ≠ .running := by
                have own : s.stateOf (s.cpu c).thread ≠ .running := stopped
                rw [thread_of_self process] at own
                exact own
              rw [if_neg running] at ran
              cases ran
    | zombieExit => cases wp
    | checkInterruptible =>
        have off : (s.cpu c).interrupts = false := wp.1
        simp only [exec, off] at ran
        cases ran
    | decNcli =>
        rcases wp with ⟨off, positive, -⟩
        have positive' : 0 < (s.cpu c).ncli := positive
        simp only [exec, mycpu_off off] at ran
        split at ran
        · omega
        · cases ran
    | swtch =>
        have off := congrArg View.on wp.2.1
        simp only [exec, mycpu_off off] at ran
        cases ran
    | saveIntena | incNcli | restore | readCpu _ | setCpu _ | readProc | saveThread
    | restoreThread =>
        simp only [exec, mycpu_off wp.1] at ran
        repeat' split at ran
        all_goals cases ran
    | xchg _ =>
        simp only [exec] at ran
        split at ran <;> cases ran
    | readeflags | cli | readLocked _ | clearCpu _ | unlock _ | sti | dispatch | clearProc
    | again => cases ran
  · intro misuse
    cases misuse with
    | acquire held =>
        simp only [exec, wp.1.2 held, if_true]
    | release free =>
        have r : l.r = false := by
          rw [← Bool.not_eq_true]
          exact fun r => free (wp.1.1 r)
        simp only [exec, r, Bool.false_eq_true, if_false]
    | locks others =>
        rcases wp with ⟨r, off, p, stopped, member, count, -⟩
        have one : (s.cpu c).ncli ≠ 1 := fun one => others (held_eq_ptable member count one)
        simp only [exec, r, mycpu_off off, if_pos one]
        rfl
    | sched held null =>
        rcases wp with ⟨r, off, p, stopped, member, count, -⟩
        have ncli : (s.cpu c).ncli = (s.cpu c).held.length := count
        have one : (s.cpu c).ncli = 1 := by
          rw [ncli, held]
          rfl
        have p' : l.p = some none := p.trans (congrArg some null)
        simp only [exec, r, mycpu_off off, one, p', Option.join_some]
        rfl
    | sleep null =>
        have p' : l.p = some none := wp.1.trans (congrArg some null)
        simp only [exec, p', Option.join_some]
    | sleepWithoutLk => rfl
    | state null =>
        have p' : l.p = some none := wp.1.trans (congrArg some null)
        simp only [exec, p', Option.join_some]

theorem panics_againEnd : ∃ l rest, At againEnd 0 l (.checkAcquire (.other 7)) rest ∧
    exec againEnd 0 l (.checkAcquire (.other 7)) = some (.panic .acquire) := by
  rcases exists_at (s := againEnd) (c := 0) (i := .checkAcquire (.other 7)) (by decide +kernel)
    (by decide +kernel) with ⟨l, rest, here⟩
  exact ⟨l, rest, here, (panics_iff againEnd_runs here).2 (.acquire (by decide +kernel))⟩

/-! ## Interrupts -/

theorem Inv.interruptible (inv : Inv s) (on : (s.cpu c).interrupts = true) :
    s.view c = View.outside (s.view c).self (s.view c).intena := by
  have alive : (s.cpu c).panicked = none := by
    by_contra dead
    rw [inv.halted c dead] at on
    cases on
  rcases inv.active c alive with ⟨f, below, -, pre, -⟩
  exact (pre.resumable on).1

/-- A CPU never waits for itself. A lock that it spins for is held by another CPU, and an interrupt
arrives only when the CPU holds no lock that the handler could want. -/
theorem waits_for_others (runs : Runs s) :
    (∀ l lk rest, At s c l (.xchg lk) rest → (s.lock lk).locked = true →
      ∃ d, d ≠ c ∧ lk ∈ s.held d) ∧
    ((s.cpu c).interrupts = true → s.held c = [] ∧ (s.cpu c).ncli = 0) := by
  constructor
  · intro l lk rest here taken
    rcases (here.pre runs).wp with ⟨-, free, -⟩
    rcases (runs.inv.locks.locked lk).1 taken with ⟨d, member⟩
    refine ⟨d, ?_, member⟩
    rintro rfl
    exact free member
  · intro on
    have out := runs.inv.interruptible on
    exact ⟨congrArg View.held out, congrArg View.ncli out⟩

local instance threeCpus : NeZero 3 := ⟨three_ne_zero⟩

/-- One CPU holds `ptable.lock` in its scheduler, another one spins for it, and a third has just
enabled interrupts. -/
def spinRun : List (Label 3) := turns 0 17 ++ (turns 1 16 ++ turns 2 1)

theorem spinRun_ends : (run spinRun (boot 3)).isSome := by decide +kernel

def spinEnd : Machine 3 := (run spinRun (boot 3)).get spinRun_ends

theorem waits_spinEnd : (∃ d, d ≠ 1 ∧ LockName.ptable ∈ spinEnd.held d) ∧
    spinEnd.held 2 = [] ∧ (spinEnd.cpu 2).ncli = 0 := by
  have runs : Runs spinEnd := runs_of_run spinRun Reachable.refl (Option.some_get _).symm
  rcases exists_at (s := spinEnd) (c := 1) (i := .xchg .ptable) (by decide +kernel)
    (by decide +kernel) with ⟨l, rest, here⟩
  refine ⟨(waits_for_others runs).1 l .ptable rest here ?_, (waits_for_others runs).2 ?_⟩
  · decide +kernel
  · decide +kernel

/-- The user program at the bottom of the stack of a process runs with interrupts on. -/
def Bottom (t : Thread ncpu) (stack : List Frame) : Prop :=
  ∀ f, t.proc ≠ none → stack.getLast? = some f → f.locals.base = some true

theorem Bottom.top {t : Thread ncpu} {g : Frame} (bottom : Bottom t (f :: below))
    (base : g.locals.base = f.locals.base) : Bottom t (g :: below) := by
  intro h process last
  cases below with
  | nil =>
      cases last
      exact base.trans (bottom f process rfl)
  | cons e rest =>
      rw [List.getLast?_cons_cons] at last
      exact bottom h process (by rw [List.getLast?_cons_cons]; exact last)

theorem Bottom.push {t : Thread ncpu} {stack : List Frame} (bottom : Bottom t stack)
    (nonempty : stack ≠ []) : Bottom t (f :: stack) := by
  intro h process last
  cases stack with
  | nil => exact absurd rfl nonempty
  | cons e rest =>
      rw [List.getLast?_cons_cons] at last
      exact bottom h process last

theorem Bottom.pop {t : Thread ncpu} {g : Frame} (bottom : Bottom t (f :: g :: below)) :
    Bottom t (g :: below) := by
  intro h process last
  exact bottom h process (by rw [List.getLast?_cons_cons]; exact last)

theorem exec_base {l l' : Locals} (ran : exec s c l i = some (.next s' l')) :
    l'.base = l.base ∧ s'.stack = s.stack := by
  unfold exec mycpu at ran
  cases i
  all_goals dsimp only at ran
  all_goals repeat' split at ran
  all_goals cases ran
  all_goals exact ⟨rfl, rfl⟩

/-- The stacks after one of them has been replaced. -/
theorem bottom_update {all : Thread ncpu → List Frame} {t : Thread ncpu} {stack : List Frame}
    (bottom : ∀ t, Bottom t (all t)) (new : Bottom t stack) (u : Thread ncpu) :
    Bottom u (Function.update all t stack u) := by
  by_cases same : u = t
  · subst same
    rw [Function.update_self]
    exact new
  · rw [Function.update_of_ne same]
    exact bottom u

theorem bottom_newStack (t : Thread ncpu) : Bottom t newStack := by
  intro f _ last
  cases last
  rfl

theorem take_bottom (inv : Inv s) (bottom : ∀ t, Bottom t (s.stack t))
    (taken : take s label = some s') : ∀ t, Bottom t (s'.stack t) := by
  unfold take at taken
  cases label with
  | run c =>
      dsimp only at taken
      split at taken
      · rename_i f below stack alive
        have own := bottom (s.cpu c).thread
        rw [stack] at own
        split at taken
        · cases taken
        · rename_i i rest todo
          rcases Option.map_eq_some_iff.1 taken with ⟨outcome, ran, rfl⟩
          cases outcome with
          | panic why => exact bottom
          | next s₁ l =>
              rcases exec_base ran with ⟨base, same⟩
              show ∀ t, Bottom t (Function.update s₁.stack _ _ t)
              rw [same]
              exact bottom_update bottom (own.top base)
          | spin => exact bottom
          | goto code => exact bottom_update bottom (own.top rfl)
      · cases taken
  | dispatch c choice =>
      dsimp only at taken
      split at taken
      · rename_i f below stack alive
        have own := bottom (s.cpu c).thread
        rw [stack] at own
        split at taken
        · cases taken
          exact bottom_update bottom (own.top rfl)
        · split at taken <;> cases taken
          exact bottom_update bottom (own.top rfl)
        · cases taken
      · cases taken
  | call c procedure =>
      dsimp only at taken
      split at taken
      · rename_i f below stack alive
        have own := bottom (s.cpu c).thread
        rw [stack] at own
        split at taken <;> cases taken
        exact bottom_update bottom (own.top rfl)
      · cases taken
  | interrupt c =>
      dsimp only at taken
      split at taken <;> cases taken
      exact bottom_update bottom ((bottom _).push (inv.live c))
  | iret c =>
      dsimp only at taken
      split at taken
      · rename_i f g below stack alive
        have own := bottom (s.cpu c).thread
        rw [stack] at own
        split at taken <;> cases taken
        exact bottom_update bottom own.pop
      · cases taken
  | spawn c p =>
      dsimp only at taken
      repeat' split at taken
      all_goals cases taken
      exact bottom_update bottom (bottom_newStack _)
  | wake c p =>
      dsimp only at taken
      repeat' split at taken
      all_goals cases taken
      exact bottom

theorem Runs.bottom (runs : Runs s) : ∀ t, Bottom t (s.stack t) := by
  refine Reachable.invariant runs (fun s => ∀ t, Bottom t (s.stack t)) ?_ ?_
  · intro t f process last
    cases t with
    | scheduler c => exact absurd rfl process
    | process p =>
        change (if p = 0 then newStack else []).getLast? = some f at last
        split at last
        · exact bottom_newStack (.process p : Thread ncpu) f process last
        · cases last
  · intro s label t reach bottom _ taken
    exact take_bottom (Runs.inv reach) bottom taken

/-- No two CPUs run on one stack. A process whose state is not `RUNNING` while a CPU still runs on its
stack keeps others from choosing it by `ptable.lock`, which is the only lock that the CPU holds when it
leaves a stack. -/
theorem stacks_apart (runs : Runs s) :
    (∀ c d, (s.cpu c).thread = (s.cpu d).thread → c = d) ∧
    (∀ c p, (s.cpu c).thread = .process p → s.state p ≠ .running → .ptable ∈ s.held c) ∧
    ∀ c l rest, At s c l .swtch rest ∨ At s c l .dispatch rest →
      s.held c = [.ptable] ∧ (s.cpu c).ncli = 1 ∧ (s.cpu c).interrupts = false := by
  refine ⟨runs.inv.apart, runs.inv.stopped, ?_⟩
  rintro c l rest (here | here)
  · rcases (here.pre runs).wp with ⟨-, view, -⟩
    exact ⟨congrArg View.held view, congrArg View.ncli view, congrArg View.on view⟩
  · rcases (here.pre runs).wp with ⟨view, -⟩
    exact ⟨congrArg View.held view, congrArg View.ncli view, congrArg View.on view⟩

theorem stacks_lockEnd : (lockEnd.cpu 0).thread = .process 0 ∧
    (lockEnd.cpu 1).thread ≠ (lockEnd.cpu 0).thread := by
  refine ⟨by decide +kernel, ?_⟩
  intro same
  exact absurd ((stacks_apart lockEnd_runs).1 1 0 same) (by decide)

/-- `myproc` returns the process of the thread that called it, on whatever CPUs the thread was while it
ran `myproc`. -/
theorem myproc_own (runs : Runs s) (t : Thread ncpu) (member : f ∈ s.stack t) (p : Option ℕ)
    (returned : f.locals.p = some p) : p = t.proc :=
  runs.inv.returned t f member p returned

theorem myproc_lockEnd : ∃ f ∈ lockEnd.stack (.process 0), f.locals.p = some (some 0) := by
  have top : ((lockEnd.stack (.process 0)).head?.bind (·.locals.p)).isSome := by decide +kernel
  rcases Option.isSome_iff_exists.1 top with ⟨p, result⟩
  rcases Option.bind_eq_some_iff.1 result with ⟨f, first, returned⟩
  have member := List.mem_of_mem_head? first
  rw [myproc_own lockEnd_runs (.process 0) member p returned] at returned
  exact ⟨f, member, returned⟩

end Xv6.Spin
