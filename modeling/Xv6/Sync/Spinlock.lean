import Xv6.Lib.Transition
import Xv6.Proc.Basic

/-!
# Spinlocks, interrupts and kernel threads

The code of `spinlock.c` and of the functions that switch between kernel threads, as sequences of
instructions each of which reads or writes the flags, `struct cpu` or a lock once. Any CPU may run
its next instruction, and an interrupt may arrive between any two instructions of a CPU that has
interrupts on. The scheduler is that of the `DEFAULT` build, which looks for a `RUNNABLE` process; the
queues of the other builds are the subject of `Xv6.Proc`.
-/

namespace Xv6.Spin

open Transition

variable {ncpu : ℕ}

/-- A lock: `ptable.lock`, or another one by its address. -/
inductive LockName where
  | ptable
  | other (address : ℕ)
  deriving DecidableEq

/-- `struct spinlock`, without what is for debugging. -/
structure Spinlock (ncpu : ℕ) where
  locked : Bool := false
  cpu : Option (Fin ncpu) := none

/-- A kernel stack: that of a CPU's scheduler, or of a process. -/
inductive Thread (ncpu : ℕ) where
  | scheduler (c : Fin ncpu)
  | process (p : ℕ)
  deriving DecidableEq

/-- The process that a thread runs for. -/
def Thread.proc : Thread ncpu → Option ℕ
  | .scheduler _ => none
  | .process p => some p

inductive Panic where
  | mycpu
  | popcliInterruptible
  | popcli
  | acquire
  | release
  | sleep
  | sleepWithoutLk
  | schedPtableLock
  | schedLocks
  | schedRunning
  | schedInterruptible
  | zombieExit
  /-- a null pointer is dereferenced -/
  | trap
  deriving DecidableEq

inductive Instr where
  /-- `eflags = readeflags()` -/
  | readeflags
  | cli
  /-- `if(mycpu()->ncli == 0) mycpu()->intena = eflags & FL_IF` -/
  | saveIntena
  /-- `mycpu()->ncli += 1` -/
  | incNcli
  /-- `if(readeflags()&FL_IF) panic("popcli - interruptible")` -/
  | checkInterruptible
  /-- `if(--mycpu()->ncli < 0) panic("popcli")` -/
  | decNcli
  /-- `if(mycpu()->ncli == 0 && mycpu()->intena) sti()` -/
  | restore
  /-- `r = lock->locked` -/
  | readLocked (lk : LockName)
  /-- `r = r && lock->cpu == mycpu()` -/
  | readCpu (lk : LockName)
  /-- `if(holding(lk)) panic("acquire")` -/
  | checkAcquire (lk : LockName)
  /-- one turn of `while(xchg(&lk->locked, 1) != 0)` -/
  | xchg (lk : LockName)
  /-- `lk->cpu = mycpu()` -/
  | setCpu (lk : LockName)
  /-- `if(!holding(lk)) panic("release")` -/
  | checkRelease (lk : LockName)
  /-- `lk->cpu = 0` -/
  | clearCpu (lk : LockName)
  /-- `lk->locked = 0` -/
  | unlock (lk : LockName)
  /-- `p = mycpu()->proc` -/
  | readProc
  /-- `if(p == 0) panic("sleep")` -/
  | checkSleep
  /-- `if(lk == 0) panic("sleep without lk")` -/
  | checkLk (lk : Option LockName)
  /-- `p->state = state` -/
  | setState (state : ProcState)
  /-- the four checks of `sched` -/
  | checkSched
  /-- `intena = mycpu()->intena` -/
  | saveThread
  /-- `swtch(&p->context, mycpu()->scheduler)` -/
  | swtch
  /-- `mycpu()->intena = intena` -/
  | restoreThread
  /-- `panic("zombie exit")` -/
  | zombieExit
  | sti
  /-- in the `DEFAULT` branch of `scheduler`, up to the `swtch` to a `RUNNABLE` process, or past the last of them -/
  | dispatch
  /-- `c->proc = 0` -/
  | clearProc
  /-- the end of the loop of `scheduler` -/
  | again
  deriving DecidableEq

/-! ## The functions -/

def pushcli : List Instr := [.readeflags, .cli, .saveIntena, .incNcli]

def popcli : List Instr := [.checkInterruptible, .decNcli, .restore]

def holding (lk : LockName) : List Instr := pushcli ++ ([.readLocked lk, .readCpu lk] ++ popcli)

def acquire (lk : LockName) : List Instr :=
  pushcli ++ (holding lk ++ [.checkAcquire lk, .xchg lk, .setCpu lk])

def release (lk : LockName) : List Instr :=
  holding lk ++ ([.checkRelease lk, .clearCpu lk, .unlock lk] ++ popcli)

def myproc : List Instr := pushcli ++ ([.readProc] ++ popcli)

def sched : List Instr :=
  myproc ++ (holding .ptable ++ [.checkSched, .saveThread, .swtch, .restoreThread])

def yield : List Instr :=
  acquire .ptable ++ (myproc ++ ([.setState .runnable] ++ (sched ++ release .ptable)))

/-- `sleep`; nothing comes after `panic("sleep without lk")`. -/
def sleep (lk : Option LockName) : List Instr :=
  myproc ++ (.checkSleep :: .checkLk lk :: match lk with
    | none => []
    | some lk =>
        if lk ≠ .ptable then
          acquire .ptable ++ (release lk ++ ([.setState .sleeping] ++ (sched ++
            (release .ptable ++ acquire lk))))
        else [.setState .sleeping] ++ sched)

/-- `exit`, without what it does before it takes `ptable.lock`. -/
def exit : List Instr :=
  myproc ++ (acquire .ptable ++ ([.setState .zombie] ++ (sched ++ [.zombieExit])))

def forkret : List Instr := release .ptable

def scheduler : List Instr :=
  [.sti] ++ (acquire .ptable ++ ([.dispatch] ++ (release .ptable ++ [.again])))

/-! ## The machine -/

/-- The local variables of the functions above, and a constant. -/
structure Locals where
  /-- `eflags` of `pushcli` -/
  eflags : Bool := false
  /-- `r` of `holding` -/
  r : Bool := false
  /-- what `myproc` returned -/
  p : Option (Option ℕ) := none
  /-- `intena` of `sched` -/
  intena : Bool := false
  /-- whether interrupts are on where no lock is held, if that is fixed when the frame begins -/
  base : Option Bool := none

/-- An interrupt handler or the system calls of a user program on a kernel stack. -/
structure Frame where
  todo : List Instr := []
  locals : Locals := {}

/-- `struct cpu` and the state of the processor. -/
structure Cpu (ncpu : ℕ) where
  interrupts : Bool := false
  ncli : ℤ := 0
  intena : Bool := false
  proc : Option ℕ := none
  thread : Thread ncpu
  /-- the locks between the `xchg` that took them and the store that frees them -/
  held : List LockName := []
  panicked : Option Panic := none

structure Machine (ncpu : ℕ) where
  cpu : Fin ncpu → Cpu ncpu
  lock : LockName → Spinlock ncpu := fun _ => {}
  stack : Thread ncpu → List Frame
  state : ℕ → ProcState := fun _ => .unused

/-- The stack that `allocproc` and `fork` give a process: `forkret` above the user program, to which
`trapret` returns with interrupts on. -/
def newStack : List Frame := [{ todo := forkret }, { locals := { base := some true } }]

/-- Every CPU before its first call of `scheduler`, with the process that `userinit` made. -/
def boot (ncpu : ℕ) : Machine ncpu where
  cpu c := { thread := .scheduler c }
  stack
    | .scheduler _ => [{ todo := scheduler }]
    | .process p => if p = 0 then newStack else []
  state p := if p = 0 then .runnable else .unused

namespace Machine

def setCpu (s : Machine ncpu) (c : Fin ncpu) (cpu : Cpu ncpu) : Machine ncpu :=
  { s with cpu := Function.update s.cpu c cpu }

def setLock (s : Machine ncpu) (lk : LockName) (lock : Spinlock ncpu) : Machine ncpu :=
  { s with lock := Function.update s.lock lk lock }

def setStack (s : Machine ncpu) (t : Thread ncpu) (stack : List Frame) : Machine ncpu :=
  { s with stack := Function.update s.stack t stack }

def setState (s : Machine ncpu) (p : ℕ) (state : ProcState) : Machine ncpu :=
  { s with state := Function.update s.state p state }

end Machine

/-- What an instruction leads to. -/
inductive Outcome (ncpu : ℕ) where
  | panic (why : Panic)
  | next (s : Machine ncpu) (l : Locals)
  /-- the instruction is run again -/
  | spin
  | goto (code : List Instr)

/-- Code that calls `mycpu`, which must not be interruptible. -/
def mycpu (s : Machine ncpu) (c : Fin ncpu) (body : Outcome ncpu) : Outcome ncpu :=
  if (s.cpu c).interrupts then .panic .mycpu else body

/-- The effect of an instruction on the machine and on the locals of the frame that runs it. -/
def exec (s : Machine ncpu) (c : Fin ncpu) (l : Locals) : Instr → Option (Outcome ncpu)
  | .readeflags => some (.next s { l with eflags := (s.cpu c).interrupts })
  | .cli => some (.next (s.setCpu c { s.cpu c with interrupts := false }) l)
  | .saveIntena => some (mycpu s c
      (if (s.cpu c).ncli = 0 then .next (s.setCpu c { s.cpu c with intena := l.eflags }) l
        else .next s l))
  | .incNcli => some (mycpu s c (.next (s.setCpu c { s.cpu c with ncli := (s.cpu c).ncli + 1 }) l))
  | .checkInterruptible =>
      some (if (s.cpu c).interrupts then .panic .popcliInterruptible else .next s l)
  | .decNcli => some (mycpu s c
      (if (s.cpu c).ncli - 1 < 0 then .panic .popcli
        else .next (s.setCpu c { s.cpu c with ncli := (s.cpu c).ncli - 1 }) l))
  | .restore => some (mycpu s c
      (if (s.cpu c).ncli = 0 ∧ (s.cpu c).intena then
        .next (s.setCpu c { s.cpu c with interrupts := true }) l
        else .next s l))
  | .readLocked lk => some (.next s { l with r := (s.lock lk).locked })
  | .readCpu lk =>
      some (if l.r then mycpu s c (.next s { l with r := decide ((s.lock lk).cpu = some c) })
        else .next s l)
  | .checkAcquire _ => some (if l.r then .panic .acquire else .next s l)
  | .xchg lk =>
      if (s.lock lk).locked then some .spin
      else some (.next ((s.setLock lk { s.lock lk with locked := true }).setCpu c
        { s.cpu c with held := lk :: (s.cpu c).held }) l)
  | .setCpu lk => some (mycpu s c (.next (s.setLock lk { s.lock lk with cpu := some c }) l))
  | .checkRelease _ => some (if l.r then .next s l else .panic .release)
  | .clearCpu lk => some (.next (s.setLock lk { s.lock lk with cpu := none }) l)
  | .unlock lk => some (.next ((s.setLock lk { s.lock lk with locked := false }).setCpu c
      { s.cpu c with held := (s.cpu c).held.erase lk }) l)
  | .readProc => some (mycpu s c (.next s { l with p := some (s.cpu c).proc }))
  | .checkSleep => some (match l.p.join with
      | none => .panic .sleep
      | some _ => .next s l)
  | .checkLk lk => some (match lk with
      | none => .panic .sleepWithoutLk
      | some _ => .next s l)
  | .setState state => some (match l.p.join with
      | none => .panic .trap
      | some p => .next (s.setState p state) l)
  | .checkSched => some
      (if !l.r then .panic .schedPtableLock
        else mycpu s c
          (if (s.cpu c).ncli ≠ 1 then .panic .schedLocks
            else match l.p.join with
            | none => .panic .trap
            | some p =>
                if s.state p = .running then .panic .schedRunning
                else if (s.cpu c).interrupts then .panic .schedInterruptible
                else .next s l))
  | .saveThread => some (mycpu s c (.next s { l with intena := (s.cpu c).intena }))
  | .swtch =>
      some (mycpu s c (.next (s.setCpu c { s.cpu c with thread := .scheduler c }) l))
  | .restoreThread =>
      some (mycpu s c (.next (s.setCpu c { s.cpu c with intena := l.intena }) l))
  | .zombieExit => some (.panic .zombieExit)
  | .sti => some (.next (s.setCpu c { s.cpu c with interrupts := true }) l)
  | .dispatch => none
  | .clearProc => some (.next (s.setCpu c { s.cpu c with proc := none }) l)
  | .again => some (.goto scheduler)

/-- The functions that the rest of the kernel calls. -/
inductive Procedure where
  | acquire (lk : LockName)
  | release (lk : LockName)
  | holding (lk : LockName)
  | myproc
  | yield
  | sleep (lk : Option LockName)
  | exit
  deriving DecidableEq

def Procedure.code : Procedure → List Instr
  | .acquire lk => Spin.acquire lk
  | .release lk => Spin.release lk
  | .holding lk => Spin.holding lk
  | .myproc => Spin.myproc
  | .yield => Spin.yield
  | .sleep lk => Spin.sleep lk
  | .exit => Spin.exit

inductive Label (ncpu : ℕ) where
  | run (c : Fin ncpu)
  /-- the scheduler switches to a `RUNNABLE` process, or is done with its pass -/
  | dispatch (c : Fin ncpu) (choice : Option ℕ)
  | call (c : Fin ncpu) (procedure : Procedure)
  | interrupt (c : Fin ncpu)
  | iret (c : Fin ncpu)
  /-- `fork` makes a process `RUNNABLE` -/
  | spawn (c : Fin ncpu) (p : ℕ)
  /-- `wakeup1` and `kill` -/
  | wake (c : Fin ncpu) (p : ℕ)
  deriving DecidableEq

/-- The step of a label, if it can be taken. A CPU that panicked takes none. The test for `RUNNABLE` is
the one that `scheduler` makes in the `DEFAULT` build only. -/
def take (s : Machine ncpu) : Label ncpu → Option (Machine ncpu)
  | .run c =>
      let t := (s.cpu c).thread
      match s.stack t, (s.cpu c).panicked with
      | f :: below, none => match f.todo with
          | [] => none
          | i :: rest => (exec s c f.locals i).map fun
              | .panic why =>
                  s.setCpu c { s.cpu c with panicked := some why, interrupts := false }
              | .next s locals => s.setStack t ({ todo := rest, locals } :: below)
              | .spin => s
              | .goto code => s.setStack t ({ f with todo := code } :: below)
      | _, _ => none
  | .dispatch c choice =>
      let t := (s.cpu c).thread
      match s.stack t, (s.cpu c).panicked with
      | f :: below, none => match f.todo, choice with
          | .dispatch :: rest, none => some (s.setStack t ({ f with todo := rest } :: below))
          | .dispatch :: rest, some p =>
              if s.state p = .runnable then
                some (((s.setState p .running).setStack t
                  ({ f with todo := .clearProc :: .dispatch :: rest } :: below)).setCpu c
                  { s.cpu c with proc := some p, thread := .process p })
              else none
          | _, _ => none
      | _, _ => none
  | .call c procedure =>
      let t := (s.cpu c).thread
      match s.stack t, (s.cpu c).panicked with
      | f :: below, none => match f.todo with
          | [] => some (s.setStack t ({ f with todo := procedure.code } :: below))
          | _ => none
      | _, _ => none
  | .interrupt c =>
      let t := (s.cpu c).thread
      if (s.cpu c).interrupts then
        some ((s.setStack t ({ locals := { base := some false } } :: s.stack t)).setCpu c
          { s.cpu c with interrupts := false })
      else none
  | .iret c =>
      let t := (s.cpu c).thread
      match s.stack t, (s.cpu c).panicked with
      | f :: g :: below, none => match f.todo with
          | [] => some ((s.setStack t (g :: below)).setCpu c { s.cpu c with interrupts := true })
          | _ => none
      | _, _ => none
  | .spawn c p =>
      match s.stack (s.cpu c).thread, s.stack (.process p), (s.cpu c).panicked with
      | f :: _, [], none => match f.todo with
          | [] => some ((s.setStack (.process p) newStack).setState p .runnable)
          | _ => none
      | _, _, _ => none
  | .wake c p =>
      match s.stack (s.cpu c).thread, (s.cpu c).panicked with
      | f :: _, none => match f.todo with
          | [] => if s.state p = .sleeping then some (s.setState p .runnable) else none
          | _ => none
      | _, _ => none

/-- What the callers see to: `ptable.lock` is held where the process table is written and where
`sleep` is called with it, and a handler or system call returns with no lock held. -/
def Admitted (s : Machine ncpu) : Label ncpu → Prop
  | .call c (.sleep (some .ptable)) => .ptable ∈ (s.cpu c).held
  | .iret c => (s.cpu c).held = []
  | .spawn c _ | .wake c _ => .ptable ∈ (s.cpu c).held
  | _ => True

instance (s : Machine ncpu) : ∀ label, Decidable (Admitted s label)
  | .call _ (.sleep (some .ptable)) => inferInstanceAs (Decidable (_ ∈ _))
  | .call _ (.sleep (some (.other _))) | .call _ (.sleep none) | .call _ (.acquire _) | .call _ (.release _) | .call _ (.holding _)
  | .call _ .myproc | .call _ .yield | .call _ .exit => inferInstanceAs (Decidable True)
  | .iret c => inferInstanceAs (Decidable ((s.cpu c).held = []))
  | .spawn _ _ | .wake _ _ => inferInstanceAs (Decidable (_ ∈ _))
  | .run _ | .dispatch _ _ | .interrupt _ => inferInstanceAs (Decidable True)

/-- Any interleaving of the CPUs, with interrupts at any time. -/
def Runs (s : Machine ncpu) : Prop :=
  Reachable (fun s label t => take s label = some t) Admitted (boot ncpu) s

/-- A run of given labels. -/
def run : List (Label ncpu) → Machine ncpu → Option (Machine ncpu)
  | [], s => some s
  | label :: labels, s => if Admitted s label then (take s label).bind (run labels) else none

theorem runs_of_run (labels : List (Label ncpu)) :
    ∀ {s t : Machine ncpu}, Runs s → run labels s = some t → Runs t := by
  induction labels with
  | nil =>
      intro s t reach ran
      cases ran
      exact reach
  | cons label labels ih =>
      intro s t reach ran
      unfold run at ran
      split at ran
      · rename_i admitted
        rcases Option.bind_eq_some_iff.1 ran with ⟨s', taken, rest⟩
        exact ih (Reachable.next reach admitted taken) rest
      · cases ran

end Xv6.Spin
