import Xv6.Proc.MultiQueue
import Xv6.Proc.PriorityQueue

/-!
# The globals of `proc.c`

The state that the critical sections of `ptable.lock` work on, and the assignments they are made
of. An assignment to `state` or `parent` of a process leaves an entry in the history.
-/

namespace Xv6

/-- How far `userinit` has come on the boot CPU. -/
inductive Boot where
  | start
  | allocated (np : Slot)
  | done
  deriving DecidableEq, Repr

/-- The globals; `cpu c` is `cpus[c].proc`. The initial values are those of the boot CPU's call
of `userinit`. -/
structure State (ncpu : ℕ) where
  proc : Slot → Proc := fun _ => {}
  initproc : Option Slot := none
  nextpid : ℤ := 1
  ticks : BitVec 32 := 0
  cpu : Fin ncpu → Option Slot := fun _ => none
  pqueue : PQueue := {}
  multiqueue : MultiQueue := {}
  boot : Boot := .start
  hist : List Entry := []

variable {ncpu : ℕ}

namespace State

/-- An assignment to fields of one process. -/
def edit (s : State ncpu) (p : Slot) (change : Proc → Proc) : State ncpu :=
  { s with proc := Function.update s.proc p (change (s.proc p)) }

def log (s : State ncpu) (entry : Entry) : State ncpu := { s with hist := entry :: s.hist }

/-- `p->state = state` -/
def setState (s : State ncpu) (p : Slot) (state : ProcState) : State ncpu :=
  (s.edit p fun q => { q with state }).log (.state p state)

/-- `p->parent = parent` -/
def setParent (s : State ncpu) (p : Slot) (parent : Option Slot) : State ncpu :=
  (s.edit p fun q => { q with parent }).log (.parent p parent)

/-- `c->proc = p` -/
def setCpu (s : State ncpu) (c : Fin ncpu) (p : Option Slot) : State ncpu :=
  { s with cpu := Function.update s.cpu c p }

variable (s : State ncpu) (p q : Slot) (change : Proc → Proc) (entry : Entry) (st : ProcState)
  (parent : Option Slot) (c : Fin ncpu)

theorem edit_proc : (s.edit p change).proc q = if q = p then change (s.proc p) else s.proc q := by
  simp [edit, Function.update_apply]

@[simp] theorem edit_proc_self : (s.edit p change).proc p = change (s.proc p) := by simp [edit]
theorem edit_edit (change' : Proc → Proc) :
    (s.edit p change).edit p change' = s.edit p fun q => change' (change q) := by
  simp [edit]

theorem edit_comm {s : State ncpu} {p q : Slot} {change change' : Proc → Proc}
    (different : p ≠ q) :
    (s.edit p change).edit q change' = (s.edit q change').edit p change := by
  simp only [edit, Function.update_of_ne different, Function.update_of_ne different.symm]
  rw [Function.update_comm different]

@[simp] theorem edit_initproc : (s.edit p change).initproc = s.initproc := rfl
@[simp] theorem edit_ticks : (s.edit p change).ticks = s.ticks := rfl
@[simp] theorem edit_cpu : (s.edit p change).cpu = s.cpu := rfl
@[simp] theorem edit_pqueue : (s.edit p change).pqueue = s.pqueue := rfl
@[simp] theorem edit_multiqueue : (s.edit p change).multiqueue = s.multiqueue := rfl
@[simp] theorem edit_boot : (s.edit p change).boot = s.boot := rfl
@[simp] theorem edit_hist : (s.edit p change).hist = s.hist := rfl

@[simp] theorem log_proc : (s.log entry).proc = s.proc := rfl
@[simp] theorem log_initproc : (s.log entry).initproc = s.initproc := rfl
@[simp] theorem log_ticks : (s.log entry).ticks = s.ticks := rfl
@[simp] theorem log_cpu : (s.log entry).cpu = s.cpu := rfl
@[simp] theorem log_pqueue : (s.log entry).pqueue = s.pqueue := rfl
@[simp] theorem log_multiqueue : (s.log entry).multiqueue = s.multiqueue := rfl
@[simp] theorem log_boot : (s.log entry).boot = s.boot := rfl
@[simp] theorem log_hist : (s.log entry).hist = entry :: s.hist := rfl

theorem setState_proc : (s.setState p st).proc q =
    if q = p then { s.proc p with state := st } else s.proc q := by
  simp [setState, edit_proc]

@[simp] theorem setState_proc_self : (s.setState p st).proc p = { s.proc p with state := st } := by
  simp [setState]
@[simp] theorem setState_initproc : (s.setState p st).initproc = s.initproc := rfl
@[simp] theorem setState_ticks : (s.setState p st).ticks = s.ticks := rfl
@[simp] theorem setState_cpu : (s.setState p st).cpu = s.cpu := rfl
@[simp] theorem setState_pqueue : (s.setState p st).pqueue = s.pqueue := rfl
@[simp] theorem setState_multiqueue : (s.setState p st).multiqueue = s.multiqueue := rfl
@[simp] theorem setState_boot : (s.setState p st).boot = s.boot := rfl
@[simp] theorem setState_hist : (s.setState p st).hist = .state p st :: s.hist := rfl

theorem setParent_proc : (s.setParent p parent).proc q =
    if q = p then { s.proc p with parent } else s.proc q := by
  simp [setParent, edit_proc]

@[simp] theorem setParent_initproc : (s.setParent p parent).initproc = s.initproc := rfl
@[simp] theorem setParent_ticks : (s.setParent p parent).ticks = s.ticks := rfl
@[simp] theorem setParent_cpu : (s.setParent p parent).cpu = s.cpu := rfl
@[simp] theorem setParent_pqueue : (s.setParent p parent).pqueue = s.pqueue := rfl
@[simp] theorem setParent_multiqueue : (s.setParent p parent).multiqueue = s.multiqueue := rfl
@[simp] theorem setParent_boot : (s.setParent p parent).boot = s.boot := rfl
@[simp] theorem setParent_hist :
    (s.setParent p parent).hist = .parent p parent :: s.hist := rfl

@[simp] theorem setCpu_proc (running : Option Slot) : (s.setCpu c running).proc = s.proc := rfl
@[simp] theorem setCpu_initproc (running : Option Slot) :
    (s.setCpu c running).initproc = s.initproc := rfl
@[simp] theorem setCpu_ticks (running : Option Slot) :
    (s.setCpu c running).ticks = s.ticks := rfl
@[simp] theorem setCpu_pqueue (running : Option Slot) :
    (s.setCpu c running).pqueue = s.pqueue := rfl
@[simp] theorem setCpu_multiqueue (running : Option Slot) :
    (s.setCpu c running).multiqueue = s.multiqueue := rfl
@[simp] theorem setCpu_boot (running : Option Slot) : (s.setCpu c running).boot = s.boot := rfl
@[simp] theorem setCpu_hist (running : Option Slot) : (s.setCpu c running).hist = s.hist := rfl

theorem setCpu_cpu (running : Option Slot) (d : Fin ncpu) :
    (s.setCpu c running).cpu d = if d = c then running else s.cpu d := by
  simp [setCpu, Function.update_apply]

@[simp] theorem setCpu_cpu_self (running : Option Slot) :
    (s.setCpu c running).cpu c = running := by
  simp [setCpu]

end State

end Xv6
