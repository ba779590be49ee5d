import Mathlib

/-!
# The process table and the state of the scheduler

The data of `proc.h` and the globals of `proc.c` that the process life cycle reads or writes:
`ptable`, `initproc`, `nextpid`, the `proc` field of every CPU and `ticks`. Fields that no
modelled function uses (`sz`, `tf`, `ofile`, `cwd`, `name`) are left out.

A pointer into `ptable.proc` is a slot number, and a null pointer is `none`. Two things that the C
code keeps implicitly on kernel stacks are fields of `Proc` here: `context` says what `swtch`
resumes, and `frame` says how far a process has come in `fork`, whose work is spread over
several critical sections.

`State.hist` is a history variable: assignments write to it and no function reads it. The
latest entry comes first.
-/

namespace Xv6

/-- `NPROC` -/
abbrev nproc : ℕ := 64

/-- `NUMPR` -/
abbrev numpr : ℕ := 3

/-- `HIPR`, the most urgent level. -/
abbrev hipr : ℤ := 1

/-- `MDPR` -/
abbrev mdpr : ℤ := 2

/-- `LWPR` -/
abbrev lwpr : ℤ := 3

/-- `QUANTA`, in clock ticks. -/
abbrev quanta : BitVec 32 := 5

/-- The scheduling flag the kernel is built with. -/
inductive Build where
  | default
  | fcfs
  | mlq
  | dmlq
  deriving DecidableEq, Repr

/-- A `struct proc *` that is not null, as an index of `ptable.proc`. -/
abbrev Slot := Fin nproc

/-- A page of physical memory. -/
abbrev Page := ℕ

/-- A C `int` after a computation whose exact result is the argument. -/
def wrapInt (value : ℤ) : ℤ := value.bmod (2 ^ 32)

inductive ProcState where
  | unused
  | embryo
  | sleeping
  | runnable
  | running
  | zombie
  deriving DecidableEq, Repr

/-- A sleep channel. Channels are compared as addresses: those of `struct proc`s are kept
apart from those of all other kernel objects. -/
inductive Chan where
  | null
  | proc (p : Slot)
  | object (address : ℕ)
  deriving DecidableEq, Repr

/-- The channel that a `struct proc *` is. -/
def Chan.ofProc : Option Slot → Chan
  | none => .null
  | some p => .proc p

/-- The call of `sched` (or the initial context) that `swtch` to a process returns from. -/
inductive Context where
  | forkret
  | yield
  | sleep
  | wait
  | waitnstats
  | exit
  deriving DecidableEq, Repr

/-- The part of `fork` that its caller runs next, with the local `np`; `user` outside `fork`. -/
inductive Frame where
  | user
  | kstack (np : Slot)
  | copyuvm (np : Slot)
  | ready (np : Slot)
  deriving DecidableEq, Repr

structure Proc where
  pgdir : Option Page := none
  kstack : Option Page := none
  state : ProcState := .unused
  pid : ℤ := 0
  parent : Option Slot := none
  context : Context := .forkret
  chan : Chan := .null
  killed : Bool := false
  switchnum : ℤ := 0
  timecreated : BitVec 32 := 0
  timeready : BitVec 32 := 0
  timerun : BitVec 32 := 0
  timeslept : BitVec 32 := 0
  timescheduled : BitVec 32 := 0
  priority : ℤ := 0
  frame : Frame := .user

/-- What `waitnstats` reports: run, ready and sleep time. -/
abbrev Times := BitVec 32 × BitVec 32 × BitVec 32

/-- An entry of the history. -/
inductive Entry where
  /-- `p->state = state`, except when `p` is reaped -/
  | state (p : Slot) (state : ProcState)
  /-- `p->parent = parent`, except when `p` is reaped -/
  | parent (p : Slot) (parent : Option Slot)
  /-- `waiter` has released the slot of its child and returns, from `waitnstats` with times -/
  | reap (waiter child : Slot) (times : Option Times)
  /-- the ready queue was full and has dropped `p` -/
  | dropped (p : Slot)
  /-- one execution of `updateprocesstimes` -/
  | tick
  deriving DecidableEq, Repr

/-- How a function can fail to reach its end. -/
inductive Fault where
  | panic (message : String)
  /-- an array access outside the array -/
  | outOfBounds
  /-- a null pointer is dereferenced -/
  | nullPointer
  /-- `swtch` to a context that is not a saved one -/
  | staleContext
  /-- a loop whose exit test never holds -/
  | endless
  deriving DecidableEq, Repr

end Xv6
