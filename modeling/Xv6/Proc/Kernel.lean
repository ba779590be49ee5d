import Xv6.Lib.Transition
import Xv6.Proc.LifeCycle

/-!
# Steps of the kernel

An event is one critical section of `ptable.lock`, or one piece of code between two of them that
writes to the process table without the lock. `step` runs an event where the kernel can: a system
call needs a process on the CPU that is not in the middle of `fork`, the scheduler a CPU without
one. The order of events is free otherwise. Each execution of `updateprocesstimes` is noted in the
history.
-/

namespace Xv6

inductive Event (ncpu : ℕ) where
  | userinitAlloc (kstack pgdir : Page)
  | userinitReady
  | scheduler (c : Fin ncpu)
  | fork (c : Fin ncpu)
  | forkKstack (c : Fin ncpu) (page : Option Page)
  | forkCopyuvm (c : Fin ncpu) (page : Option Page)
  | forkReady (c : Fin ncpu)
  | exec (c : Fin ncpu) (pgdir : Page)
  | exit (c : Fin ncpu)
  | wait (c : Fin ncpu)
  | waitnstats (c : Fin ncpu)
  /-- a call from outside `proc.c`, whose channels are addresses of other objects -/
  | sleep (c : Fin ncpu) (address : ℕ)
  /-- by a process or an interrupt handler -/
  | wakeup (chan : Chan)
  | kill (c : Fin ncpu) (pid : ℤ)
  | yield (c : Fin ncpu)
  /-- the end of a timer interrupt, with the checks for the end of the quantum -/
  | trapTimer (c : Fin ncpu)
  /-- a fault in user space: `myproc()->killed = 1` -/
  | trapFault (c : Fin ncpu)
  | chpr (c : Fin ncpu) (pid priority : ℤ)
  /-- `ticks++` -/
  | tick
  | updateprocesstimes
  deriving DecidableEq, Repr

variable {ncpu : ℕ}

/-- Run the code on the process of CPU `c`, wherever in the kernel it is. -/
def onCpu (c : Fin ncpu) (s : State ncpu) (code : Slot → Except Fault (State ncpu)) :
    Option (Except Fault (State ncpu)) :=
  (s.cpu c).map code

/-- Run the code on the process of CPU `c` if it is not in the middle of `fork`. -/
def syscall (c : Fin ncpu) (s : State ncpu) (code : Slot → Except Fault (State ncpu)) :
    Option (Except Fault (State ncpu)) :=
  match s.cpu c with
  | none => none
  | some p => if (s.proc p).frame = .user then some (code p) else none

/-- The effect of an event, or `none` if the kernel cannot do it in this state. -/
def step (b : Build) (s : State ncpu) : Event ncpu → Option (Except Fault (State ncpu))
  | .userinitAlloc kstack pgdir =>
      if s.boot = .start then some (userinitAlloc b kstack pgdir s) else none
  | .userinitReady =>
      match s.boot with
      | .allocated p => some (userinitReady b p s)
      | _ => none
  | .scheduler c => if s.cpu c = none then some (scheduler b c s) else none
  | .fork c => syscall c s fun p => .ok (fork p s)
  | .forkKstack c page =>
      match s.cpu c with
      | none => none
      | some p =>
          match (s.proc p).frame with
          | .kstack np => some (.ok (forkKstack p np page s))
          | _ => none
  | .forkCopyuvm c page =>
      match s.cpu c with
      | none => none
      | some p =>
          match (s.proc p).frame with
          | .copyuvm np => some (.ok (forkCopyuvm b p np page s))
          | _ => none
  | .forkReady c =>
      match s.cpu c with
      | none => none
      | some p =>
          match (s.proc p).frame with
          | .ready np => some (forkReady b p np s)
          | _ => none
  | .exec c pgdir => syscall c s fun p => .ok (exec b p pgdir s)
  | .exit c => syscall c s fun p => exit b c p s
  | .wait c => syscall c s fun p => wait b false c p s
  | .waitnstats c => syscall c s fun p => wait b true c p s
  | .sleep c address => syscall c s fun p => sleep b c p (.object address) s
  | .wakeup chan => some (wakeup1 b chan s)
  | .kill c pid => syscall c s fun _ => (kill b pid s).map Prod.snd
  | .yield c => onCpu c s fun p => yield b c p s
  | .trapTimer c => onCpu c s fun p => trapTimer b c p s
  | .trapFault c => syscall c s fun p => .ok (s.edit p fun q => { q with killed := true })
  | .chpr c pid priority => syscall c s fun _ => chpr b pid priority s
  | .tick => some (.ok { s with ticks := s.ticks + 1 })
  | .updateprocesstimes => some (.ok ((updateprocesstimes s).log .tick))

/-- The state after a list of events, if they are admitted and the kernel can do them all. -/
def run (b : Build) (admitted : State ncpu → Event ncpu → Bool) :
    List (Event ncpu) → State ncpu → Option (State ncpu)
  | [], s => some s
  | e :: events, s =>
      if admitted s e then
        match step b s e with
        | some (.ok s) => run b admitted events s
        | _ => none
      else none

/-- An event takes the kernel from a state to the next. -/
def Steps (b : Build) (s : State ncpu) (e : Event ncpu) (t : State ncpu) : Prop :=
  step b s e = some (.ok t)

/-- The states that the kernel reaches through events with the guard. -/
def KernelReach (b : Build) (guard : State ncpu → Event ncpu → Prop) (s : State ncpu) : Prop :=
  Transition.Reachable (Steps b) guard {} s

/-- Every state that the kernel can reach. -/
abbrev AnyReach (b : Build) (s : State ncpu) : Prop := KernelReach b (fun _ _ => True) s

variable {b : Build} {s t : State ncpu} {guard : State ncpu → Event ncpu → Prop}

/-- A run of a list of events is a run. -/
theorem run_reach {admitted : State ncpu → Event ncpu → Bool}
    (allowed : ∀ s e, admitted s e = true → guard s e) {events : List (Event ncpu)}
    (reach : KernelReach b guard s) (done : run b admitted events s = some t) :
    KernelReach b guard t := by
  induction events generalizing s with
  | nil => exact Option.some.inj done ▸ reach
  | cons e events ih =>
      unfold run at done
      split at done
      · rename_i isAdmitted
        split at done
        · rename_i u taken
          exact ih (reach.next (allowed s e isAdmitted) taken) done
        · cases done
      · cases done

/-! ## Sample runs -/

/-- The number of CPUs in the sample runs. -/
instance twoCpus : NeZero 2 := ⟨two_ne_zero⟩

/-- A run of the kernel up to a state where init runs in user space. -/
def boot (ncpu : ℕ) [NeZero ncpu] : List (Event ncpu) :=
  [.userinitAlloc 1 2, .userinitReady, .scheduler 0]

/-- A `fork` by the process of CPU 0 that succeeds. -/
def forks (ncpu : ℕ) [NeZero ncpu] : List (Event ncpu) :=
  [.fork 0, .forkKstack 0 (some 3), .forkCopyuvm 0 (some 4), .forkReady 0]

/-- The state after a list of events. -/
def after (b : Build) (events : List (Event ncpu)) : State ncpu :=
  (run b (fun _ _ => true) events {}).getD {}

theorem run_admitted {admitted : State ncpu → Event ncpu → Bool} {events : List (Event ncpu)}
    (done : run b admitted events s = some t) : run b (fun _ _ => true) events s = some t := by
  induction events generalizing s with
  | nil => exact done
  | cons e events ih =>
      unfold run at done ⊢
      rw [if_pos rfl]
      split at done
      · split at done
        · rename_i u taken
          simpa only [taken] using ih done
        · cases done
      · cases done

/-- A sample run in which every event is admitted. -/
theorem after_reach_of {admitted : State ncpu → Event ncpu → Bool}
    (allowed : ∀ s e, admitted s e = true → guard s e) {events : List (Event ncpu)}
    (done : (run b admitted events ({} : State ncpu)).isSome = true) :
    KernelReach b guard (after b events) := by
  rcases Option.isSome_iff_exists.mp done with ⟨t, eq⟩
  rw [after, run_admitted eq]
  exact run_reach allowed .refl eq

theorem after_reach {events : List (Event ncpu)}
    (done : (run b (fun _ _ => true) events ({} : State ncpu)).isSome = true) :
    AnyReach b (after b events) :=
  after_reach_of (fun _ _ _ => trivial) done

/-- There is no `chpr`. -/
def noChpr (_ : State ncpu) : Event ncpu → Bool
  | .chpr .. => false
  | _ => true

end Xv6
