import Xv6.Proc.Fate

/-!
# Lock acquisitions and releases

The kernel with its spinlocks. A step of `move` goes up to the next `acquire` or `release`, so
that other CPUs run in between; an event of `Kernel` is the code between two of them. `sleep` is
the only code that takes `ptable.lock` while it holds another lock and then releases that one.
Forgetting the locks gives a run of `Kernel`.
-/

namespace Xv6

open Relation Fallible Transition

variable {ncpu : ℕ}

/-- A spinlock other than `ptable.lock`, as an address. -/
abbrev Lock := ℕ

/-- Where a CPU is in code that takes `ptable.lock`. -/
inductive Control (ncpu : ℕ) where
  | free
  /-- in `sleep`, before `acquire(&ptable.lock)` -/
  | sleepAcquire (address : ℕ) (lk : Lock)
  /-- in `sleep`, before `release(lk)` -/
  | sleepRelease (address : ℕ) (lk : Lock)
  /-- in `sleep`, after `release(lk)` -/
  | sleepBody (address : ℕ) (lk : Lock)
  /-- after the `acquire(&ptable.lock)` of an event -/
  | body (e : Event ncpu)
  /-- before `release(&ptable.lock)` -/
  | leave
  deriving DecidableEq

/-- The CPU holds `ptable.lock`. -/
def Control.Holds : Control ncpu → Prop
  | .free | .sleepAcquire _ _ => False
  | .sleepRelease _ _ | .sleepBody _ _ | .body _ | .leave => True

structure Machine (ncpu : ℕ) where
  core : State ncpu := {}
  /-- the CPU that holds `ptable.lock` -/
  holder : Option (Fin ncpu) := none
  /-- the other locks that a CPU holds, as `ncli` counts them -/
  held : Fin ncpu → List Lock := fun _ => []
  control : Fin ncpu → Control ncpu := fun _ => .free
  /-- the lock that a process takes again before it returns from `sleep` -/
  reacquires : Slot → Option Lock := fun _ => none

/-- What a CPU does next. -/
inductive Move (ncpu : ℕ) where
  /-- code outside `proc.c` -/
  | acquire (c : Fin ncpu) (lk : Lock)
  | release (c : Fin ncpu) (lk : Lock)
  /-- the process of the CPU calls `sleep` -/
  | sleep (c : Fin ncpu) (address : ℕ) (lk : Lock)
  | sleepAcquire (c : Fin ncpu)
  | sleepRelease (c : Fin ncpu)
  | sleepBody (c : Fin ncpu)
  | enter (c : Fin ncpu) (e : Event ncpu)
  | body (c : Fin ncpu)
  | leave (c : Fin ncpu)
  /-- the end of `sleep` -/
  | reacquire (c : Fin ncpu)
  /-- an event that does not take `ptable.lock` -/
  | bare (c : Fin ncpu) (e : Event ncpu)
  deriving DecidableEq

/-- The event can happen on this CPU. -/
def Event.on (c : Fin ncpu) : Event ncpu → Bool
  | .userinitAlloc _ _ | .userinitReady | .wakeup _ | .tick | .updateprocesstimes => true
  | .scheduler d | .fork d | .forkKstack d _ | .forkCopyuvm d _ | .forkReady d | .exec d _
  | .exit d | .wait d | .waitnstats d | .sleep d _ | .kill d _ | .yield d | .trapTimer d
  | .trapFault d | .chpr d _ _ => d = c

/-- The events that do not take `ptable.lock`. -/
def Event.bare : Event ncpu → Bool
  | .forkKstack _ _ | .forkCopyuvm _ _ | .exec _ _ | .trapFault _ | .tick => true
  | _ => false

/-- The events that start with `acquire(&ptable.lock)`. -/
def Event.locks : Event ncpu → Bool
  | .sleep _ _ => false
  | e => !e.bare

/-- The events that a CPU can run while it holds another lock. -/
def Event.nested : Event ncpu → Bool
  | .wakeup _ | .updateprocesstimes | .tick => true
  | _ => false

/-- The events of the scheduler and of timer interrupts, which are not calls of the process. -/
def Event.interrupt : Event ncpu → Bool
  | .scheduler _ | .yield _ | .trapTimer _ => true
  | _ => false

namespace Machine

/-- The process of the CPU is in user space or in a system call that it goes on with. -/
def Proceeds (c : Fin ncpu) (s : Machine ncpu) : Prop :=
  ∀ p, s.core.cpu c = some p → s.reacquires p = none

instance (c : Fin ncpu) (s : Machine ncpu) : Decidable (s.Proceeds c) :=
  inferInstanceAs (Decidable (∀ p, s.core.cpu c = some p → s.reacquires p = none))

/-- The CPU can come to the event next. -/
def Ready (c : Fin ncpu) (e : Event ncpu) (s : Machine ncpu) : Prop :=
  s.control c = .free ∧ e.on c = true ∧
    (e.nested = true ∨ s.held c = [] ∧ (e.interrupt = true ∨ s.Proceeds c))

instance (c : Fin ncpu) (e : Event ncpu) (s : Machine ncpu) : Decidable (s.Ready c e) :=
  inferInstanceAs (Decidable (_ ∧ _ ∧ (_ ∨ _ ∧ (_ ∨ _))))

def setControl (s : Machine ncpu) (c : Fin ncpu) (control : Control ncpu) : Machine ncpu :=
  { s with control := Function.update s.control c control }

def setHeld (s : Machine ncpu) (c : Fin ncpu) (held : List Lock) : Machine ncpu :=
  { s with held := Function.update s.held c held }

/-- The rest of the machine after an event. -/
def runs (b : Build) (e : Event ncpu) (s : Machine ncpu) : Option (Except Fault (Machine ncpu)) :=
  (step b s.core e).map fun result => result.map fun core => { s with core }

end Machine

/-- The effect of a move, or `none` if the CPU cannot do it in this state. -/
def move (b : Build) (s : Machine ncpu) : Move ncpu → Option (Except Fault (Machine ncpu))
  | .acquire c lk =>
      if s.control c = .free ∧ ∀ d, lk ∉ s.held d then
        some (.ok (s.setHeld c (lk :: s.held c)))
      else none
  | .release c lk =>
      if s.control c = .free ∧ lk ∈ s.held c then
        some (.ok (s.setHeld c ((s.held c).erase lk)))
      else none
  | .sleep c address lk =>
      if s.control c = .free ∧ lk ∈ s.held c ∧ (s.core.cpu c).isSome ∧ s.Proceeds c then
        some (.ok (s.setControl c (.sleepAcquire address lk)))
      else none
  | .sleepAcquire c =>
      match s.control c with
      | .sleepAcquire address lk =>
          if s.holder = none then
            some (.ok { s.setControl c (.sleepRelease address lk) with holder := some c })
          else none
      | _ => none
  | .sleepRelease c =>
      match s.control c with
      | .sleepRelease address lk =>
          some (.ok ((s.setHeld c ((s.held c).erase lk)).setControl c (.sleepBody address lk)))
      | _ => none
  | .sleepBody c =>
      match s.control c, s.core.cpu c with
      | .sleepBody address lk, some p =>
          if s.held c ≠ [] then some (.error (.panic "sched locks"))
          else
            { s.setControl c .leave with
              reacquires := Function.update s.reacquires p (some lk) }.runs b (.sleep c address)
      | _, _ => none
  | .enter c e =>
      if s.holder = none ∧ e.locks = true ∧ s.Ready c e then
        some (.ok { s.setControl c (.body e) with holder := some c })
      else none
  | .body c =>
      match s.control c with
      | .body e => (s.setControl c .leave).runs b e
      | _ => none
  | .leave c =>
      if s.control c = .leave then some (.ok { s.setControl c .free with holder := none })
      else none
  | .reacquire c =>
      match s.core.cpu c with
      | none => none
      | some p =>
          match s.reacquires p with
          | none => none
          | some lk =>
              if s.control c = .free ∧ ∀ d, lk ∉ s.held d then
                some (.ok { s.setHeld c (lk :: s.held c) with
                  reacquires := Function.update s.reacquires p none })
              else none
  | .bare c e => if e.bare = true ∧ s.Ready c e then s.runs b e else none

/-- The event that a move runs. -/
def Machine.event (s : Machine ncpu) : Move ncpu → Option (Event ncpu)
  | .sleepBody c =>
      match s.control c with
      | .sleepBody address _ => some (.sleep c address)
      | _ => none
  | .body c =>
      match s.control c with
      | .body e => some e
      | _ => none
  | .bare _ e => some e
  | _ => none

/-- The CPU that makes a move. -/
def Move.cpu : Move ncpu → Fin ncpu
  | .acquire c _ | .release c _ | .sleep c _ _ | .sleepAcquire c | .sleepRelease c | .sleepBody c
  | .enter c _ | .body c | .leave c | .reacquire c | .bare c _ => c

def Moves (b : Build) (s : Machine ncpu) (m : Move ncpu) (t : Machine ncpu) : Prop :=
  move b s m = some (.ok t)

/-- The states that the kernel reaches, lock by lock. -/
def MachineReach (b : Build) (guard : Machine ncpu → Move ncpu → Prop) (s : Machine ncpu) : Prop :=
  Reachable (Moves b) guard {} s

variable {b : Build} {s t : Machine ncpu} {m : Move ncpu} {e : Event ncpu} {c d : Fin ncpu}
  {address : ℕ} {lk : Lock} {p : Slot}

/-! ## What a move does -/

theorem Machine.runs_ok (run : s.runs b e = some (.ok t)) :
    Steps b s.core e t.core ∧ t = { s with core := t.core } := by
  rcases Option.map_eq_some_iff.mp run with ⟨result, taken, eq⟩
  cases result with
  | error f => cases eq
  | ok core =>
      rcases Except.ok.inj eq with rfl
      exact ⟨taken, rfl⟩

/-- What each move finds and leaves. -/
inductive Effect (b : Build) (s : Machine ncpu) : Move ncpu → Machine ncpu → Prop where
  | acquire {c : Fin ncpu} {lk : Lock} (control : s.control c = .free)
      (unheld : ∀ d, lk ∉ s.held d) : Effect b s (.acquire c lk) (s.setHeld c (lk :: s.held c))
  | release {c : Fin ncpu} {lk : Lock} (control : s.control c = .free) :
      Effect b s (.release c lk) (s.setHeld c ((s.held c).erase lk))
  | sleep {c : Fin ncpu} {address : ℕ} {lk : Lock} (control : s.control c = .free)
      (own : lk ∈ s.held c) :
      Effect b s (.sleep c address lk) (s.setControl c (.sleepAcquire address lk))
  | sleepAcquire {c : Fin ncpu} {address : ℕ} {lk : Lock}
      (control : s.control c = .sleepAcquire address lk) (unlocked : s.holder = none) :
      Effect b s (.sleepAcquire c)
        { s.setControl c (.sleepRelease address lk) with holder := some c }
  | sleepRelease {c : Fin ncpu} {address : ℕ} {lk : Lock}
      (control : s.control c = .sleepRelease address lk) :
      Effect b s (.sleepRelease c)
        ((s.setHeld c ((s.held c).erase lk)).setControl c (.sleepBody address lk))
  | sleepBody {c : Fin ncpu} {address : ℕ} {lk : Lock} {p : Slot} {core : State ncpu}
      (control : s.control c = .sleepBody address lk) (current : s.core.cpu c = some p)
      (run : Steps b s.core (.sleep c address) core) :
      Effect b s (.sleepBody c) { s.setControl c .leave with
        core, reacquires := Function.update s.reacquires p (some lk) }
  | enter {c : Fin ncpu} {e : Event ncpu} (unlocked : s.holder = none) (locks : e.locks = true)
      (ready : s.Ready c e) :
      Effect b s (.enter c e) { s.setControl c (.body e) with holder := some c }
  | body {c : Fin ncpu} {e : Event ncpu} {core : State ncpu} (control : s.control c = .body e)
      (run : Steps b s.core e core) : Effect b s (.body c) { s.setControl c .leave with core }
  | leave {c : Fin ncpu} (control : s.control c = .leave) :
      Effect b s (.leave c) { s.setControl c .free with holder := none }
  | reacquire {c : Fin ncpu} {p : Slot} {lk : Lock} (control : s.control c = .free)
      (unheld : ∀ d, lk ∉ s.held d) :
      Effect b s (.reacquire c) { s.setHeld c (lk :: s.held c) with
        reacquires := Function.update s.reacquires p none }
  | bare {c : Fin ncpu} {e : Event ncpu} {core : State ncpu} (bare : e.bare = true)
      (ready : s.Ready c e) (run : Steps b s.core e core) :
      Effect b s (.bare c e) { s with core }

theorem Moves.effect (taken : Moves b s m t) : Effect b s m t := by
  unfold Moves move at taken
  cases m with
  | acquire c lk =>
      rcases Option.ite_none_right_eq_some.mp taken with ⟨⟨control, unheld⟩, eq⟩
      rcases Except.ok.inj (Option.some.inj eq) with rfl
      exact .acquire control unheld
  | release c lk =>
      rcases Option.ite_none_right_eq_some.mp taken with ⟨⟨control, -⟩, eq⟩
      rcases Except.ok.inj (Option.some.inj eq) with rfl
      exact .release control
  | sleep c address lk =>
      rcases Option.ite_none_right_eq_some.mp taken with ⟨⟨control, own, -⟩, eq⟩
      rcases Except.ok.inj (Option.some.inj eq) with rfl
      exact .sleep control own
  | sleepAcquire c =>
      dsimp only at taken
      split at taken
      · rename_i address lk control
        rcases Option.ite_none_right_eq_some.mp taken with ⟨unlocked, eq⟩
        rcases Except.ok.inj (Option.some.inj eq) with rfl
        exact .sleepAcquire control unlocked
      · cases taken
  | sleepRelease c =>
      dsimp only at taken
      split at taken
      · rename_i address lk control
        rcases Except.ok.inj (Option.some.inj taken) with rfl
        exact .sleepRelease control
      · cases taken
  | sleepBody c =>
      dsimp only at taken
      split at taken
      · rename_i address lk p control current
        split at taken
        · cases taken
        · rcases Machine.runs_ok taken with ⟨run, eq⟩
          rw [eq]
          exact .sleepBody control current run
      · cases taken
  | enter c e =>
      rcases Option.ite_none_right_eq_some.mp taken with ⟨⟨unlocked, locks, ready⟩, eq⟩
      rcases Except.ok.inj (Option.some.inj eq) with rfl
      exact .enter unlocked locks ready
  | body c =>
      dsimp only at taken
      split at taken
      · rename_i e control
        rcases Machine.runs_ok taken with ⟨run, eq⟩
        rw [eq]
        exact .body control run
      · cases taken
  | leave c =>
      rcases Option.ite_none_right_eq_some.mp taken with ⟨control, eq⟩
      rcases Except.ok.inj (Option.some.inj eq) with rfl
      exact .leave control
  | reacquire c =>
      dsimp only at taken
      split at taken
      · cases taken
      · split at taken
        · cases taken
        · rcases Option.ite_none_right_eq_some.mp taken with ⟨⟨control, unheld⟩, eq⟩
          rcases Except.ok.inj (Option.some.inj eq) with rfl
          exact .reacquire control unheld
  | bare c e =>
      rcases Option.ite_none_right_eq_some.mp taken with ⟨⟨bare, ready⟩, run⟩
      rcases Machine.runs_ok run with ⟨run, eq⟩
      rw [eq]
      exact .bare bare ready run

/-- A move runs one event, or none. -/
theorem Effect.event (effect : Effect b s m t) :
    s.event m = none ∧ t.core = s.core ∨ ∃ e, s.event m = some e ∧ Steps b s.core e t.core := by
  cases effect with
  | sleepBody control _ run => exact .inr ⟨_, by simp [Machine.event, control], run⟩
  | body control run => exact .inr ⟨_, by simp [Machine.event, control], run⟩
  | bare _ _ run => exact .inr ⟨_, rfl, run⟩
  | _ => exact .inl ⟨rfl, rfl⟩

/-- Forgetting the locks gives a run of `Kernel`. -/
theorem MachineReach.core {guard : Machine ncpu → Move ncpu → Prop}
    {guard' : State ncpu → Event ncpu → Prop}
    (allowed : ∀ s m e, guard s m → s.event m = some e → guard' s.core e)
    (reach : MachineReach b guard s) : KernelReach b guard' s.core := by
  refine Reachable.refine Machine.core rfl (fun {s m t} _ admitted taken => ?_) reach
  rcases taken.effect.event with ⟨-, same⟩ | ⟨e, event, steps⟩
  · exact .inl same
  · exact .inr ⟨e, allowed s m e admitted event, steps⟩

/-! ## The locks -/

/-- `ptable.lock` is held where the code has acquired it, no lock has two holders, and `sleep`
holds `lk` until it releases it. -/
structure LockInv (s : Machine ncpu) : Prop where
  holder : ∀ c, s.holder = some c ↔ (s.control c).Holds
  single : ∀ lk c d, lk ∈ s.held c → lk ∈ s.held d → c = d
  nodup : ∀ c, (s.held c).Nodup
  sleeper : ∀ c address lk, s.control c = .sleepAcquire address lk ∨
    s.control c = .sleepRelease address lk → lk ∈ s.held c

theorem LockInv.effect (inv : LockInv s) (effect : Effect b s m t) : LockInv t := by
  rcases inv with ⟨holder, single, nodup, sleeper⟩
  cases effect with
  | acquire control unheld =>
      constructor <;> simp only [Machine.setHeld, Function.update_apply] <;> grind
  | release control =>
      constructor <;> simp only [Machine.setHeld, Function.update_apply] <;>
        grind [List.mem_of_mem_erase, List.Nodup.erase]
  | sleep control own =>
      constructor <;> simp only [Machine.setControl, Function.update_apply] <;>
        grind [Control.Holds]
  | sleepAcquire control unlocked =>
      constructor <;> simp only [Machine.setControl, Function.update_apply] <;>
        grind [Control.Holds]
  | sleepRelease control =>
      constructor <;> simp only [Machine.setControl, Machine.setHeld, Function.update_apply] <;>
        grind [Control.Holds, List.mem_of_mem_erase, List.Nodup.erase]
  | sleepBody control current run =>
      constructor <;> simp only [Machine.setControl, Function.update_apply] <;>
        grind [Control.Holds]
  | enter unlocked locks ready =>
      constructor <;> simp only [Machine.setControl, Function.update_apply] <;>
        grind [Control.Holds, Machine.Ready]
  | body control run =>
      constructor <;> simp only [Machine.setControl, Function.update_apply] <;>
        grind [Control.Holds]
  | leave control =>
      constructor <;> simp only [Machine.setControl, Function.update_apply] <;>
        grind [Control.Holds]
  | reacquire control unheld =>
      constructor <;> simp only [Machine.setHeld, Function.update_apply] <;> grind
  | bare bare ready run => exact ⟨holder, single, nodup, sleeper⟩

theorem lockInv_of_reach {guard : Machine ncpu → Move ncpu → Prop}
    (reach : MachineReach b guard s) : LockInv s := by
  refine reach.invariant LockInv ?_ fun _ inv _ taken => inv.effect taken.effect
  constructor <;> simp [Control.Holds]

/-! ## Sample runs -/

/-- The state after a list of moves, if the machine can make them all. -/
def makes (b : Build) : List (Move ncpu) → Machine ncpu → Option (Machine ncpu)
  | [], s => some s
  | m :: moves, s =>
      match move b s m with
      | some (.ok s) => makes b moves s
      | _ => none

theorem makes_reach {guard : Machine ncpu → Move ncpu → Prop} (allowed : ∀ s m, guard s m)
    {moves : List (Move ncpu)} (done : makes b moves s = some t) :
    Reachable (Moves b) guard s t := by
  suffices joins : ∀ {u}, Reachable (Moves b) guard u s → Reachable (Moves b) guard u t from
    joins .refl
  induction moves generalizing s with
  | nil => exact fun reach => Option.some.inj done ▸ reach
  | cons m moves ih =>
      unfold makes at done
      split at done
      · rename_i v taken
        exact fun reach => ih done (reach.next (allowed s m) taken)
      · cases done

theorem taken_of_makes (done : makes b [m] s = some t) : Moves b s m t := by
  unfold makes at done
  split at done
  · rename_i taken
    exact Option.some.inj done ▸ taken
  · cases done

/-- An event with its `acquire` and `release` of `ptable.lock`. -/
def critical (c : Fin ncpu) (e : Event ncpu) : List (Move ncpu) := [.enter c e, .body c, .leave c]

/-- A run up to a state where init runs in user space. -/
def boots (ncpu : ℕ) [NeZero ncpu] : List (Move ncpu) :=
  critical 0 (.userinitAlloc 1 2) ++ (critical 0 .userinitReady ++ critical 0 (.scheduler 0))

end Xv6
