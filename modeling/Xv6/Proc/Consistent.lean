import Xv6.Proc.Actions

/-!
# The invariants of the process table

What holds of the table and the CPUs in every state of every run, whatever the build and whatever
the arguments of `chpr`. The ready queues have no part in it.
-/

namespace Xv6

open Fallible

variable {ncpu : ℕ}

/-- The process has been made `RUNNABLE` and has not exited. -/
def Proc.Alive (q : Proc) : Prop :=
  q.state = .sleeping ∨ q.state = .runnable ∨ q.state = .running

/-- The local `np` of a call of `fork` under way. -/
def Frame.child : Frame → Option Slot
  | .user => none
  | .kstack np | .copyuvm np | .ready np => some np

/-- The processes on the CPUs are the `RUNNING` ones, each on one CPU. -/
structure CpuInv (s : State ncpu) : Prop where
  running : ∀ c p, s.cpu c = some p → (s.proc p).state = .running
  single : ∀ c d p, s.cpu c = some p → s.cpu d = some p → c = d
  dispatched : ∀ p, (s.proc p).state = .running → ∃ c, s.cpu c = some p

/-- Calls of `fork` and `userinit` under way have an `EMBRYO` each. -/
structure ForkInv (s : State ncpu) : Prop where
  idle : ∀ p, (s.proc p).frame ≠ .user →
    (s.proc p).state = .running ∨ (s.proc p).state = .runnable
  yielded : ∀ p, (s.proc p).frame ≠ .user → (s.proc p).state = .runnable →
    (s.proc p).context = .yield
  embryo : ∀ p np, (s.proc p).frame.child = some np → (s.proc np).state = .embryo
  single : ∀ p q np, (s.proc p).frame.child = some np → (s.proc q).frame.child = some np → p = q
  start : s.boot = .start → ∀ p, (s.proc p).state = .unused
  boot : ∀ np, s.boot = .allocated np →
    ∀ p, (s.proc p).state = if p = np then .embryo else .unused

/-- What `swtch` needs is there. -/
structure StackInv (s : State ncpu) : Prop where
  alive : ∀ p, (s.proc p).Alive → (s.proc p).kstack ≠ none ∧ (s.proc p).pgdir ≠ none
  resumable : ∀ p, (s.proc p).state = .runnable ∨ (s.proc p).state = .sleeping →
    (s.proc p).context ≠ .exit
  zombie : ∀ p, (s.proc p).state = .zombie → (s.proc p).context = .exit
  copyuvm : ∀ p np, (s.proc p).frame = .copyuvm np →
    (s.proc np).kstack ≠ none ∧ (s.proc np).context = .forkret
  ready : ∀ p np, (s.proc p).frame = .ready np →
    (s.proc np).kstack ≠ none ∧ (s.proc np).pgdir ≠ none ∧ (s.proc np).context = .forkret
  boot : ∀ np, s.boot = .allocated np →
    (s.proc np).kstack ≠ none ∧ (s.proc np).pgdir ≠ none ∧ (s.proc np).context = .forkret

/-- Every process has a parent that can reap it, and a parent asleep in `wait` has no `ZOMBIE` child;
`exempt` may have one. -/
structure FamilyInv (s : State ncpu) (exempt : Option Slot) : Prop where
  start : s.boot = .start → s.initproc = none
  boot : ∀ np, s.boot = .allocated np → s.initproc = some np
  init : s.boot = .done → ∃ i, s.initproc = some i ∧ (s.proc i).Alive
  root : ∀ i, s.initproc = some i → (s.proc i).parent = none
  child : ∀ p, (s.proc p).Alive ∨ (s.proc p).state = .zombie → s.initproc ≠ some p →
    (s.proc p).parent ≠ none
  parent : ∀ p q, (s.proc p).Alive ∨ (s.proc p).state = .zombie → (s.proc p).parent = some q →
    (s.proc q).Alive
  unused : ∀ p, (s.proc p).state = .unused → (s.proc p).parent = none
  embryo : ∀ p q, (s.proc p).state = .embryo →
    ((s.proc p).parent = some q ↔ (s.proc q).frame = .ready p)
  irrefl : ∀ p, (s.proc p).parent ≠ some p
  attentive : ∀ p q, exempt ≠ some p → (s.proc p).state = .sleeping → (s.proc p).chan = .proc p →
    (s.proc q).parent = some p → (s.proc q).state ≠ .zombie

structure Consistent (s : State ncpu) (exempt : Option Slot := none) : Prop where
  cpus : CpuInv s
  forks : ForkInv s
  saved : StackInv s
  family : FamilyInv s exempt

variable {b : Build} {s t : State ncpu} {exempt : Option Slot}

theorem Consistent.initial : Consistent ({} : State ncpu) := by
  refine ⟨⟨?_, ?_, ?_⟩, ⟨?_, ?_, ?_, ?_, ?_, ?_⟩, ⟨?_, ?_, ?_, ?_, ?_, ?_⟩,
    ⟨?_, ?_, ?_, ?_, ?_, ?_, ?_, ?_, ?_, ?_⟩⟩ <;> simp [Proc.Alive, Frame.child]

theorem CpuInv.same (inv : CpuInv s) (cpu : t.cpu = s.cpu)
    (running : ∀ p, (t.proc p).state = .running ↔ (s.proc p).state = .running) : CpuInv t := by
  refine ⟨fun c p current => ?_, fun c d p current other => ?_, fun p isRunning => ?_⟩
  · rw [cpu] at current
    exact (running p).mpr (inv.running c p current)
  · rw [cpu] at current other
    exact inv.single c d p current other
  · rw [cpu]
    exact inv.dispatched p ((running p).mp isRunning)

/-- A process that is on no CPU changes. -/
theorem CpuInv.calm (inv : CpuInv s) {p : Slot} (cpu : t.cpu = s.cpu) (before : (s.proc p).state ≠ .running)
    (after : (t.proc p).state ≠ .running) (others : ∀ q, q ≠ p → t.proc q = s.proc q) : CpuInv t := by
  refine inv.same cpu fun q => ?_
  by_cases same : q = p
  · subst same
    exact iff_of_false after before
  · rw [others q same]

/-- A CPU takes a process. -/
theorem CpuInv.enter (inv : CpuInv s) {c : Fin ncpu} {p : Slot} (idle : s.cpu c = none)
    (cpu : ∀ d, t.cpu d = if d = c then some p else s.cpu d) (before : (s.proc p).state ≠ .running)
    (after : (t.proc p).state = .running) (others : ∀ q, q ≠ p → t.proc q = s.proc q) : CpuInv t := by
  have cases : ∀ d q, t.cpu d = some q → d = c ∧ q = p ∨ s.cpu d = some q ∧ q ≠ p := by
    intro d q current
    rw [cpu] at current
    split at current
    · rename_i same
      exact .inl ⟨same, (Option.some.inj current).symm⟩
    · exact .inr ⟨current, fun same => before (same ▸ inv.running d q current)⟩
  refine ⟨fun d q current => ?_, fun d e q first second => ?_, fun q isRunning => ?_⟩
  · rcases cases d q current with ⟨-, rfl⟩ | ⟨current', different⟩
    · exact after
    · rw [others q different]
      exact inv.running d q current'
  · rcases cases d q first with ⟨rfl, rfl⟩ | ⟨first', different⟩
    · rcases cases e q second with ⟨rfl, -⟩ | ⟨-, different⟩
      · rfl
      · exact absurd rfl different
    · rcases cases e q second with ⟨-, same⟩ | ⟨second', -⟩
      · exact absurd same different
      · exact inv.single d e q first' second'
  · by_cases same : q = p
    · exact ⟨c, by rw [cpu, if_pos rfl, same]⟩
    · rw [others q same] at isRunning
      rcases inv.dispatched q isRunning with ⟨d, current⟩
      have other : d ≠ c := by
        rintro rfl
        cases idle.symm.trans current
      exact ⟨d, by rw [cpu, if_neg other, current]⟩

/-- A CPU gives up its process. -/
theorem CpuInv.leave (inv : CpuInv s) {c : Fin ncpu} {p : Slot} (current : s.cpu c = some p)
    (cpu : ∀ d, t.cpu d = if d = c then none else s.cpu d) (left : (t.proc p).state ≠ .running)
    (others : ∀ q, q ≠ p → t.proc q = s.proc q) : CpuInv t := by
  have still : ∀ d q, t.cpu d = some q → s.cpu d = some q ∧ q ≠ p := by
    intro d q current'
    rw [cpu] at current'
    split at current'
    · cases current'
    · rename_i different
      exact ⟨current', fun same => different (inv.single d c p (same ▸ current') current)⟩
  refine ⟨fun d q current' => ?_, fun d e q first second => ?_, fun q isRunning => ?_⟩
  · rcases still d q current' with ⟨before, different⟩
    rw [others q different]
    exact inv.running d q before
  · exact inv.single d e q (still d q first).1 (still e q second).1
  · have different : q ≠ p := fun same => left (same ▸ isRunning)
    rw [others q different] at isRunning
    rcases inv.dispatched q isRunning with ⟨d, before⟩
    have other : d ≠ c := by
      rintro rfl
      exact different (Option.some.inj (before.symm.trans current))
    exact ⟨d, by rw [cpu, if_neg other, before]⟩

/-! ## Changes without a birth, an exit or a new parent -/

structure Proc.Goes (q q' : Proc) : Prop where
  parent : q'.parent = q.parent
  frame : q'.frame = q.frame
  kstack : q'.kstack = q.kstack
  pgdir : q.pgdir ≠ none → q'.pgdir ≠ none
  state : q.Alive ∧ q'.Alive ∨ q'.state = q.state ∧ q'.context = q.context

theorem Proc.Goes.refl (q : Proc) : q.Goes q :=
  ⟨rfl, rfl, rfl, id, .inr ⟨rfl, rfl⟩⟩

theorem Proc.Goes.alive {q q' : Proc} (goes : q.Goes q') : q'.Alive ↔ q.Alive := by
  rcases goes.state with ⟨before, after⟩ | ⟨same, -⟩
  · exact iff_of_true after before
  · rw [Alive, Alive, same]

theorem Proc.Goes.dead {q q' : Proc} (goes : q.Goes q') {state : ProcState}
    (dead : ∀ r : Proc, r.state = state → ¬r.Alive) : q'.state = state ↔ q.state = state := by
  rcases goes.state with ⟨before, after⟩ | ⟨same, -⟩
  · exact iff_of_false (fun isDead => dead q' isDead after) fun isDead => dead q isDead before
  · rw [same]

theorem Proc.Goes.unused {q q' : Proc} (goes : q.Goes q') : q'.state = .unused ↔ q.state = .unused :=
  goes.dead fun r unused => by simp [Alive, unused]

theorem Proc.Goes.embryo {q q' : Proc} (goes : q.Goes q') : q'.state = .embryo ↔ q.state = .embryo :=
  goes.dead fun r embryo => by simp [Alive, embryo]

theorem Proc.Goes.zombie {q q' : Proc} (goes : q.Goes q') : q'.state = .zombie ↔ q.state = .zombie :=
  goes.dead fun r zombie => by simp [Alive, zombie]

theorem Proc.Goes.context {q q' : Proc} (goes : q.Goes q') (dead : ¬q.Alive) : q'.context = q.context := by
  rcases goes.state with ⟨alive, -⟩ | ⟨-, same⟩
  · exact absurd alive dead
  · exact same

section

variable (each : ∀ p, (s.proc p).Goes (t.proc p)) (initproc : t.initproc = s.initproc) (boot : t.boot = s.boot)
include each boot

/-- A process that is inside `fork` is running, or has yielded. -/
theorem ForkInv.goes (inv : ForkInv s) (busy : ∀ p, (t.proc p).frame ≠ .user → (t.proc p).state = .running ∨
    (t.proc p).state = .runnable ∧ (t.proc p).context = .yield) : ForkInv t := by
  refine ⟨fun p inside => ?_, fun p inside runnable => ?_, fun p np child => ?_,
    fun p q np first second => ?_, fun start p => ?_, fun np allocated p => ?_⟩
  · exact (busy p inside).imp_right And.left
  · rcases busy p inside with running | ⟨-, yielded⟩
    · cases running.symm.trans runnable
    · exact yielded
  · rw [(each p).frame] at child
    exact (each np).embryo.mpr (inv.embryo p np child)
  · rw [(each _).frame] at first second
    exact inv.single p q np first second
  · exact (each p).unused.mpr (inv.start (boot ▸ start) p)
  · have before := inv.boot np (boot ▸ allocated) p
    split
    · rename_i same
      rw [if_pos same] at before
      exact (each p).embryo.mpr before
    · rename_i different
      rw [if_neg different] at before
      exact (each p).unused.mpr before

theorem StackInv.goes (inv : StackInv s) (forks : ForkInv s)
    (resumable : ∀ p, (t.proc p).state = .runnable ∨ (t.proc p).state = .sleeping → (t.proc p).context ≠ .exit) :
    StackInv t := by
  have dead : ∀ {p}, (s.proc p).state = .embryo → ¬(s.proc p).Alive := fun embryo => by
    simp [Proc.Alive, embryo]
  refine ⟨fun p alive => ?_, resumable, fun p zombie => ?_, fun p np inside => ?_, fun p np inside => ?_,
    fun np allocated => ?_⟩
  · rcases inv.alive p ((each p).alive.mp alive) with ⟨kstack, pgdir⟩
    exact ⟨(each p).kstack ▸ kstack, (each p).pgdir pgdir⟩
  · have before := (each p).zombie.mp zombie
    rw [(each p).context (by simp [Proc.Alive, before])]
    exact inv.zombie p before
  · rw [(each p).frame] at inside
    have embryo := forks.embryo p np (by rw [inside]; rfl)
    rw [(each np).kstack, (each np).context (dead embryo)]
    exact inv.copyuvm p np inside
  · rw [(each p).frame] at inside
    have embryo := forks.embryo p np (by rw [inside]; rfl)
    rcases inv.ready p np inside with ⟨kstack, pgdir, context⟩
    rw [(each np).kstack, (each np).context (dead embryo)]
    exact ⟨kstack, (each np).pgdir pgdir, context⟩
  · rw [boot] at allocated
    have embryo := forks.boot np allocated np
    rw [if_pos rfl] at embryo
    rcases inv.boot np allocated with ⟨kstack, pgdir, context⟩
    rw [(each np).kstack, (each np).context (dead embryo)]
    exact ⟨kstack, (each np).pgdir pgdir, context⟩

include initproc in
theorem FamilyInv.goes (inv : FamilyInv s exempt)
    (attentive : ∀ p q, exempt ≠ some p → (t.proc p).state = .sleeping → (t.proc p).chan = .proc p →
      (s.proc q).parent = some p → (s.proc q).state ≠ .zombie) : FamilyInv t exempt := by
  have some : ∀ {p}, (t.proc p).Alive ∨ (t.proc p).state = .zombie →
      (s.proc p).Alive ∨ (s.proc p).state = .zombie :=
    fun {p} => Or.imp (each p).alive.mp (each p).zombie.mp
  refine ⟨fun start => ?_, fun np allocated => ?_, fun done => ?_, fun i isInit => ?_, fun p isSome notInit => ?_,
    fun p q isSome parent => ?_, fun p unused => ?_, fun p q embryo => ?_, fun p own => ?_,
    fun p q notExempt asleep chan parent zombie => ?_⟩
  · exact initproc.trans (inv.start (boot ▸ start))
  · exact initproc.trans (inv.boot np (boot ▸ allocated))
  · rcases inv.init (boot ▸ done) with ⟨i, isInit, alive⟩
    exact ⟨i, initproc.trans isInit, (each i).alive.mpr alive⟩
  · exact (each i).parent.trans (inv.root i (initproc ▸ isInit))
  · rw [(each p).parent]
    exact inv.child p (some isSome) (initproc ▸ notInit)
  · exact (each q).alive.mpr (inv.parent p q (some isSome) ((each p).parent ▸ parent))
  · exact (each p).parent.trans (inv.unused p ((each p).unused.mp unused))
  · rw [(each p).parent, (each q).frame]
    exact inv.embryo p q ((each p).embryo.mp embryo)
  · exact inv.irrefl p ((each p).parent ▸ own)
  · exact attentive p q notExempt asleep chan ((each q).parent ▸ parent) ((each q).zombie.mp zombie)

end

/-- Fields that the invariants do not mention have changed, and `pgdir` may have been set. -/
theorem Consistent.similar (inv : Consistent s exempt) (goes : ∀ p, (s.proc p).Goes (t.proc p))
    (state : ∀ p, (t.proc p).state = (s.proc p).state) (context : ∀ p, (t.proc p).context = (s.proc p).context)
    (chan : ∀ p, (t.proc p).chan = (s.proc p).chan) (cpu : t.cpu = s.cpu) (initproc : t.initproc = s.initproc)
    (boot : t.boot = s.boot) : Consistent t exempt := by
  refine ⟨inv.cpus.same cpu fun p => by rw [state], inv.forks.goes goes boot fun p inside => ?_,
    inv.saved.goes goes boot inv.forks fun p ready => ?_,
    inv.family.goes goes initproc boot fun p q notExempt asleep isChan => ?_⟩
  · rw [(goes p).frame] at inside
    rw [state, context]
    exact (inv.forks.idle p inside).imp_right fun runnable => ⟨runnable, inv.forks.yielded p inside runnable⟩
  · rw [state] at ready
    rw [context]
    exact inv.saved.resumable p ready
  · rw [state] at asleep
    rw [chan] at isChan
    exact inv.family.attentive p q notExempt asleep isChan

/-- The ready queues, the history and the clock are no part of the invariant. -/
theorem Consistent.congr (inv : Consistent s exempt) (proc : t.proc = s.proc) (cpu : t.cpu = s.cpu)
    (initproc : t.initproc = s.initproc) (boot : t.boot = s.boot) : Consistent t exempt :=
  inv.similar (fun p => proc ▸ .refl _) (fun _ => by rw [proc]) (fun _ => by rw [proc]) (fun _ => by rw [proc])
    cpu initproc boot

/-- One process that has not exited goes from one state to another. -/
theorem Consistent.move (inv : Consistent s exempt) {p : Slot} {q' : Proc} (self : t.proc p = q')
    (others : ∀ q, q ≠ p → t.proc q = s.proc q) (cpus : CpuInv t) (initproc : t.initproc = s.initproc)
    (boot : t.boot = s.boot) (goes : (s.proc p).Goes q')
    (busy : q'.frame ≠ .user → q'.state = .running ∨ q'.state = .runnable ∧ q'.context = .yield)
    (resumable : q'.state = .runnable ∨ q'.state = .sleeping → q'.context ≠ .exit)
    (attentive : q'.state = .sleeping → q'.chan = .proc p → exempt ≠ some p →
      ∀ q, (s.proc q).parent = some p → (s.proc q).state ≠ .zombie) : Consistent t exempt := by
  subst self
  have all : ∀ q, (s.proc q).Goes (t.proc q) := by
    intro q
    by_cases same : q = p
    · exact same ▸ goes
    · exact others q same ▸ .refl _
  refine ⟨cpus, inv.forks.goes all boot fun q inside => ?_, inv.saved.goes all boot inv.forks fun q ready => ?_,
    inv.family.goes all initproc boot fun q r notExempt asleep isChan => ?_⟩
  · by_cases same : q = p
    · subst same
      exact busy inside
    · rw [others q same] at inside ⊢
      exact (inv.forks.idle q inside).imp_right fun runnable => ⟨runnable, inv.forks.yielded q inside runnable⟩
  · by_cases same : q = p
    · subst same
      exact resumable ready
    · rw [others q same] at ready ⊢
      exact inv.saved.resumable q ready
  · by_cases same : q = p
    · subst same
      exact attentive asleep isChan notExempt r
    · rw [others q same] at asleep isChan
      exact inv.family.attentive q r notExempt asleep isChan

theorem Consistent.addReady (inv : Consistent s exempt) {p : Slot} (run : addReady b p s = .ok t) :
    Consistent t exempt := by
  obtain ⟨_, _, _, rfl, -⟩ := addReady_frame run
  exact inv.congr rfl rfl rfl rfl

attribute [local grind] Proc.Alive Frame.child

/-- Fields that the invariants do not mention may change, and `pgdir` may be set. -/
theorem Consistent.edit (inv : Consistent s exempt) {p : Slot} {change : Proc → Proc}
    (state : (change (s.proc p)).state = (s.proc p).state)
    (kstack : (change (s.proc p)).kstack = (s.proc p).kstack)
    (pgdir : (s.proc p).pgdir ≠ none → (change (s.proc p)).pgdir ≠ none)
    (parent : (change (s.proc p)).parent = (s.proc p).parent)
    (context : (change (s.proc p)).context = (s.proc p).context)
    (chan : (change (s.proc p)).chan = (s.proc p).chan)
    (frame : (change (s.proc p)).frame = (s.proc p).frame) :
    Consistent (s.edit p change) exempt := by
  have same : ∀ {α : Type} (field : Proc → α), field (change (s.proc p)) = field (s.proc p) →
      ∀ q, field ((s.edit p change).proc q) = field (s.proc q) := by
    intro α field unchanged q
    rw [State.edit_proc]
    split
    · rename_i isP
      rw [unchanged, isP]
    · rfl
  refine inv.similar (fun q => ?_) (same Proc.state state) (same Proc.context context) (same Proc.chan chan)
    rfl rfl rfl
  rw [State.edit_proc]
  split
  · rename_i isP
    subst isP
    exact ⟨parent, frame, kstack, pgdir, .inr ⟨state, context⟩⟩
  · exact .refl _

/-- A sleeper is not inside `fork`. -/
theorem ForkInv.user (inv : ForkInv s) {p : Slot} (asleep : (s.proc p).state = .sleeping) :
    (s.proc p).frame = .user := by
  by_contra inside
  rcases inv.idle p inside with running | runnable
  · cases running.symm.trans asleep
  · cases runnable.symm.trans asleep

/-- A sleeper is woken. -/
theorem Consistent.setRunnable (inv : Consistent s exempt) {p : Slot}
    (asleep : (s.proc p).state = .sleeping) : Consistent (s.setState p .runnable) exempt := by
  have self := State.setState_proc_self s p .runnable
  have others : ∀ q, q ≠ p → (s.setState p .runnable).proc q = s.proc q := fun q different => by
    rw [State.setState_proc, if_neg different]
  have cpus : CpuInv (s.setState p .runnable) :=
    inv.cpus.calm rfl (by simp [asleep]) (by simp) others
  exact inv.move self others cpus rfl rfl ⟨rfl, rfl, rfl, id, .inl ⟨.inl asleep, .inr (.inl rfl)⟩⟩
    (fun inside => absurd (inv.forks.user asleep) inside) (fun _ => inv.saved.resumable p (.inr asleep)) nofun

theorem Consistent.wake (inv : Consistent s exempt) {p : Slot} (asleep : (s.proc p).state = .sleeping)
    (run : wake b p s = .ok t) : Consistent t exempt := by
  have runnable := inv.setRunnable asleep
  refine Consistent.addReady ?_ run
  split
  · exact runnable.edit rfl rfl id rfl rfl rfl rfl
  · exact runnable

theorem Consistent.wakeup1 (inv : Consistent s exempt) {chan : Chan} (run : wakeup1 b chan s = .ok t) :
    Consistent t exempt :=
  kept_of_path (Consistent · exempt) (fun ⟨_, asleep, _, woken⟩ inv => inv.wake asleep woken)
    (wakeup1_path run) inv

theorem Consistent.booted (inv : Consistent s) {c : Fin ncpu} {p : Slot}
    (current : s.cpu c = some p) : s.boot = .done := by
  have running := inv.cpus.running c p current
  cases boot : s.boot with
  | start => simp [inv.forks.start boot p] at running
  | allocated np =>
      rw [inv.forks.boot np boot p] at running
      split at running <;> cases running
  | done => rfl

/-- A child of an exiting process becomes a child of init, which may not have heard of it yet. -/
theorem Consistent.setParent (inv : Consistent s) {c : Fin ncpu} {curproc p : Slot}
    (current : s.cpu c = some curproc) (user : (s.proc curproc).frame = .user)
    (child : (s.proc p).parent = some curproc)
    (calm : (s.proc p).state = .zombie → exempt = s.initproc) :
    Consistent (s.setParent p s.initproc) exempt := by
  have boot := inv.booted current
  have running := inv.cpus.running c curproc current
  obtain ⟨init, isInit, alive⟩ := inv.family.init boot
  have notInit : p ≠ init := fun same => by simp [same, inv.family.root init isInit] at child
  have notEmbryo : (s.proc p).state ≠ .embryo := fun embryo => by
    simp [(inv.family.embryo p curproc embryo).mp child] at user
  obtain ⟨⟨⟩, ⟨⟩, ⟨⟩, family⟩ := inv
  refine ⟨?_, ?_, ?_, ?_⟩
  · constructor <;> simp only [State.setParent_proc, State.setParent_cpu] <;> grind
  · constructor <;> simp only [State.setParent_proc, State.setParent_boot, boot] <;> grind
  · constructor <;> simp only [State.setParent_proc, State.setParent_boot, boot] <;> grind
  · cases family
    constructor <;> simp only [State.setParent_proc, State.setParent_boot,
      State.setParent_initproc, boot] <;> grind

/-- After the call of `wakeup1` in `exit`, init has heard of it. -/
theorem Consistent.wakeInit (inv : Consistent s s.initproc)
    (run : Xv6.wakeup1 b (.ofProc s.initproc) s = .ok t) : Consistent t := by
  have woken := inv.wakeup1 run
  refine ⟨woken.cpus, woken.forks, woken.saved, { woken.family with attentive := ?_ }⟩
  intro p q _ asleep chan child
  have proc := wakeup1_proc run p
  have := woken.family.attentive p q
  have := (wakeup1_rest run).initproc
  cases initproc : s.initproc with
  | none => grind
  | some i =>
      simp only [initproc, Chan.ofProc] at proc
      grind [woken]

theorem Consistent.reparent (inv : Consistent s) {c : Fin ncpu} {curproc p : Slot}
    (current : s.cpu c = some curproc) (user : (s.proc curproc).frame = .user)
    (run : reparent b curproc s p = .ok t) : Consistent t := by
  unfold Xv6.reparent at run
  split at run
  · rename_i child
    dsimp only at run
    split at run
    · exact (inv.setParent current user child fun _ => rfl).wakeInit run
    · rename_i notZombie
      obtain rfl := Except.ok.inj run
      refine inv.setParent current user child fun zombie => absurd ?_ notZombie
      rw [State.setParent_proc]
      split <;> assumption
  · exact Except.ok.inj run ▸ inv

/-- A process that sleeps or waits in a ready queue is dispatched. -/
theorem Consistent.dispatched (inv : Consistent s) {c : Fin ncpu} {p : Slot}
    (idle : s.cpu c = none) (ready : (s.proc p).state = .runnable ∨ (s.proc p).state = .sleeping) :
    Consistent (dispatched c p s) := by
  have self : (Xv6.dispatched c p s).proc p = { s.proc p with state := .running, timescheduled := s.ticks } := by
    simp [Xv6.dispatched]
  have others : ∀ q, q ≠ p → (Xv6.dispatched c p s).proc q = s.proc q := fun q different => by
    simp [Xv6.dispatched, State.edit_proc, State.setState_proc, different]
  have alive : (s.proc p).Alive := ready.elim (fun runnable => .inr (.inl runnable)) .inl
  have before : (s.proc p).state ≠ .running := by
    rcases ready with state | state
    · simp [state]
    · simp [state]
  have cpus : CpuInv (Xv6.dispatched c p s) :=
    inv.cpus.enter idle (State.setCpu_cpu s c (some p)) before (by rw [self]) others
  exact inv.move self others cpus rfl rfl ⟨rfl, rfl, rfl, id, .inl ⟨alive, .inr (.inr rfl)⟩⟩ (fun _ => .inl rfl)
    (by rintro (⟨⟨⟩⟩ | ⟨⟨⟩⟩)) nofun

/-- The CPU gives up a process that can be resumed. -/
theorem Consistent.leave (inv : Consistent s) {c : Fin ncpu} {p : Slot} {q' : Proc} {context : Context}
    (current : s.cpu c = some p) (self : t.proc p = q') (others : ∀ q, q ≠ p → t.proc q = s.proc q)
    (cpu : t.cpu = s.cpu) (initproc : t.initproc = s.initproc) (boot : t.boot = s.boot)
    (left : q'.state = .runnable ∨ q'.state = .sleeping) (goes : (s.proc p).Goes q')
    (busy : q'.frame ≠ .user → q'.state = .runnable ∧ context = .yield) (resumable : context ≠ .exit)
    (attentive : q'.state = .sleeping → q'.chan = .proc p →
      ∀ q, (s.proc q).parent = some p → (s.proc q).state ≠ .zombie) :
    Consistent ((sched context p t).setCpu c none) := by
  have self' : ((Xv6.sched context p t).setCpu c none).proc p =
      { q' with switchnum := wrapInt (q'.switchnum + 1), context } := by
    rw [State.setCpu_proc, Xv6.sched, State.edit_proc_self, self]
  have others' : ∀ q, q ≠ p → ((Xv6.sched context p t).setCpu c none).proc q = s.proc q := fun q different => by
    rw [State.setCpu_proc, Xv6.sched, State.edit_proc, if_neg different, others q different]
  have notRunning : q'.state ≠ .running := by
    rcases left with state | state
    · simp [state]
    · simp [state]
  have cpus : CpuInv ((Xv6.sched context p t).setCpu c none) := by
    refine inv.cpus.leave current (fun d => ?_) (by rwa [self']) others'
    rw [State.setCpu_cpu, Xv6.sched, State.edit_cpu, cpu]
  have alive : (s.proc p).Alive := .inr (.inr (inv.cpus.running c p current))
  exact inv.move self' others' cpus initproc boot
    ⟨goes.parent, goes.frame, goes.kstack, goes.pgdir, .inl ⟨alive, goes.alive.mpr alive⟩⟩
    (fun inside => .inr (busy inside)) (fun _ => resumable) fun asleep isChan _ => attentive asleep isChan

theorem Consistent.yield (inv : Consistent s) {c : Fin ncpu} {p : Slot}
    (current : s.cpu c = some p) :
    Consistent ((sched .yield p (s.setState p .runnable)).setCpu c none) := by
  refine inv.leave current (State.setState_proc_self s p .runnable) (fun q different => ?_) rfl rfl rfl (.inl rfl)
    ⟨rfl, rfl, rfl, id, .inl ⟨.inr (.inr (inv.cpus.running c p current)), .inr (.inl rfl)⟩⟩
    (fun _ => ⟨rfl, rfl⟩) (by simp) nofun
  rw [State.setState_proc, if_neg different]

theorem Consistent.zombie (inv : Consistent s) {c : Fin ncpu} {p : Slot}
    (current : s.cpu c = some p)
      (user : (s.proc p).frame = .user) (notInit : s.initproc ≠ some p)
      (childless : ∀ q, (s.proc q).parent ≠ some p)
      (calm : ∀ q, (s.proc p).parent = some q →
        ¬((s.proc q).state = .sleeping ∧ (s.proc q).chan = .proc q)) :
    Consistent ((sched .exit p (s.setState p .zombie)).setCpu c none) := by
  obtain ⟨⟨⟩, ⟨⟩, ⟨⟩, ⟨⟩⟩ := inv
  unfold sched
  constructor <;> constructor <;> simp only [State.edit_proc, State.edit_cpu, State.edit_boot,
    State.edit_initproc, State.setState_proc, State.setState_cpu, State.setState_boot,
    State.setState_initproc, State.setCpu_proc, State.setCpu_cpu, State.setCpu_boot,
    State.setCpu_initproc] <;> grind

theorem Consistent.sleep (inv : Consistent s) {c : Fin ncpu} {p : Slot} {chan : Chan} {context : Context}
      (current : s.cpu c = some p) (user : (s.proc p).frame = .user)
      (resumable : context = .sleep ∨ context = .wait ∨ context = .waitnstats)
      (attentive : chan = .proc p → ∀ q, (s.proc q).parent = some p → (s.proc q).state ≠ .zombie) :
    Consistent ((sched context p ((s.edit p fun q => { q with chan }).setState p .sleeping)).setCpu c none) := by
  have self : ((s.edit p fun q => { q with chan }).setState p .sleeping).proc p =
      { s.proc p with chan, state := .sleeping } := by
    rw [State.setState_proc_self, State.edit_proc_self]
  refine inv.leave current self (fun q different => ?_) rfl rfl rfl (.inr rfl)
    ⟨rfl, rfl, rfl, id, .inl ⟨.inr (.inr (inv.cpus.running c p current)), .inl rfl⟩⟩
    (fun inside => absurd user inside) ?_ fun _ => attentive
  · rw [State.setState_proc, if_neg different, State.edit_proc, if_neg different]
  · rcases resumable with rfl | rfl | rfl
    · simp
    · simp
    · simp

theorem Consistent.tidy (inv : Consistent s) {c : Fin ncpu} {p : Slot} (current : s.cpu c = some p) :
    Consistent (s.edit p fun q => { q with chan := .null }) := by
  have running := inv.cpus.running c p current
  have alive : (s.proc p).Alive := .inr (.inr running)
  have others : ∀ q, q ≠ p → (s.edit p fun q => { q with chan := .null }).proc q = s.proc q :=
    fun q different => by rw [State.edit_proc, if_neg different]
  have self := State.edit_proc_self s p fun q => { q with chan := .null }
  have cpus : CpuInv (s.edit p fun q => { q with chan := .null }) := by
    refine inv.cpus.same rfl fun q => ?_
    by_cases same : q = p
    · rw [same, self]
    · rw [others q same]
  refine inv.move self others cpus rfl rfl ⟨rfl, rfl, rfl, id, .inl ⟨alive, alive⟩⟩ (fun _ => .inl running) ?_ nofun
  rintro (runnable | sleeping)
  · cases running.symm.trans runnable
  · cases running.symm.trans sleeping

theorem Consistent.reap (inv : Consistent s) {p child : Slot} {stats : Bool}
      (zombie : (s.proc child).state = .zombie) : Consistent (reap stats p child s) := by
  obtain ⟨⟨⟩, ⟨⟩, ⟨⟩, ⟨⟩⟩ := inv
  unfold Xv6.reap
  constructor <;> constructor <;> simp only [State.edit_proc, State.edit_cpu, State.edit_boot,
    State.edit_initproc, State.log_proc, State.log_cpu, State.log_boot, State.log_initproc] <;>
    grind

/-! ## Events that are one change -/

theorem Consistent.userinitAlloc (inv : Consistent s) {kstack pgdir : Page}
    (boot : s.boot = .start) (run : userinitAlloc b kstack pgdir s = .ok t) : Consistent t := by
  obtain ⟨p, unused, rfl⟩ := userinitAlloc_ok run
  clear run
  obtain ⟨⟨⟩, ⟨⟩, ⟨⟩, ⟨⟩⟩ := inv
  constructor <;> constructor <;> simp only [Function.update_apply] <;> grind

theorem Consistent.userinitReady (inv : Consistent s) {p : Slot}
    (boot : s.boot = .allocated p) (run : userinitReady b p s = .ok t) : Consistent t := by
  obtain ⟨u, added, eq⟩ := Fallible.bind_eq_ok.mp run
  obtain ⟨_, _, _, rfl, -⟩ := addReady_frame added
  obtain rfl := Except.ok.inj eq
  clear added run
  obtain ⟨⟨⟩, ⟨⟩, ⟨⟩, ⟨⟩⟩ := inv
  constructor <;> constructor <;> simp only [State.setState_proc, State.setState_cpu,
    State.setState_initproc] <;> grind

/-- What `fork` has made of the slot `np` of the child when it is in `frame`: after its end the slot is free
again, or the child is `RUNNABLE`. -/
def Offspring (p np : Slot) (q : Proc) : Frame → Prop
  | .user => q.state = .unused ∧ q.parent = none ∨ q.state = .runnable ∧ q.parent = some p ∧
      q.kstack ≠ none ∧ q.pgdir ≠ none ∧ q.context = .forkret
  | .kstack child => child = np ∧ q.state = .embryo ∧ q.parent = none
  | .copyuvm child => child = np ∧ q.state = .embryo ∧ q.parent = none ∧ q.kstack ≠ none ∧ q.context = .forkret
  | .ready child => child = np ∧ q.state = .embryo ∧ q.parent = some p ∧
      q.kstack ≠ none ∧ q.pgdir ≠ none ∧ q.context = .forkret

/-- The slot that `fork` works on is not the one of its process. -/
theorem Consistent.fork_ne (inv : Consistent s) {c : Fin ncpu} {p np : Slot} (current : s.cpu c = some p)
    (child : (s.proc p).frame = .user ∧ (s.proc np).state = .unused ∨ (s.proc p).frame.child = some np) : np ≠ p := by
  have running := inv.cpus.running c p current
  rintro rfl
  rcases child with ⟨-, unused⟩ | child
  · cases unused.symm.trans running
  · cases running.symm.trans (inv.forks.embryo np np child)

/-- A step of `fork`: from `UNUSED` or `EMBRYO` the child goes on to what belongs to the new frame. -/
structure ForkStep (s t : State ncpu) (p np : Slot) (frame : Frame) : Prop where
  child : (s.proc p).frame = .user ∧ (s.proc np).state = .unused ∨ (s.proc p).frame.child = some np
  self : t.proc p = { s.proc p with frame }
  user : (t.proc np).frame = (s.proc np).frame
  after : Offspring p np (t.proc np) frame
  others : ∀ q, q ≠ p → q ≠ np → t.proc q = s.proc q
  cpu : t.cpu = s.cpu
  initproc : t.initproc = s.initproc
  boot : t.boot = s.boot

theorem Offspring.named {p np m : Slot} {q : Proc} {frame : Frame} (after : Offspring p np q frame)
    (child : frame.child = some m) : m = np ∧ q.state = .embryo := by
  cases frame with
  | user => cases child
  | kstack | copyuvm | ready =>
      cases child
      exact ⟨after.1, after.2.1⟩

theorem Offspring.alive {p np : Slot} {q : Proc} {frame : Frame} (after : Offspring p np q frame)
    (alive : q.Alive ∨ q.state = .zombie) : q.state = .runnable ∧ q.parent = some p ∧ q.kstack ≠ none ∧
      q.pgdir ≠ none ∧ q.context = .forkret := by
  cases frame with
  | user =>
      rcases after with ⟨unused, -⟩ | runnable
      · simp [Proc.Alive, unused] at alive
      · exact runnable
  | kstack | copyuvm | ready => simp [Proc.Alive, after.2.1] at alive

theorem Offspring.parent {p np r : Slot} {q : Proc} {frame : Frame} (after : Offspring p np q frame)
    (parent : q.parent = some r) : r = p := by
  cases frame with
  | user =>
      rcases after with ⟨-, none⟩ | ⟨-, isParent, -⟩
      · cases none.symm.trans parent
      · exact Option.some.inj (parent.symm.trans isParent)
  | kstack => cases after.2.2.symm.trans parent
  | copyuvm => cases after.2.2.1.symm.trans parent
  | ready => exact Option.some.inj (parent.symm.trans after.2.2.1)

theorem Offspring.unused {p np : Slot} {q : Proc} {frame : Frame} (after : Offspring p np q frame)
    (unused : q.state = .unused) : q.parent = none := by
  cases frame with
  | user =>
      rcases after with ⟨-, none⟩ | ⟨runnable, -⟩
      · exact none
      · cases unused.symm.trans runnable
  | kstack | copyuvm | ready => cases unused.symm.trans after.2.1

theorem Offspring.embryo {p np : Slot} {q : Proc} {frame : Frame} (after : Offspring p np q frame)
    (embryo : q.state = .embryo) : q.parent = some p ↔ frame = .ready np := by
  cases frame with
  | user =>
      rcases after with ⟨unused, -⟩ | ⟨runnable, -⟩
      · cases embryo.symm.trans unused
      · cases embryo.symm.trans runnable
  | kstack => simp [after.2.2]
  | copyuvm => simp [after.2.2.1]
  | ready => simp [after.1, after.2.2.1]

theorem ForkStep.cases {p np : Slot} {frame : Frame} (step : ForkStep s t p np frame) (q : Slot) :
    q = p ∨ q = np ∨ t.proc q = s.proc q ∧ q ≠ p ∧ q ≠ np := by
  by_cases isP : q = p
  · exact .inl isP
  · by_cases isNp : q = np
    · exact .inr (.inl isNp)
    · exact .inr (.inr ⟨step.others q isP isNp, isP, isNp⟩)

theorem ForkStep.ready {p np : Slot} {frame : Frame} (step : ForkStep s t p np frame) {q r : Slot}
    (notNp : q ≠ np) : (t.proc r).frame = .ready q ↔ (s.proc r).frame = .ready q := by
  rcases step.cases r with rfl | rfl | ⟨same, -⟩
  · rw [step.self]
    refine iff_of_false (fun isReady => ?_) fun isReady => ?_
    · exact notNp (step.after.named (show frame.child = some q by rw [show frame = .ready q from isReady]; rfl)).1
    · rcases step.child with ⟨user, -⟩ | child
      · cases user.symm.trans isReady
      · rw [isReady] at child
        exact notNp (Option.some.inj child)
  · rw [step.user]
  · rw [same]

theorem ForkStep.notAlive {p np : Slot} {frame : Frame} (step : ForkStep s t p np frame) (inv : Consistent s) :
    ¬(s.proc np).Alive := by
  have early : (s.proc np).state = .unused ∨ (s.proc np).state = .embryo :=
    step.child.imp And.right (inv.forks.embryo p np)
  rcases early with state | state
  · simp [Proc.Alive, state]
  · simp [Proc.Alive, state]

/-- The child does not call `fork`. -/
theorem ForkStep.quiet {p np : Slot} {frame : Frame} (step : ForkStep s t p np frame) (inv : Consistent s) :
    (s.proc np).frame = .user := by
  by_contra busy
  have alive : (s.proc np).Alive := by
    rcases inv.forks.idle np busy with state | state
    · exact .inr (.inr state)
    · exact .inr (.inl state)
  exact step.notAlive inv alive

section

variable {c : Fin ncpu} {p np : Slot} {frame : Frame} (inv : Consistent s) (current : s.cpu c = some p)
  (step : ForkStep s t p np frame)

include inv current step

/-- Other calls of `fork` have other children. -/
theorem ForkStep.children {q m : Slot} (isChild : (t.proc q).frame.child = some m) :
    q = p ∧ m = np ∨ t.proc q = s.proc q ∧ t.proc m = s.proc m ∧ m ≠ np := by
  rcases step.cases q with rfl | rfl | ⟨same, notP, -⟩
  · rw [step.self] at isChild
    exact .inl ⟨rfl, (step.after.named isChild).1⟩
  · rw [step.user, step.quiet inv] at isChild
    cases isChild
  · rw [same] at isChild
    have embryo := inv.forks.embryo q m isChild
    have notP' : m ≠ p := by
      rintro rfl
      cases embryo.symm.trans (inv.cpus.running c m current)
    have notNp : m ≠ np := by
      rintro rfl
      rcases step.child with ⟨-, unused⟩ | child
      · cases embryo.symm.trans unused
      · exact notP (inv.forks.single q p m isChild child)
    exact .inr ⟨same, step.others m notP' notNp, notNp⟩

theorem ForkStep.forks : ForkInv t := by
  have running := inv.cpus.running c p current
  have booted := step.boot.trans (inv.booted current)
  refine ⟨fun q busy => ?_, fun q busy runnable => ?_, fun q m isChild => ?_, fun q r m isChild isChild' => ?_,
    fun start => ?_, fun m allocated => ?_⟩
  · rcases step.cases q with rfl | rfl | ⟨same, -⟩
    · rw [step.self]
      exact .inl running
    · exact absurd (step.user.trans (step.quiet inv)) busy
    · rw [same] at busy ⊢
      exact inv.forks.idle q busy
  · rcases step.cases q with rfl | rfl | ⟨same, -⟩
    · rw [step.self] at runnable
      cases running.symm.trans runnable
    · exact absurd (step.user.trans (step.quiet inv)) busy
    · rw [same] at busy runnable ⊢
      exact inv.forks.yielded q busy runnable
  · rcases step.children inv current isChild with ⟨rfl, rfl⟩ | ⟨same, same', -⟩
    · rw [step.self] at isChild
      exact (step.after.named isChild).2
    · rw [same] at isChild
      rw [same']
      exact inv.forks.embryo q m isChild
  · rcases step.children inv current isChild with ⟨rfl, rfl⟩ | ⟨same, -, notNp⟩
    · rcases step.children inv current isChild' with ⟨rfl, -⟩ | ⟨-, -, notNp⟩
      · rfl
      · exact absurd rfl notNp
    · rcases step.children inv current isChild' with ⟨-, rfl⟩ | ⟨same', -⟩
      · exact absurd rfl notNp
      · rw [same] at isChild
        rw [same'] at isChild'
        exact inv.forks.single q r m isChild isChild'
  · cases booted.symm.trans start
  · cases booted.symm.trans allocated

theorem ForkStep.saved : StackInv t := by
  have running := inv.cpus.running c p current
  have booted := step.boot.trans (inv.booted current)
  refine ⟨fun q alive => ?_, fun q ready => ?_, fun q zombie => ?_, fun q m isFrame => ?_, fun q m isFrame => ?_,
    fun m allocated => ?_⟩
  · rcases step.cases q with rfl | rfl | ⟨same, -⟩
    · rw [step.self]
      exact inv.saved.alive q (.inr (.inr running))
    · rcases step.after.alive (.inl alive) with ⟨-, -, kstack, pgdir, -⟩
      exact ⟨kstack, pgdir⟩
    · rw [same] at alive ⊢
      exact inv.saved.alive q alive
  · rcases step.cases q with rfl | rfl | ⟨same, -⟩
    · rw [step.self] at ready
      simp [running] at ready
    · rcases step.after.alive (.inl (ready.elim (.inr ∘ .inl) .inl)) with ⟨-, -, -, -, context⟩
      simp [context]
    · rw [same] at ready ⊢
      exact inv.saved.resumable q ready
  · rcases step.cases q with rfl | rfl | ⟨same, -⟩
    · rw [step.self] at zombie
      cases running.symm.trans zombie
    · cases zombie.symm.trans (step.after.alive (.inr zombie)).1
    · rw [same] at zombie ⊢
      exact inv.saved.zombie q zombie
  · have isChild : (t.proc q).frame.child = some m := by rw [isFrame]; rfl
    rcases step.children inv current isChild with ⟨rfl, rfl⟩ | ⟨same, same', -⟩
    · rw [step.self] at isFrame
      have after := step.after
      rw [show frame = .copyuvm m from isFrame] at after
      exact after.2.2.2
    · rw [same] at isFrame
      rw [same']
      exact inv.saved.copyuvm q m isFrame
  · have isChild : (t.proc q).frame.child = some m := by rw [isFrame]; rfl
    rcases step.children inv current isChild with ⟨rfl, rfl⟩ | ⟨same, same', -⟩
    · rw [step.self] at isFrame
      have after := step.after
      rw [show frame = .ready m from isFrame] at after
      exact after.2.2.2
    · rw [same] at isFrame
      rw [same']
      exact inv.saved.ready q m isFrame
  · cases booted.symm.trans allocated

theorem ForkStep.stays {q : Slot} (alive : (s.proc q).Alive) : (t.proc q).Alive := by
  rcases step.cases q with rfl | rfl | ⟨same, -⟩
  · rw [step.self]
    exact alive
  · exact absurd alive (step.notAlive inv)
  · rw [same]
    exact alive

theorem ForkStep.family : FamilyInv t none := by
  have running := inv.cpus.running c p current
  have booted := inv.booted current
  have booted' := step.boot.trans booted
  have different := inv.fork_ne current step.child
  rcases inv.family.init booted with ⟨i, isInit, alive⟩
  refine ⟨fun start => ?_, fun m allocated => ?_, fun _ => ⟨i, step.initproc.trans isInit, step.stays inv current alive⟩,
    fun q isRoot => ?_, fun q live notInit => ?_, fun q r live isParent => ?_, fun q unused => ?_,
    fun q r embryo => ?_, fun q isParent => ?_, fun q r _ asleep isChan isParent zombie => ?_⟩
  · cases booted'.symm.trans start
  · cases booted'.symm.trans allocated
  · rw [step.initproc] at isRoot
    rcases step.cases q with rfl | rfl | ⟨same, -⟩
    · rw [step.self]
      exact inv.family.root q isRoot
    · rw [isInit, Option.some_inj] at isRoot
      exact absurd (isRoot ▸ alive) (step.notAlive inv)
    · rw [same]
      exact inv.family.root q isRoot
  · rw [step.initproc] at notInit
    rcases step.cases q with rfl | rfl | ⟨same, -⟩
    · rw [step.self]
      exact inv.family.child q (.inl (.inr (.inr running))) notInit
    · simp [(step.after.alive live).2.1]
    · rw [same] at live ⊢
      exact inv.family.child q live notInit
  · rcases step.cases q with rfl | rfl | ⟨same, -⟩
    · rw [step.self] at isParent
      exact step.stays inv current (inv.family.parent q r (.inl (.inr (.inr running))) isParent)
    · rw [step.after.parent isParent]
      exact step.stays inv current (.inr (.inr running))
    · rw [same] at live isParent
      exact step.stays inv current (inv.family.parent q r live isParent)
  · rcases step.cases q with rfl | rfl | ⟨same, -⟩
    · rw [step.self] at unused
      cases running.symm.trans unused
    · exact step.after.unused unused
    · rw [same] at unused ⊢
      exact inv.family.unused q unused
  · rcases step.cases q with rfl | rfl | ⟨same, -, notNp⟩
    · rw [step.self] at embryo
      cases running.symm.trans embryo
    · by_cases isP : r = p
      · rw [isP, step.self]
        exact step.after.embryo embryo
      · refine iff_of_false (fun isParent => isP (step.after.parent isParent)) fun isReady => ?_
        have isChild : (t.proc r).frame.child = some q := by rw [isReady]; rfl
        rcases step.children inv current isChild with ⟨isP', -⟩ | ⟨-, -, notNp⟩
        · exact isP isP'
        · exact notNp rfl
    · rw [same] at embryo ⊢
      rw [step.ready notNp]
      exact inv.family.embryo q r embryo
  · rcases step.cases q with rfl | rfl | ⟨same, -⟩
    · rw [step.self] at isParent
      exact inv.family.irrefl q isParent
    · exact different (step.after.parent isParent)
    · rw [same] at isParent
      exact inv.family.irrefl q isParent
  · rcases step.cases q with rfl | rfl | ⟨same, -⟩
    · rw [step.self] at asleep
      cases running.symm.trans asleep
    · cases asleep.symm.trans (step.after.alive (.inl (.inl asleep))).1
    · rw [same] at asleep isChan
      rcases step.cases r with rfl | rfl | ⟨same', -⟩
      · rw [step.self] at zombie
        cases running.symm.trans zombie
      · cases zombie.symm.trans (step.after.alive (.inr zombie)).1
      · rw [same'] at isParent zombie
        exact inv.family.attentive q r (by rintro ⟨⟩) asleep isChan isParent zombie

end

theorem Consistent.forkStep (inv : Consistent s) {c : Fin ncpu} {p np : Slot} (frame : Frame)
    (current : s.cpu c = some p) (step : ForkStep s t p np frame) : Consistent t := by
  refine ⟨inv.cpus.same step.cpu fun q => ?_, step.forks inv current, step.saved inv current,
    step.family inv current⟩
  rcases step.cases q with rfl | rfl | ⟨same, -⟩
  · rw [step.self]
  · refine iff_of_false (fun isRunning => ?_) fun isRunning => step.notAlive inv (.inr (.inr isRunning))
    cases isRunning.symm.trans (step.after.alive (.inl (.inr (.inr isRunning)))).1
  · rw [same]

theorem Consistent.fork (inv : Consistent s) {c : Fin ncpu} {p : Slot} (current : s.cpu c = some p)
    (user : (s.proc p).frame = .user) : Consistent (fork p s) := by
  unfold Xv6.fork
  split
  · exact inv
  · rename_i np u alloc
    obtain ⟨unused, rfl⟩ := allocproc_some alloc
    have different := inv.fork_ne current (.inl ⟨user, unused⟩)
    refine inv.forkStep (.kstack np) current ⟨.inl ⟨user, unused⟩, ?_, ?_, ⟨rfl, ?_, ?_⟩, fun q notP notNp => ?_,
      rfl, rfl, rfl⟩
    · simp [different.symm]
    · simp [State.edit_proc, different]
    · simp [State.edit_proc, different]
    · simp [State.edit_proc, different, inv.family.unused np unused]
    · simp [State.edit_proc, notP, notNp]

/-- The `EMBRYO` of a `fork` that has not set its parent. -/
theorem Consistent.embryo (inv : Consistent s) {p np : Slot}
    (child : (s.proc p).frame.child = some np) (notReady : (s.proc p).frame ≠ .ready np) :
    (s.proc np).state = .embryo ∧ (s.proc np).parent = none ∧ (s.proc np).frame = .user := by
  have embryo := inv.forks.embryo p np child
  refine ⟨embryo, ?_, ?_⟩
  · cases parent : (s.proc np).parent with
    | none => rfl
    | some q =>
        have ready := (inv.family.embryo np q embryo).mp parent
        have same : q = p := inv.forks.single q p np (by rw [ready]; rfl) child
        exact absurd (same ▸ ready) notReady
  · by_contra busy
    have := inv.forks.idle np busy
    grind

/-- A `fork` that fails gives its slot back. -/
theorem Consistent.release (inv : Consistent s) {c : Fin ncpu} {p np : Slot} {change : Proc → Proc}
    (current : s.cpu c = some p) (child : (s.proc p).frame.child = some np)
    (notReady : (s.proc p).frame ≠ .ready np)
    (parent : (change (s.proc np)).parent = (s.proc np).parent)
    (frame : (change (s.proc np)).frame = (s.proc np).frame) :
    Consistent (((s.edit np change).setState np .unused).edit p fun q =>
      { q with frame := .user }) := by
  have different := inv.fork_ne current (.inr child)
  obtain ⟨-, orphan, -⟩ := inv.embryo child notReady
  refine inv.forkStep .user current ⟨.inr child, ?_, ?_, .inl ⟨?_, ?_⟩, fun q notP notNp => ?_, rfl, rfl, rfl⟩
  · simp [State.edit_proc, State.setState_proc, different.symm]
  · simp [State.edit_proc, different, frame]
  · simp [State.edit_proc, different]
  · simp [State.edit_proc, different, parent, orphan]
  · simp [State.edit_proc, State.setState_proc, notP, notNp]

theorem Consistent.forkKstack (inv : Consistent s) {c : Fin ncpu} {p np : Slot}
    {page : Option Page} (current : s.cpu c = some p) (frame : (s.proc p).frame = .kstack np) :
    Consistent (forkKstack p np page s) := by
  have child : (s.proc p).frame.child = some np := by rw [frame]; rfl
  have notReady : (s.proc p).frame ≠ .ready np := by simp [frame]
  cases page with
  | none => exact inv.release current child notReady rfl rfl
  | some page =>
      have different := inv.fork_ne current (.inr child)
      obtain ⟨embryo, orphan, -⟩ := inv.embryo child notReady
      unfold Xv6.forkKstack allocprocKstack
      refine inv.forkStep (.copyuvm np) current ⟨.inr child, ?_, ?_, ⟨rfl, ?_, ?_, ?_, ?_⟩,
        fun q notP notNp => ?_, rfl, rfl, rfl⟩
      · simp [State.edit_proc, different.symm]
      · simp [State.edit_proc, different]
      · simp [State.edit_proc, different, embryo]
      · simp [State.edit_proc, different, orphan]
      · simp [State.edit_proc, different]
      · simp [State.edit_proc, different]
      · simp [State.edit_proc, notP, notNp]

/-- A `fork` that succeeds becomes the parent of its `EMBRYO`. -/
theorem Consistent.adopt (inv : Consistent s) {c : Fin ncpu} {p np : Slot} (page : Page)
    (current : s.cpu c = some p) (frame : (s.proc p).frame = .copyuvm np) :
    Consistent (((s.edit np fun q => { q with pgdir := some page }).setParent np (some p)).edit p
      fun q => { q with frame := .ready np }) := by
  have child : (s.proc p).frame.child = some np := by rw [frame]; rfl
  have different := inv.fork_ne current (.inr child)
  have embryo := inv.forks.embryo p np child
  obtain ⟨kstack, context⟩ := inv.saved.copyuvm p np frame
  refine inv.forkStep (.ready np) current ⟨.inr child, ?_, ?_, ⟨rfl, ?_, ?_, ?_, ?_, ?_⟩,
    fun q notP notNp => ?_, rfl, rfl, rfl⟩
  · simp [State.edit_proc, State.setParent_proc, different.symm]
  · simp [State.edit_proc, State.setParent_proc, different]
  · simp [State.edit_proc, State.setParent_proc, different, embryo]
  · simp [State.edit_proc, State.setParent_proc, different]
  · simp [State.edit_proc, State.setParent_proc, different, kstack]
  · simp [State.edit_proc, State.setParent_proc, different]
  · simp [State.edit_proc, State.setParent_proc, different, context]
  · simp [State.edit_proc, State.setParent_proc, notP, notNp]

theorem Consistent.forkCopyuvm (inv : Consistent s) {c : Fin ncpu} {p np : Slot}
    {page : Option Page} (current : s.cpu c = some p) (frame : (s.proc p).frame = .copyuvm np) :
    Consistent (forkCopyuvm b p np page s) := by
  have child : (s.proc p).frame.child = some np := by rw [frame]; rfl
  have notReady : (s.proc p).frame ≠ .ready np := by simp [frame]
  unfold Xv6.forkCopyuvm
  cases page with
  | none =>
      simp only [State.edit_edit]
      exact inv.release current child notReady rfl rfl
  | some page =>
      have different := inv.fork_ne current (.inr child)
      have adopted := inv.adopt page current frame
      dsimp only
      split
      · rw [State.edit_comm different]
        exact adopted.edit rfl rfl id rfl rfl rfl rfl
      · exact adopted

theorem Consistent.forkReady (inv : Consistent s) {c : Fin ncpu} {p np : Slot}
    (current : s.cpu c = some p) (frame : (s.proc p).frame = .ready np)
    (run : forkReady b p np s = .ok t) : Consistent t := by
  obtain ⟨u, added, eq⟩ := Fallible.bind_eq_ok.mp run
  obtain ⟨_, _, _, rfl, -⟩ := addReady_frame added
  obtain rfl := Except.ok.inj eq
  have child : (s.proc p).frame.child = some np := by rw [frame]; rfl
  have different := inv.fork_ne current (.inr child)
  have parent := (inv.family.embryo np p (inv.forks.embryo p np child)).mpr frame
  obtain ⟨kstack, pgdir, context⟩ := inv.saved.ready p np frame
  refine inv.forkStep .user current ⟨.inr child, ?_, ?_, .inr ⟨?_, ?_, ?_, ?_, ?_⟩, fun q notP notNp => ?_,
    rfl, rfl, rfl⟩
  · simp [State.setState_proc, different.symm]
  · simp [State.edit_proc, different]
  · simp [State.edit_proc, different]
  · simp [State.edit_proc, different, parent]
  · simp [State.edit_proc, different, kstack]
  · simp [State.edit_proc, different, pgdir]
  · simp [State.edit_proc, different, context]
  · simp [State.edit_proc, State.setState_proc, notP, notNp]

theorem Consistent.kill (inv : Consistent s) {pid result : ℤ}
    (run : kill b pid s = .ok (result, t)) : Consistent t := by
  rcases kill_ok run with ⟨-, -, rfl⟩ | ⟨p, -, -, ⟨asleep, woken⟩ | ⟨-, rfl⟩⟩
  · exact inv
  · have marked : Consistent (markKilled p s) := inv.edit rfl rfl id rfl rfl rfl rfl
    exact marked.wake (by rwa [markKilled_state]) woken
  · exact inv.edit rfl rfl id rfl rfl rfl rfl

theorem Consistent.chpr (inv : Consistent s) {pid priority : ℤ}
    (run : chpr b pid priority s = .ok t) : Consistent t := by
  rcases chpr_ok run with rfl | ⟨-, p, multiqueue, -, rfl⟩
  · exact inv
  · have changed : Consistent (setPriority p priority s) := inv.edit rfl rfl id rfl rfl rfl rfl
    exact changed.congr rfl rfl rfl rfl

theorem Consistent.updateprocesstimes (inv : Consistent s) : Consistent ((updateprocesstimes s).log .tick) := by
  have each : ∀ p, (s.proc p).Goes ((Xv6.updateprocesstimes s).proc p) ∧
      ((Xv6.updateprocesstimes s).proc p).state = (s.proc p).state ∧
      ((Xv6.updateprocesstimes s).proc p).context = (s.proc p).context ∧
      ((Xv6.updateprocesstimes s).proc p).chan = (s.proc p).chan := by
    intro p
    rw [Xv6.updateprocesstimes]
    dsimp only
    split
    · exact ⟨⟨rfl, rfl, rfl, id, .inr ⟨rfl, rfl⟩⟩, rfl, rfl, rfl⟩
    · split
      · exact ⟨⟨rfl, rfl, rfl, id, .inr ⟨rfl, rfl⟩⟩, rfl, rfl, rfl⟩
      · split
        · exact ⟨⟨rfl, rfl, rfl, id, .inr ⟨rfl, rfl⟩⟩, rfl, rfl, rfl⟩
        · exact ⟨.refl _, rfl, rfl, rfl⟩
  exact inv.similar (fun p => (each p).1) (fun p => (each p).2.1) (fun p => (each p).2.2.1)
    (fun p => (each p).2.2.2) rfl rfl rfl

theorem Consistent.leaf (inv : Consistent s) {e : Event ncpu} (leaf : Leaf b s e t) :
    Consistent t := by
  cases leaf with
  | userinitAlloc boot run => exact inv.userinitAlloc boot run
  | userinitReady boot run => exact inv.userinitReady boot run
  | fork current user => exact inv.fork current user
  | forkKstack current frame => exact inv.forkKstack current frame
  | forkCopyuvm current frame => exact inv.forkCopyuvm current frame
  | forkReady current frame run => exact inv.forkReady current frame run
  | exec current user => exact inv.edit rfl rfl (fun _ => by simp) rfl rfl rfl rfl
  | kill run => exact inv.kill run
  | trapFault current => exact inv.edit rfl rfl id rfl rfl rfl rfl
  | chpr run => exact inv.chpr run
  | tick => exact inv.congr rfl rfl rfl rfl
  | updateprocesstimes => exact inv.updateprocesstimes

/-- Every action keeps the invariants of the process table. -/
theorem Consistent.action (inv : Consistent s) {admitted : State ncpu → Event ncpu → Prop}
    {chans : Chan → Prop} (action : Action b admitted chans s t) : Consistent t := by
  cases action with
  | leaf _ leaf => exact inv.leaf leaf
  | wake asleep _ run => exact inv.wake asleep run
  | reparent current user _ run => exact inv.reparent current user run
  | zombie current user notInit childless calm =>
      exact inv.zombie current user notInit childless calm
  | yield current run =>
      obtain ⟨_, _, _, rfl, -⟩ := addReady_frame run
      exact (inv.yield current).congr rfl rfl rfl rfl
  | demote current dmlq => exact inv.edit rfl rfl id rfl rfl rfl rfl
  | sleep current user resumable attentive => exact inv.sleep current user resumable attentive
  | pickNone run =>
      obtain ⟨_, _, rfl⟩ := pickNext_frame run
      exact inv.congr rfl rfl rfl rfl
  | dispatch idle picks ready =>
      obtain ⟨_, _, rfl⟩ := picks.frame
      exact (inv.dispatched idle ready).congr rfl rfl rfl rfl
  | tidy current => exact inv.tidy current
  | reap current own zombie => exact inv.reap zombie

end Xv6
