import Xv6.Proc.Arrival
import Xv6.Proc.Decomposition

/-!
# What actions do to the ready queues

Every action is a sequence of touches: a process enters the ready queue as it becomes `RUNNABLE`,
or leaves it, or nothing happens that the queues could notice. Only `chpr` moves processes within
them.
-/

namespace Xv6

open Relation Fallible

variable {ncpu : ℕ}

/-- Every process has a level, from the `fork` that creates it until it is reaped. -/
structure PriorityInv (s : State ncpu) : Prop where
  live : ∀ p, (s.proc p).Alive ∨ (s.proc p).state = .zombie → InRange (s.proc p).priority
  ready : ∀ p np, (s.proc p).frame = .ready np → InRange (s.proc np).priority
  boot : ∀ np, s.boot = .allocated np → InRange (s.proc np).priority

/-- `PriorityInv` for the builds that have levels. -/
def LevelInv (b : Build) (s : State ncpu) : Prop := b.Multilevel → PriorityInv s

inductive Touch (b : Build) (admitted : State ncpu → Event ncpu → Prop) (s t : State ncpu) :
    Prop where
  | quiet (quiet : Quiet s t)
  | enter {p : Slot} {u : State ncpu} (enters : Enters b p s u) (run : addReady b p u = .ok t)
  | pickNone (run : pickNext b s = .ok (none, t))
  | leave {p : Slot} {u : State ncpu} (run : pickNext b s = .ok (some p, u))
      (leaves : Leaves p u t)
  | chpr {c : Fin ncpu} {pid priority : ℤ} (mlq : b = .mlq)
      (allowed : admitted s (.chpr c pid priority)) (run : chpr b pid priority s = .ok t)

variable {b : Build} {s t : State ncpu} {admitted : State ncpu → Event ncpu → Prop}
  {chans : Chan → Prop} {c : Fin ncpu} {p : Slot}

/-! ## Priorities -/

attribute [local grind] Proc.Alive InRange Build.Multilevel Frame.child hipr mdpr lwpr

theorem PriorityInv.initial : PriorityInv ({} : State ncpu) := by
  refine ⟨?_, ?_, ?_⟩ <;> simp [Proc.Alive]

theorem PriorityInv.congr (inv : PriorityInv s) (proc : t.proc = s.proc) (boot : t.boot = s.boot) :
    PriorityInv t := by
  obtain ⟨live, ready, booted⟩ := inv
  constructor <;> simp only [proc, boot] <;> assumption

/-- A change that makes no process live, sets no priority and starts no `fork`. -/
theorem PriorityInv.mono (inv : PriorityInv s)
    (live : ∀ p, (t.proc p).Alive ∨ (t.proc p).state = .zombie →
      (s.proc p).Alive ∨ (s.proc p).state = .zombie)
    (priority : ∀ p, (t.proc p).priority = (s.proc p).priority)
    (frame : ∀ p np, (t.proc p).frame = .ready np → (s.proc p).frame = .ready np)
    (boot : t.boot = s.boot) : PriorityInv t where
  live p after := priority p ▸ inv.live p (live p after)
  ready p np after := priority np ▸ inv.ready p np (frame p np after)
  boot np after := priority np ▸ inv.boot np (boot ▸ after)

theorem PriorityInv.wakeup1 (inv : PriorityInv s) {chan : Chan} (run : wakeup1 b chan s = .ok t) :
    PriorityInv t := by
  have proc := wakeup1_proc run
  have boot := (wakeup1_rest run).boot
  obtain ⟨⟩ := inv
  constructor <;> simp only [proc, boot, woken] <;> grind

theorem PriorityInv.wake (inv : PriorityInv s) (asleep : (s.proc p).state = .sleeping)
    (run : wake b p s = .ok t) : PriorityInv t := by
  have proc := wake_proc run
  have boot := (wake_rest run).boot
  obtain ⟨⟩ := inv
  constructor <;> simp only [proc, boot, woken] <;> grind

theorem PriorityInv.setParent (inv : PriorityInv s) {parent : Option Slot} :
    PriorityInv (s.setParent p parent) := by
  refine inv.mono ?_ ?_ ?_ rfl <;> simp only [State.setParent_proc] <;> grind

theorem PriorityInv.markKilled (inv : PriorityInv s) : PriorityInv (markKilled p s) := by
  refine inv.mono ?_ ?_ ?_ rfl <;> simp only [Xv6.markKilled, State.edit_proc] <;> grind

theorem PriorityInv.reparent (inv : PriorityInv s) {curproc : Slot}
    (run : reparent b curproc s p = .ok t) : PriorityInv t := by
  unfold Xv6.reparent at run
  split at run
  · dsimp only at run
    split at run
    · exact inv.setParent.wakeup1 run
    · exact Except.ok.inj run ▸ inv.setParent
  · exact Except.ok.inj run ▸ inv

/-- The calls of `chpr` set levels only. -/
def SetsLevels (b : Build) (admitted : State ncpu → Event ncpu → Prop) : Prop :=
  ∀ s c pid priority, b = .mlq → admitted s (.chpr c pid priority) → InRange priority

theorem PriorityInv.forkCopyuvm (inv : PriorityInv s) (consistent : Consistent s)
    (multilevel : b.Multilevel) {np : Slot} {page : Option Page} (current : s.cpu c = some p)
    (frame : (s.proc p).frame = .copyuvm np) : PriorityInv (forkCopyuvm b p np page s) := by
  have child : (s.proc p).frame.child = some np := by rw [frame]; rfl
  have embryo := consistent.embryo child (by simp [frame])
  have running := consistent.cpus.running c p current
  have single := consistent.forks.single
  have different : np ≠ p := fun same => by simp [same, running] at embryo
  obtain ⟨⟩ := inv
  unfold Xv6.forkCopyuvm
  cases page with
  | none =>
      constructor <;> simp only [State.edit_proc, State.setState_proc, State.edit_boot,
        State.setState_boot] <;> grind
  | some page =>
      simp only [show b = .mlq ∨ b = .dmlq from multilevel, if_true]
      constructor <;> simp only [State.edit_proc, State.setParent_proc, State.edit_boot,
        State.setParent_boot] <;> grind

theorem PriorityInv.leaf (inv : PriorityInv s) (consistent : Consistent s)
    (multilevel : b.Multilevel) (sets : SetsLevels b admitted) {e : Event ncpu}
    (allowed : admitted s e) (leaf : Leaf b s e t) : PriorityInv t := by
  cases leaf with
  | userinitAlloc boot run =>
      obtain ⟨p, unused, rfl⟩ := userinitAlloc_ok run
      have start := consistent.forks.start boot
      have embryo := consistent.forks.embryo
      clear run
      constructor <;> simp only [Function.update_apply] <;> grind
  | userinitReady boot run =>
      obtain ⟨u, added, eq⟩ := bind_eq_ok.mp run
      obtain ⟨_, _, _, rfl, -⟩ := addReady_frame added
      obtain rfl := Except.ok.inj eq
      clear run added
      obtain ⟨⟩ := inv
      constructor <;> simp only [State.setState_proc] <;> grind
  | fork current user =>
      unfold fork
      split
      · exact inv
      · rename_i np u alloc
        obtain ⟨unused, rfl⟩ := allocproc_some alloc
        clear alloc
        refine inv.mono ?_ ?_ ?_ rfl <;> simp only [State.edit_proc, Function.update_apply] <;>
          grind
  | forkKstack current frame =>
      have embryo := consistent.forks.embryo _ _ (by rw [frame]; rfl)
      unfold forkKstack allocprocKstack
      refine inv.mono ?_ ?_ ?_ ?_ <;> split <;>
        simp only [State.edit_proc, State.setState_proc, State.edit_boot, State.setState_boot] <;>
        grind
  | forkCopyuvm current frame => exact inv.forkCopyuvm consistent multilevel current frame
  | forkReady current frame run =>
      obtain ⟨u, added, eq⟩ := bind_eq_ok.mp run
      obtain ⟨_, _, _, rfl, -⟩ := addReady_frame added
      obtain rfl := Except.ok.inj eq
      clear run added
      obtain ⟨⟩ := inv
      constructor <;> simp only [State.edit_proc, State.setState_proc, State.edit_boot,
        State.setState_boot] <;> grind
  | exec current user =>
      obtain ⟨⟩ := inv
      constructor <;> simp only [exec, State.edit_proc, State.edit_boot] <;> grind
  | kill run =>
      rcases kill_ok run with ⟨-, -, rfl⟩ | ⟨p, -, -, ⟨asleep, woken⟩ | ⟨-, rfl⟩⟩
      · exact inv
      · exact inv.markKilled.wake (by rwa [markKilled_state]) woken
      · exact inv.markKilled
  | trapFault current =>
      refine inv.mono ?_ ?_ ?_ rfl <;> simp only [State.edit_proc] <;> grind
  | chpr run =>
      rcases chpr_ok run with rfl | ⟨mlq, p, multiqueue, -, rfl⟩
      · exact inv
      · have inRange := sets _ _ _ _ mlq allowed
        obtain ⟨⟩ := inv
        constructor <;> simp only [setPriority, State.edit_proc, State.edit_boot] <;> grind
  | tick => exact inv.congr rfl rfl
  | updateprocesstimes =>
      refine inv.mono ?_ ?_ ?_ rfl <;> simp only [updateprocesstimes, State.log_proc] <;> grind

/-- Every action keeps the priorities levels. -/
theorem PriorityInv.action (inv : PriorityInv s) (consistent : Consistent s)
    (multilevel : b.Multilevel) (sets : SetsLevels b admitted)
    (action : Action b admitted chans s t) : PriorityInv t := by
  cases action with
  | leaf allowed leaf => exact inv.leaf consistent multilevel sets allowed leaf
  | wake asleep _ run => exact inv.wake asleep run
  | reparent current user _ run => exact inv.reparent run
  | zombie current user notInit childless calm =>
      have running := consistent.cpus.running _ _ current
      refine inv.mono ?_ ?_ ?_ rfl <;> simp only [sched, State.setCpu_proc, State.edit_proc, State.setState_proc] <;> grind
  | yield current run =>
      obtain ⟨_, _, _, rfl, -⟩ := addReady_frame run
      have running := consistent.cpus.running _ _ current
      refine inv.mono ?_ ?_ ?_ rfl <;> simp only [sched, State.setCpu_proc, State.edit_proc, State.setState_proc] <;> grind
  | demote current dmlq =>
      obtain ⟨⟩ := inv
      constructor <;> simp only [State.edit_proc, State.edit_boot] <;> grind
  | sleep current user resumable attentive =>
      have running := consistent.cpus.running _ _ current
      refine inv.mono ?_ ?_ ?_ rfl <;> simp only [sched, State.setCpu_proc, State.edit_proc, State.setState_proc] <;> grind
  | pickNone run =>
      obtain ⟨_, _, rfl⟩ := pickNext_frame run
      exact inv.congr rfl rfl
  | dispatch idle picks ready =>
      obtain ⟨_, _, rfl⟩ := picks.frame
      refine inv.mono ?_ ?_ ?_ rfl <;> simp only [dispatched, State.setCpu_proc, State.edit_proc, State.setState_proc] <;> grind
  | tidy current =>
      refine inv.mono ?_ ?_ ?_ rfl <;> simp only [State.edit_proc] <;> grind
  | reap current own zombie =>
      refine inv.mono ?_ ?_ ?_ rfl <;> simp only [reap, State.log_proc, State.edit_proc] <;> grind

/-! ## Actions as touches -/

theorem Quiet.refl (s : State ncpu) : Quiet s s :=
  ⟨rfl, rfl, fun _ => .rfl, fun _ _ => rfl, fun _ _ => rfl, [], rfl, by simp⟩

/-- A process wakes up. -/
theorem Enters.wake (levels : LevelInv b s) (asleep : (s.proc p).state = .sleeping) :
    Enters b p s (if b = .dmlq then (s.setState p .runnable).edit p
      fun q => { q with priority := hipr } else s.setState p .runnable) := by
  have priority := fun multilevel => (levels multilevel).live p
  refine ⟨?_, ?_, ?_, ?_, ?_, ?_, ?_⟩
  · split <;> rfl
  · split <;> rfl
  · simp [asleep]
  · split <;> simp
  · intro q different
    split <;> simp [State.edit_proc, State.setState_proc, different]
  · intro multilevel
    split <;> simp only [State.edit_proc_self, State.setState_proc_self] <;> grind
  · split <;> rfl

/-- A process that runs or is new becomes `RUNNABLE`. -/
theorem Enters.setRunnable (before : (s.proc p).state ≠ .runnable)
    (level : b.Multilevel → InRange (s.proc p).priority) :
    Enters b p s (s.setState p .runnable) where
  pqueue := rfl
  multiqueue := rfl
  before := before
  runnable := by simp
  others q different := by simp [State.setState_proc, different]
  level multilevel := by simpa using level multilevel
  hist := rfl

theorem touch_wake (levels : LevelInv b s) (asleep : (s.proc p).state = .sleeping)
    (run : wake b p s = .ok t) : Touch b admitted s t :=
  .enter (Enters.wake levels asleep) run

theorem touch_wakeup1 (levels : LevelInv b s) {chan : Chan} (run : wakeup1 b chan s = .ok t) :
    ReflTransGen (Touch b admitted) s t := by
  have path := wakeup1_path run
  clear run
  induction path using ReflTransGen.head_induction_on with
  | refl => exact .refl
  | head wakes _ ih =>
      obtain ⟨p, asleep, -, woken⟩ := wakes
      exact .head (touch_wake levels asleep woken)
        (ih fun multilevel => (levels multilevel).wake asleep woken)

theorem quiet_setParent {parent : Option Slot} : Quiet s (s.setParent p parent) := by
  refine ⟨rfl, rfl, ?_, ?_, ?_, [.parent p parent], rfl, by simp [Entry.Calm]⟩ <;> intro q <;>
    simp only [State.setParent_proc] <;> grind

theorem touch_reparent (levels : LevelInv b s) {curproc : Slot}
    (run : reparent b curproc s p = .ok t) : ReflTransGen (Touch b admitted) s t := by
  unfold reparent at run
  split at run
  · dsimp only at run
    split at run
    · exact .head (.quiet quiet_setParent)
        (touch_wakeup1 (fun multilevel => (levels multilevel).setParent) run)
    · exact Except.ok.inj run ▸ .single (.quiet quiet_setParent)
  · exact Except.ok.inj run ▸ .refl

/-- What a change must keep for the ready queues not to notice it. -/
theorem Quiet.of_proc (pqueue : t.pqueue = s.pqueue) (multiqueue : t.multiqueue = s.multiqueue)
    (proc : ∀ p, ((t.proc p).state = .runnable ↔ (s.proc p).state = .runnable) ∧
      ((s.proc p).state = .runnable → (t.proc p).priority = (s.proc p).priority ∧
        (t.proc p).timecreated = (s.proc p).timecreated))
    (hist : ∃ entries, t.hist = entries ++ s.hist ∧ ∀ entry ∈ entries, entry.Calm) : Quiet s t :=
  ⟨pqueue, multiqueue, fun p => (proc p).1, fun p runnable => ((proc p).2 runnable).1,
    fun p runnable => ((proc p).2 runnable).2, hist⟩

theorem quiet_edit {change : Proc → Proc}
    (state : (change (s.proc p)).state = .runnable ↔ (s.proc p).state = .runnable)
    (same : (s.proc p).state = .runnable → (change (s.proc p)).priority = (s.proc p).priority ∧
      (change (s.proc p)).timecreated = (s.proc p).timecreated) : Quiet s (s.edit p change) := by
  refine .of_proc rfl rfl (fun q => ?_) ⟨[], rfl, by simp⟩
  simp only [State.edit_proc]
  grind

theorem touch_leaf (consistent : Consistent s) (levels : LevelInv b s) {e : Event ncpu}
    (allowed : admitted s e) (leaf : Leaf b s e t) : ReflTransGen (Touch b admitted) s t := by
  cases leaf with
  | userinitAlloc boot run =>
      obtain ⟨p, unused, rfl⟩ := userinitAlloc_ok run
      refine .single (.quiet (.of_proc rfl rfl (fun q => ?_) ⟨[.state p .embryo], rfl, ?_⟩))
      · grind [Function.update_apply]
      · simp [Entry.Calm]
  | userinitReady boot run =>
      rename_i p
      obtain ⟨u, added, eq⟩ := bind_eq_ok.mp run
      obtain rfl := Except.ok.inj eq
      have embryo := consistent.forks.boot p boot p
      refine .head (.enter (.setRunnable ?_ fun multilevel => (levels multilevel).boot p boot)
        added) (.single (.quiet (.of_proc rfl rfl (fun q => ?_) ⟨[], rfl, by simp⟩)))
      · simp [embryo]
      · simp
  | fork current user =>
      have running := consistent.cpus.running _ _ current
      unfold fork
      split
      · exact .refl
      · rename_i p _ np u alloc
        obtain ⟨unused, rfl⟩ := allocproc_some alloc
        refine .single (.quiet (.of_proc rfl rfl (fun q => ?_) ⟨[.state np .embryo], rfl, ?_⟩))
        · simp only [State.edit_proc, Function.update_apply]
          grind
        · simp [Entry.Calm]
  | forkKstack current frame =>
      rename_i p np page
      have running := consistent.cpus.running _ _ current
      have embryo := consistent.forks.embryo _ _ (by rw [frame]; rfl)
      unfold forkKstack allocprocKstack
      cases page with
      | none =>
          refine .single (.quiet (.of_proc rfl rfl (fun q => ?_) ⟨[.state np .unused], rfl, ?_⟩))
          · simp only [State.edit_proc, State.setState_proc]
            grind
          · simp [Entry.Calm]
      | some page =>
          refine .single (.quiet (.of_proc rfl rfl (fun q => ?_) ⟨[], rfl, by simp⟩))
          simp only [State.edit_proc]
          grind
  | forkCopyuvm current frame =>
      rename_i p np page
      have running := consistent.cpus.running _ _ current
      have embryo := consistent.forks.embryo _ _ (by rw [frame]; rfl)
      unfold forkCopyuvm
      cases page with
      | none =>
          refine .single (.quiet (.of_proc rfl rfl (fun q => ?_) ⟨[.state np .unused], rfl, ?_⟩))
          · simp only [State.edit_proc, State.setState_proc]
            grind
          · simp [Entry.Calm]
      | some page =>
          dsimp only
          split <;> refine .single (.quiet (.of_proc rfl rfl (fun q => ?_)
            ⟨[.parent np (some p)], rfl, by simp [Entry.Calm]⟩)) <;>
            simp only [State.edit_proc, State.setParent_proc] <;> grind
  | forkReady current frame run =>
      rename_i c p np
      obtain ⟨u, added, eq⟩ := bind_eq_ok.mp run
      obtain rfl := Except.ok.inj eq
      have embryo := consistent.forks.embryo _ _ (by rw [frame]; rfl)
      refine .head (.enter (.setRunnable ?_ fun multilevel => (levels multilevel).ready p np frame)
        added) (.single (.quiet (quiet_edit .rfl fun _ => ⟨rfl, rfl⟩)))
      simp [embryo]
  | exec current user =>
      have running := consistent.cpus.running _ _ current
      exact .single (.quiet (quiet_edit .rfl (by simp [running])))
  | kill run =>
      have marked : ∀ p, Quiet s (markKilled p s) := fun p => quiet_edit .rfl fun _ => ⟨rfl, rfl⟩
      rcases kill_ok run with ⟨-, -, rfl⟩ | ⟨p, -, -, ⟨asleep, woken⟩ | ⟨-, rfl⟩⟩
      · exact .refl
      · have levels' : LevelInv b (markKilled p s) := fun multilevel =>
          (levels multilevel).markKilled
        exact .head (.quiet (marked p))
          (.single (touch_wake levels' (by rwa [markKilled_state]) woken))
      · exact .single (.quiet (marked p))
  | trapFault current => exact .single (.quiet (quiet_edit .rfl fun _ => ⟨rfl, rfl⟩))
  | chpr run =>
      by_cases mlq : b = .mlq
      · exact .single (.chpr mlq allowed run)
      · rcases chpr_ok run with rfl | ⟨mlq', -⟩
        · exact .refl
        · exact absurd mlq' mlq
  | tick =>
      exact .single (.quiet (.of_proc rfl rfl (fun q => ⟨.rfl, fun _ => ⟨rfl, rfl⟩⟩)
        ⟨[], rfl, by simp⟩))
  | updateprocesstimes =>
      refine .single (.quiet (.of_proc rfl rfl (fun q => ?_) ⟨[.tick], rfl, by simp [Entry.Calm]⟩))
      simp only [updateprocesstimes, State.log_proc]
      grind

/-- Every action is a sequence of touches. -/
theorem touch_action (consistent : Consistent s) (levels : LevelInv b s) (queued : b ≠ .default)
    (action : Action b admitted chans s t) : ReflTransGen (Touch b admitted) s t := by
  cases action with
  | leaf allowed leaf => exact touch_leaf consistent levels allowed leaf
  | wake asleep _ run => exact .single (touch_wake levels asleep run)
  | reparent current user _ run => exact touch_reparent levels run
  | zombie current user notInit childless calm =>
      rename_i p
      have running := consistent.cpus.running _ _ current
      refine .single (.quiet (.of_proc rfl rfl (fun q => ?_) ⟨[.state p .zombie], rfl, ?_⟩))
      · simp only [sched, State.setCpu_proc, State.edit_proc, State.setState_proc]
        grind
      · simp [Entry.Calm]
  | yield current run =>
      rename_i c p u
      have running := consistent.cpus.running _ _ current
      refine .head (.enter (.setRunnable ?_ fun multilevel => (levels multilevel).live p ?_) run)
        (.single (.quiet (.of_proc rfl rfl (fun q => ?_) ⟨[], rfl, by simp⟩)))
      · simp [running]
      · exact .inl (.inr (.inr running))
      · simp only [sched, State.setCpu_proc, State.edit_proc]
        grind
  | demote current dmlq =>
      have running := consistent.cpus.running _ _ current
      exact .single (.quiet (quiet_edit .rfl (by simp [running])))
  | sleep current user resumable attentive =>
      rename_i p chan context
      have running := consistent.cpus.running _ _ current
      refine .single (.quiet (.of_proc rfl rfl (fun q => ?_) ⟨[.state p .sleeping], rfl, ?_⟩))
      · simp only [sched, State.setCpu_proc, State.edit_proc, State.setState_proc]
        grind
      · simp [Entry.Calm]
  | pickNone run => exact .single (.pickNone run)
  | dispatch idle picks ready =>
      rename_i c p u
      rcases picks with run | ⟨isDefault, -⟩
      · refine .single (.leave run ⟨rfl, rfl, ?_, fun q different => ?_,
          [.state p .running], rfl, by simp [Entry.Calm]⟩)
        · simp [dispatched]
        · simp [dispatched, State.edit_proc, State.setState_proc, different]
      · exact absurd isDefault queued
  | tidy current =>
      have running := consistent.cpus.running _ _ current
      exact .single (.quiet (quiet_edit .rfl (by simp [running])))
  | reap current own zombie =>
      refine .single (.quiet (.of_proc rfl rfl (fun q => ?_) ⟨[.reap _ _ _], rfl, ?_⟩))
      · simp only [reap, State.log_proc, State.edit_proc]
        grind
      · simp [Entry.Calm]

end Xv6
