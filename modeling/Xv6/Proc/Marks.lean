import Xv6.Proc.Decomposition

/-!
# What actions do to pids and killed flags

Pids are given by `allocproc` from the counter `nextpid` and taken away by `wait`; a process gets
killed by `kill` or by a fault. Everything else leaves both alone.
-/

namespace Xv6

open Fallible

variable {ncpu : ℕ}

/-- The entry says that `allocproc` has taken a slot. -/
def Entry.Takes : Entry → Bool
  | .state _ .embryo => true
  | _ => false

/-- The calls of `allocproc` so far that have found a slot. -/
def State.allocations (s : State ncpu) : ℕ := s.hist.countP Entry.Takes

/-- Pids and killed flags are as they were, and no slot has been taken. -/
structure SameMarks (s t : State ncpu) : Prop where
  pid : ∀ p, (t.proc p).pid = (s.proc p).pid
  killed : ∀ p, (t.proc p).killed = (s.proc p).killed
  nextpid : t.nextpid = s.nextpid
  allocations : t.allocations = s.allocations

/-- `allocproc` has given slot `p` its pid. -/
def allotted (p : Slot) (s : State ncpu) : State ncpu :=
  { (s.edit p fun q => { q with pid := s.nextpid }).log (.state p .embryo) with
    nextpid := wrapInt (s.nextpid + 1) }

/-- `wait` has cleared slot `p`. -/
def cleared (p : Slot) (s : State ncpu) : State ncpu :=
  s.edit p fun q => { q with pid := 0, killed := false }

/-- The events that call `allocproc`. -/
def Event.Allocates : Event ncpu → Prop
  | .fork _ | .userinitAlloc _ _ => True
  | _ => False

/-- What an action does to pids and killed flags. -/
inductive Marks (b : Build) (admitted : State ncpu → Event ncpu → Prop) (s t : State ncpu) :
    Prop where
  | same (same : SameMarks s t)
  | taken {e : Event ncpu} {p : Slot} (allowed : admitted s e) (allocates : e.Allocates)
      (unused : (s.proc p).state = .unused) (hist : t.hist = .state p .embryo :: s.hist)
      (same : SameMarks (allotted p s) t)
  | cleared {p : Slot} (unused : (t.proc p).state = .unused) (same : SameMarks (cleared p s) t)
  | killed {c : Fin ncpu} {pid : ℤ} {p : Slot} (allowed : admitted s (.kill c pid))
      (found : findPid pid s = some p) (same : SameMarks (markKilled p s) t)
  | faulted {c : Fin ncpu} {p : Slot} (allowed : admitted s (.trapFault c))
      (current : s.cpu c = some p) (same : SameMarks (markKilled p s) t)

variable {b : Build} {s t u : State ncpu} {admitted : State ncpu → Event ncpu → Prop}
  {chans : Chan → Prop} {c : Fin ncpu} {p q : Slot}

theorem SameMarks.refl (s : State ncpu) : SameMarks s s := ⟨fun _ => rfl, fun _ => rfl, rfl, rfl⟩

theorem SameMarks.trans (first : SameMarks s t) (second : SameMarks t u) : SameMarks s u where
  pid p := (second.pid p).trans (first.pid p)
  killed p := (second.killed p).trans (first.killed p)
  nextpid := second.nextpid.trans first.nextpid
  allocations := second.allocations.trans first.allocations

/-- One record is replaced by another with the same pid and flag. -/
theorem SameMarks.of_update {record : Proc} (update : t.proc = Function.update s.proc p record)
    (pid : record.pid = (s.proc p).pid) (killed : record.killed = (s.proc p).killed)
    (nextpid : t.nextpid = s.nextpid) (allocations : t.allocations = s.allocations) :
    SameMarks s t := by
  refine ⟨fun q => ?_, fun q => ?_, nextpid, allocations⟩
  · rw [update, Function.update_apply]
    split
    · rename_i same
      exact same ▸ pid
    · rfl
  · rw [update, Function.update_apply]
    split
    · rename_i same
      exact same ▸ killed
    · rfl

theorem SameMarks.edit {change : Proc → Proc} (pid : (change (s.proc p)).pid = (s.proc p).pid)
    (killed : (change (s.proc p)).killed = (s.proc p).killed) :
    SameMarks s (s.edit p change) := .of_update rfl pid killed rfl rfl

theorem SameMarks.setState {st : ProcState} (notNew : st ≠ .embryo) :
    SameMarks s (s.setState p st) := by
  refine .of_update rfl rfl rfl rfl ?_
  cases st with
  | embryo => exact absurd rfl notNew
  | _ => rfl

theorem SameMarks.setParent (parent : Option Slot) : SameMarks s (s.setParent p parent) :=
  .of_update rfl rfl rfl rfl rfl

theorem SameMarks.setCpu (running : Option Slot) : SameMarks s (s.setCpu c running) :=
  ⟨fun _ => rfl, fun _ => rfl, rfl, rfl⟩

theorem SameMarks.sched (context : Context) : SameMarks s (sched context p s) := .edit rfl rfl

theorem SameMarks.addReady (run : addReady b p s = .ok t) : SameMarks s t := by
  rcases addReady_frame run with ⟨_, _, _, rfl, rfl | rfl⟩ <;>
    exact ⟨fun _ => rfl, fun _ => rfl, rfl, rfl⟩

theorem SameMarks.wake (run : wake b p s = .ok t) : SameMarks s t := by
  unfold Xv6.wake at run
  have runnable : SameMarks s (s.setState p .runnable) := .setState (by simp)
  dsimp only at run
  split at run
  · exact runnable.trans ((SameMarks.edit rfl rfl).trans (.addReady run))
  · exact runnable.trans (.addReady run)

theorem SameMarks.wakeup1 {chan : Chan} (run : wakeup1 b chan s = .ok t) : SameMarks s t :=
  kept_of_path (SameMarks s) (fun ⟨_, _, _, woken⟩ same => same.trans (.wake woken))
    (wakeup1_path run) (.refl s)

theorem SameMarks.reparent {curproc : Slot} (run : reparent b curproc s p = .ok t) :
    SameMarks s t := by
  unfold Xv6.reparent at run
  split at run
  · have moved : SameMarks s (s.setParent p s.initproc) := .setParent _
    dsimp only at run
    split at run
    · exact moved.trans (.wakeup1 run)
    · exact Except.ok.inj run ▸ moved
  · exact Except.ok.inj run ▸ .refl s

theorem SameMarks.allocproc (run : allocproc s = some (p, t)) : SameMarks (allotted p s) t := by
  rcases allocproc_some run with ⟨-, rfl⟩
  refine ⟨fun q => ?_, fun q => ?_, rfl, rfl⟩ <;>
    simp only [allotted, State.log_proc, State.edit_proc, Function.update_apply] <;> split <;> simp_all

theorem SameMarks.allocprocKstack {page : Option Page} :
    SameMarks s (allocprocKstack p page s) := by
  have stored : SameMarks s (s.edit p fun q => { q with kstack := page }) := .edit rfl rfl
  unfold Xv6.allocprocKstack
  cases page with
  | none => exact stored.trans (.setState (by simp))
  | some page => exact stored.trans (.edit rfl rfl)

theorem SameMarks.forkCopyuvm {page : Option Page} :
    SameMarks s (forkCopyuvm b p q page s) := by
  have stored : SameMarks s (s.edit q fun r => { r with pgdir := page }) := .edit rfl rfl
  unfold Xv6.forkCopyuvm
  cases page with
  | none =>
      refine stored.trans (SameMarks.trans (t := State.edit _ q fun r => { r with kstack := none })
        (.edit rfl rfl) ?_)
      exact SameMarks.trans (.setState (by simp)) (.edit rfl rfl)
  | some page =>
      have adopted := stored.trans (SameMarks.setParent (p := q) (some p))
      dsimp only
      split
      · exact adopted.trans (SameMarks.trans (.edit rfl rfl) (.edit rfl rfl))
      · exact adopted.trans (.edit rfl rfl)

theorem Leaf.marks {e : Event ncpu} (allowed : admitted s e) (leaf : Leaf b s e t) :
    Marks b admitted s t := by
  cases leaf with
  | userinitAlloc boot run =>
      rcases userinitAlloc_ok run with ⟨p, unused, rfl⟩
      refine .taken allowed trivial unused rfl ⟨fun q => ?_, fun q => ?_, rfl, rfl⟩ <;>
        simp only [allotted, State.log_proc, State.edit_proc, Function.update_apply] <;> split <;>
        simp_all
  | userinitReady boot run =>
      rcases bind_eq_ok.mp run with ⟨u, added, eq⟩
      rcases Except.ok.inj eq with rfl
      have same := (SameMarks.setState (by simp)).trans (SameMarks.addReady added)
      exact .same ⟨same.pid, same.killed, same.nextpid, same.allocations⟩
  | fork current user =>
      unfold Xv6.fork
      split
      · exact .same (.refl s)
      · rename_i np u alloc
        rcases allocproc_some alloc with ⟨unused, taken⟩
        exact .taken allowed trivial unused (by rw [taken]; rfl)
          ((SameMarks.allocproc alloc).trans (.edit rfl rfl))
  | forkKstack current frame => exact .same (SameMarks.allocprocKstack.trans (.edit rfl rfl))
  | forkCopyuvm current frame => exact .same .forkCopyuvm
  | forkReady current frame run =>
      rcases bind_eq_ok.mp run with ⟨u, added, eq⟩
      rcases Except.ok.inj eq with rfl
      have same := (SameMarks.setState (by simp)).trans (SameMarks.addReady added)
      exact .same (same.trans (.edit rfl rfl))
  | exec current user => exact .same (.edit rfl rfl)
  | kill run =>
      rcases kill_ok run with ⟨-, -, rfl⟩ | ⟨p, found, -, ⟨-, woken⟩ | ⟨-, rfl⟩⟩
      · exact .same (.refl t)
      · exact .killed allowed found (.wake woken)
      · exact .killed allowed found (.refl _)
  | trapFault current => exact .faulted allowed current (.refl _)
  | chpr run =>
      rcases chpr_ok run with rfl | ⟨-, p, multiqueue, -, rfl⟩
      · exact .same (.refl t)
      · exact .same (.of_update rfl rfl rfl rfl rfl)
  | tick => exact .same ⟨fun _ => rfl, fun _ => rfl, rfl, rfl⟩
  | updateprocesstimes =>
      refine .same ⟨fun p => ?_, fun p => ?_, rfl, rfl⟩ <;>
        simp only [Xv6.updateprocesstimes, State.log_proc] <;> grind

theorem Action.marks (action : Action b admitted chans s t) : Marks b admitted s t := by
  cases action with
  | leaf allowed leaf => exact leaf.marks allowed
  | wake _ _ run => exact .same (.wake run)
  | reparent _ _ _ run => exact .same (.reparent run)
  | zombie current user notInit childless calm =>
      rename_i c p
      have zombie : SameMarks s (s.setState p .zombie) := .setState (by simp)
      exact .same (zombie.trans ((SameMarks.sched .exit).trans (.setCpu none)))
  | yield current run =>
      have queued := (SameMarks.setState (by simp)).trans (SameMarks.addReady run)
      exact .same (queued.trans ((SameMarks.sched .yield).trans (.setCpu none)))
  | demote current dmlq => exact .same (.edit rfl rfl)
  | sleep current user resumable attentive =>
      rename_i c p chan context
      have waits : SameMarks s (s.edit p fun q => { q with chan }) := .edit rfl rfl
      have asleep : SameMarks s ((s.edit p fun q => { q with chan }).setState p .sleeping) :=
        waits.trans (.setState (by simp))
      exact .same (asleep.trans ((SameMarks.sched _).trans (.setCpu none)))
  | pickNone run =>
      rcases pickNext_frame run with ⟨_, _, rfl⟩
      exact .same ⟨fun _ => rfl, fun _ => rfl, rfl, rfl⟩
  | dispatch idle picks ready =>
      rename_i c p s'
      rcases picks.frame with ⟨pqueue, multiqueue, rfl⟩
      have picked : SameMarks s { s with pqueue, multiqueue } :=
        ⟨fun _ => rfl, fun _ => rfl, rfl, rfl⟩
      have running : SameMarks s
          ((State.setCpu { s with pqueue, multiqueue } c (some p)).setState p .running) :=
        (picked.trans (.setCpu (some p))).trans (.setState (by simp))
      exact .same (running.trans (.edit rfl rfl))
  | tidy current => exact .same (.edit rfl rfl)
  | reap current own zombie =>
      rename_i c p child stats
      refine .cleared (p := child) (by simp [Xv6.reap]) ⟨fun q => ?_, fun q => ?_, rfl, rfl⟩ <;>
        simp only [Xv6.reap, cleared, State.log_proc, State.edit_proc] <;> grind

end Xv6
