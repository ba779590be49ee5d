import Xv6.Proc.Decomposition

/-!
# What the history tells

The history of a run determines the state, the parent and the tick counters of every process, and
every entry of it is one that the source can make where it stands. This holds of all builds and
all runs.
-/

namespace Xv6

open Relation Fallible

variable {ncpu : ℕ}

/-- The state of `p` that the entries about it lead to. -/
def stateOf (p : Slot) : List Entry → ProcState
  | [] => .unused
  | .state q state :: older => if q = p then state else stateOf p older
  | .reap _ q _ :: older => if q = p then .unused else stateOf p older
  | _ :: older => stateOf p older

/-- The parent of `p` that the entries about it lead to. -/
def parentOf (p : Slot) : List Entry → Option Slot
  | [] => none
  | .parent q parent :: older => if q = p then parent else parentOf p older
  | .reap _ q _ :: older => if q = p then none else parentOf p older
  | _ :: older => parentOf p older

/-- How many ticks have found `p` in the state since `allocproc` has last taken its slot. -/
def ticksIn (state : ProcState) (p : Slot) : List Entry → ℕ
  | [] => 0
  | .state q .embryo :: older => if q = p then 0 else ticksIn state p older
  | .tick :: older => ticksIn state p older + if stateOf p older = state then 1 else 0
  | _ :: older => ticksIn state p older

/-- The assignments to `state`, but for the reaping of a `ZOMBIE`. A sleeper is dispatched only
from a ring that `chpr` has spoilt. -/
inductive Legal : ProcState → ProcState → Prop where
  | alloc : Legal .unused .embryo
  | release : Legal .embryo .unused
  | fork : Legal .embryo .runnable
  | dispatch : Legal .runnable .running
  | stray : Legal .sleeping .running
  | yield : Legal .running .runnable
  | sleep : Legal .running .sleeping
  | wake : Legal .sleeping .runnable
  | exit : Legal .running .zombie

/-- What a call of `wait` or `waitnstats` that reaps `p` reports, if anything, is true. -/
def TrueTimes (p : Slot) (hist : List Entry) (times : Option Times) : Prop :=
  ∀ run ready slept, times = some (run, ready, slept) →
    run = .ofNat 32 (ticksIn .running p hist) ∧ ready = .ofNat 32 (ticksIn .runnable p hist) ∧
      slept = .ofNat 32 (ticksIn .sleeping p hist)

/-- Every entry is one that can be made after the older ones. -/
def Lawful : List Entry → Prop
  | [] => True
  | .state p state :: older => Legal (stateOf p older) state ∧ Lawful older
  | .reap waiter p times :: older => (stateOf p older = .zombie ∧
      parentOf p older = some waiter ∧ TrueTimes p older times) ∧ Lawful older
  | _ :: older => Lawful older

/-- The record is as the history tells of `p`. -/
def Tells (hist : List Entry) (p : Slot) (q : Proc) : Prop :=
  q.state = stateOf p hist ∧ q.parent = parentOf p hist ∧
    q.timerun = .ofNat 32 (ticksIn .running p hist) ∧
    q.timeready = .ofNat 32 (ticksIn .runnable p hist) ∧
    q.timeslept = .ofNat 32 (ticksIn .sleeping p hist)

/-- The table is as the history tells. -/
structure Recorded (s : State ncpu) : Prop where
  told : ∀ p, Tells s.hist p (s.proc p)
  lawful : Lawful s.hist

variable {b : Build} {s t : State ncpu} {admitted : State ncpu → Event ncpu → Prop}
  {chans : Chan → Prop} {guard : State ncpu → Event ncpu → Prop} {p : Slot}

theorem Recorded.initial : Recorded ({} : State ncpu) :=
  ⟨fun _ => ⟨rfl, rfl, rfl, rfl, rfl⟩, trivial⟩

theorem Recorded.state (inv : Recorded s) (p : Slot) : (s.proc p).state = stateOf p s.hist :=
  (inv.told p).1

theorem Recorded.parent (inv : Recorded s) (p : Slot) : (s.proc p).parent = parentOf p s.hist :=
  (inv.told p).2.1

/-! ## The assignments -/

/-- Two process records that the history does not tell apart. -/
def Proc.SameRecord (q r : Proc) : Prop :=
  q.state = r.state ∧ q.parent = r.parent ∧ q.timerun = r.timerun ∧ q.timeready = r.timeready ∧
    q.timeslept = r.timeslept

theorem Recorded.congr (inv : Recorded s) (proc : ∀ p, (t.proc p).SameRecord (s.proc p))
    (hist : t.hist = s.hist) : Recorded t where
  told p := by
    have old := inv.told p
    have same := proc p
    simp only [Tells, Proc.SameRecord, hist] at *
    grind
  lawful := hist ▸ inv.lawful

theorem Recorded.edit (inv : Recorded s) {change : Proc → Proc}
    (same : (change (s.proc p)).SameRecord (s.proc p)) : Recorded (s.edit p change) := by
  refine inv.congr (fun q => ?_) rfl
  rw [State.edit_proc]
  split
  · rename_i isP
    exact isP ▸ same
  · exact ⟨rfl, rfl, rfl, rfl, rfl⟩

theorem Recorded.dropped (inv : Recorded s) : Recorded (s.log (.dropped p)) :=
  ⟨inv.told, inv.lawful⟩

theorem Recorded.addReady (inv : Recorded s) (run : addReady b p s = .ok t) : Recorded t := by
  rcases addReady_frame run with ⟨pqueue, multiqueue, drops, rfl, rfl | rfl⟩
  · exact inv.congr (fun _ => ⟨rfl, rfl, rfl, rfl, rfl⟩) rfl
  · exact inv.dropped.congr (fun _ => ⟨rfl, rfl, rfl, rfl, rfl⟩) rfl

theorem ticksIn_state {state state' : ProcState} {q : Slot} {hist : List Entry}
    (notNew : state' ≠ .embryo) :
    ticksIn state p (.state q state' :: hist) = ticksIn state p hist := by
  cases state' <;> first | rfl | exact absurd rfl notNew

theorem Recorded.setState (inv : Recorded s) {state : ProcState} (notNew : state ≠ .embryo)
    (legal : Legal (s.proc p).state state) : Recorded (s.setState p state) where
  told q := by
    have old := inv.told q
    simp only [Tells, State.setState_proc, State.setState_hist, stateOf, parentOf,
      ticksIn_state notNew] at *
    grind
  lawful := ⟨inv.state p ▸ legal, inv.lawful⟩

theorem Recorded.setParent (inv : Recorded s) {parent : Option Slot} :
    Recorded (s.setParent p parent) where
  told q := by
    have old := inv.told q
    simp only [Tells, State.setParent_proc, State.setParent_hist, stateOf, parentOf, ticksIn] at *
    grind
  lawful := inv.lawful

/-- `allocproc` starts the counters of its slot afresh. -/
theorem Recorded.alloc (inv : Recorded s) (unused : (s.proc p).state = .unused) {q : Proc}
    (state : q.state = .embryo) (parent : q.parent = (s.proc p).parent) (timerun : q.timerun = 0)
    (timeready : q.timeready = 0) (timeslept : q.timeslept = 0)
    (proc : t.proc = Function.update s.proc p q) (hist : t.hist = .state p .embryo :: s.hist) :
    Recorded t where
  told r := by
    have old := inv.told r
    simp only [Tells, proc, hist, stateOf, parentOf, ticksIn, Function.update_apply] at *
    grind
  lawful := by
    rw [hist]
    exact ⟨inv.state p ▸ unused ▸ .alloc, inv.lawful⟩

theorem Recorded.reap (inv : Recorded s) {child : Slot} {stats : Bool}
    (own : (s.proc child).parent = some p) (zombie : (s.proc child).state = .zombie) :
    Recorded (reap stats p child s) where
  told q := by
    have old := inv.told q
    simp only [Xv6.reap, Tells, State.log_proc, State.log_hist, State.edit_proc, State.edit_hist,
      stateOf, parentOf, ticksIn] at *
    grind
  lawful := by
    refine ⟨⟨inv.state child ▸ zombie, inv.parent child ▸ own, ?_⟩, inv.lawful⟩
    intro run ready slept times
    cases stats with
    | false => cases times
    | true =>
        cases times
        exact (inv.told child).2.2

theorem Recorded.updateprocesstimes (inv : Recorded s) : Recorded ((updateprocesstimes s).log .tick) where
  told p := by
    have old := inv.told p
    simp only [Xv6.updateprocesstimes, Tells, State.log_proc, State.log_hist, stateOf, parentOf,
      ticksIn, BitVec.ofNat_add] at *
    grind
  lawful := inv.lawful

/-- A process gives up its CPU. -/
theorem Recorded.sched (inv : Recorded s) {c : Fin ncpu} {context : Context} :
    Recorded ((sched context p s).setCpu c none) := by
  have left : Recorded (Xv6.sched context p s) := inv.edit ⟨rfl, rfl, rfl, rfl, rfl⟩
  exact left.congr (fun _ => ⟨rfl, rfl, rfl, rfl, rfl⟩) rfl

/-! ## Events and actions -/

theorem Recorded.wake (inv : Recorded s) (asleep : (s.proc p).state = .sleeping)
    (run : wake b p s = .ok t) : Recorded t := by
  have woken := inv.setState (by decide) (asleep ▸ Legal.wake)
  refine Recorded.addReady ?_ run
  split
  · exact woken.edit ⟨rfl, rfl, rfl, rfl, rfl⟩
  · exact woken

theorem Recorded.wakeup1 (inv : Recorded s) {chan : Chan} (run : wakeup1 b chan s = .ok t) :
    Recorded t :=
  kept_of_path Recorded (fun ⟨_, asleep, _, woken⟩ inv => inv.wake asleep woken)
    (wakeup1_path run) inv

theorem Recorded.reparent (inv : Recorded s) {curproc : Slot}
    (run : reparent b curproc s p = .ok t) : Recorded t := by
  unfold Xv6.reparent at run
  split at run
  · dsimp only at run
    split at run
    · exact inv.setParent.wakeup1 run
    · exact Except.ok.inj run ▸ inv.setParent
  · exact Except.ok.inj run ▸ inv

theorem Recorded.forkKstack (inv : Recorded s) {np : Slot} {page : Option Page}
    (embryo : (s.proc np).state = .embryo) : Recorded (forkKstack p np page s) := by
  have given : Recorded (s.edit np fun q => { q with kstack := page }) :=
    inv.edit ⟨rfl, rfl, rfl, rfl, rfl⟩
  unfold Xv6.forkKstack allocprocKstack
  refine Recorded.edit ?_ ⟨rfl, rfl, rfl, rfl, rfl⟩
  cases page with
  | none => exact given.setState (by decide) (by simpa [embryo] using Legal.release)
  | some page => exact given.edit ⟨rfl, rfl, rfl, rfl, rfl⟩

theorem Recorded.forkCopyuvm (inv : Recorded s) {np : Slot} {page : Option Page}
    (embryo : (s.proc np).state = .embryo) : Recorded (forkCopyuvm b p np page s) := by
  have given : Recorded (s.edit np fun q => { q with pgdir := page }) :=
    inv.edit ⟨rfl, rfl, rfl, rfl, rfl⟩
  unfold Xv6.forkCopyuvm
  cases page with
  | none =>
      refine Recorded.edit ?_ ⟨rfl, rfl, rfl, rfl, rfl⟩
      refine Recorded.setState ?_ (by decide) (by simpa [embryo] using Legal.release)
      exact given.edit ⟨rfl, rfl, rfl, rfl, rfl⟩
  | some page =>
      refine Recorded.edit ?_ ⟨rfl, rfl, rfl, rfl, rfl⟩
      split
      · refine Recorded.edit ?_ ⟨rfl, rfl, rfl, rfl, rfl⟩
        exact given.setParent
      · exact given.setParent

theorem Recorded.leaf (inv : Recorded s) (consistent : Consistent s) {e : Event ncpu}
    (leaf : Leaf b s e t) : Recorded t := by
  cases leaf with
  | userinitAlloc boot run =>
      rcases userinitAlloc_ok run with ⟨p, unused, rfl⟩
      refine inv.alloc unused ?_ ?_ ?_ ?_ ?_ rfl rfl <;> rfl
  | userinitReady boot run =>
      rename_i p
      rcases bind_eq_ok.mp run with ⟨u, added, eq⟩
      have embryo : (s.proc p).state = .embryo := by simpa using consistent.forks.boot p boot p
      have ready := (inv.setState (by decide) (embryo ▸ Legal.fork)).addReady added
      exact Except.ok.inj eq ▸ ready.congr (fun _ => ⟨rfl, rfl, rfl, rfl, rfl⟩) rfl
  | fork current user =>
      unfold fork
      split
      · exact inv
      · rename_i np u alloc
        rcases allocproc_some alloc with ⟨unused, rfl⟩
        refine Recorded.edit ?_ ⟨rfl, rfl, rfl, rfl, rfl⟩
        refine inv.alloc unused ?_ ?_ ?_ ?_ ?_ rfl rfl <;> rfl
  | forkKstack current frame =>
      exact inv.forkKstack (consistent.forks.embryo _ _ (by rw [frame]; rfl))
  | forkCopyuvm current frame =>
      exact inv.forkCopyuvm (consistent.forks.embryo _ _ (by rw [frame]; rfl))
  | forkReady current frame run =>
      rename_i c p np
      rcases bind_eq_ok.mp run with ⟨u, added, eq⟩
      have embryo := consistent.forks.embryo p np (by rw [frame]; rfl)
      have ready := (inv.setState (by decide) (embryo ▸ Legal.fork)).addReady added
      exact Except.ok.inj eq ▸ ready.edit ⟨rfl, rfl, rfl, rfl, rfl⟩
  | exec current user => exact inv.edit ⟨rfl, rfl, rfl, rfl, rfl⟩
  | kill run =>
      have marked : ∀ p, Recorded (markKilled p s) := fun p => inv.edit ⟨rfl, rfl, rfl, rfl, rfl⟩
      rcases kill_ok run with ⟨-, -, rfl⟩ | ⟨p, -, -, ⟨asleep, woken⟩ | ⟨-, rfl⟩⟩
      · exact inv
      · exact (marked p).wake (by rwa [markKilled_state]) woken
      · exact marked p
  | trapFault current => exact inv.edit ⟨rfl, rfl, rfl, rfl, rfl⟩
  | chpr run =>
      rename_i c pid priority
      rcases chpr_ok run with rfl | ⟨-, p, multiqueue, -, rfl⟩
      · exact inv
      · have changed : Recorded (setPriority p priority s) := inv.edit ⟨rfl, rfl, rfl, rfl, rfl⟩
        exact changed.congr (fun _ => ⟨rfl, rfl, rfl, rfl, rfl⟩) rfl
  | tick => exact inv.congr (fun _ => ⟨rfl, rfl, rfl, rfl, rfl⟩) rfl
  | updateprocesstimes => exact inv.updateprocesstimes

theorem Recorded.action (inv : Recorded s) (consistent : Consistent s)
    (action : Action b admitted chans s t) : Recorded t := by
  cases action with
  | leaf _ leaf => exact inv.leaf consistent leaf
  | wake asleep _ run => exact inv.wake asleep run
  | reparent current user _ run => exact inv.reparent run
  | zombie current user notInit childless calm =>
      have running := consistent.cpus.running _ _ current
      exact (inv.setState (by decide) (running ▸ Legal.exit)).sched
  | yield current run =>
      have running := consistent.cpus.running _ _ current
      exact ((inv.setState (by decide) (running ▸ Legal.yield)).addReady run).sched
  | demote current dmlq => exact inv.edit ⟨rfl, rfl, rfl, rfl, rfl⟩
  | sleep current user resumable attentive =>
      rename_i c p chan context
      have running := consistent.cpus.running _ _ current
      have noted : Recorded (s.edit p fun q => { q with chan }) :=
        inv.edit ⟨rfl, rfl, rfl, rfl, rfl⟩
      refine Recorded.sched (noted.setState (by decide) ?_)
      simpa [running] using Legal.sleep
  | pickNone run =>
      rcases pickNext_frame run with ⟨_, _, rfl⟩
      exact inv.congr (fun _ => ⟨rfl, rfl, rfl, rfl, rfl⟩) rfl
  | dispatch idle picks ready =>
      rename_i c p u
      rcases picks.frame with ⟨pqueue, multiqueue, rfl⟩
      have placed : Recorded (({ s with pqueue, multiqueue } : State ncpu).setCpu c (some p)) :=
        inv.congr (fun _ => ⟨rfl, rfl, rfl, rfl, rfl⟩) rfl
      have legal : Legal (s.proc p).state .running := by
        rcases ready with runnable | sleeping
        · exact runnable ▸ .dispatch
        · exact sleeping ▸ .stray
      exact (placed.setState (by decide) legal).edit ⟨rfl, rfl, rfl, rfl, rfl⟩
  | tidy current => exact inv.edit ⟨rfl, rfl, rfl, rfl, rfl⟩
  | reap current own zombie => exact inv.reap own zombie

/-- In every reachable state the table is as the history tells. -/
theorem recorded_of_reach (reach : KernelReach b guard s) : Recorded s :=
  invariant_of_reach reach Recorded Recorded.initial
    fun consistent inv action => inv.action consistent action

end Xv6
