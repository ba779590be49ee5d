import Xv6.Proc.Fate
import Xv6.Proc.Invariant

/-!
# Which process the scheduler dispatches

The scheduler of the MLQ and DMLQ builds takes the process of the most urgent level that has been
`RUNNABLE` for the longest time. The scheduler of the FCFS build takes a process that has been
created at the earliest tick; of those created at the same tick it may take any.
-/

namespace Xv6

open Relation Fallible

variable {ncpu : ℕ}

/-- The scheduler of CPU `c` dispatches `p`, in a build with a ready queue. -/
def Dispatches (b : Build) (c : Fin ncpu) (s : State ncpu) (p : Slot) (t : State ncpu) : Prop :=
  Steps b s (.scheduler c) t ∧ Entry.state p .running :: s.hist <:+ t.hist

variable {b : Build} {s t u : State ncpu} {admitted admitted' : State ncpu → Event ncpu → Prop}
  {chans : Chan → Prop} {c : Fin ncpu} {p q : Slot}

/-! ## The choice of the ready queue -/

/-- A process that is resumed only adds to the history. -/
theorem resume_ok (resumable : (s.proc p).context ≠ .exit) :
    ∃ result, resume p s = .ok result ∧ s.hist <:+ result.2.hist := by
  have waits : ∀ stats (s : State ncpu), s.hist <:+ (waitPass stats p s).2.hist := by
    intro stats s
    unfold waitPass
    split
    · exact List.suffix_cons _ _
    · dsimp only
      split
      · exact List.suffix_rfl
      · exact List.suffix_cons _ _
  unfold resume
  cases context : (s.proc p).context with
  | forkret => exact ⟨_, rfl, List.suffix_rfl⟩
  | yield => exact ⟨_, rfl, List.suffix_rfl⟩
  | sleep => exact ⟨_, rfl, List.suffix_rfl⟩
  | wait => exact ⟨_, rfl, waits false (s.edit p fun q => { q with chan := .null })⟩
  | waitnstats => exact ⟨_, rfl, waits true (s.edit p fun q => { q with chan := .null })⟩
  | exit => exact absurd context resumable

/-- The scheduler dispatches what it picks from the ready queue. -/
theorem Good.scheduler (good : Good b s) (queued : b ≠ .default) (c : Fin ncpu) :
    (∀ p, (s.proc p).state ≠ .runnable) ∧ scheduler b c s = .ok s ∨
    ∃ p u t, pickNext b s = .ok (some p, u) ∧ scheduler b c s = .ok t ∧
      Entry.state p .running :: s.hist <:+ t.hist := by
  rcases good.ready.pick queued with ⟨idle, picked⟩ | ⟨p, u, picked, runnable, -, -⟩
  · left
    refine ⟨idle, ?_⟩
    rw [scheduler_queued queued, picked]
    rfl
  · right
    rcases pickNext_frame picked with ⟨pqueue, multiqueue, rfl⟩
    have consistent : Consistent { s with pqueue, multiqueue } :=
      good.consistent.congr rfl rfl rfl rfl
    have resumable := consistent.saved.resumable p (.inl runnable)
    rcases resume_ok (s := dispatched c p { s with pqueue, multiqueue }) (p := p)
      (by simpa [dispatched] using resumable) with ⟨⟨running, v⟩, resumed, grows⟩
    refine ⟨p, _, if running then v else v.setCpu c none, picked, ?_, ?_⟩
    · rw [scheduler_queued queued, picked]
      simp only [bind_ok, runPicked, runProc_eq consistent (.inl runnable), resumed, pure_eq]
    · cases running <;> exact grows

theorem Dispatches.pickNext (good : Good b s) (queued : b ≠ .default)
    (dispatches : Dispatches b c s p t) : ∃ u, pickNext b s = .ok (some p, u) := by
  rcases dispatches with ⟨taken, grows⟩
  rcases Option.ite_none_right_eq_some.mp taken with ⟨-, run⟩
  rcases good.scheduler queued c with ⟨-, run'⟩ | ⟨q, u, t', picked, run', grows'⟩
  · rcases Except.ok.inj ((Option.some.inj run).symm.trans run') with rfl
    have shorter := grows.length_le
    simp at shorter
  · rcases Except.ok.inj ((Option.some.inj run).symm.trans run') with rfl
    -- both entries come right after the history of `s`
    have same := List.suffix_of_suffix_length_le grows grows' (by simp)
    have entry := List.cons.inj (same.eq_of_length (by simp))
    cases entry.1
    exact ⟨u, picked⟩

/-- Some process is dispatched if there is one. -/
theorem exists_dispatches (good : Good b s) (queued : b ≠ .default) (idle : s.cpu c = none)
    (runnable : (s.proc p).state = .runnable) : ∃ q t, Dispatches b c s q t := by
  rcases good.scheduler queued c with ⟨none, -⟩ | ⟨q, u, t, -, run, grows⟩
  · exact absurd runnable (none p)
  · refine ⟨q, t, ?_, grows⟩
    rw [Steps, step, if_pos idle, run]

/-! ## The builds with levels -/

/-- No call of `chpr` in the MLQ build. -/
def Unmoved (b : Build) (_ : State ncpu) : Event ncpu → Prop
  | .chpr _ _ _ => b ≠ .mlq
  | _ => True

theorem Unmoved.tame {e : Event ncpu} (unmoved : Unmoved b s e) : Tame b s e := by
  cases e with
  | chpr c pid priority => exact fun mlq => absurd mlq unmoved
  | _ => trivial

theorem Action.mono (weaker : ∀ s e, admitted s e → admitted' s e)
    (action : Action b admitted chans s t) : Action b admitted' chans s t := by
  cases action with
  | leaf allowed leaf => exact .leaf (weaker _ _ allowed) leaf
  | wake asleep on run => exact .wake asleep on run
  | reparent current user on run => exact .reparent current user on run
  | zombie current user notInit childless calm => exact .zombie current user notInit childless calm
  | yield current run => exact .yield current run
  | demote current dmlq => exact .demote current dmlq
  | sleep current user resumable attentive => exact .sleep current user resumable attentive
  | pickNone run => exact .pickNone run
  | dispatch idle picks ready => exact .dispatch idle picks ready
  | tidy current => exact .tidy current
  | reap current own zombie => exact .reap current own zombie

theorem Touch.mono (weaker : ∀ s e, admitted s e → admitted' s e)
    (touch : Touch b admitted s t) : Touch b admitted' s t := by
  cases touch with
  | quiet quiet => exact .quiet quiet
  | enter enters run => exact .enter enters run
  | pickNone run => exact .pickNone run
  | leave run leaves => exact .leave run leaves
  | chpr mlq allowed run => exact .chpr mlq (weaker _ _ allowed) run

theorem Fifo.touch (fifo : Fifo s) (rings : RingInv s) (multilevel : b.Multilevel)
    (touch : Touch b (Unmoved b) s t) : Fifo t := by
  cases touch with
  | quiet quiet => exact fifo.quiet quiet
  | enter enters run =>
      rcases rings.addReady multilevel enters with ⟨multiqueue, target, -, run', appended, -⟩
      rcases Except.ok.inj (run.symm.trans run') with rfl
      exact fifo.append (rings.absent enters.before)
        appended rfl enters.hist
  | pickNone run =>
      rcases pickNext_frame run with ⟨pqueue, multiqueue, rfl⟩
      by_cases idle : ∀ p, (s.proc p).state ≠ .runnable
      · have run' := rings.pickNone multilevel idle
        rcases (Prod.mk.inj (Except.ok.inj (run.symm.trans run'))).2 with eq
        exact eq ▸ fifo
      · push Not at idle
        rcases idle with ⟨r, runnable⟩
        rcases rings.pick multilevel runnable with ⟨_, _, _, _, run', -⟩
        cases run.symm.trans run'
  | leave run leaves =>
      rename_i p u
      by_cases idle : ∀ p, (s.proc p).state ≠ .runnable
      · cases run.symm.trans (rings.pickNone multilevel idle)
      · push Not at idle
        rcases idle with ⟨r, runnable⟩
        rcases rings.pick multilevel runnable with
          ⟨q, qindex, rest, multiqueue, run', -, -, ring, shorter, -⟩
        rcases Prod.mk.inj (Except.ok.inj (run.symm.trans run')) with ⟨same, rfl⟩
        rcases Option.some.inj same with rfl
        exact fifo.leave ring shorter leaves
  | chpr mlq unmoved run => exact absurd mlq unmoved

theorem ReadyInv.rings (inv : ReadyInv b s) (multilevel : b.Multilevel) : RingInv s := by
  rcases multilevel with rfl | rfl <;> exact inv

theorem Build.Multilevel.queued (multilevel : b.Multilevel) : b ≠ .default := by
  rcases multilevel with rfl | rfl <;> decide

/-- No action but `chpr` breaks the order of arrival. -/
theorem Fifo.action (fifo : Fifo s) (good : Good b s) (multilevel : b.Multilevel)
    (action : Action b (Unmoved b) chans s t) : Fifo t := by
  have touched := touch_action good.consistent good.levels multilevel.queued action
  refine (kept_of_path (fun s => (ReadyInv b s ∧ ∀ p, Entry.dropped p ∉ s.hist) ∧ Fifo s) ?_
    touched ⟨⟨good.ready, good.undropped multilevel.queued⟩, fifo⟩).2
  rintro u v touch ⟨⟨ready, undropped⟩, fifo⟩
  have tame : Touch b (Tame b) u v := touch.mono fun _ _ => Unmoved.tame
  exact ⟨ready.touch multilevel.queued undropped tame,
    fifo.touch (ready.rings multilevel) multilevel touch⟩

/-- Without calls of `chpr` the rings stay in the order of arrival. -/
theorem fifo_of_reach (multilevel : b.Multilevel) (reach : KernelReach b (Unmoved b) s) :
    Good b s ∧ Fifo s := by
  refine reach.invariant (fun s => Good b s ∧ Fifo s) ⟨Good.initial, Fifo.initial⟩ ?_
  rintro s e t - ⟨good, fifo⟩ unmoved taken
  have follows : Follows (Action b (Unmoved b) (wakes s e)) _ id s (.ok t) :=
    step_follows good.consistent unmoved taken
  refine kept_of_path (fun s => Good b s ∧ Fifo s) ?_ follows ⟨good, fifo⟩
  rintro u v action ⟨good, fifo⟩
  exact ⟨good.action (action.mono fun _ _ => Unmoved.tame), fifo.action good multilevel action⟩

/-- What holds of the dispatches from this state. -/
structure LongestWaitingFirst (b : Build) (s : State ncpu) : Prop where
  runnable : ∀ c p t, Dispatches b c s p t → (s.proc p).state = .runnable
  /-- no process waits at a more urgent level -/
  urgent : ∀ c p t, Dispatches b c s p t → ∀ q, (s.proc q).state = .runnable →
    (s.proc p).priority ≤ (s.proc q).priority
  /-- nobody at its level has become `RUNNABLE` before it -/
  longest : ∀ c p t, Dispatches b c s p t → ∀ q, q ≠ p → (s.proc q).state = .runnable →
    (s.proc q).priority = (s.proc p).priority → readySince p s.hist < readySince q s.hist
  /-- the CPU does not stay idle -/
  some : ∀ c p, s.cpu c = none → (s.proc p).state = .runnable → ∃ q t, Dispatches b c s q t

theorem longest_waiting_first (multilevel : b.Multilevel) (reach : KernelReach b (Unmoved b) s) :
    LongestWaitingFirst b s := by
  rcases fifo_of_reach multilevel reach with ⟨good, fifo⟩
  have rings := good.ready.rings multilevel
  -- the head of the first ring that is not empty
  have chosen : ∀ c p t, Dispatches b c s p t → (s.proc p).state = .runnable ∧
      ∃ qindex rest, (s.proc p).priority = (qindex : Fin numpr) + 1 ∧
        s.multiqueue.ring qindex = .some p :: rest ∧
        ∀ q, (s.proc q).state = .runnable → (s.proc p).priority ≤ (s.proc q).priority := by
    intro c p t dispatches
    rcases dispatches.pickNext good multilevel.queued with ⟨u, picked⟩
    by_cases idle : ∀ p, (s.proc p).state ≠ .runnable
    · cases picked.symm.trans (rings.pickNone multilevel idle)
    · push Not at idle
      rcases idle with ⟨r, runnable⟩
      rcases rings.pick multilevel runnable with
        ⟨q, qindex, rest, multiqueue, run, runnable, priority, ring, -, urgent, -⟩
      rcases Prod.mk.inj (Except.ok.inj (picked.symm.trans run)) with ⟨same, -⟩
      rcases Option.some.inj same with rfl
      exact ⟨runnable, qindex, rest, priority, ring, urgent⟩
  refine ⟨fun c p t dispatches => (chosen c p t dispatches).1, fun c p t dispatches => ?_,
    fun c p t dispatches q different runnable level => ?_,
    fun c p idle runnable => exists_dispatches good multilevel.queued idle runnable⟩
  · rcases chosen c p t dispatches with ⟨-, _, _, -, -, urgent⟩
    exact urgent
  · rcases chosen c p t dispatches with ⟨-, qindex, rest, priority, ring, -⟩
    have member := (rings.mem qindex (.some q)).mpr ⟨q, rfl, runnable, level.trans priority⟩
    have ordered := fifo qindex
    rw [ring, List.pairwise_cons] at ordered
    rw [ring, List.mem_cons, Option.some.injEq] at member
    rcases member with same | behind
    · exact absurd same different
    · exact ordered.1 _ behind p q rfl rfl

theorem noChpr_unmoved (s : State ncpu) (e : Event ncpu) (admitted : noChpr s e = true) :
    Unmoved b s e := by
  cases e with
  | chpr c pid priority => cases admitted
  | _ => trivial

/-- Init and its child are `RUNNABLE` in the MLQ build. -/
theorem longest_waiting_first_yielded :
    LongestWaitingFirst .mlq (after .mlq (boot 2 ++ (forks 2 ++ [.yield 0]))) :=
  longest_waiting_first (.inl rfl) (after_reach_of noChpr_unmoved (by decide +kernel))

/-! ## The FCFS build -/

/-- When `allocproc` has last taken the slot. -/
abbrev createdAt (p : Slot) (hist : List Entry) : ℕ := lastAt (.state p .embryo) hist

/-- `ticks` does not go from its largest value to 0. -/
def Unwrapped (s : State ncpu) (e : Event ncpu) : Prop :=
  e = .tick → s.ticks + 1 ≠ 0

/-- `timecreated` follows the order of the calls of `allocproc`. -/
structure CreationInv (s : State ncpu) : Prop where
  past : ∀ p, (s.proc p).state ≠ .unused → (s.proc p).timecreated ≤ s.ticks
  order : ∀ p q, (s.proc p).state ≠ .unused → (s.proc q).state ≠ .unused →
    createdAt p s.hist ≤ createdAt q s.hist → (s.proc p).timecreated ≤ (s.proc q).timecreated

/-- A process is new, or as old as before. -/
theorem Action.created (consistent : Consistent s) (action : Action b admitted chans s t)
    (used : (t.proc p).state ≠ .unused) :
    t.hist = .state p .embryo :: s.hist ∧ (t.proc p).timecreated = s.ticks ∨
    (s.proc p).state ≠ .unused ∧ (t.proc p).timecreated = (s.proc p).timecreated ∧
      createdAt p t.hist = createdAt p s.hist := by
  have old : (s.proc p).state ≠ .unused → createdAt p t.hist = createdAt p s.hist := by
    intro usedBefore
    rcases action.hist with ⟨entries, hist, notTaken | ⟨q, rfl, unused⟩⟩
    · rw [hist]
      exact lastAt_append (notTaken p)
    · rw [hist]
      refine lastAt_append fun member => ?_
      rcases List.mem_singleton.mp member with ⟨⟩
      exact usedBefore unused
  cases action.fate consistent p with
  | same state _ life =>
      have usedBefore := state ▸ used
      exact .inr ⟨usedBefore, life.2.2, old usedBefore⟩
  | taken _ _ _ created hist => exact .inl ⟨hist, created⟩
  | givenUp _ _ _ unused _ => exact absurd unused used
  | advanced before _ life => exact .inr ⟨before.1, life.2.2, old before.1⟩
  | woken asleep _ record _ =>
      have usedBefore : (s.proc p).state ≠ .unused := by simp [asleep]
      exact .inr ⟨usedBefore, by rw [record]; rfl, old usedBefore⟩
  | strayed asleep _ _ life =>
      have usedBefore : (s.proc p).state ≠ .unused := by simp [asleep]
      exact .inr ⟨usedBefore, life.2.2, old usedBefore⟩
  | reaped _ unused _ => exact absurd unused used
  | killed _ _ record =>
      rcases record with record | ⟨asleep, -, record⟩
      · have usedBefore : (s.proc p).state ≠ .unused := by simpa [record] using used
        exact .inr ⟨usedBefore, by rw [record], old usedBefore⟩
      · have usedBefore : (s.proc p).state ≠ .unused := by simp [asleep]
        exact .inr ⟨usedBefore, by rw [record]; rfl, old usedBefore⟩
  | faulted running record =>
      have usedBefore : (s.proc p).state ≠ .unused := by simp [running]
      exact .inr ⟨usedBefore, by rw [record], old usedBefore⟩

theorem CreationInv.action (inv : CreationInv s) (consistent : Consistent s)
    (action : Action b Unwrapped chans s t) : CreationInv t := by
  have clock : s.ticks ≤ t.ticks := by
    rcases action.ticks with same | ⟨unwrapped, later⟩
    · exact same ▸ BitVec.le_refl _
    · rw [later]
      have := unwrapped rfl
      bv_omega
  constructor
  · intro p used
    rcases action.created consistent used with ⟨-, created⟩ | ⟨before, created, -⟩
    · exact created ▸ clock
    · exact created ▸ BitVec.le_trans (inv.past p before) clock
  · intro p q usedP usedQ sooner
    rcases action.created consistent usedQ with ⟨hist, created⟩ | ⟨beforeQ, createdQ, sameQ⟩
    · rcases action.created consistent usedP with ⟨-, created'⟩ | ⟨beforeP, createdP, -⟩
      · rw [created, created']
        exact BitVec.le_refl _
      · rw [created, createdP]
        exact inv.past p beforeP
    · rcases action.created consistent usedP with ⟨hist, -⟩ | ⟨beforeP, createdP, sameP⟩
      · -- the new process is not the one created first
        have latest : createdAt p t.hist = s.hist.length + 1 := by rw [hist]; exact lastAt_self
        have earlier : createdAt q s.hist ≤ s.hist.length := lastAt_le _ _
        rw [latest, sameQ] at sooner
        omega
      · rw [sameP, sameQ] at sooner
        rw [createdP, createdQ]
        exact inv.order p q beforeP beforeQ sooner

theorem creationInv_of_reach (reach : KernelReach b Unwrapped s) : CreationInv s := by
  refine invariant_of_reach reach CreationInv ?_ fun consistent inv action =>
    inv.action consistent action
  constructor <;> simp

/-- `timecreated` decides, which tells processes apart that are created at different ticks. -/
def EarliestTickFirst (s : State ncpu) : Prop :=
  ∀ c p t, Dispatches .fcfs c s p t → (s.proc p).state = .runnable ∧
    ∀ q, (s.proc q).state = .runnable → (s.proc p).timecreated ≤ (s.proc q).timecreated ∧
      (KernelReach .fcfs Unwrapped s → createdAt q s.hist < createdAt p s.hist →
        (s.proc q).timecreated = (s.proc p).timecreated)

theorem earliest_tick_first (reach : AnyReach .fcfs s) : EarliestTickFirst s := by
  have good := good_of_reach (fun s e _ => tame_of_ne_mlq (by decide) s e) reach
  have heap : HeapInv s := good.ready
  intro c p t dispatches
  rcases dispatches.pickNext good (by decide) with ⟨u, picked⟩
  have chosen : (s.proc p).state = .runnable ∧ ∀ q, (s.proc q).state = .runnable →
      (s.proc p).timecreated ≤ (s.proc q).timecreated := by
    by_cases idle : ∀ p, (s.proc p).state ≠ .runnable
    · cases picked.symm.trans (heap.pickNone idle)
    · push Not at idle
      rcases idle with ⟨r, runnable⟩
      rcases heap.pick runnable with ⟨q, pqueue, run, runnable, least, -⟩
      rcases Prod.mk.inj (Except.ok.inj (picked.symm.trans run)) with ⟨same, -⟩
      rcases Option.some.inj same with rfl
      exact ⟨runnable, least⟩
  rcases chosen with ⟨runnable, least⟩
  refine ⟨runnable, fun q runnable' => ⟨least q runnable', fun unwrapped sooner => ?_⟩⟩
  have inv := creationInv_of_reach unwrapped
  exact BitVec.le_antisymm (inv.order q p (by simp [runnable']) (by simp [runnable]) sooner.le)
    (least q runnable')

/-- Init waits, one of its three children runs. -/
def threeChildren : List (Event 2) :=
  boot 2 ++ (forks 2 ++ (forks 2 ++ (forks 2 ++ [.wait 0, .scheduler 0])))

theorem earliest_tick_first_children : EarliestTickFirst (after .fcfs threeChildren) :=
  earliest_tick_first (after_reach (by decide +kernel))

/-- All processes are created at the same tick, and the last one is dispatched before the third. -/
theorem first_created_not_first : ¬∀ s : State 2, AnyReach .fcfs s →
    ∀ c p t, Dispatches .fcfs c s p t → ∀ q, q ≠ p → (s.proc q).state = .runnable →
      createdAt p s.hist < createdAt q s.hist := by
  intro claimed
  have reach : AnyReach .fcfs (after .fcfs threeChildren) := after_reach (by decide +kernel)
  have good := good_of_reach (fun s e _ => tame_of_ne_mlq (by decide) s e) reach
  have runnable : ((after .fcfs threeChildren).proc 2).state = .runnable := by decide +kernel
  have idle : (after .fcfs threeChildren).cpu 1 = none := by decide +kernel
  rcases exists_dispatches good (by decide) idle runnable with ⟨p, t, dispatches⟩
  rcases dispatches.pickNext good (by decide) with ⟨u, picked⟩
  have last : (pickNext .fcfs (after .fcfs threeChildren)).toOption.map Prod.fst =
      some (some 3) := by decide +kernel
  rw [picked] at last
  rcases Option.some.inj (Option.some.inj last) with rfl
  have order := claimed _ reach 1 3 t dispatches 2 (by decide) runnable
  revert order
  decide +kernel

theorem reach_ticks (reach : AnyReach b s) (n : ℕ) :
    AnyReach b { s with ticks := s.ticks + .ofNat 32 n } := by
  induction n with
  | zero => simpa using reach
  | succ n ih =>
      have later : s.ticks + BitVec.ofNat 32 (n + 1) = s.ticks + BitVec.ofNat 32 n + 1 := by
        rw [BitVec.ofNat_add, BitVec.add_assoc]
        rfl
      have ticked : Steps b { s with ticks := s.ticks + BitVec.ofNat 32 n } .tick
          { s with ticks := s.ticks + BitVec.ofNat 32 n + 1 } := by
        simp [Steps, step]
      rw [later]
      exact ih.next trivial ticked

/-- Init has one child from the tick before the counter wraps around and one from the tick after. -/
def aroundTheClock : State 2 :=
  (run .fcfs (fun _ _ => true) (forks 2 ++ (.tick :: (forks 2 ++ [.wait 0])))
    { after .fcfs (boot 2) with ticks := (after .fcfs (boot 2)).ticks + .ofNat 32 (2 ^ 32 - 1) }).getD {}

/-- The bound on `ticks` is needed: the younger child is dispatched. -/
theorem younger_child_first : AnyReach .fcfs aroundTheClock ∧
    ∃ t, Dispatches .fcfs 0 aroundTheClock 2 t ∧ (aroundTheClock.proc 1).state = .runnable ∧
      createdAt 1 aroundTheClock.hist < createdAt 2 aroundTheClock.hist ∧
      (aroundTheClock.proc 1).timecreated ≠ (aroundTheClock.proc 2).timecreated := by
  have booted : AnyReach .fcfs (after .fcfs (boot 2)) := after_reach (by decide +kernel)
  have reach : AnyReach .fcfs aroundTheClock := by
    have done : (run .fcfs (fun _ _ => true) (forks 2 ++ (.tick :: (forks 2 ++ [.wait 0])))
        { after .fcfs (boot 2) with
          ticks := (after .fcfs (boot 2)).ticks + .ofNat 32 (2 ^ 32 - 1) }).isSome = true := by
      decide +kernel
    rcases Option.isSome_iff_exists.mp done with ⟨t, eq⟩
    rw [aroundTheClock, eq]
    exact run_reach (fun _ _ _ => trivial) (reach_ticks booted _) eq
  have good := good_of_reach (fun s e _ => tame_of_ne_mlq (by decide) s e) reach
  have runnable : (aroundTheClock.proc 1).state = .runnable := by decide +kernel
  rcases exists_dispatches (c := 0) good (by decide) (by decide +kernel) runnable with
    ⟨p, t, dispatches⟩
  rcases dispatches.pickNext good (by decide) with ⟨u, picked⟩
  have last : (pickNext .fcfs aroundTheClock).toOption.map Prod.fst = some (some 2) := by
    decide +kernel
  rw [picked] at last
  rcases Option.some.inj (Option.some.inj last) with rfl
  exact ⟨reach, t, dispatches, runnable, by decide +kernel, by decide +kernel⟩

end Xv6
