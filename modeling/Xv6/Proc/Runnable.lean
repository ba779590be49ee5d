import Xv6.Proc.Invariant

/-!
# The ready queues hold the `RUNNABLE` processes

In every state of every run each `RUNNABLE` process is in the ready queue once and nothing else is,
and each `RUNNING` process has one CPU. For the MLQ build this takes calls of `chpr` that are
orderly: `swapque` takes one from `end`, and that is -1 if `end` is 0.
-/

namespace Xv6

variable {ncpu : ℕ}

/-- A process is `RUNNING` if and only if it is the process of exactly one CPU. -/
def OneCpuEach (s : State ncpu) : Prop :=
  ∀ p, (s.proc p).state = .running ↔ ∃! c, s.cpu c = some p

/-- No event fails in this state, but for the exit of init. -/
def Sound (b : Build) (guard : State ncpu → Event ncpu → Prop) (s : State ncpu) : Prop :=
  ∀ e result, guard s e → step b s e = some result →
    (∃ t, result = .ok t) ∨ result = .error (.panic "init exiting")

variable {b : Build} {s : State ncpu} {guard : State ncpu → Event ncpu → Prop}

theorem Consistent.oneCpuEach (inv : Consistent s) : OneCpuEach s := by
  intro p
  constructor
  · intro running
    obtain ⟨c, current⟩ := inv.cpus.dispatched p running
    exact ⟨c, current, fun d current' => inv.cpus.single d c p current' current⟩
  · rintro ⟨c, current, -⟩
    exact inv.cpus.running c p current

theorem Good.sound (good : Good b s) : Sound b (Tame b) s := by
  intro e result tame taken
  rcases good.step tame taken with ⟨t, same, -⟩ | same
  · exact .inl ⟨t, same⟩
  · exact .inr same

/-! ## FCFS -/

/-- What holds in the FCFS build. -/
structure FcfsCorrect (s : State ncpu) : Prop where
  /-- the heap holds the `RUNNABLE` processes, each once -/
  nodup : s.pqueue.toList.Nodup
  mem : ∀ p, p ∈ s.pqueue.toList ↔ (s.proc p).state = .runnable
  /-- it has had room for all of them -/
  size : s.pqueue.size ≤ nproc
  undropped : ∀ p, Entry.dropped p ∉ s.hist
  /-- `allocproc` takes no slot that is in it -/
  fresh : ∀ p t, allocproc s = some (p, t) → p ∉ s.pqueue.toList
  cpus : OneCpuEach s
  sound : Sound .fcfs (fun _ _ => True) s

theorem fcfs_correct (reach : AnyReach .fcfs s) : FcfsCorrect s := by
  have tame : ∀ (s : State ncpu) e, Tame .fcfs s e := tame_of_ne_mlq (by decide)
  have good := good_of_reach (fun s e _ => tame s e) reach
  have heap : HeapInv s := good.ready
  refine ⟨heap.nodup, heap.mem, ?_, good.undropped (by decide), ?_,
    good.consistent.oneCpuEach, fun e result _ => good.sound e result (tame s e)⟩
  · have bound := heap.nodup.length_le_card
    rwa [PQueue.length_toList, Fintype.card_fin] at bound
  · intro p t alloc member
    have unused := (allocproc_some alloc).1
    have runnable := (heap.mem p).mp member
    rw [unused] at runnable
    cases runnable

theorem fcfs_correct_forked : FcfsCorrect (after .fcfs (boot 2 ++ forks 2)) :=
  fcfs_correct (after_reach (by decide +kernel))

/-! ## DMLQ -/

/-- What holds in the DMLQ build. -/
structure DmlqCorrect (s : State ncpu) : Prop where
  /-- every process that has been `RUNNABLE` and is not reaped has a level -/
  levels : ∀ p, (s.proc p).Alive ∨ (s.proc p).state = .zombie → InRange (s.proc p).priority
  /-- the rings hold the `RUNNABLE` processes by their priorities -/
  rings : RingInv s
  /-- `enque` has always had room -/
  undropped : ∀ p, Entry.dropped p ∉ s.hist
  cpus : OneCpuEach s
  sound : Sound .dmlq (fun _ _ => True) s

theorem dmlq_correct (reach : AnyReach .dmlq s) : DmlqCorrect s := by
  have tame : ∀ (s : State ncpu) e, Tame .dmlq s e := tame_of_ne_mlq (by decide)
  have good := good_of_reach (fun s e _ => tame s e) reach
  exact ⟨(good.levels (.inr rfl)).live, good.ready, good.undropped (by decide),
    good.consistent.oneCpuEach, fun e result _ => good.sound e result (tame s e)⟩

theorem dmlq_correct_forked : DmlqCorrect (after .dmlq (boot 2 ++ forks 2)) :=
  dmlq_correct (after_reach (by decide +kernel))

/-! ## MLQ -/

/-- What holds in the MLQ build. -/
structure MlqCorrect (s : State ncpu) : Prop where
  /-- the rings hold the `RUNNABLE` processes by their priorities -/
  rings : RingInv s
  cpus : OneCpuEach s

/-- The run is made of the calls that the rings are about, and those of `chpr` name an existing process
and a level. -/
def Named (s : State ncpu) : Event ncpu → Prop
  | .chpr _ pid priority =>
      (∃ p, (s.proc p).state ≠ .unused ∧ (s.proc p).pid = pid) ∧ InRange priority
  | .exec .. | .trapTimer _ | .trapFault _ | .tick | .updateprocesstimes => False
  | _ => True

/-- As long as no `chpr` makes `swapque` go around the end of an array, the rings are right, and
no event fails. -/
theorem mlq_correct (reach : KernelReach .mlq (Tame .mlq) s) :
    MlqCorrect s ∧ Sound .mlq (Tame .mlq) s := by
  have good := good_of_reach (fun _ _ tame => tame) reach
  exact ⟨⟨good.ready, good.consistent.oneCpuEach⟩, good.sound⟩

/-- Init runs, and its three children wait in the ring of their level. -/
def queuedChildren : State 1 := after .mlq (boot 1 ++ (forks 1 ++ (forks 1 ++ forks 1)))

/-- `chpr` moves the second child to the first level. -/
def movedChild : State 1 :=
  match step .mlq queuedChildren (.chpr 0 3 1) with
  | some (.ok s) => s
  | _ => {}

theorem noChpr_tame (s : State ncpu) (e : Event ncpu) (admitted : noChpr s e = true) : Tame b s e := by
  cases e with
  | chpr => cases admitted
  | _ => trivial

theorem queuedChildren_chpr : step .mlq queuedChildren (.chpr 0 3 1) = some (.ok movedChild) := by
  have isOk : (match step .mlq queuedChildren (.chpr 0 3 1) with
    | some (.ok _) => true
    | _ => false) = true := by decide +kernel
  unfold movedChild
  split at isOk
  · rename_i s taken
    rw [taken]
  · cases isOk

/-- The child is in the middle of its ring. -/
theorem queuedChildren_movable :
    queuedChildren.multiqueue.Movable (fun q => (queuedChildren.proc q).pid) 1 2 := by
  refine ⟨[some 1], [some 3], by decide +kernel, fun x member => ?_, by decide +kernel⟩
  rw [List.mem_singleton] at member
  exact ⟨1, member, by decide +kernel⟩

theorem queuedChildren_found : findPid 3 queuedChildren = some 2 ∧ (queuedChildren.proc 2).priority = 2 := by
  constructor <;> decide +kernel

theorem queuedChildren_level {qindex : Fin numpr} (level : (queuedChildren.proc 2).priority = qindex + 1) :
    qindex = 1 := by
  rw [queuedChildren_found.2] at level
  apply Fin.ext
  have value : (qindex.val : ℤ) = 1 := by omega
  exact Nat.cast_injective value

theorem mlq_correct_movedChild :
    (MlqCorrect movedChild ∧ Sound .mlq (Tame .mlq) movedChild) ∧
      movedChild.multiqueue.ring 0 = [some 2] ∧ movedChild.multiqueue.ring 1 = [some 1, some 3] := by
  have before : KernelReach .mlq (Tame .mlq) queuedChildren :=
    after_reach_of noChpr_tame (by decide +kernel)
  have tame : Tame .mlq queuedChildren (.chpr 0 3 1) := by
    refine fun _ => ⟨⟨by decide, by decide⟩, 2, queuedChildren_found.1, fun _ _ qindex level => ?_⟩
    rw [queuedChildren_level level]
    exact queuedChildren_movable
  exact ⟨mlq_correct (before.next tame queuedChildren_chpr), by decide +kernel, by decide +kernel⟩

/-- `Named` as a test. -/
def namedChpr (s : State ncpu) (e : Event ncpu) : Bool :=
  match e with
  | .chpr _ pid priority =>
      decide (∃ p, (s.proc p).state ≠ .unused ∧ (s.proc p).pid = pid) &&
        decide (hipr ≤ priority ∧ priority ≤ lwpr)
  | .exec .. | .trapTimer _ | .trapFault _ | .tick | .updateprocesstimes => false
  | _ => true

theorem namedChpr_named (e : Event ncpu) (named : namedChpr s e = true) : Named s e := by
  cases e with
  | chpr c pid priority =>
      simp only [namedChpr, Bool.and_eq_true, decide_eq_true_eq] at named
      exact named
  | exec | trapTimer | trapFault | tick | updateprocesstimes => cases named
  | _ => trivial

/-- One process runs while the other one is in the last cell of its ring; then `chpr` moves it. -/
def aroundTheEnd : List (Event 1) :=
  boot 1 ++ forks 1 ++ (List.replicate 63 [.yield 0, .scheduler 0]).flatten ++ [.chpr 0 1 1]

set_option maxRecDepth 20000 in
/-- With calls of `chpr` that only name an existing process and a level, `end` can become -1. -/
theorem mlq_incorrect : ¬∀ s : State 1, KernelReach .mlq Named s → MlqCorrect s := by
  intro claimed
  have done : ((run .mlq namedChpr aroundTheEnd {}).any
      fun s => s.multiqueue.stop 1 = -1) = true := by decide +kernel
  rcases (Option.any_eq_true _ _).mp done with ⟨s, eq, stop⟩
  have correct := claimed s (run_reach (fun _ => namedChpr_named) .refl eq)
  have inside := (correct.rings.wellFormed 1).2.1
  rw [of_decide_eq_true stop] at inside
  omega

end Xv6
