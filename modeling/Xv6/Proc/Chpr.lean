import Xv6.Proc.Kill
import Xv6.Proc.Runnable

/-!
# `chpr`

`chpr` looks at neither of its arguments. A pid that no slot has takes it to `ptable.proc[NPROC]`,
a slot that is `UNUSED` is changed like any other, and a priority that is not a level is stored and
used as an index of `multiqueue` later. `ChprValid` says for which arguments it does what it
should.
-/

namespace Xv6

open Fallible Transition

variable {ncpu : ℕ}

/-- A process that is not `UNUSED` has the pid. -/
def HasProcess (pid : ℤ) (s : State ncpu) : Prop :=
  ∃ p, (s.proc p).state ≠ .unused ∧ (s.proc p).pid = pid

/-- `p` goes from the ring of its old priority to the end of the one of the new priority. -/
structure MovesLevel (p : Slot) (priority : ℤ) (s t : State ncpu) (qindex target : Fin numpr) :
    Prop where
  old : (s.proc p).priority = qindex + 1
  new : priority = target + 1
  wellFormed : t.multiqueue.WellFormed
  removed : ∃ before after, s.multiqueue.ring qindex = before ++ some p :: after ∧
    t.multiqueue.ring qindex = before ++ after
  appended : t.multiqueue.ring target = s.multiqueue.ring target ++ [some p]
  others : ∀ other, other ≠ qindex → other ≠ target →
    t.multiqueue.ring other = s.multiqueue.ring other

/-- `p` gets the priority and, if it is `RUNNABLE`, its place at the new level. Nothing else
changes. -/
structure Reprioritizes (p : Slot) (priority : ℤ) (s t : State ncpu) : Prop where
  rest : SameRest s t
  hist : t.hist = s.hist
  pqueue : t.pqueue = s.pqueue
  proc : ∀ q, t.proc q = if q = p then { s.proc p with priority } else s.proc q
  moves : (s.proc p).state = .runnable → (s.proc p).priority ≠ priority →
    ∃ qindex target, MovesLevel p priority s t qindex target
  stays : (s.proc p).state ≠ .runnable ∨ (s.proc p).priority = priority →
    t.multiqueue = s.multiqueue

/-- The call of `chpr` changes the process with the pid, if there is one and the priority is a
level, and nothing otherwise. -/
structure ChprCorrect (pid priority : ℤ) (s : State ncpu) : Prop where
  valid : HasProcess pid s → InRange priority →
    ∃ p t, ((s.proc p).state ≠ .unused ∧ (s.proc p).pid = pid) ∧
      chpr .mlq pid priority s = .ok t ∧ Reprioritizes p priority s t
  invalid : ¬(HasProcess pid s ∧ InRange priority) → chpr .mlq pid priority s = .ok s

/-- The arguments for which `chpr` is right: the first slot with the pid has that priority already
and no process should change, or it is not `UNUSED`, the priority is a level, and its process can
be moved within `multiqueue`. -/
def ChprValid (pid priority : ℤ) (s : State ncpu) : Prop :=
  ∃ p, findPid pid s = some p ∧
    ((s.proc p).priority = priority ∧ (HasProcess pid s → InRange priority →
        ∃ q, ((s.proc q).state ≠ .unused ∧ (s.proc q).pid = pid) ∧
          (s.proc q).priority = priority) ∨
      (s.proc p).priority ≠ priority ∧ (s.proc p).state ≠ .unused ∧ InRange priority ∧
        ((s.proc p).state = .runnable → ∀ qindex : Fin numpr, (s.proc p).priority = qindex + 1 →
          s.multiqueue.Movable (fun q => (s.proc q).pid) qindex p))

/-- Every call of `chpr` has such arguments. -/
def ValidCalls (s : State ncpu) : Event ncpu → Prop
  | .chpr _ pid priority => ChprValid pid priority s
  | _ => True

variable {s t : State ncpu} {p : Slot} {pid priority : ℤ}

/-! ## One call -/

theorem chpr_same (found : findPid pid s = some p) (same : (s.proc p).priority = priority) :
    chpr .mlq pid priority s = .ok s := by
  rw [chpr_found found, if_neg (not_not.mpr same)]

theorem setPriority_proc (q : Slot) : (setPriority p priority s).proc q =
    if q = p then { s.proc p with priority } else s.proc q := by
  simp [setPriority, State.edit_proc]

/-- A process that is not `RUNNABLE` gets its priority only. -/
theorem chpr_calm (found : findPid pid s = some p) (changes : (s.proc p).priority ≠ priority)
    (calm : (s.proc p).state ≠ .runnable) :
    chpr .mlq pid priority s = .ok (setPriority p priority s) := by
  rw [chpr_found found, if_pos changes, if_neg calm]

theorem chpr_runnable (found : findPid pid s = some p) (changes : (s.proc p).priority ≠ priority)
    (runnable : (s.proc p).state = .runnable) :
    chpr .mlq pid priority s = .ok t ↔ ∃ multiqueue,
      s.multiqueue.swapque (fun q => (s.proc q).pid) (s.proc p).priority priority
        (s.proc p).pid = .ok multiqueue ∧ t = { setPriority p priority s with multiqueue } := by
  rw [chpr_found found, if_pos changes, if_pos runnable, bind_eq_ok]
  constructor
  · rintro ⟨multiqueue, swapped, eq⟩
    exact ⟨multiqueue, swapped, (Except.ok.inj eq).symm⟩
  · rintro ⟨multiqueue, swapped, rfl⟩
    exact ⟨multiqueue, swapped, rfl⟩

/-- `chpr` stores the priority in the slot that it finds. -/
theorem chpr_stores (found : findPid pid s = some p) (run : chpr .mlq pid priority s = .ok t) :
    (t.proc p).priority = priority := by
  by_cases changes : (s.proc p).priority = priority
  · rcases Except.ok.inj ((chpr_same found changes).symm.trans run) with rfl
    exact changes
  · by_cases runnable : (s.proc p).state = .runnable
    · rcases (chpr_runnable found changes runnable).mp run with ⟨multiqueue, -, rfl⟩
      simp [setPriority_proc]
    · rcases Except.ok.inj ((chpr_calm found changes runnable).symm.trans run) with rfl
      simp [setPriority_proc]

theorem chpr_unknown (found : findPid pid s = none) :
    chpr .mlq pid priority s = .error .outOfBounds := by
  simp [chpr, found]

/-- Nothing changes if the process has that priority already. -/
theorem Reprioritizes.same (same : (s.proc p).priority = priority) :
    Reprioritizes p priority s s := by
  refine ⟨.refl s, rfl, rfl, fun q => ?_, fun _ changes => absurd same changes, fun _ => rfl⟩
  split
  · rename_i isP
    rw [isP, ← same]
  · rfl

theorem RingInv.moves (inv : RingInv s) {qindex target : Fin numpr}
    (old : (s.proc p).priority = qindex + 1) (new : priority = target + 1)
    (movable : s.multiqueue.Movable (fun q => (s.proc q).pid) qindex p)
    (different : target ≠ qindex) (room : (s.multiqueue.ring target).length < nproc) :
    ∃ multiqueue, s.multiqueue.swapque (fun q => (s.proc q).pid) (s.proc p).priority priority
        (s.proc p).pid = .ok multiqueue ∧
      MovesLevel p priority s { setPriority p priority s with multiqueue } qindex target := by
  rcases MultiQueue.swapque_spec inv.wellFormed movable different room with
    ⟨multiqueue, before, after, ring, swapped, wellFormed, shorter, rings⟩
  refine ⟨multiqueue, by rw [old, new]; exact swapped, old, new, wellFormed,
    ⟨before, after, ring, shorter⟩, ?_, fun other notOld notNew => ?_⟩
  · exact (rings target different).trans (if_pos rfl)
  · exact (rings other notOld).trans (if_neg notNew)

/-- Another level has room for a process. -/
theorem RingInv.roomFor (inv : RingInv s) {qindex target : Fin numpr}
    (old : (s.proc p).priority = qindex + 1) (different : target ≠ qindex) :
    (s.multiqueue.ring target).length < nproc := by
  refine inv.room (p := p) fun member => ?_
  rcases (inv.mem target (some p)).mp member with ⟨q, same, -, priority⟩
  rcases Option.some.inj same with rfl
  exact different (Fin.ext (by omega))

/-- For valid arguments `chpr` is right. -/
theorem RingInv.chprCorrect (inv : RingInv s) (valid : ChprValid pid priority s) :
    ChprCorrect pid priority s := by
  rcases valid with ⟨p, found, ⟨same, shared⟩ | ⟨changes, used, inside, movable⟩⟩
  · have run := chpr_same found same
    refine ⟨fun has inside => ?_, fun _ => run⟩
    rcases shared has inside with ⟨q, process, same'⟩
    exact ⟨q, s, process, run, .same same'⟩
  · have process := And.intro used (findPid_some found)
    refine ⟨fun _ _ => ?_, fun invalid => absurd ⟨⟨p, process⟩, inside⟩ invalid⟩
    by_cases runnable : (s.proc p).state = .runnable
    · rcases exists_qindex (inv.level p runnable) with ⟨qindex, old⟩
      rcases exists_qindex inside with ⟨target, new⟩
      have different : target ≠ qindex := by
        rintro rfl
        exact changes (old.trans new.symm)
      rcases inv.moves old new (movable runnable qindex old) different
        (inv.roomFor old different) with ⟨multiqueue, swapped, moves⟩
      refine ⟨p, _, process, (chpr_runnable found changes runnable).mpr
        ⟨multiqueue, swapped, rfl⟩, ⟨rfl, rfl, rfl, rfl, rfl⟩, rfl, rfl, setPriority_proc,
        fun _ _ => ⟨qindex, target, moves⟩, ?_⟩
      rintro (calm | same)
      · exact absurd runnable calm
      · exact absurd same changes
    · exact ⟨p, _, process, chpr_calm found changes runnable, ⟨rfl, rfl, rfl, rfl, rfl⟩, rfl, rfl,
        setPriority_proc, fun isRunnable => absurd isRunnable runnable, fun _ => rfl⟩

/-- Where `chpr` is right, its arguments are valid. -/
theorem RingInv.chprValid (inv : RingInv s) (correct : ChprCorrect pid priority s) :
    ChprValid pid priority s := by
  have runs : ∃ t, Xv6.chpr .mlq pid priority s = .ok t := by
    by_cases served : HasProcess pid s ∧ InRange priority
    · rcases correct.valid served.1 served.2 with ⟨_, t, -, run, -⟩
      exact ⟨t, run⟩
    · exact ⟨s, correct.invalid served⟩
  rcases runs with ⟨t, run⟩
  cases found : findPid pid s with
  | none => cases (chpr_unknown found).symm.trans run
  | some p =>
      refine ⟨p, found, ?_⟩
      by_cases changes : (s.proc p).priority = priority
      · refine .inl ⟨changes, fun has inside => ?_⟩
        rcases correct.valid has inside with ⟨q, t', process, run', reprioritizes⟩
        rcases Except.ok.inj ((chpr_same found changes).symm.trans run') with rfl
        have record := reprioritizes.proc q
        rw [if_pos rfl] at record
        exact ⟨q, process, congrArg Proc.priority record⟩
      · right
        have stored := chpr_stores found run
        have served : HasProcess pid s ∧ InRange priority := by
          by_contra notServed
          rcases Except.ok.inj (run.symm.trans (correct.invalid notServed)) with rfl
          exact changes stored
        rcases correct.valid served.1 served.2 with ⟨q, t', process, run', reprioritizes⟩
        rcases Except.ok.inj (run.symm.trans run') with rfl
        -- the slot that `chpr` has changed is the one that it should change
        have same : p = q := by
          by_contra different
          rw [reprioritizes.proc, if_neg different] at stored
          exact changes stored
        subst same
        refine ⟨changes, process.1, served.2, fun runnable qindex old => ?_⟩
        rcases reprioritizes.moves runnable changes with ⟨qindex', target, moves⟩
        rcases Fin.ext (by have := moves.old; omega : qindex.val = qindex'.val) with rfl
        have different : target ≠ qindex := by
          rintro rfl
          exact changes (moves.old.trans moves.new.symm)
        rcases (chpr_runnable found changes runnable).mp run with ⟨multiqueue, swapped, rfl⟩
        rw [moves.old, moves.new] at swapped
        refine MultiQueue.movable_of_swapque inv.wellFormed ?_ ?_ (inv.nodup qindex) different
          (inv.roomFor old different) swapped moves.removed moves.appended
        · exact (inv.mem qindex (some p)).mpr ⟨p, rfl, runnable, old⟩
        · intro empty
          rcases (inv.mem qindex none).mp empty with ⟨_, impossible, -⟩
          cases impossible

/-! ## Runs -/

/-- A valid call that changes something leaves the rings in order. -/
theorem ChprValid.orderly (valid : ChprValid pid priority s) :
    chpr .mlq pid priority s = .ok s ∨ Orderly pid priority s := by
  rcases valid with ⟨p, found, ⟨same, -⟩ | ⟨changes, -, inside, movable⟩⟩
  · exact .inl (chpr_same found same)
  · exact .inr ⟨inside, p, found, fun runnable _ => movable runnable⟩

theorem tame_of_validCalls (reach : KernelReach .mlq ValidCalls s) :
    KernelReach .mlq (Tame .mlq) s := by
  refine reach.refine id rfl fun {s e t} _ valid taken => ?_
  have tame : Tame .mlq s e → id t = id s ∨ ∃ e', Tame .mlq (id s) e' ∧ Steps .mlq s e' t :=
    fun tame => .inr ⟨e, tame, taken⟩
  cases e with
  | chpr c pid priority =>
      rcases valid.orderly with idle | orderly
      · rcases syscall_some taken with ⟨_, -, -, run⟩
        exact .inl (Except.ok.inj (run.trans idle))
      · exact tame fun _ => orderly
  | _ => exact tame trivial

/-- What valid calls of `chpr` keep. -/
structure ChprSafe (s : State ncpu) : Prop where
  call : ∀ pid priority, ChprCorrect pid priority s ↔ ChprValid pid priority s
  /-- every live process has a level -/
  levels : ∀ p, (s.proc p).Alive ∨ (s.proc p).state = .zombie → InRange (s.proc p).priority
  /-- no index of `multiqueue` and no slot is outside its array -/
  sound : Sound .mlq ValidCalls s

theorem chpr_safe (reach : KernelReach .mlq ValidCalls s) : ChprSafe s := by
  have good := good_of_reach (fun _ _ tame => tame) (tame_of_validCalls reach)
  have rings : RingInv s := good.ready
  refine ⟨fun pid priority => ⟨rings.chprValid, rings.chprCorrect⟩,
    (good.levels (.inl rfl)).live, fun e result valid taken => ?_⟩
  have tame : Tame .mlq s e → (∃ t, result = .ok t) ∨ result = .error (.panic "init exiting") :=
    fun tame => good.sound e result tame taken
  cases e with
  | chpr c pid priority =>
      rcases valid.orderly with idle | orderly
      · rcases syscall_some taken with ⟨_, -, -, run⟩
        exact .inl ⟨s, run.trans idle⟩
      · exact tame fun _ => orderly
  | _ => exact tame trivial

theorem noChpr_valid (s : State ncpu) (e : Event ncpu) (admitted : noChpr s e = true) : ValidCalls s e := by
  cases e with
  | chpr => cases admitted
  | _ => trivial

/-- The second of three waiting children has moved to another level. -/
theorem chpr_safe_movedChild : ChprSafe movedChild := by
  have before : KernelReach .mlq ValidCalls queuedChildren :=
    after_reach_of noChpr_valid (by decide +kernel)
  have valid : ValidCalls queuedChildren (.chpr 0 3 1) := by
    refine ⟨2, queuedChildren_found.1, .inr ⟨?_, by decide +kernel, ⟨by decide, by decide⟩, fun _ qindex level => ?_⟩⟩
    · rw [queuedChildren_found.2]
      decide
    · rw [queuedChildren_level level]
      exact queuedChildren_movable
  exact chpr_safe (before.next valid queuedChildren_chpr)

/-- Init can take a priority that is no level, and a pid that nobody has is looked up in
`ptable.proc[NPROC]`. -/
theorem chpr_incorrect :
    (¬∀ s : State 1, AnyReach .mlq s → ∀ pid priority, ChprCorrect pid priority s) ∧
      (¬∀ s : State 1, AnyReach .mlq s → ∀ p, (s.proc p).Alive → InRange (s.proc p).priority) ∧
      ¬∀ s : State 1, AnyReach .mlq s → Sound .mlq (fun _ _ => True) s := by
  have booted : AnyReach .mlq (after .mlq (boot 1)) := after_reach (by decide +kernel)
  refine ⟨fun claimed => ?_, fun claimed => ?_, fun claimed => ?_⟩
  · have run := (claimed _ booted 1 7).invalid fun served => by
      have := served.2
      simp [InRange, lwpr] at this
    have found : findPid 1 (after .mlq (boot 1)) = some 0 := by decide +kernel
    have stored := chpr_stores found run
    revert stored
    decide +kernel
  · have reach : AnyReach .mlq (after .mlq (boot 1 ++ [.chpr 0 1 7])) :=
      after_reach (by decide +kernel)
    have running : ((after .mlq (boot 1 ++ [.chpr 0 1 7])).proc 0).state = .running := by
      decide +kernel
    have inside := claimed _ reach 0 (.inr (.inr running))
    have priority : ((after .mlq (boot 1 ++ [.chpr 0 1 7])).proc 0).priority = 7 := by
      decide +kernel
    simp [InRange, lwpr, priority] at inside
  · have unknown : findPid 99 (after .mlq (boot 1)) = none := by decide +kernel
    have current : (after .mlq (boot 1)).cpu 0 = some 0 := by decide +kernel
    have user : ((after .mlq (boot 1)).proc 0).frame = .user := by decide +kernel
    have taken : step .mlq (after .mlq (boot 1)) (.chpr 0 99 1) = some (.error .outOfBounds) := by
      simp [step, syscall, current, user, chpr_unknown unknown]
    rcases claimed _ booted _ _ trivial taken with ⟨_, impossible⟩ | impossible <;>
      cases impossible

end Xv6
