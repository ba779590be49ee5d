import Xv6.Lib.Monitor

/-!
# Sleep-locks

`sleeplock.c`. Every section between two points at which the inner spinlock is free is one step;
`sleep` and `wakeup` are atomic with respect to it. Processes are named by their pids. `killed` plays
no part here, so `kill` only wakes the process.
-/

namespace Xv6.Sync

open Monitor Transition

/-- `struct sleeplock` -/
structure SleepLock where
  locked : Bool := false
  pid : ℕ := 0

inductive SleepLockCall where
  | acquiresleep
  | releasesleep
  deriving DecidableEq, Repr

/-- `acquiresleep`, from the point where the spinlock has been acquired. -/
def acquiresleep (myproc : ℕ) (lk : SleepLock) : Section SleepLock Unit SleepLockCall :=
  if lk.locked then { shared := lk, place := .sleeping () .acquiresleep }
  else { shared := { lk with locked := true, pid := myproc } }

/-- `releasesleep` -/
def releasesleep (lk : SleepLock) : Section SleepLock Unit SleepLockCall :=
  { shared := { lk with locked := false, pid := 0 }, wakes := [()] }

/-- `holdingsleep` -/
def holdingsleep (myproc : ℕ) (lk : SleepLock) : Bool := lk.locked && lk.pid = myproc

/-- The interrupts are calls of `kill` for a process. -/
def sleepLockCode : Code SleepLock ℕ Unit SleepLockCall ℕ where
  body myproc call := match call with
    | .acquiresleep => acquiresleep myproc
    | .releasesleep => releasesleep
  interrupt pid lk := { shared := lk, rouses := [pid] }

/-- The lock and the places of the processes, and which processes are between their `acquiresleep` and
their `releasesleep`. -/
structure SleepLockState where
  monitor : Monitor.State SleepLock ℕ Unit SleepLockCall
  between : ℕ → Bool := fun _ => false

/-- A process is between the two calls from the step in which its `acquiresleep` returns to the one in
which it runs `releasesleep`. -/
def between (s t : Monitor.State SleepLock ℕ Unit SleepLockCall) (old : ℕ → Bool) :
    Label ℕ SleepLockCall ℕ → ℕ → Bool
  | .run p => match s.place p with
      | .ready .acquiresleep => match t.place p with
          | .out => Function.update old p true
          | _ => old
      | .ready .releasesleep => Function.update old p false
      | _ => old
  | _ => old

inductive SleepLockStep : SleepLockState → Label ℕ SleepLockCall ℕ → SleepLockState → Prop
  | step {s : SleepLockState} {t : Monitor.State SleepLock ℕ Unit SleepLockCall}
      {label : Label ℕ SleepLockCall ℕ} (step : Step sleepLockCode s.monitor label t) :
      SleepLockStep s label { monitor := t, between := between s.monitor t s.between label }

/-- `releasesleep` is called only by the holder, once for each `acquiresleep`. -/
def SleepLockUse (s : SleepLockState) : Label ℕ SleepLockCall ℕ → Prop
  | .call myproc .releasesleep => s.between myproc = true
  | _ => True

/-- The states of all interleavings. -/
def SleepLockReach : SleepLockState → Prop :=
  Reachable SleepLockStep SleepLockUse { monitor := { shared := {} } }

variable {s t : SleepLockState} {label : Label ℕ SleepLockCall ℕ} {p q : ℕ}

structure SleepLockInv (s : SleepLockState) : Prop where
  held : ∀ p, s.between p = true ↔ s.monitor.shared.locked = true ∧ s.monitor.shared.pid = p
  releasing : ∀ p, (s.monitor.place p).code? = some .releasesleep → s.between p = true
  waiting : Waiting (fun _ lk => lk.locked = true) s.monitor

theorem SleepLockInv.single (inv : SleepLockInv s) (first : s.between p = true)
    (second : s.between q = true) : p = q :=
  ((inv.held p).1 first).2.symm.trans ((inv.held q).1 second).2

/-- Who is about to release the lock after a section has been about to before it, if the section does
not come to `releasesleep`. -/
theorem SleepLockInv.releasing_other (inv : SleepLockInv s) {wakes : List Unit}
    {place : Place Unit SleepLockCall}
    (releasing : (Function.update (Monitor.wake wakes [] s.monitor.place) p place q).code? =
      some .releasesleep)
    (elsewhere : place.code? ≠ some .releasesleep) : q ≠ p ∧ s.between q = true := by
  by_cases same : q = p
  · rw [same, Function.update_self] at releasing
    exact absurd releasing elsewhere
  · rw [Function.update_of_ne same, wake_code] at releasing
    exact ⟨same, inv.releasing q releasing⟩

/-- `acquiresleep` leaves who is between the two calls alone if it sleeps. -/
theorem SleepLockInv.acquiresleep (inv : SleepLockInv s)
    (ready : s.monitor.place p = .ready .acquiresleep)
    (ran : SleepLockStep s (.run p) t) : SleepLockInv t := by
  rcases ran with ⟨step⟩
  cases step with
  | run ready' =>
      cases ready.symm.trans ready'
      simp only [between, ready, sleepLockCode]
      cases isLocked : s.monitor.shared.locked with
      | true =>
          have sleeps : Sync.acquiresleep p s.monitor.shared =
              { shared := s.monitor.shared, place := .sleeping () .acquiresleep } := by
            rw [Sync.acquiresleep, if_pos isLocked]
          rw [sleeps]
          refine ⟨?_, fun q releasing => ?_, ?_⟩
          · simpa only [Function.update_self] using inv.held
          · simpa only [Function.update_self] using (inv.releasing_other releasing (by simp [Place.code?])).2
          · exact fun _ _ _ _ => isLocked
      | false =>
          have takes : Sync.acquiresleep p s.monitor.shared =
              { shared := { locked := true, pid := p } } := by
            rw [Sync.acquiresleep, if_neg (by simp [isLocked])]
          rw [takes]
          have free : ∀ q, s.between q ≠ true := by
            intro q holds
            rw [((inv.held q).1 holds).1] at isLocked
            cases isLocked
          refine ⟨fun q => ?_, fun q releasing => ?_, fun _ _ _ _ => rfl⟩
          · simp only [Function.update_self]
            by_cases same : q = p
            · subst same
              simp
            · rw [Function.update_of_ne same]
              exact ⟨fun holds => absurd holds (free q), fun both => absurd both.2.symm same⟩
          · exact absurd (inv.releasing_other releasing (by simp [Place.code?])).2 (free q)

theorem SleepLockInv.releasesleep (inv : SleepLockInv s)
    (ready : s.monitor.place p = .ready .releasesleep)
    (ran : SleepLockStep s (.run p) t) : SleepLockInv t := by
  have holds : s.between p = true := inv.releasing p (by rw [ready]; rfl)
  have others : ∀ q ≠ p, s.between q ≠ true := fun q different holds' =>
    different (inv.single holds' holds)
  rcases ran with ⟨step⟩
  cases step with
  | run ready' =>
      cases ready.symm.trans ready'
      simp only [between, ready, sleepLockCode, Sync.releasesleep]
      refine ⟨fun q => ?_, fun q releasing => ?_, fun q chan next sleeping => ?_⟩
      · dsimp only
        by_cases same : q = p
        · subst same
          simp
        · rw [Function.update_of_ne same]
          exact ⟨fun holds' => absurd holds' (others q same), fun both => absurd both.1 (by simp)⟩
      · obtain ⟨different, holds'⟩ := inv.releasing_other releasing (by simp [Place.code?])
        exact absurd holds' (others q different)
      · dsimp only at sleeping
        by_cases same : q = p
        · subst same
          rw [Function.update_self] at sleeping
          cases sleeping
        · rw [Function.update_of_ne same] at sleeping
          rcases sleeping_of_wake sleeping with ⟨-, notWoken, -⟩
          exact absurd (List.mem_singleton_self _) notWoken

theorem SleepLockInv.step (inv : SleepLockInv s) (admitted : SleepLockUse s label)
    (step : SleepLockStep s label t) : SleepLockInv t := by
  rcases step with ⟨step⟩
  cases step with
  | @call p entry outside =>
      refine ⟨inv.held, fun q releasing => ?_, fun q chan next sleeping => ?_⟩
      · dsimp only at releasing
        by_cases same : q = p
        · subst same
          rw [Function.update_self] at releasing
          cases releasing
          exact admitted
        · rw [Function.update_of_ne same] at releasing
          exact inv.releasing q releasing
      · dsimp only at sleeping
        by_cases same : q = p
        · subst same
          rw [Function.update_self] at sleeping
          cases sleeping
        · rw [Function.update_of_ne same] at sleeping
          exact inv.waiting q chan next sleeping
  | @run p entry ready =>
      cases entry with
      | acquiresleep => exact inv.acquiresleep ready ⟨.run ready⟩
      | releasesleep => exact inv.releasesleep ready ⟨.run ready⟩
  | interrupt pid =>
      refine ⟨inv.held, fun q releasing => ?_, fun q chan next sleeping => ?_⟩
      · dsimp only at releasing
        rw [wake_code] at releasing
        exact inv.releasing q releasing
      · rcases sleeping_of_wake sleeping with ⟨before, -⟩
        exact inv.waiting q chan next before

/-- At most one process is between `acquiresleep` and `releasesleep`, and the lock names it; when the
lock is free, nobody sleeps on it, in spite of `kill`. -/
theorem sleepLock_correct (s : SleepLockState) (reach : SleepLockReach s) :
    (∀ p q, s.between p = true → s.between q = true → p = q) ∧
    (∀ p, s.between p = true → s.monitor.shared.locked = true ∧ s.monitor.shared.pid = p) ∧
    (∀ p, holdingsleep p s.monitor.shared = true ↔ s.between p = true) ∧
    (s.monitor.shared.locked = false → ∀ p chan next, s.monitor.place p ≠ .sleeping chan next) := by
  have inv : SleepLockInv s := by
    refine Reachable.invariant reach SleepLockInv ⟨fun p => ?_, nofun, nofun⟩ ?_
    · exact ⟨nofun, fun both => absurd both.1 (by simp)⟩
    · exact fun _ inv admitted step => inv.step admitted step
  refine ⟨fun p q => inv.single, fun p => (inv.held p).1, fun p => ?_, fun free p chan next sleeping => ?_⟩
  · rw [inv.held p, holdingsleep, Bool.and_eq_true, decide_eq_true_iff]
  · rw [inv.waiting p chan next sleeping] at free
    cases free

theorem SleepLockReach.take {after : Monitor.State SleepLock ℕ Unit SleepLockCall}
    (reach : SleepLockReach s) (label : Label ℕ SleepLockCall ℕ) (admitted : SleepLockUse s label)
    (taken : Monitor.take sleepLockCode s.monitor label = some after) :
    SleepLockReach { monitor := after, between := between s.monitor after s.between label } :=
  reach.next admitted ⟨step_of_take taken⟩

/-- Process 8 has gone to sleep on the lock, and has been killed, when process 7 releases it; 8 is
then between the calls. -/
theorem sleepLock_correct_contended :
    ∃ s : SleepLockState, s.between 7 = false ∧ s.between 8 = true ∧
      holdingsleep 8 s.monitor.shared = true ∧ (∀ p, s.between p = true → 8 = p) := by
  have start : SleepLockReach { monitor := { shared := {} } } := .refl
  have held := ((start.take (.call 7 .acquiresleep) trivial rfl).take
    (.run 7) trivial rfl)
  have asleep := ((held.take (.call 8 .acquiresleep) trivial rfl).take
    (.run 8) trivial rfl)
  have killed := ((asleep.take (.interrupt 8) trivial rfl).take (.run 8) trivial rfl)
  have released := ((killed.take (.call 7 .releasesleep) rfl rfl).take
    (.run 7) trivial rfl)
  have reach := released.take (.run 8) trivial rfl
  have correct := sleepLock_correct _ reach
  exact ⟨_, rfl, rfl, (correct.2.2.1 8).2 rfl, fun p => correct.1 8 p rfl⟩

end Xv6.Sync
