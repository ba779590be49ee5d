import Xv6.Lib.Monitor
import Xv6.Vm.Syscall

/-!
# Sleeping for ticks

`sys_sleep`, the timer interrupt and `kill`, in any order. Every section under `tickslock` is one step. `kill` does not
take that lock: one that comes between the test of `killed` and the change of the process to `SLEEPING` sets the flag
without waking the process. `elapsed` counts the timer interrupts, `ticks` is its last 32 bits; `returns` records the
calls that have ended, each with what its process had in its memory and on its stack.
-/

namespace Xv6.Sync

open Monitor Transition Syscall

/-- A call of `sys_sleep` that has ended. -/
structure SleepReturn where
  pid : ℕ
  caller : Caller
  began : ℕ
  ended : ℕ
  value : ℤ

structure Clock where
  ticks : BitVec 32 := 0
  killed : ℕ → Bool := fun _ => false
  elapsed : ℕ := 0
  returns : List SleepReturn := []

/-- Where `sys_sleep` goes on: at its beginning, or at the loop with `ticks0`; `began` is `elapsed` at its beginning. -/
inductive SleepCall where
  | begin (caller : Caller)
  | wait (n ticks0 : BitVec 32) (caller : Caller) (began : ℕ)

def Clock.leave (clock : Clock) (pid : ℕ) (caller : Caller) (began : ℕ) (value : ℤ) : Clock :=
  { clock with returns := ⟨pid, caller, began, clock.elapsed, value⟩ :: clock.returns }

/-- The loop of `sys_sleep` up to the next `sleep`; the comparison is unsigned. -/
def sleepLoop (pid : ℕ) (n ticks0 : BitVec 32) (caller : Caller) (began : ℕ) (clock : Clock) :
    Section Clock Unit SleepCall :=
  if clock.ticks - ticks0 < n then
    if clock.killed pid then { shared := clock.leave pid caller began (-1) }
    else { shared := clock, place := .sleeping () (.wait n ticks0 caller began) }
  else { shared := clock.leave pid caller began 0 }

def sys_sleep (pid : ℕ) : SleepCall → Clock → Section Clock Unit SleepCall
  | .begin caller, clock => match (argint caller 0).result with
      | none => { shared := clock.leave pid caller clock.elapsed (-1) }
      | some n => sleepLoop pid n clock.ticks caller clock.elapsed clock
  | .wait n ticks0 caller began, clock => sleepLoop pid n ticks0 caller began clock

inductive ClockEvent where
  /-- The timer interrupt on the first processor -/
  | timer
  /-- `kill`; `seen` if the process is `SLEEPING` when it sleeps. -/
  | kill (pid : ℕ) (seen : Bool)
  deriving DecidableEq

def clockEvent : ClockEvent → Clock → Interrupt Clock ℕ Unit
  | .timer, clock =>
      { shared := { clock with ticks := clock.ticks + 1, elapsed := clock.elapsed + 1 }, wakes := [()] }
  | .kill pid seen, clock =>
      { shared := { clock with killed := Function.update clock.killed pid true }
        rouses := if seen then [pid] else [] }

def clockCode : Code Clock ℕ Unit SleepCall ClockEvent where
  body := sys_sleep
  interrupt := clockEvent

abbrev ClockState := Monitor.State Clock ℕ Unit SleepCall

/-- A call begins at the beginning. -/
def ClockUse (_ : ClockState) : Label ℕ SleepCall ClockEvent → Prop
  | .call _ (.wait _ _ _ _) => False
  | _ => True

/-- The states of all interleavings -/
def ClockReach : ClockState → Prop := Reachable (Step clockCode) ClockUse { shared := {} }

/-- What a call that ended has waited for -/
structure SleepReturn.Justified (r : SleepReturn) (clock : Clock) : Prop where
  order : r.began ≤ r.ended
  past : r.ended ≤ clock.elapsed
  reason : (r.value = -1 ∧ (argint r.caller 0).result = none) ∨
    ∃ n, (argint r.caller 0).result = some n ∧
      ((r.value = 0 ∧ n.toNat ≤ (r.ended - r.began) % 2 ^ 32) ∨
        (r.value = -1 ∧ (r.ended - r.began) % 2 ^ 32 < n.toNat ∧ clock.killed r.pid = true))

/-- A call in its loop remembers its argument and when it began. -/
def SleepCall.Began (clock : Clock) : SleepCall → Prop
  | .begin _ => True
  | .wait n ticks0 caller began =>
      (argint caller 0).result = some n ∧ ticks0 = BitVec.ofNat 32 began ∧ began ≤ clock.elapsed

/-- A call that is not over yet -/
def SleepCall.Early (clock : Clock) : SleepCall → Prop
  | .begin _ => False
  | .wait n _ _ began => (clock.elapsed - began) % 2 ^ 32 < n.toNat

structure ClockInv (s : ClockState) : Prop where
  ticks : s.shared.ticks = BitVec.ofNat 32 s.shared.elapsed
  began : ∀ p next, (s.place p).code? = some next → next.Began s.shared
  early : ∀ p chan next, s.place p = .sleeping chan next → next.Early s.shared
  returns : ∀ r ∈ s.shared.returns, r.Justified s.shared

variable {s t : ClockState} {label : Label ℕ SleepCall ClockEvent} {p q : ℕ} {clock clock' : Clock}
  {n ticks0 : BitVec 32} {caller : Caller} {began : ℕ} {next : SleepCall}

/-- The difference of the counters is the number of ticks in between, modulo the width of the counter. -/
theorem ticks_since {elapsed : ℕ} (order : began ≤ elapsed) :
    (BitVec.ofNat 32 elapsed - BitVec.ofNat 32 began).toNat = (elapsed - began) % 2 ^ 32 := by
  simp only [BitVec.toNat_sub, BitVec.toNat_ofNat]
  omega

theorem SleepReturn.Justified.mono {r : SleepReturn} (justified : r.Justified clock)
    (later : clock.elapsed ≤ clock'.elapsed)
    (killed : ∀ p, clock.killed p = true → clock'.killed p = true) : r.Justified clock' := by
  refine ⟨justified.order, le_trans justified.past later, ?_⟩
  rcases justified.reason with failed | ⟨n, isArg, done | ⟨value, short, dead⟩⟩
  · exact .inl failed
  · exact .inr ⟨n, isArg, .inl done⟩
  · exact .inr ⟨n, isArg, .inr ⟨value, short, killed _ dead⟩⟩

theorem SleepCall.Began.mono (h : next.Began clock) (later : clock.elapsed ≤ clock'.elapsed) :
    next.Began clock' := by
  cases next with
  | begin caller => trivial
  | wait n ticks0 caller began => exact ⟨h.1, h.2.1, le_trans h.2.2 later⟩

/-- What the loop does: it goes to sleep early, or it ends with a reason. -/
structure LoopOk (clock : Clock) (body : Section Clock Unit SleepCall) : Prop where
  ticks : body.shared.ticks = clock.ticks
  elapsed : body.shared.elapsed = clock.elapsed
  killed : body.shared.killed = clock.killed
  wakes : body.wakes = []
  returns : ∀ r ∈ body.shared.returns, r ∈ clock.returns ∨ r.Justified clock
  sleeps : ∀ chan next, body.place = .sleeping chan next → next.Began clock ∧ next.Early clock
  asleep : ∀ next, body.place ≠ .ready next

theorem sleepLoop_ok (hticks : clock.ticks = BitVec.ofNat 32 clock.elapsed)
    (hbegan : SleepCall.Began clock (.wait n ticks0 caller began)) (pid : ℕ) :
    LoopOk clock (sleepLoop pid n ticks0 caller began clock) := by
  rcases hbegan with ⟨isArg, rfl, order⟩
  have since := ticks_since order
  have compare : clock.ticks - BitVec.ofNat 32 began < n ↔ (clock.elapsed - began) % 2 ^ 32 < n.toNat := by
    rw [BitVec.lt_def, hticks, since]
  unfold sleepLoop
  split
  · rename_i short
    rw [compare] at short
    split
    · rename_i dead
      refine ⟨rfl, rfl, rfl, rfl, ?_, nofun, nofun⟩
      intro r hr
      rcases List.mem_cons.1 hr with rfl | old
      · exact .inr ⟨order, le_refl _, .inr ⟨n, isArg, .inr ⟨rfl, short, dead⟩⟩⟩
      · exact .inl old
    · refine ⟨rfl, rfl, rfl, rfl, fun r hr => .inl hr, ?_, nofun⟩
      intro chan next sleeping
      cases sleeping
      exact ⟨⟨isArg, rfl, order⟩, short⟩
  · rename_i long
    rw [compare] at long
    refine ⟨rfl, rfl, rfl, rfl, ?_, nofun, nofun⟩
    intro r hr
    rcases List.mem_cons.1 hr with rfl | old
    · exact .inr ⟨order, le_refl _, .inr ⟨n, isArg, .inl ⟨rfl, Nat.le_of_not_lt long⟩⟩⟩
    · exact .inl old

theorem sys_sleep_ok (inv : ClockInv s) (ready : s.place p = .ready next) :
    LoopOk s.shared (sys_sleep p next s.shared) := by
  cases next with
  | begin caller =>
      simp only [sys_sleep]
      cases isArg : (argint caller 0).result with
      | none =>
          refine ⟨rfl, rfl, rfl, rfl, ?_, nofun, nofun⟩
          intro r hr
          rcases List.mem_cons.1 hr with rfl | old
          · exact .inr ⟨le_refl _, le_refl _, .inl ⟨rfl, isArg⟩⟩
          · exact .inl old
      | some n =>
          apply sleepLoop_ok inv.ticks
          exact ⟨isArg, inv.ticks, le_refl _⟩
  | wait n ticks0 caller began =>
      apply sleepLoop_ok inv.ticks
      apply inv.began p
      rw [ready]
      rfl

theorem ClockInv.run (inv : ClockInv s) (ready : s.place p = .ready next) :
    ClockInv
      { shared := (sys_sleep p next s.shared).shared
        place := Function.update (Monitor.wake (sys_sleep p next s.shared).wakes [] s.place) p
          (sys_sleep p next s.shared).place } := by
  have ok := sys_sleep_ok inv ready
  have later : s.shared.elapsed ≤ (sys_sleep p next s.shared).shared.elapsed := le_of_eq ok.elapsed.symm
  refine ⟨?_, ?_, ?_, ?_⟩
  · rw [ok.ticks, ok.elapsed, inv.ticks]
  · intro q other code
    apply SleepCall.Began.mono _ later
    dsimp only at code
    by_cases same : q = p
    · subst same
      rw [Function.update_self] at code
      cases body : (sys_sleep q next s.shared).place with
      | out => simp [body, Place.code?] at code
      | ready again => exact absurd body (ok.asleep again)
      | sleeping chan again =>
          simp only [body, Place.code?, Option.some.injEq] at code
          subst code
          exact (ok.sleeps chan again body).1
    · rw [Function.update_of_ne same, wake_code] at code
      exact inv.began q other code
  · intro q chan other sleeping
    have early : other.Early s.shared := by
      dsimp only at sleeping
      by_cases same : q = p
      · subst same
        rw [Function.update_self] at sleeping
        exact (ok.sleeps chan other sleeping).2
      · rw [Function.update_of_ne same] at sleeping
        exact inv.early q chan other (sleeping_of_wake sleeping).1
    cases other with
    | begin caller => exact early
    | wait n ticks0 caller began =>
        unfold SleepCall.Early at early ⊢
        dsimp only
        rw [ok.elapsed]
        exact early
  · intro r hr
    have justified : r.Justified s.shared := by
      rcases ok.returns r hr with old | new
      · exact inv.returns r old
      · exact new
    apply justified.mono later
    intro q dead
    rw [ok.killed]
    exact dead

/-- A tick wakes everybody, so a sleeper has seen the last one. -/
theorem ClockInv.timer (inv : ClockInv s) :
    ClockInv
      { shared := (clockEvent .timer s.shared).shared
        place := Monitor.wake (clockEvent .timer s.shared).wakes (clockEvent .timer s.shared).rouses s.place } := by
  have later : s.shared.elapsed ≤ s.shared.elapsed + 1 := Nat.le_succ _
  refine ⟨?_, ?_, ?_, ?_⟩
  · simp [clockEvent, inv.ticks, BitVec.ofNat_add]
  · intro q other code
    rw [wake_code] at code
    apply SleepCall.Began.mono (inv.began q other code) later
  · intro q chan other sleeping
    have notWoken := (sleeping_of_wake sleeping).2.1
    simp [clockEvent] at notWoken
  · intro r hr
    apply (inv.returns r hr).mono later
    exact fun _ dead => dead

theorem ClockInv.kill (inv : ClockInv s) (pid : ℕ) (seen : Bool) :
    ClockInv
      { shared := (clockEvent (.kill pid seen) s.shared).shared
        place := Monitor.wake (clockEvent (.kill pid seen) s.shared).wakes
          (clockEvent (.kill pid seen) s.shared).rouses s.place } := by
  have later : s.shared.elapsed ≤ (clockEvent (.kill pid seen) s.shared).shared.elapsed := le_refl _
  refine ⟨inv.ticks, ?_, ?_, ?_⟩
  · intro q other code
    rw [wake_code] at code
    apply SleepCall.Began.mono (inv.began q other code) later
  · intro q chan other sleeping
    have early := inv.early q chan other (sleeping_of_wake sleeping).1
    cases other with
    | begin caller => exact early
    | wait n ticks0 caller began => exact early
  · intro r hr
    apply (inv.returns r hr).mono later
    intro q dead
    simp only [clockEvent]
    by_cases same : q = pid
    · simp [same]
    · rw [Function.update_of_ne same]
      exact dead

theorem ClockInv.step (inv : ClockInv s) (admitted : ClockUse s label) (step : Step clockCode s label t) :
    ClockInv t := by
  cases step with
  | @call p entry outside =>
      refine ⟨inv.ticks, ?_, ?_, inv.returns⟩
      · intro q other code
        dsimp only at code
        by_cases same : q = p
        · subst same
          rw [Function.update_self] at code
          cases code
          cases entry with
          | begin caller => trivial
          | wait n ticks0 caller began => exact admitted.elim
        · rw [Function.update_of_ne same] at code
          exact inv.began q other code
      · intro q chan other sleeping
        dsimp only at sleeping
        by_cases same : q = p
        · subst same
          rw [Function.update_self] at sleeping
          cases sleeping
        · rw [Function.update_of_ne same] at sleeping
          exact inv.early q chan other sleeping
  | @run p entry ready => exact inv.run ready
  | interrupt event =>
      cases event with
      | timer => exact inv.timer
      | kill pid seen => exact inv.kill pid seen

theorem ClockReach.inv (reach : ClockReach s) : ClockInv s := by
  refine Reachable.invariant reach ClockInv ⟨rfl, nofun, nofun, nofun⟩ ?_
  exact fun _ inv admitted step => inv.step admitted step

instance (s : ClockState) (label : Label ℕ SleepCall ClockEvent) : Decidable (ClockUse s label) :=
  match label with
  | .call _ (.begin _) => inferInstanceAs (Decidable True)
  | .call _ (.wait _ _ _ _) => inferInstanceAs (Decidable False)
  | .run _ => inferInstanceAs (Decidable True)
  | .interrupt _ => inferInstanceAs (Decidable True)

/-- A process with this argument on its stack, in a page of zeroes -/
def sleeper (n : BitVec 8) : Caller :=
  { sz := 4096, esp := 4080, user := fun addr => if addr = 4084 then n else 0 }

end Xv6.Sync
