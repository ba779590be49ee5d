import Xv6.Proc.SleepWakeup

/-!
# The end of a quantum

The check of `trap` on a timer interrupt, and the time that has really passed since the process was
dispatched.
-/

namespace Xv6

variable {ncpu : ℕ} {b : Build} {c : Fin ncpu} {p : Slot} {s t : State ncpu} {n : ℕ}

/-- What `trap` does in the DMLQ build before the process yields. -/
def demote (b : Build) (p : Slot) (s : State ncpu) : State ncpu :=
  if b = .dmlq then s.edit p fun q =>
    { q with priority := if q.priority < lwpr then q.priority + 1 else q.priority }
  else s

/-- What a timer interrupt should do `n` ticks after the dispatch. -/
def quantumEnds (b : Build) (c : Fin ncpu) (p : Slot) (n : ℕ) (s : State ncpu) :
    Except Fault (State ncpu) :=
  if quanta.toNat ≤ n then yield b c p (demote b p s) else .ok s

/-- The end of the quantum and the present time are both beyond the range of the counter, or neither. -/
def Aligned (timescheduled : BitVec 32) (n : ℕ) : Prop :=
  2 ^ 32 ≤ timescheduled.toNat + quanta.toNat ↔ 2 ^ 32 ≤ timescheduled.toNat + n

instance (timescheduled : BitVec 32) (n : ℕ) : Decidable (Aligned timescheduled n) :=
  inferInstanceAs (Decidable (_ ↔ _))

/-- The test of `trap` is right if and only if the counters are on the same side of the wrap. -/
theorem quantumUsed_iff {timescheduled : BitVec 32} (bound : n < 2 ^ 32) :
    (quantumUsed timescheduled (timescheduled + BitVec.ofNat 32 n) = true ↔ quanta.toNat ≤ n) ↔
      Aligned timescheduled n := by
  have small := timescheduled.isLt
  have isQuanta : quanta.toNat = 5 := rfl
  unfold quantumUsed Aligned
  rw [decide_eq_true_iff, BitVec.le_def, BitVec.toNat_add, BitVec.toNat_add, BitVec.toNat_ofNat, isQuanta]
  generalize timescheduled.toNat = dispatch at *
  rw [Nat.mod_eq_of_lt bound]
  omega

theorem hist_demote : (demote b p s).hist = s.hist := by
  unfold demote
  split <;> rfl

/-- A process that yields leaves an entry in the history. -/
theorem yield_ne (changed : t.hist = s.hist) : yield b c p t ≠ .ok s := by
  intro run
  rcases Fallible.bind_eq_ok.mp run with ⟨u, added, rest⟩
  have grows : (sched .yield p u).hist <:+ s.hist := toScheduler_hist rest
  rcases addReady_hist (s := t) rfl added with ⟨entries, hist, -, member⟩
  have longer := grows.length_le
  have positive := List.length_pos_of_mem member
  have isHist : (sched .yield p u).hist = entries ++ t.hist := hist
  rw [isHist, List.length_append, changed] at longer
  omega

/-- The timer interrupt does what it should if and only if the counters are on the same side of the
wrap. -/
theorem quantum_expiry (b : Build) (timeShared : b ≠ .fcfs) (c : Fin ncpu) (p : Slot) (s : State ncpu) (n : ℕ)
    (running : (s.proc p).state = .running) (bound : n < 2 ^ 32)
    (later : s.ticks = (s.proc p).timescheduled + BitVec.ofNat 32 n) :
    trapTimer b c p s = quantumEnds b c p n s ↔ Aligned (s.proc p).timescheduled n := by
  have isTrap : trapTimer b c p s =
      if quantumUsed (s.proc p).timescheduled s.ticks = true then yield b c p (demote b p s) else .ok s := by
    unfold trapTimer
    rw [running]
    cases b with
    | fcfs => exact absurd rfl timeShared
    | default => simp [demote]
    | mlq => simp [demote]
    | dmlq => simp [demote]
  have yields := yield_ne (b := b) (c := c) (p := p) (hist_demote (b := b) (p := p) (s := s))
  rw [isTrap, ← quantumUsed_iff bound, later]
  unfold quantumEnds
  by_cases used : quantumUsed (s.proc p).timescheduled ((s.proc p).timescheduled + BitVec.ofNat 32 n) = true
  · by_cases expired : quanta.toNat ≤ n
    · rw [if_pos used, if_pos expired]
      exact ⟨fun _ => ⟨fun _ => expired, fun _ => used⟩, fun _ => rfl⟩
    · rw [if_pos used, if_neg expired]
      exact ⟨fun same => absurd same yields, fun agree => absurd (agree.1 used) expired⟩
  · by_cases expired : quanta.toNat ≤ n
    · rw [if_neg used, if_pos expired]
      exact ⟨fun same => absurd same.symm yields, fun agree => absurd (agree.2 expired) used⟩
    · rw [if_neg used, if_neg expired]
      exact ⟨fun _ => ⟨fun isUsed => absurd isUsed used, fun isExpired => absurd isExpired expired⟩, fun _ => rfl⟩

/-- A process that was dispatched just before the counter wraps. -/
def lateDispatch : State 1 :=
  { proc := fun _ => { state := .running, timescheduled := 0xFFFFFFFF }, ticks := 0xFFFFFFFF }

/-- Init has run for its quantum, and its child waits. -/
def quantumUp : State 2 :=
  after .dmlq (boot 2 ++ (forks 2 ++ List.replicate 5 .tick))

theorem quantum_expiry_usedUp :
    trapTimer .dmlq (0 : Fin 2) 0 quantumUp = quantumEnds .dmlq 0 0 5 quantumUp ∧
      (quantumEnds .dmlq 0 0 5 quantumUp).map (fun s => ((s.proc 0).state, (s.proc 0).priority)) =
        .ok (.runnable, 3) := by
  have expired := quantum_expiry .dmlq (by decide) (0 : Fin 2) 0 quantumUp 5 (by decide +kernel) (by decide)
    (by decide +kernel)
  exact ⟨expired.2 (by decide +kernel), by decide +kernel⟩

/-- The process yields at once. -/
theorem quantum_expiry_incorrect :
    ¬∀ (b : Build) (c : Fin 1) (p : Slot) (s : State 1) (n : ℕ), b ≠ .fcfs → (s.proc p).state = .running →
      n < 2 ^ 32 → s.ticks = (s.proc p).timescheduled + BitVec.ofNat 32 n →
      trapTimer b c p s = quantumEnds b c p n s := by
  intro right
  have aligned := (quantum_expiry .default (by decide) 0 0 lateDispatch 0 rfl (by decide) (by decide)).1
    (right .default 0 0 lateDispatch 0 (by decide) rfl (by decide) (by decide))
  exact absurd aligned (by decide)

end Xv6
