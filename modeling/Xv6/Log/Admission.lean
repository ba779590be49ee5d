import Xv6.Log.Basic

/-!
# Admission control

What `begin_op`, `end_op` and the phases of `commit` guarantee of the operations in progress, and
how many blocks they can put into the log. `begin_op` reserves room for `LOGSIZE` blocks, and the
log that `mkfs` makes has `LOGSIZE` blocks together with its header: there is room for one less.
-/

namespace Xv6.Log

open Transition

variable {log : Layout} {s t : State} {e : Event} {o b : ℕ}

@[simp]
theorem modify_fields (s : State) (b : ℕ) (data : Block) (dirty : Bool) :
    s.modify b data dirty = { s with cache := Function.update s.cache b (some { data, dirty }) } :=
  rfl

@[simp]
theorem bwrite_fields (s : State) (b : ℕ) (data : Block) :
    s.bwrite b data = { s with
      disk := Function.update s.disk b data
      cache := Function.update s.cache b (some { data, dirty := false }) } :=
  rfl

/-- Who is between `begin_op` and `end_op`, and when. -/
structure Control (s : State) : Prop where
  outstanding : s.outstanding = s.running.length
  nodup : s.running.Nodup
  begun : ∀ o ∈ s.running, o < s.begun
  caller : ∀ o b, s.logging o = some b → o ∈ s.running
  /-- two operations cannot hold one buffer -/
  locked : ∀ o o' b, s.logging o = some b → s.logging o' = some b → o = o'
  ready : s.phase = .ready → s.committing = false ∧ s.booting = false
  busy : s.phase ≠ .ready → s.running = []
  waits : s.phase ≠ .ready → s.booting = false → s.committing = true

theorem Control.idle (control : Control s) (busy : s.committing = true ∨ s.booting = true) :
    s.running = [] := by
  apply control.busy
  intro ready
  rcases control.ready ready with ⟨notCommitting, notBooting⟩
  rcases busy with busy | busy
  · exact Bool.noConfusion (notCommitting.symm.trans busy)
  · exact Bool.noConfusion (notBooting.symm.trans busy)

theorem Control.phase_ready (control : Control s) (running : o ∈ s.running) :
    s.phase = .ready := by
  by_contra busy
  rw [control.busy busy] at running
  exact List.not_mem_nil running

/-- The process that commits or recovers is alone, and stays so until it is done. -/
theorem Control.proceed (control : Control s) (next : proceed log s = some t) :
    Control t ∧ s.running = [] ∧ t.running = [] := by
  have busy : s.phase ≠ .ready := by
    intro ready
    simp [Log.proceed, ready] at next
  have idle := control.busy busy
  have noLock : ∀ o b, s.logging o ≠ some b := by
    intro o b holds
    have caller := control.caller o b holds
    rw [idle] at caller
    exact List.not_mem_nil caller
  have finished : Control (finish s) :=
    { outstanding := control.outstanding
      nodup := control.nodup
      begun := control.begun
      caller := control.caller
      locked := control.locked
      ready := fun _ => ⟨rfl, rfl⟩
      busy := fun notReady => absurd rfl notReady
      waits := fun notReady => absurd rfl notReady }
  -- the other steps leave these fields alone and do not become ready
  have goesOn : ∀ {u : State}, u.phase ≠ .ready → u.outstanding = s.outstanding →
      u.running = s.running → u.logging = s.logging → u.begun = s.begun →
      u.committing = s.committing → u.booting = s.booting → Control u := by
    intro u notReady outstanding running logging begun committing booting
    exact
      { outstanding := by rw [outstanding, running, control.outstanding]
        nodup := running ▸ control.nodup
        begun := by rw [running, begun]; exact control.begun
        caller := fun o b holds => absurd (logging ▸ holds) (noLock o b)
        locked := fun o _ b holds _ => absurd (logging ▸ holds) (noLock o b)
        ready := fun ready => absurd ready notReady
        busy := fun _ => running.trans idle
        waits := fun _ notBooting => committing.trans (control.waits busy (booting ▸ notBooting)) }
  have split : ∀ {c : Prop} [Decidable c] {p q : Phase}, p ≠ .ready → q ≠ .ready →
      (if c then p else q) ≠ .ready := by
    intro c _ p q first second
    split
    · exact first
    · exact second
  unfold Log.proceed at next
  split at next <;> rcases next with rfl | rfl
  · exact ⟨goesOn (split (by simp) (by simp)) rfl rfl rfl rfl rfl rfl, idle, idle⟩
  · exact ⟨goesOn (split (by simp) (by simp)) rfl rfl rfl rfl rfl rfl, idle, idle⟩
  · exact ⟨goesOn (by simp [writeHead]) rfl rfl rfl rfl rfl rfl, idle, idle⟩
  · exact ⟨goesOn (split (by simp) (by simp)) rfl rfl rfl rfl rfl rfl, idle, idle⟩
  · exact ⟨goesOn (by simp [eraseHead]) rfl rfl rfl rfl rfl rfl, idle, idle⟩
  · exact ⟨finished, idle, idle⟩

theorem Control.beginOp (control : Control s) (notBooting : s.booting = false)
    (next : beginOp s = some t) : Control t := by
  unfold Log.beginOp at next
  split at next
  · cases next
  · rename_i notCommitting
    split at next
    · cases next
    · rcases Option.some.inj next with rfl
      have ready : s.phase = .ready := by
        by_contra busy
        exact notCommitting (control.waits busy notBooting)
      have fresh : s.begun ∉ s.running := fun member => (control.begun _ member).false
      exact
        { outstanding := by simp [control.outstanding]
          nodup := List.nodup_cons.mpr ⟨fresh, control.nodup⟩
          begun := by
            intro o member
            rcases List.mem_cons.mp member with rfl | member
            · exact Nat.lt_succ_self _
            · exact (control.begun o member).trans (Nat.lt_succ_self _)
          caller := fun o b holds => List.mem_cons_of_mem _ (control.caller o b holds)
          locked := control.locked
          ready := control.ready
          busy := fun busy => absurd ready busy
          waits := control.waits }

theorem Control.logWriteTest {data : Block} (control : Control s) (running : o ∈ s.running)
    (free : ∀ o' ∈ s.running, s.logging o' ≠ some b)
    (run : logWriteTest log s o b data = .ok t) : Control t := by
  unfold Log.logWriteTest at run
  split at run
  · cases run
  split at run
  · cases run
  rcases Except.ok.inj run with rfl
  have holder : ∀ o' b', Function.update s.logging o (some b) o' = some b' →
      o' = o ∧ b' = b ∨ o' ≠ o ∧ s.logging o' = some b' := by
    intro o' b' holds
    by_cases same : o' = o
    · subst same
      rw [Function.update_self] at holds
      exact .inl ⟨rfl, (Option.some.inj holds).symm⟩
    · rw [Function.update_of_ne same] at holds
      exact .inr ⟨same, holds⟩
  exact
    { outstanding := control.outstanding
      nodup := control.nodup
      begun := control.begun
      caller := by
        intro o' b' holds
        rcases holder o' b' holds with ⟨rfl, -⟩ | ⟨-, holds⟩
        · exact running
        · exact control.caller o' b' holds
      locked := by
        intro o₁ o₂ b' first second
        rcases holder o₁ b' first with ⟨rfl, rfl⟩ | ⟨-, held⟩
        · rcases holder o₂ b' second with ⟨rfl, -⟩ | ⟨-, held⟩
          · rfl
          · exact absurd held (free o₂ (control.caller o₂ b' held))
        · rcases holder o₂ b' second with ⟨rfl, rfl⟩ | ⟨-, held'⟩
          · exact absurd held (free o₁ (control.caller o₁ b' held))
          · exact control.locked o₁ o₂ b' held held'
      ready := control.ready
      busy := control.busy
      waits := control.waits }

theorem Control.logWrite (control : Control s) : Control (logWrite s o b) := by
  have holder : ∀ o' b', Function.update s.logging o none o' = some b' →
      s.logging o' = some b' := by
    intro o' b' holds
    by_cases same : o' = o
    · subst same
      simp at holds
    · rwa [Function.update_of_ne same] at holds
  exact
    { outstanding := control.outstanding
      nodup := control.nodup
      begun := control.begun
      caller := fun o' b' holds => control.caller o' b' (holder o' b' holds)
      locked := fun o₁ o₂ b' first second =>
        control.locked o₁ o₂ b' (holder o₁ b' first) (holder o₂ b' second)
      ready := control.ready
      busy := control.busy
      waits := control.waits }

/-- `end_op` does not panic, and the last one out finds nobody in `log_write`. -/
theorem Control.endOp (control : Control s) (running : o ∈ s.running)
    (outside : s.logging o = none) : ∃ t, endOp s o = .ok t ∧ Control t := by
  have ready : s.phase = .ready := control.phase_ready running
  have notCommitting : ¬s.committing = true := by simp [(control.ready ready).1]
  have length : (s.running.erase o).length = s.outstanding - 1 := by
    rw [List.length_erase_of_mem running, control.outstanding]
  have others : ∀ o' ∈ s.running.erase o, o' < s.begun :=
    fun o' member => control.begun o' (List.mem_of_mem_erase member)
  have caller : ∀ o' b', s.logging o' = some b' → o' ∈ s.running.erase o := by
    intro o' b' holds
    apply (List.mem_erase_of_ne _).mpr (control.caller o' b' holds)
    rintro rfl
    simp [outside] at holds
  unfold Log.endOp
  dsimp only
  rw [if_neg notCommitting]
  split
  · rename_i last
    have idle : s.running.erase o = [] := List.length_eq_zero_iff.mp (length.trans last)
    refine ⟨_, rfl, ?_⟩
    exact
      { outstanding := length.symm
        nodup := control.nodup.erase o
        begun := others
        caller := caller
        locked := control.locked
        ready := by
          intro notReady
          dsimp only at notReady
          split at notReady <;> cases notReady
        busy := fun _ => idle
        waits := fun _ _ => rfl }
  · refine ⟨_, rfl, ?_⟩
    exact
      { outstanding := length.symm
        nodup := control.nodup.erase o
        begun := others
        caller := caller
        locked := control.locked
        ready := control.ready
        busy := fun busy => absurd ready busy
        waits := control.waits }

theorem Control.crash : Control (crash s) :=
  { outstanding := rfl
    nodup := List.nodup_nil
    begun := fun _ member => absurd member List.not_mem_nil
    caller := fun _ _ holds => nomatch holds
    locked := fun _ _ _ holds => nomatch holds
    ready := fun ready => nomatch ready
    busy := fun _ => rfl
    waits := fun _ notBooting => nomatch notBooting }

/-- What can happen in a step, with the facts that the code has tested. -/
inductive Does (log : Layout) (s : State) : Event → State → Prop where
  | beginOp {t : State} (notBooting : s.booting = false) (next : beginOp s = some t) :
      Does log s .beginOp t
  | logWriteTest {o b : ℕ} {data : Block} {t : State} (running : o ∈ s.running)
      (outside : s.logging o = none) (free : ∀ o' ∈ s.running, s.logging o' ≠ some b)
      (run : logWriteTest log s o b data = .ok t) : Does log s (.logWriteTest o b data) t
  | logWrite {o b : ℕ} (holds : s.logging o = some b) : Does log s (.logWrite o) (logWrite s o b)
  | endOp {o : ℕ} {t : State} (running : o ∈ s.running) (outside : s.logging o = none)
      (run : endOp s o = .ok t) : Does log s (.endOp o) t
  | proceed {t : State} (next : proceed log s = some t) : Does log s .proceed t
  | recycle {b : ℕ} (clean : s.dirty b = false) (free : ∀ o ∈ s.running, s.logging o ≠ some b) :
      Does log s (.recycle b) { s with cache := Function.update s.cache b none }
  | crash : Does log s .crash (crash s)

theorem Steps.does (taken : Steps log s e t) : Does log s e t := by
  cases e with
  | beginOp =>
      simp only [Steps, step] at taken
      split at taken
      · cases taken
      · rename_i notBooting
        rcases Option.map_eq_some_iff.mp taken with ⟨u, next, same⟩
        rcases Except.ok.inj same with rfl
        exact .beginOp (Bool.eq_false_iff.mpr notBooting) next
  | logWriteTest o b data =>
      simp only [Steps, step] at taken
      split at taken
      · rename_i allowed
        exact .logWriteTest allowed.1 allowed.2.1 allowed.2.2 (Option.some.inj taken)
      · cases taken
  | logWrite o =>
      rcases Option.map_eq_some_iff.mp taken with ⟨b, holds, same⟩
      rcases Except.ok.inj same with rfl
      exact .logWrite holds
  | endOp o =>
      simp only [Steps, step] at taken
      split at taken
      · rename_i allowed
        exact .endOp allowed.1 allowed.2 (Option.some.inj taken)
      · cases taken
  | proceed =>
      rcases Option.map_eq_some_iff.mp taken with ⟨u, next, same⟩
      rcases Except.ok.inj same with rfl
      exact .proceed next
  | recycle b =>
      simp only [Steps, step] at taken
      split at taken
      · cases taken
      · rename_i free
        rcases Except.ok.inj (Option.some.inj taken) with rfl
        rw [not_or] at free
        exact .recycle (Bool.eq_false_iff.mpr free.1)
          fun o running holds => free.2 ⟨o, running, holds⟩
  | crash =>
      rcases Except.ok.inj (Option.some.inj taken) with rfl
      exact .crash

theorem Control.does (control : Control s) (does : Does log s e t) : Control t := by
  cases does with
  | beginOp notBooting next => exact control.beginOp notBooting next
  | logWriteTest running outside free run => exact control.logWriteTest running free run
  | logWrite holds => exact control.logWrite
  | endOp running outside run =>
      rcases control.endOp running outside with ⟨u, run', control'⟩
      rcases Except.ok.inj (run.symm.trans run') with rfl
      exact control'
  | proceed next => exact (control.proceed next).1
  | recycle clean free => exact { control with }
  | crash => exact .crash

/-- The state after `initlog` on a disk with an empty log. -/
def started (disk : ℕ → Block) : State := { disk, phase := .ready, booting := false }

theorem Control.started (disk : ℕ → Block) : Control (started disk) :=
  { outstanding := rfl
    nodup := List.nodup_nil
    begun := fun _ member => absurd member List.not_mem_nil
    caller := fun _ _ holds => nomatch holds
    locked := fun _ _ _ holds => nomatch holds
    ready := fun _ => ⟨rfl, rfl⟩
    busy := fun _ => rfl
    waits := fun busy => absurd rfl busy }

/-! ## Room in the log -/

/-- The blocks in the log, and those that have passed the tests of `log_write`. -/
def State.blocks (s : State) : Finset ℕ :=
  s.lh.toFinset ∪ (s.running.filterMap s.logging).toFinset

/-- The number of blocks that an operation may still put into the log. -/
def State.remaining (s : State) (o : ℕ) : ℕ := maxopblocks - (s.logged o).toFinset.card

/-- An operation passes at most `MAXOPBLOCKS` blocks to `log_write`, and there is no crash. -/
def Budget (s : State) : Event → Prop
  | .logWriteTest o b _ => (insert b (s.logged o).toFinset).card ≤ maxopblocks
  | .crash => False
  | _ => True

theorem Control.mem_blocks (control : Control s) :
    b ∈ s.blocks ↔ b ∈ s.lh ∨ ∃ o, s.logging o = some b := by
  simp only [State.blocks, Finset.mem_union, List.mem_toFinset, List.mem_filterMap]
  apply or_congr_right
  constructor
  · rintro ⟨o, -, holds⟩
    exact ⟨o, holds⟩
  · rintro ⟨o, holds⟩
    exact ⟨o, control.caller o b holds, holds⟩

theorem length_le_blocks (nodup : s.lh.Nodup) : s.lh.length ≤ s.blocks.card := by
  rw [← List.toFinset_card_of_nodup nodup]
  exact Finset.card_le_card Finset.subset_union_left

/-- How a step changes the blocks that are or will be in the log. -/
inductive Grows (s t : State) : Event → Prop where
  | test {o b : ℕ} {data : Block} (blocks : t.blocks ⊆ insert b s.blocks) :
      Grows s t (.logWriteTest o b data)
  | other {e : Event} (blocks : t.blocks ⊆ s.blocks) : Grows s t e

/-- Without a crash `read_head` does not run again. -/
structure Uncrashed (s : State) : Prop where
  control : Control s
  nodup : s.lh.Nodup
  booted : s.phase ≠ .readHead

theorem Uncrashed.does (uncrashed : Uncrashed s) (noCrash : e ≠ .crash)
    (does : Does log s e t) : Uncrashed t ∧ Grows s t e := by
  have control := uncrashed.control
  have control' : Control t := control.does does
  cases does with
  | beginOp notBooting next =>
      unfold Log.beginOp at next
      split at next
      · cases next
      split at next
      · cases next
      rcases Option.some.inj next with rfl
      refine ⟨⟨control', uncrashed.nodup, uncrashed.booted⟩, .other ?_⟩
      intro b member
      exact control.mem_blocks.mpr (control'.mem_blocks.mp member)
  | logWriteTest running outside free run =>
      rename_i o b data
      unfold Log.logWriteTest at run
      split at run
      · cases run
      split at run
      · cases run
      rcases Except.ok.inj run with rfl
      refine ⟨⟨control', uncrashed.nodup, uncrashed.booted⟩, .test ?_⟩
      intro b' member
      rcases control'.mem_blocks.mp member with logged | ⟨o', holds⟩
      · exact Finset.mem_insert_of_mem (control.mem_blocks.mpr (.inl logged))
      · by_cases same : o' = o
        · subst same
          simp only [Function.update_self, Option.some.injEq] at holds
          exact holds ▸ Finset.mem_insert_self b _
        · simp only [Function.update_of_ne same] at holds
          exact Finset.mem_insert_of_mem (control.mem_blocks.mpr (.inr ⟨o', holds⟩))
  | logWrite holds =>
      rename_i o b
      refine ⟨⟨control', ?_, uncrashed.booted⟩, .other ?_⟩
      · simp only [logWrite]
        split
        · exact uncrashed.nodup
        · rename_i absent
          exact List.nodup_append.mpr ⟨uncrashed.nodup, List.nodup_singleton b, by
            rintro x logged y member rfl
            exact absent (List.mem_singleton.mp member ▸ logged)⟩
      · intro b' member
        apply control.mem_blocks.mpr
        rcases control'.mem_blocks.mp member with logged | ⟨o', holds'⟩
        · simp only [logWrite] at logged
          split at logged
          · exact .inl logged
          · rcases List.mem_append.mp logged with logged | new
            · exact .inl logged
            · exact .inr ⟨o, List.mem_singleton.mp new ▸ holds⟩
        · right
          by_cases same : o' = o
          · subst same
            simp [logWrite] at holds'
          · simp only [logWrite, Function.update_of_ne same] at holds'
            exact ⟨o', holds'⟩
  | endOp running outside run =>
      have started' : t.phase ≠ .readHead ∧ t.lh = s.lh ∧ t.logging = s.logging := by
        unfold Log.endOp at run
        dsimp only at run
        split at run
        · cases run
        split at run <;> rcases Except.ok.inj run with rfl
        · refine ⟨?_, rfl, rfl⟩
          dsimp only
          split <;> exact fun impossible => nomatch impossible
        · exact ⟨uncrashed.booted, rfl, rfl⟩
      rcases started' with ⟨started, lh, logging⟩
      refine ⟨⟨control', lh ▸ uncrashed.nodup, started⟩, .other ?_⟩
      intro b member
      have before := control'.mem_blocks.mp member
      rw [lh, logging] at before
      exact control.mem_blocks.mpr before
  | proceed next =>
      have kept : t.phase ≠ .readHead ∧ (t.lh = s.lh ∨ t.lh = []) ∧ t.logging = s.logging := by
        unfold Log.proceed at next
        split at next <;> rcases next with rfl | rfl
        · rename_i atStart
          exact absurd atStart uncrashed.booted
        · refine ⟨?_, .inl rfl, rfl⟩
          dsimp only [writeLog]
          split <;> exact fun impossible => nomatch impossible
        · exact ⟨(fun impossible => nomatch impossible), .inl rfl, rfl⟩
        · refine ⟨?_, .inl rfl, rfl⟩
          dsimp only [installTrans]
          split <;> exact fun impossible => nomatch impossible
        · exact ⟨(fun impossible => nomatch impossible), .inr rfl, rfl⟩
        · exact ⟨(fun impossible => nomatch impossible), .inl rfl, rfl⟩
      rcases kept with ⟨started, lh, logging⟩
      refine ⟨⟨control', ?_, started⟩, .other ?_⟩
      · rcases lh with lh | lh
        · exact lh ▸ uncrashed.nodup
        · exact lh ▸ List.nodup_nil
      · intro b member
        have before := control'.mem_blocks.mp member
        rw [logging] at before
        rcases lh with lh | lh
        · exact control.mem_blocks.mpr (lh ▸ before)
        · rw [lh] at before
          exact control.mem_blocks.mpr (.inr (before.resolve_left List.not_mem_nil))
  | recycle clean free =>
      exact ⟨⟨control', uncrashed.nodup, uncrashed.booted⟩, .other fun _ member => member⟩
  | crash => exact absurd rfl noCrash

/-- Only `commit` takes blocks out of the log. -/
theorem Does.kept (control : Control s) (control' : Control t) (does : Does log s e t)
    (noCommit : e ≠ .proceed) (noCrash : e ≠ .crash) : ∀ b ∈ s.blocks, b ∈ t.blocks := by
  intro b member
  apply control'.mem_blocks.mpr
  have before := control.mem_blocks.mp member
  cases does with
  | beginOp notBooting next =>
      unfold Log.beginOp at next
      split at next
      · cases next
      split at next
      · cases next
      rcases Option.some.inj next with rfl
      exact before
  | logWriteTest running outside free run =>
      rename_i o b' data
      unfold Log.logWriteTest at run
      split at run
      · cases run
      split at run
      · cases run
      rcases Except.ok.inj run with rfl
      rcases before with inLog | ⟨o', holds⟩
      · exact .inl inLog
      · have different : o' ≠ o := by
          rintro rfl
          cases outside.symm.trans holds
        exact .inr ⟨o', by simpa [Function.update_of_ne different] using holds⟩
  | logWrite holds =>
      rename_i o b'
      rcases before with inLog | ⟨o', holds'⟩
      · left
        simp only [Log.logWrite]
        split
        · exact inLog
        · exact List.mem_append_left _ inLog
      · by_cases same : o' = o
        · left
          subst same
          rcases Option.some.inj (holds.symm.trans holds') with rfl
          simp only [Log.logWrite]
          split
          · assumption
          · simp
        · exact .inr ⟨o', by simpa [Log.logWrite, Function.update_of_ne same] using holds'⟩
  | endOp running outside run =>
      unfold Log.endOp at run
      dsimp only at run
      split at run
      · cases run
      split at run <;> rcases Except.ok.inj run with rfl
      · exact before
      · exact before
  | proceed next => exact absurd rfl noCommit
  | recycle clean free => exact before
  | crash => exact absurd rfl noCrash

/-- The blocks in the log and what the operations in progress may still put into it. -/
def State.demand (s : State) : ℕ := s.blocks.card + (s.running.map s.remaining).sum

/-- What `begin_op` has reserved for the operations in progress. -/
structure Reserved (s : State) : Prop where
  uncrashed : Uncrashed s
  used : ∀ o ∈ s.running, ∀ b ∈ s.logged o, b ∈ s.blocks
  holding : ∀ o b, s.logging o = some b → b ∈ s.logged o
  unused : ∀ o, s.begun ≤ o → s.logged o = []
  room : s.demand ≤ logsize

/-- Only `begin_op` asks for more room; `end_op` gives back what its operation has not used. -/
def Spends (s t : State) : Event → Prop
  | .beginOp => True
  | .endOp o => t.demand + s.remaining o ≤ s.demand
  | _ => t.demand ≤ s.demand

/-- A block on its way into the log is taken from what its operation may use. -/
theorem remaining_add_logging {s : State} (holding : ∀ o b, s.logging o = some b → b ∈ s.logged o)
    (operations : List ℕ) :
    (operations.map s.remaining).sum + (operations.filterMap s.logging).length ≤
      operations.length * maxopblocks := by
  induction operations with
  | nil => simp
  | cons o operations ih =>
      have remaining : s.remaining o ≤ maxopblocks := Nat.sub_le _ _
      rw [List.map_cons, List.sum_cons, List.length_cons, Nat.succ_mul]
      cases holds : s.logging o with
      | none =>
          rw [List.filterMap_cons_none holds]
          omega
      | some b =>
          have used : 0 < (s.logged o).toFinset.card :=
            Finset.card_pos.mpr ⟨b, List.mem_toFinset.mpr (holding o b holds)⟩
          have less : s.remaining o < maxopblocks := Nat.sub_lt (by decide) used
          rw [List.filterMap_cons_some holds, List.length_cons]
          omega

theorem Reserved.beginOp (reserved : Reserved s) (next : beginOp s = some t)
    (uncrashed' : Uncrashed t) : Reserved t := by
  unfold Log.beginOp at next
  split at next
  · cases next
  split at next
  · cases next
  rename_i room
  rcases Option.some.inj next with rfl
  have control := reserved.uncrashed.control
  have same : ∀ b, b ∈ s.blocks ↔ b ∈ State.blocks { s with
      outstanding := s.outstanding + 1, running := s.begun :: s.running, begun := s.begun + 1
      admitted := s.begun :: s.admitted } :=
    fun b => control.mem_blocks.trans uncrashed'.control.mem_blocks.symm
  refine ⟨uncrashed', ?_, reserved.holding, ?_, ?_⟩
  · intro o running b logged
    rcases List.mem_cons.mp running with rfl | running
    · simp [reserved.unused] at logged
    · exact (same b).mp (reserved.used o running b logged)
  · exact fun o fresh => reserved.unused o (Nat.le_of_succ_le fresh)
  · have reservation := remaining_add_logging reserved.holding s.running
    have blocks : s.blocks.card ≤ s.lh.length + (s.running.filterMap s.logging).length :=
      (Finset.card_union_le _ _).trans
        (Nat.add_le_add (List.toFinset_card_le _) (List.toFinset_card_le _))
    have outstanding := control.outstanding
    have fresh : s.remaining s.begun ≤ maxopblocks := Nat.sub_le _ _
    unfold State.demand
    rw [← Finset.ext same]
    change s.blocks.card + (s.remaining s.begun + (s.running.map s.remaining).sum) ≤ logsize
    rw [outstanding, Nat.succ_mul] at room
    omega

/-- One operation more or less among those that have a reservation. -/
theorem sum_remaining (running : o ∈ s.running) (nodup : s.running.Nodup)
    (others : ∀ o' ≠ o, t.remaining o' = s.remaining o') :
    (s.running.map t.remaining).sum + s.remaining o =
      (s.running.map s.remaining).sum + t.remaining o := by
  have rest : (s.running.erase o).map t.remaining = (s.running.erase o).map s.remaining := by
    apply List.map_congr_left
    intro o' member
    apply others
    rintro rfl
    exact nodup.not_mem_erase member
  rw [← List.sum_map_erase t.remaining running, ← List.sum_map_erase s.remaining running, rest]
  omega

theorem Reserved.logWriteTest {data : Block} (reserved : Reserved s) (running : o ∈ s.running)
    (budget : (insert b (s.logged o).toFinset).card ≤ maxopblocks)
    (run : logWriteTest log s o b data = .ok t) (uncrashed' : Uncrashed t)
    (kept : ∀ b ∈ s.blocks, b ∈ t.blocks) (grows : t.blocks ⊆ insert b s.blocks) :
    Reserved t ∧ t.demand ≤ s.demand := by
  have control := reserved.uncrashed.control
  unfold Log.logWriteTest at run
  split at run
  · cases run
  split at run
  · cases run
  have logged : t.logged = Function.update s.logged o (b :: s.logged o) := by
    rcases Except.ok.inj run with rfl
    rfl
  have logging : t.logging = Function.update s.logging o (some b) := by
    rcases Except.ok.inj run with rfl
    rfl
  have same : t.running = s.running ∧ t.begun = s.begun ∧ t.lh = s.lh := by
    rcases Except.ok.inj run with rfl
    exact ⟨rfl, rfl, rfl⟩
  rcases same with ⟨running', begun, lh⟩
  have isLogged : ∀ o' b', b' ∈ t.logged o' → o' = o ∧ b' = b ∨ b' ∈ s.logged o' := by
    intro o' b' member
    rw [logged] at member
    by_cases different : o' = o
    · subst different
      rw [Function.update_self] at member
      exact (List.mem_cons.mp member).imp_left fun new => ⟨rfl, new⟩
    · rw [Function.update_of_ne different] at member
      exact .inr member
  have demand : t.demand ≤ s.demand := by
    have others : ∀ o' ≠ o, t.remaining o' = s.remaining o' := by
      intro o' different
      simp only [State.remaining, logged, Function.update_of_ne different]
    have sum := sum_remaining running control.nodup others
    have remaining : t.remaining o = maxopblocks - (insert b (s.logged o).toFinset).card := by
      simp only [State.remaining, logged, Function.update_self, List.toFinset_cons]
    have card := Finset.card_le_card grows
    unfold State.demand
    rw [running']
    by_cases again : b ∈ s.logged o
    · rw [Finset.insert_eq_of_mem (reserved.used o running b again)] at card
      rw [Finset.insert_eq_of_mem (List.mem_toFinset.mpr again)] at remaining
      have sameRemaining : t.remaining o = s.remaining o := remaining
      omega
    · have one := Finset.card_insert_le b s.blocks
      have new : (insert b (s.logged o).toFinset).card = (s.logged o).toFinset.card + 1 :=
        Finset.card_insert_of_notMem fun member => again (List.mem_toFinset.mp member)
      have remaining' : s.remaining o = maxopblocks - (s.logged o).toFinset.card := rfl
      omega
  refine ⟨⟨uncrashed', ?_, ?_, ?_, demand.trans reserved.room⟩, demand⟩
  · intro o' isRunning b' member
    rcases isLogged o' b' member with ⟨rfl, rfl⟩ | member
    · exact uncrashed'.control.mem_blocks.mpr
        (.inr ⟨o', by rw [logging, Function.update_self]⟩)
    · exact kept b' (reserved.used o' (running' ▸ isRunning) b' member)
  · intro o' b' holds
    rw [logging] at holds
    rw [logged]
    by_cases different : o' = o
    · subst different
      rw [Function.update_self] at holds ⊢
      exact Option.some.inj holds ▸ List.mem_cons_self
    · rw [Function.update_of_ne different] at holds ⊢
      exact reserved.holding o' b' holds
  · intro o' fresh
    rw [begun] at fresh
    have different : o' ≠ o := by
      rintro rfl
      exact Nat.not_lt_of_le fresh (control.begun o' running)
    rw [logged, Function.update_of_ne different]
    exact reserved.unused o' fresh

theorem Reserved.does (reserved : Reserved s) (budget : Budget s e) (does : Does log s e t) :
    Reserved t ∧ Spends s t e := by
  have control := reserved.uncrashed.control
  have noCrash : e ≠ .crash := by
    rintro rfl
    exact budget
  rcases reserved.uncrashed.does noCrash does with ⟨uncrashed', grows⟩
  have control' := uncrashed'.control
  have kept := does.kept control control'
  cases does with
  | beginOp notBooting next => exact ⟨reserved.beginOp next uncrashed', trivial⟩
  | logWriteTest running outside free run =>
      rename_i o b data
      have grows' : t.blocks ⊆ insert b s.blocks := by
        cases grows with
        | test grows => exact grows
        | other grows => exact grows.trans (Finset.subset_insert _ _)
      rcases reserved.logWriteTest running budget run uncrashed' (kept nofun nofun) grows' with
        ⟨reserved', demand⟩
      exact ⟨reserved', demand⟩
  | logWrite holds =>
      rename_i o b
      have demand : (logWrite s o b).demand ≤ s.demand := by
        cases grows with
        | other grows => exact Nat.add_le_add_right (Finset.card_le_card grows) _
      refine ⟨⟨uncrashed', fun o' running b' member =>
        kept nofun nofun b' (reserved.used o' running b' member), ?_, reserved.unused,
        demand.trans reserved.room⟩, demand⟩
      · intro o' b' holds'
        by_cases same : o' = o
        · subst same
          simp [logWrite] at holds'
        · simp only [logWrite, Function.update_of_ne same] at holds'
          exact reserved.holding o' b' holds'
  | endOp running outside run =>
      rename_i o
      have same : t.running = s.running.erase o ∧ t.begun = s.begun ∧ t.logged = s.logged ∧
          t.logging = s.logging ∧ t.lh = s.lh := by
        unfold Log.endOp at run
        dsimp only at run
        split at run
        · cases run
        split at run <;> rcases Except.ok.inj run with rfl <;> exact ⟨rfl, rfl, rfl, rfl, rfl⟩
      rcases same with ⟨running', begun, logged, logging, lh⟩
      have remaining : t.remaining = s.remaining := by
        funext o'
        simp only [State.remaining, logged]
      have demand : t.demand + s.remaining o ≤ s.demand := by
        cases grows with
        | other grows =>
            have card := Finset.card_le_card grows
            have sum := List.sum_map_erase s.remaining running
            unfold State.demand
            rw [running', remaining]
            omega
      refine ⟨⟨uncrashed', ?_, ?_, ?_, ?_⟩, demand⟩
      · intro o' isRunning b member
        rw [running'] at isRunning
        rw [logged] at member
        have before := control.mem_blocks.mp
          (reserved.used o' (List.mem_of_mem_erase isRunning) b member)
        rw [← lh, ← logging] at before
        exact control'.mem_blocks.mpr before
      · rw [logging, logged]
        exact reserved.holding
      · rw [begun, logged]
        exact reserved.unused
      · have room := reserved.room
        omega
  | proceed next =>
      rcases control.proceed next with ⟨-, idle, idle'⟩
      have same : t.begun = s.begun ∧ t.logged = s.logged ∧ t.logging = s.logging := by
        unfold Log.proceed at next
        split at next <;> rcases next with rfl | rfl <;> exact ⟨rfl, rfl, rfl⟩
      rcases same with ⟨begun, logged, logging⟩
      have demand : t.demand ≤ s.demand := by
        cases grows with
        | other grows =>
            unfold State.demand
            rw [idle, idle']
            exact Nat.add_le_add_right (Finset.card_le_card grows) _
      refine ⟨⟨uncrashed', ?_, ?_, ?_, demand.trans reserved.room⟩, demand⟩
      · intro o' running
        rw [idle'] at running
        exact absurd running List.not_mem_nil
      · rw [logging, logged]
        exact reserved.holding
      · rw [begun, logged]
        exact reserved.unused
  | recycle clean free =>
      exact ⟨⟨uncrashed', reserved.used, reserved.holding, reserved.unused, reserved.room⟩,
        le_refl s.demand⟩
  | crash => exact absurd rfl noCrash

theorem Uncrashed.started (disk : ℕ → Block) : Uncrashed (started disk) :=
  ⟨.started disk, List.nodup_nil, fun impossible => nomatch impossible⟩

theorem Reserved.started (disk : ℕ → Block) : Reserved (started disk) :=
  ⟨.started disk, (fun _ member => absurd member List.not_mem_nil),
    (fun _ _ holds => nomatch holds), fun _ _ => rfl, Nat.zero_le _⟩

/-- The reservations keep the log within `LOGSIZE` blocks. -/
theorem reserved_of_reach {disk : ℕ → Block}
    (reach : Reachable (Steps log) Budget (started disk) s) : Reserved s := by
  refine reach.invariant Reserved (.started disk) ?_
  exact fun _ reserved budget taken => (reserved.does budget taken.does).1

/-! ## The panics -/

/-- The log of the file system that `mkfs` makes. -/
def mkfsLog : Layout := { start := 2, size := logsize, header := by decide }

/-- The blocks for which the operations admitted since the last commit have called `log_write`. -/
def State.calls (s : State) : Finset ℕ := (s.admitted.flatMap s.logged).toFinset

/-- Before a call of `log_write` the operations admitted since the last commit have called it for two
blocks less than the log has. -/
def Moderate (log : Layout) (s : State) : Event → Prop
  | .logWriteTest _ _ _ => s.calls.card + 2 ≤ log.size
  | _ => True

/-- An operation passes less than `MAXOPBLOCKS` blocks to `log_write`, and there is no crash. -/
def Small (s : State) : Event → Prop
  | .logWriteTest o b _ => (insert b (s.logged o).toFinset).card < maxopblocks
  | .crash => False
  | _ => True

/-- What admission control is for. -/
structure Admission (log : Layout) (guard : State → Event → Prop) (s : State) : Prop where
  /-- neither `log_write` nor `end_op` panics -/
  panics : ∀ e fault, guard s e → step log s e ≠ some (.error fault)
  /-- no operation is in `log_write`, or may call it, while `commit` runs -/
  quiet : s.committing = true → ∀ o, o ∉ s.running ∧ s.logging o = none
  /-- the blocks of the log have room for those in the header -/
  fits : s.lh.length ≤ log.size - 1

theorem mem_calls : b ∈ s.calls ↔ ∃ o ∈ s.admitted, b ∈ s.logged o := by
  simp [State.calls]

/-- The blocks of the log are blocks of calls since the last commit. -/
structure Called (s : State) : Prop where
  uncrashed : Uncrashed s
  running : ∀ o ∈ s.running, o ∈ s.admitted
  unused : ∀ o, s.begun ≤ o → s.logged o = []
  blocks : ∀ b ∈ s.blocks, b ∈ s.calls
  erased : s.phase = .done → s.lh = []

/-- Only the step of a call adds its block. -/
theorem Called.does (called : Called s) (noCrash : e ≠ .crash) (does : Does log s e t) :
    Called t ∧ ∀ b ∈ t.calls, b ∈ s.calls ∨ ∃ o data, e = .logWriteTest o b data := by
  have control := called.uncrashed.control
  rcases called.uncrashed.does noCrash does with ⟨uncrashed', grows⟩
  -- most steps keep the calls and add no block
  have keeps : t.blocks ⊆ s.blocks → t.admitted = s.admitted → t.logged = s.logged →
      t.begun = s.begun → (∀ o ∈ t.running, o ∈ s.running) → (t.phase = .done → t.lh = []) →
      Called t ∧ ∀ b ∈ t.calls, b ∈ s.calls ∨ ∃ o data, e = .logWriteTest o b data := by
    intro subset admitted logged begun running erased
    have same : t.calls = s.calls := by
      unfold State.calls
      rw [admitted, logged]
    refine ⟨⟨uncrashed', ?_, ?_, ?_, erased⟩, fun b member => .inl (same ▸ member)⟩
    · intro o member
      rw [admitted]
      exact called.running o (running o member)
    · rw [begun, logged]
      exact called.unused
    · intro b member
      rw [same]
      exact called.blocks b (subset member)
  cases does with
  | beginOp notBooting next =>
      unfold Log.beginOp at next
      split at next
      · cases next
      split at next
      · cases next
      rcases Option.some.inj next with rfl
      have same : ∀ b, b ∈ State.calls { s with
          outstanding := s.outstanding + 1, running := s.begun :: s.running, begun := s.begun + 1
          admitted := s.begun :: s.admitted } ↔ b ∈ s.calls := by
        intro b
        simp [mem_calls, called.unused]
      refine ⟨⟨uncrashed', ?_, ?_, ?_, called.erased⟩, fun b member => .inl ((same b).1 member)⟩
      · intro o member
        rcases List.mem_cons.mp member with rfl | member
        · exact List.mem_cons_self
        · exact List.mem_cons_of_mem _ (called.running o member)
      · exact fun o fresh => called.unused o (Nat.le_of_succ_le fresh)
      · intro b member
        apply (same b).2
        apply called.blocks b
        exact control.mem_blocks.mpr (uncrashed'.control.mem_blocks.mp member)
  | logWriteTest running outside free run =>
      rename_i o b data
      unfold Log.logWriteTest at run
      split at run
      · cases run
      split at run
      · cases run
      rcases Except.ok.inj run with rfl
      have isLogged : ∀ o' b', b' ∈ Function.update s.logged o (b :: s.logged o) o' ↔
          o' = o ∧ b' = b ∨ b' ∈ s.logged o' := by
        intro o' b'
        by_cases same : o' = o
        · subst same
          simp
        · simp [same]
      have isCall : ∀ b', (∃ o' ∈ s.admitted, b' ∈ Function.update s.logged o (b :: s.logged o) o') ↔
          b' = b ∨ b' ∈ s.calls := by
        intro b'
        simp only [isLogged, mem_calls]
        constructor
        · rintro ⟨o', member, ⟨-, same⟩ | old⟩
          · exact .inl same
          · exact .inr ⟨o', member, old⟩
        · rintro (same | ⟨o', member, old⟩)
          · exact ⟨o, called.running o running, .inl ⟨rfl, same⟩⟩
          · exact ⟨o', member, .inr old⟩
      refine ⟨⟨uncrashed', called.running, ?_, ?_, called.erased⟩, ?_⟩
      · intro o' fresh
        have different : o' ≠ o := by
          rintro rfl
          exact Nat.not_lt_of_le fresh (control.begun o' running)
        dsimp only
        rw [Function.update_of_ne different]
        exact called.unused o' fresh
      · intro b' member
        apply mem_calls.2
        apply (isCall b').2
        cases grows with
        | test subset => exact (Finset.mem_insert.mp (subset member)).imp_right (called.blocks b')
        | other subset => exact .inr (called.blocks b' (subset member))
      · intro b' member
        rcases (isCall b').1 (mem_calls.1 member) with rfl | old
        · exact .inr ⟨o, data, rfl⟩
        · exact .inl old
  | logWrite holds =>
      cases grows with
      | other subset =>
          refine keeps subset rfl rfl rfl (fun _ member => member) ?_
          intro isDone
          have ready := control.phase_ready (control.caller _ _ holds)
          cases ready.symm.trans isDone
  | endOp running outside run =>
      rename_i o
      cases grows with
      | other subset =>
          unfold Log.endOp at run
          dsimp only at run
          split at run
          · cases run
          split at run <;> rcases Except.ok.inj run with rfl
          · refine keeps subset rfl rfl rfl (fun _ => List.mem_of_mem_erase) ?_
            dsimp only
            split
            · exact fun _ => by assumption
            · exact nofun
          · exact keeps subset rfl rfl rfl (fun _ => List.mem_of_mem_erase) called.erased
  | proceed next =>
      rcases control.proceed next with ⟨-, idle, idle'⟩
      cases grows with
      | other subset =>
          unfold Log.proceed at next
          split at next <;> rcases next with rfl | rfl
          · rename_i atStart
            exact absurd atStart called.uncrashed.booted
          · refine keeps subset rfl rfl rfl (fun _ member => member) ?_
            dsimp only [writeLog]
            split
            · exact nofun
            · exact nofun
          · exact keeps subset rfl rfl rfl (fun _ member => member) nofun
          · refine keeps subset rfl rfl rfl (fun _ member => member) ?_
            dsimp only [installTrans]
            split
            · exact nofun
            · exact nofun
          · exact keeps subset rfl rfl rfl (fun _ member => member) fun _ => rfl
          · rename_i isDone
            have nothing : ∀ b, b ∉ (finish s).blocks := by
              intro b member
              rcases uncrashed'.control.mem_blocks.mp member with inLog | ⟨o, holds⟩
              · rw [show (finish s).lh = [] from called.erased isDone] at inLog
                exact List.not_mem_nil inLog
              · have caller := uncrashed'.control.caller o b holds
                rw [idle'] at caller
                exact List.not_mem_nil caller
            refine ⟨⟨uncrashed', ?_, called.unused, fun b member => absurd member (nothing b), nofun⟩, ?_⟩
            · intro o member
              rw [idle'] at member
              exact absurd member List.not_mem_nil
            · intro b member
              rcases mem_calls.1 member with ⟨o, none, -⟩
              exact absurd none List.not_mem_nil
  | recycle clean free =>
      exact keeps (fun _ member => member) rfl rfl rfl (fun _ member => member) called.erased
  | crash => exact absurd rfl noCrash

theorem Called.started (disk : ℕ → Block) : Called (started disk) :=
  ⟨.started disk, (fun _ member => absurd member List.not_mem_nil), fun _ _ => rfl,
    (fun _ member => absurd member (by simp [State.blocks, Log.started])), nofun⟩

/-- Moderate operations call `log_write` for as many blocks as there is room for. -/
theorem called_of_reach {disk : ℕ → Block} (some : 2 ≤ log.size)
    (reach : Reachable (Steps log) (fun s e => Budget s e ∧ Moderate log s e) (started disk) s) :
    Called s ∧ s.calls.card + 1 ≤ log.size := by
  refine reach.invariant (fun s => Called s ∧ s.calls.card + 1 ≤ log.size) ⟨.started disk, ?_⟩ ?_
  · exact Nat.le_of_succ_le some
  · rintro s e t - ⟨called, fits⟩ ⟨budget, moderate⟩ taken
    have noCrash : e ≠ .crash := by
      rintro rfl
      exact budget
    rcases called.does noCrash taken.does with ⟨called', grows⟩
    refine ⟨called', ?_⟩
    by_cases isCall : ∃ o b data, e = .logWriteTest o b data
    · rcases isCall with ⟨o, b, data, rfl⟩
      have few : s.calls.card + 2 ≤ log.size := moderate
      have subset : t.calls ⊆ insert b s.calls := by
        intro b' member
        rcases grows b' member with old | ⟨o', data', same⟩
        · exact Finset.mem_insert_of_mem old
        · cases same
          exact Finset.mem_insert_self _ _
      have card := (Finset.card_le_card subset).trans (Finset.card_insert_le _ _)
      omega
    · have subset : t.calls ⊆ s.calls := by
        intro b member
        rcases grows b member with old | ⟨o, data, same⟩
        · exact old
        · exact absurd ⟨o, b, data, same⟩ isCall
      have card := Finset.card_le_card subset
      omega

theorem Called.length_le (called : Called s) : s.lh.length ≤ s.calls.card :=
  (length_le_blocks called.uncrashed.nodup).trans (Finset.card_le_card called.blocks)

theorem Control.panics (control : Control s) {fault : Fault}
    (room : ∀ o b data, e = .logWriteTest o b data →
      s.lh.length < logsize ∧ s.lh.length < log.size - 1) :
    step log s e ≠ some (.error fault) := by
  intro panics
  cases e with
  | beginOp =>
      simp only [step] at panics
      split at panics
      · cases panics
      · rcases Option.map_eq_some_iff.mp panics with ⟨_, _, impossible⟩
        cases impossible
  | logWriteTest o b data =>
      rcases room o b data rfl with ⟨size, blocks⟩
      simp only [step] at panics
      split at panics
      · rename_i allowed
        have some : 0 < s.running.length := List.length_pos_of_mem allowed.1
        have outstanding := control.outstanding
        unfold Log.logWriteTest at panics
        rw [if_neg (by omega), if_neg (by omega)] at panics
        cases panics
      · cases panics
  | logWrite o =>
      rcases Option.map_eq_some_iff.mp panics with ⟨_, _, impossible⟩
      cases impossible
  | endOp o =>
      simp only [step] at panics
      split at panics
      · rename_i allowed
        rcases control.endOp allowed.1 allowed.2 with ⟨t, run, -⟩
        rw [run] at panics
        cases panics
      · cases panics
  | proceed =>
      rcases Option.map_eq_some_iff.mp panics with ⟨_, _, impossible⟩
      cases impossible
  | recycle b =>
      simp only [step] at panics
      split at panics <;> cases panics
  | crash => cases panics

theorem Small.budget (small : Small s e) : Budget s e := by
  cases e with
  | logWriteTest o b data => exact Nat.le_of_lt small
  | crash => exact small
  | beginOp | logWrite o | endOp o | proceed | recycle b => trivial

/-- Small operations leave a part of their reservations: one that is alone has got in beside others
that left a part of theirs, or has the log for itself. -/
structure Slack (s : State) : Prop where
  called : Called s
  reserved : Reserved s
  small : ∀ o ∈ s.running, 0 < s.remaining o
  settled : s.phase = .ready → ∀ b ∈ s.calls, b ∈ s.blocks
  idle : s.phase = .ready → s.running = [] → s.lh = []
  alone : s.running.length ≤ 1 → s.demand < logsize

theorem Slack.small_does (slack : Slack s) (small : Small s e) (does : Does log s e t) :
    ∀ o ∈ t.running, 0 < t.remaining o := by
  have control := slack.called.uncrashed.control
  have unchanged : (∀ o ∈ t.running, o ∈ s.running) → t.logged = s.logged →
      ∀ o ∈ t.running, 0 < t.remaining o := by
    intro running logged o member
    unfold State.remaining
    rw [logged]
    exact slack.small o (running o member)
  cases does with
  | beginOp notBooting next =>
      unfold Log.beginOp at next
      split at next
      · cases next
      split at next
      · cases next
      rcases Option.some.inj next with rfl
      intro o member
      rcases List.mem_cons.mp member with rfl | member
      · simp [State.remaining, slack.reserved.unused]
      · exact slack.small o member
  | logWriteTest running outside free run =>
      rename_i o b data
      unfold Log.logWriteTest at run
      split at run
      · cases run
      split at run
      · cases run
      rcases Except.ok.inj run with rfl
      intro o' member
      by_cases same : o' = o
      · subst same
        simp only [State.remaining, Function.update_self, List.toFinset_cons]
        exact Nat.sub_pos_of_lt small
      · simp only [State.remaining, Function.update_of_ne same]
        exact slack.small o' member
  | logWrite holds => exact unchanged (fun _ member => member) rfl
  | endOp running outside run =>
      unfold Log.endOp at run
      dsimp only at run
      split at run
      · cases run
      split at run <;> rcases Except.ok.inj run with rfl
      · exact unchanged (fun _ => List.mem_of_mem_erase) rfl
      · exact unchanged (fun _ => List.mem_of_mem_erase) rfl
  | proceed next =>
      rcases control.proceed next with ⟨-, -, idle'⟩
      intro o member
      rw [idle'] at member
      exact absurd member List.not_mem_nil
  | recycle clean free => exact unchanged (fun _ member => member) rfl
  | crash => exact small.elim

/-- Only `commit` makes the log ready again. -/
theorem Does.was_ready (does : Does log s e t) (noCommit : e ≠ .proceed) (noCrash : e ≠ .crash)
    (ready : t.phase = .ready) : s.phase = .ready := by
  cases does with
  | beginOp notBooting next =>
      unfold Log.beginOp at next
      split at next
      · cases next
      split at next
      · cases next
      rcases Option.some.inj next with rfl
      exact ready
  | logWriteTest running outside free run =>
      unfold Log.logWriteTest at run
      split at run
      · cases run
      split at run
      · cases run
      rcases Except.ok.inj run with rfl
      exact ready
  | logWrite holds => exact ready
  | endOp running outside run =>
      unfold Log.endOp at run
      dsimp only at run
      split at run
      · cases run
      split at run <;> rcases Except.ok.inj run with rfl
      · dsimp only at ready
        split at ready <;> cases ready
      · exact ready
  | proceed next => exact absurd rfl noCommit
  | recycle clean free => exact ready
  | crash => exact absurd rfl noCrash

/-- When `commit` is done, the log is empty, and no operation is in progress. -/
theorem Called.commit_ready (called : Called s) (next : proceed log s = some t)
    (ready : t.phase = .ready) : t.calls = ∅ ∧ t.lh = [] := by
  unfold Log.proceed at next
  split at next <;> rcases next with rfl | rfl
  · rename_i atStart
    exact absurd atStart called.uncrashed.booted
  · dsimp only [writeLog] at ready
    split at ready <;> cases ready
  · cases ready
  · dsimp only [installTrans] at ready
    split at ready <;> cases ready
  · cases ready
  · rename_i isDone
    exact ⟨rfl, called.erased isDone⟩

theorem Slack.does (slack : Slack s) (small : Small s e) (does : Does log s e t) : Slack t := by
  have control := slack.called.uncrashed.control
  have noCrash : e ≠ .crash := by
    rintro rfl
    exact small
  rcases slack.called.does noCrash does with ⟨called', grows⟩
  rcases slack.reserved.does small.budget does with ⟨reserved', spends⟩
  have control' := called'.uncrashed.control
  have kept := does.kept control control'
  have ready := does.was_ready
  have small' := slack.small_does small does
  have settled' : e ≠ .proceed → t.phase = .ready → (∀ o b data, e = .logWriteTest o b data →
      b ∈ t.blocks) → ∀ b ∈ t.calls, b ∈ t.blocks := by
    intro noCommit isReady new b member
    rcases grows b member with old | ⟨o, data, same⟩
    · exact kept noCommit noCrash b (slack.settled (ready noCommit noCrash isReady) b old)
    · exact new o b data same
  cases does with
  | beginOp notBooting next =>
      refine ⟨called', reserved', small', fun isReady => settled' nofun isReady nofun, ?_, ?_⟩
      · intro _ none
        unfold Log.beginOp at next
        split at next
        · cases next
        split at next
        · cases next
        rcases Option.some.inj next with rfl
        cases none
      · intro single
        unfold Log.beginOp at next
        split at next
        · cases next
        rename_i notCommitting
        split at next
        · cases next
        rcases Option.some.inj next with rfl
        have isReady : s.phase = .ready := by
          by_contra busy
          exact notCommitting (control.waits busy notBooting)
        have none : s.running = [] := List.length_eq_zero_iff.mp (Nat.le_zero.mp (Nat.le_of_succ_le_succ single))
        have noBlocks : ∀ b, b ∉ State.blocks { s with
            outstanding := s.outstanding + 1, running := s.begun :: s.running, begun := s.begun + 1
            admitted := s.begun :: s.admitted } := by
          intro b member
          rcases control'.mem_blocks.mp member with inLog | ⟨o, holds⟩
          · rw [show _ = [] from slack.idle isReady none] at inLog
            exact List.not_mem_nil inLog
          · have caller := control.caller o b holds
            rw [none] at caller
            exact List.not_mem_nil caller
        have atMost : ∀ o, State.remaining { s with
            outstanding := s.outstanding + 1, running := s.begun :: s.running, begun := s.begun + 1
            admitted := s.begun :: s.admitted } o ≤ maxopblocks := fun o => Nat.sub_le _ _
        unfold State.demand
        rw [Finset.eq_empty_of_forall_notMem noBlocks]
        simp only [none, List.map_cons, List.map_nil, List.sum_cons, List.sum_nil, Finset.card_empty]
        have least := atMost s.begun
        rw [none] at least
        rw [Nat.zero_add, Nat.add_zero]
        exact least.trans_lt (by decide)
  | logWriteTest running outside free run =>
      rename_i o b data
      have same : t.running = s.running ∧ t.logging = Function.update s.logging o (some b) := by
        unfold Log.logWriteTest at run
        split at run
        · cases run
        split at run
        · cases run
        rcases Except.ok.inj run with rfl
        exact ⟨rfl, rfl⟩
      rcases same with ⟨running', logging⟩
      refine ⟨called', reserved', small', fun isReady => settled' nofun isReady ?_, ?_, ?_⟩
      · intro o' b' data' isCall
        cases isCall
        exact control'.mem_blocks.mpr (.inr ⟨o, by rw [logging, Function.update_self]⟩)
      · intro _ none
        rw [running'.symm.trans none] at running
        exact absurd running List.not_mem_nil
      · intro single
        have demand : t.demand ≤ s.demand := spends
        exact demand.trans_lt (slack.alone (running' ▸ single))
  | logWrite holds =>
      refine ⟨called', reserved', small', fun isReady => settled' nofun isReady nofun, ?_, ?_⟩
      · intro _ none
        have caller := control.caller _ _ holds
        rw [show s.running = [] from none] at caller
        exact absurd caller List.not_mem_nil
      · intro single
        have demand : Log.State.demand _ ≤ s.demand := spends
        exact demand.trans_lt (slack.alone single)
  | endOp running outside run =>
      rename_i o
      have left : t.running.length + 1 = s.running.length := by
        have same : t.running = s.running.erase o := by
          unfold Log.endOp at run
          dsimp only at run
          split at run
          · cases run
          split at run <;> rcases Except.ok.inj run with rfl <;> rfl
        rw [same, List.length_erase_of_mem running]
        exact Nat.succ_pred_eq_of_pos (List.length_pos_of_mem running)
      refine ⟨called', reserved', small', fun isReady => settled' nofun isReady nofun, ?_, ?_⟩
      · intro isReady none
        have noneLeft : t.outstanding = 0 := by rw [control'.outstanding, none]; rfl
        unfold Log.endOp at run
        dsimp only at run
        split at run
        · cases run
        split at run <;> rcases Except.ok.inj run with rfl
        · dsimp only at isReady
          split at isReady <;> cases isReady
        · rename_i more
          exact absurd noneLeft more
      · intro single
        have rest := slack.small o running
        have demand : t.demand + s.remaining o ≤ s.demand := spends
        have room := slack.reserved.room
        omega
  | proceed next =>
      rcases control.proceed next with ⟨-, idle, idle'⟩
      refine ⟨called', reserved', small', ?_, ?_, ?_⟩
      · intro isReady b member
        rw [(slack.called.commit_ready next isReady).1] at member
        exact absurd member (Finset.notMem_empty b)
      · exact fun isReady _ => (slack.called.commit_ready next isReady).2
      · intro _
        have demand : t.demand ≤ s.demand := spends
        refine demand.trans_lt (slack.alone ?_)
        rw [idle]
        exact Nat.zero_le 1
  | recycle clean free =>
      refine ⟨called', reserved', small', fun isReady => settled' nofun isReady nofun, slack.idle, ?_⟩
      intro single
      have demand : Log.State.demand _ ≤ s.demand := spends
      exact demand.trans_lt (slack.alone single)
  | crash => exact absurd rfl noCrash

theorem Slack.started (disk : ℕ → Block) : Slack (started disk) where
  called := .started disk
  reserved := .started disk
  small := fun _ member => absurd member List.not_mem_nil
  settled := fun _ _ member => absurd member List.not_mem_nil
  idle := fun _ _ => rfl
  alone := fun _ => show 0 < logsize by decide

/-- What `begin_op` reserves is enough for small operations. -/
theorem Slack.moderate (slack : Slack s) (small : Small s e)
    (running : ∀ o b data, e = .logWriteTest o b data → o ∈ s.running) : Moderate mkfsLog s e := by
  cases e with
  | logWriteTest o b data =>
      have member := running o b data rfl
      have control := slack.called.uncrashed.control
      have calls : s.calls.card ≤ s.blocks.card :=
        Finset.card_le_card (slack.settled (control.phase_ready member))
      have rest : s.running.length ≤ (s.running.map s.remaining).sum := by
        rw [← List.length_map s.remaining]
        apply List.length_le_sum_of_one_le
        intro n isRemaining
        rcases List.mem_map.mp isRemaining with ⟨o', member', rfl⟩
        exact slack.small o' member'
      have some : 0 < s.running.length := List.length_pos_of_mem member
      have room : s.demand ≤ logsize := slack.reserved.room
      have alone := slack.alone
      unfold State.demand logsize maxopblocks at room alone
      show s.calls.card + 2 ≤ logsize
      unfold logsize maxopblocks
      omega
  | beginOp | logWrite o | endOp o | proceed | recycle b | crash => trivial

/-- Runs of small operations are runs of moderate ones. -/
theorem moderate_of_small {disk : ℕ → Block} (reach : Reachable (Steps mkfsLog) Small (started disk) s) :
    Slack s ∧ Reachable (Steps mkfsLog) (fun s e => Budget s e ∧ Moderate mkfsLog s e) (started disk) s := by
  refine reach.invariant (fun s => Slack s ∧
    Reachable (Steps mkfsLog) (fun s e => Budget s e ∧ Moderate mkfsLog s e) (started disk) s)
    ⟨.started disk, .refl⟩ ?_
  rintro s e t - ⟨slack, reach⟩ small taken
  refine ⟨slack.does small taken.does, reach.next ⟨small.budget, slack.moderate small ?_⟩ taken⟩
  rintro o b data rfl
  cases taken.does with
  | logWriteTest running outside free run => exact running

theorem moderate_admission {disk : ℕ → Block}
    (reach : Reachable (Steps mkfsLog) (fun s e => Budget s e ∧ Moderate mkfsLog s e)
      (started disk) s) :
    Admission mkfsLog (fun s e => Budget s e ∧ Moderate mkfsLog s e) s := by
  rcases called_of_reach (by decide) reach with ⟨called, fits⟩
  have control := called.uncrashed.control
  have length := called.length_le
  refine ⟨?_, ?_, ?_⟩
  · intro e fault admitted
    apply control.panics
    rintro o b data rfl
    have moderate : s.calls.card + 2 ≤ mkfsLog.size := admitted.2
    have room : s.lh.length < mkfsLog.size - 1 := by omega
    exact ⟨room.trans (by decide), room⟩
  · intro committing o
    have idle := control.idle (.inl committing)
    refine ⟨fun running => ?_, ?_⟩
    · rw [idle] at running
      exact List.not_mem_nil running
    · by_contra holds
      rcases Option.ne_none_iff_exists'.mp holds with ⟨b, holds⟩
      have running := control.caller o b holds
      rw [idle] at running
      exact List.not_mem_nil running
  · omega

theorem small_admission {disk : ℕ → Block} (reach : Reachable (Steps mkfsLog) Small (started disk) s) :
    Admission mkfsLog Small s := by
  rcases moderate_of_small reach with ⟨slack, reach'⟩
  have admission := moderate_admission reach'
  refine ⟨fun e fault small panics => ?_, admission.quiet, admission.fits⟩
  refine admission.panics e fault ⟨small.budget, slack.moderate small ?_⟩ panics
  rintro o b data rfl
  simp only [step] at panics
  split at panics
  · rename_i allowed
    exact allowed.1
  · cases panics

/-- While the operations since a commit have called `log_write` for two blocks less than the log has
before every call, the calls of `log_write` and `end_op` succeed. So they do if every operation uses
one block less than `begin_op` reserves for it. -/
theorem admission (disk : ℕ → Block) :
    (∀ s, Reachable (Steps mkfsLog) (fun s e => Budget s e ∧ Moderate mkfsLog s e) (started disk) s →
      Admission mkfsLog (fun s e => Budget s e ∧ Moderate mkfsLog s e) s) ∧
    ∀ s, Reachable (Steps mkfsLog) Small (started disk) s → Admission mkfsLog Small s :=
  ⟨fun _ => moderate_admission, fun _ => small_admission⟩

/-! ## Sample runs -/

instance (s : State) (e : Event) : Decidable (Budget s e) := by
  unfold Budget
  split <;> infer_instance

instance (log : Layout) (s : State) (e : Event) : Decidable (Moderate log s e) := by
  unfold Moderate
  split <;> infer_instance

instance (s : State) (e : Event) : Decidable (Small s e) := by
  unfold Small
  split <;> infer_instance

/-- The state after a list of events, if they can happen under the guard. -/
def runs (log : Layout) (guard : State → Event → Prop) [∀ s e, Decidable (guard s e)] :
    List Event → State → Option State
  | [], s => some s
  | e :: events, s =>
      if guard s e then
        match step log s e with
        | some (.ok s) => runs log guard events s
        | _ => none
      else none

theorem runs_reach {guard : State → Event → Prop} [∀ s e, Decidable (guard s e)]
    {events : List Event} (done : runs log guard events s = some t) :
    Reachable (Steps log) guard s t := by
  suffices joins : ∀ {u}, Reachable (Steps log) guard u s → Reachable (Steps log) guard u t from
    joins .refl
  induction events generalizing s with
  | nil => exact fun reach => Option.some.inj done ▸ reach
  | cons e events ih =>
      unfold runs at done
      split at done
      · rename_i admitted
        split at done
        · rename_i u taken
          exact fun reach => ih done (reach.next admitted taken)
        · cases done
      · cases done

/-- The operation writes to blocks from `first` on. -/
def writes (o first count : ℕ) : List Event :=
  (List.range count).flatMap fun i =>
    [.logWriteTest o (first + i) fun _ => 0, .logWrite o]

/-- A disk of zeros. -/
abbrev zeros : ℕ → Block := fun _ _ => 0

/-- Two operations use all that is reserved for them, and three others one block less each. -/
theorem admission_fiveOperations :
    (∃ s, s.lh.length = 20 ∧ Admission mkfsLog (fun s e => Budget s e ∧ Moderate mkfsLog s e) s) ∧
      ∃ s, s.lh.length = 27 ∧ Admission mkfsLog Small s := by
  have two : (runs mkfsLog (fun s e => Budget s e ∧ Moderate mkfsLog s e)
      ([.beginOp, .beginOp] ++ writes 0 50 10 ++ (.endOp 0 :: writes 1 60 10)) (started zeros)).any
      (fun s => s.lh.length = 20) = true := by decide +kernel
  have three : (runs mkfsLog Small ([.beginOp, .beginOp, .beginOp] ++ writes 0 50 9 ++ writes 1 60 9 ++
      (.endOp 1 :: writes 2 70 9)) (started zeros)).any (fun s => s.lh.length = 27) = true := by
    decide +kernel
  rcases Option.any_eq_true _ _ |>.mp two with ⟨s, ran, length⟩
  rcases Option.any_eq_true _ _ |>.mp three with ⟨t, ran', length'⟩
  refine ⟨⟨s, of_decide_eq_true length, ?_⟩, t, of_decide_eq_true length', ?_⟩
  · exact (admission zeros).1 s (runs_reach ran)
  · exact (admission zeros).2 t (runs_reach ran')

/-- A step of the machine that panics, as a test. -/
def panics (log : Layout) (s : State) (e : Event) : Bool :=
  match step log s e with
  | some (.error _) => true
  | _ => false

theorem panics_step (isPanic : panics log s e = true) :
    ∃ fault, step log s e = some (.error fault) := by
  unfold panics at isPanic
  split at isPanic
  · rename_i fault eq
    exact ⟨fault, eq⟩
  · cases isPanic

/-- Three operations write to `MAXOPBLOCKS` blocks each, and the last `log_write` panics. -/
theorem admission_incorrect : ¬∀ s, Reachable (Steps mkfsLog) Budget (started zeros) s →
    Admission mkfsLog Budget s := by
  intro claimed
  have found : (runs mkfsLog Budget ([.beginOp, .beginOp, .beginOp] ++ writes 0 50 10 ++
      writes 1 60 10 ++ writes 2 70 9) (started zeros)).any (fun s =>
        Budget s (.logWriteTest 2 79 fun _ => 0) ∧
          panics mkfsLog s (.logWriteTest 2 79 fun _ => 0) = true) = true := by decide +kernel
  rcases Option.any_eq_true _ _ |>.mp found with ⟨s, ran, last⟩
  rcases of_decide_eq_true last with ⟨budget, isPanic⟩
  rcases panics_step isPanic with ⟨fault, panic⟩
  exact (claimed s (runs_reach ran)).panics _ fault budget panic

end Xv6.Log
