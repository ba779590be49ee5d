import Xv6.Proc.Choice
import Xv6.Proc.Locks

/-!
# `sleep` and `wakeup`

A process that calls `sleep` holds its lock until it holds `ptable.lock`, and holds `ptable.lock`
until it is `SLEEPING`. So a wakeup that comes after the release of its lock finds it asleep,
unless another one has come in between.
-/

namespace Xv6

open Relation Fallible Transition

variable {ncpu : ℕ} {b : Build} {s t u : State ncpu} {e : Event ncpu} {p q : Slot} {chan : Chan}
  {c : Fin ncpu}

/-- The event may wake processes that sleep on the channel. -/
def Rouses (s : State ncpu) (e : Event ncpu) (chan : Chan) : Prop :=
  wakes s e chan ∨ ∃ c pid, e = .kill c pid

/-- The event calls `wakeup1` for the channel. -/
def CallsWakeup1 (s : State ncpu) : Event ncpu → Chan → Prop
  | .wakeup chan, x => x = chan
  | .exit c, x => ∃ p, s.cpu c = some p ∧ (x = .ofProc (s.proc p).parent ∨
      x = .ofProc s.initproc ∧ ∃ q, (s.proc q).parent = some p ∧ (s.proc q).state = .zombie)
  | _, _ => False

/-! ## Events -/

theorem Roused.extend (roused : Roused p s t) (grows : t.hist <:+ u.hist) : Roused p s u :=
  Nat.lt_of_lt_of_le roused (lastAt_mono grows)

theorem Roused.later (roused : Roused p t u) (grows : s.hist <:+ t.hist) : Roused p s u :=
  Nat.lt_of_le_of_lt grows.length_le roused

/-- A process that sleeps goes on sleeping until it is woken. -/
theorem SleepsOn.action {chans : Chan → Prop} (sleeps : SleepsOn p chan s) (good : Good b s)
    (action : Action b (fun u e' => Tame b u e' ∧ e' = e) chans s t) :
    SleepsOn p chan t ∨ (chans chan ∨ ∃ c pid, e = .kill c pid) ∧ Roused p s t := by
  rcases sleeps with ⟨asleep, on⟩
  cases action.fate good.consistent p with
  | same state chan _ => exact .inl ⟨state.trans asleep, (chan asleep).trans on⟩
  | taken unused => simp [asleep] at unused
  | givenUp _ _ embryo => simp [asleep] at embryo
  | advanced before => exact absurd asleep before.2
  | woken _ chan _ roused => exact .inr ⟨.inl (on ▸ chan), roused⟩
  | strayed _ picks =>
      have runnable := good.picks picks
      simp [asleep] at runnable
  | reaped zombie => simp [asleep] at zombie
  | killed allowed _ record =>
      rcases record with record | ⟨-, roused, -⟩
      · exact .inl ⟨by rw [record]; exact asleep, by rw [record]; exact on⟩
      · exact .inr ⟨.inr ⟨_, _, allowed.2.symm⟩, roused⟩
  | faulted running => simp [asleep] at running

theorem SleepsOn.step (sleeps : SleepsOn p chan s) (good : Good b s) (tame : Tame b s e)
    (taken : Steps b s e t) : SleepsOn p chan t ∨ Rouses s e chan ∧ Roused p s t := by
  have follows : Follows (Action b (fun u e' => Tame b u e' ∧ e' = e) (wakes s e)) _ id s (.ok t) :=
    step_follows good.consistent ⟨tame, rfl⟩ taken
  refine (kept_of_path (fun u => Good b u ∧ s.hist <:+ u.hist ∧
    (SleepsOn p chan u ∨ Rouses s e chan ∧ Roused p s u)) ?_ follows
    ⟨good, List.suffix_rfl, .inl sleeps⟩).2.2
  rintro u v action ⟨good, grows, kept⟩
  have grows' := hist_of_path (.single action)
  refine ⟨good.action (action.mono fun _ _ => And.left), grows.trans grows', ?_⟩
  rcases kept with sleeps | ⟨rouses, roused⟩
  · rcases sleeps.action good action with sleeps | ⟨rouses, roused⟩
    · exact .inl sleeps
    · exact .inr ⟨rouses, roused.later grows⟩
  · exact .inr ⟨rouses, roused.extend grows'⟩

/-- The process that calls `sleep` is `SLEEPING` on the channel when `ptable.lock` is released. -/
theorem sleepsOn_of_sleep {address : ℕ} (good : Good b s) (current : s.cpu c = some p)
    (taken : Steps b s (.sleep c address) t) : SleepsOn p (.object address) t := by
  rcases syscall_some taken with ⟨p', current', user, run⟩
  rcases Option.some.inj (current.symm.trans current') with rfl
  -- the state in which the scheduler goes on
  let v : State ncpu := (sched .sleep p ((s.edit p fun q =>
    { q with chan := .object address }).setState p .sleeping)).setCpu c none
  have fallsAsleep : Action b (fun u e' => Tame b u e' ∧ e' = .tick) (fun _ => False) s v :=
    .sleep current user (.inl rfl) fun impossible => nomatch impossible
  have good' : Good b v := good.action (fallsAsleep.mono fun _ _ => And.left)
  have sleeps : SleepsOn p (.object address) v := by simp [SleepsOn, v, sched]
  by_cases isDefault : b = .default
  · subst isDefault
    have follows : Follows (Action .default (fun u e' => Tame .default u e' ∧ e' = .tick)
        (fun _ => False)) (Stuck .default _) id v (scanTable c (table.drop (p + 1)) v) :=
      scanTable_follows good'.consistent (by simp [v]) _
    have ends : scanTable c (table.drop (p + 1)) v = .ok t := run.symm
    rw [ends] at follows
    refine (kept_of_path (fun u => Good .default u ∧ SleepsOn p (.object address) u) ?_ follows
      ⟨good', sleeps⟩).2
    rintro u w action ⟨good, sleeps⟩
    refine ⟨good.action (action.mono fun _ _ => And.left), ?_⟩
    rcases sleeps.action good action with sleeps | ⟨impossible | ⟨_, _, impossible⟩, -⟩
    · exact sleeps
    · exact impossible.elim
    · cases impossible
  · have same : t = v := by
      cases b with
      | default => exact absurd rfl isDefault
      | _ => exact Except.ok.inj run
    exact same ▸ sleeps

/-! ## Calls of `wakeup1` -/

theorem resume_hist {result : Bool × State ncpu} (run : resume p s = .ok result) :
    s.hist <:+ result.2.hist := by
  have resumable : (s.proc p).context ≠ .exit := by
    intro context
    simp [resume, context] at run
  rcases resume_ok resumable with ⟨result', run', grows⟩
  rcases Except.ok.inj (run.symm.trans run') with rfl
  exact grows

theorem scanTable_hist {slots : List Slot} (run : scanTable c slots s = .ok t) :
    s.hist <:+ t.hist := by
  induction slots generalizing s with
  | nil => exact Except.ok.inj run ▸ List.suffix_rfl
  | cons p slots ih =>
      unfold scanTable at run
      split at run
      · exact ih run
      · rcases bind_eq_ok.mp run with ⟨⟨running, u⟩, ran, rest⟩
        have grows : s.hist <:+ u.hist := by
          unfold runProc at ran
          split at ran
          · cases ran
          split at ran
          · cases ran
          split at ran
          · cases ran
          · exact (List.suffix_cons _ _).trans (resume_hist ran)
        cases running with
        | true => exact Except.ok.inj rest ▸ grows
        | false =>
            have later : (u.setCpu c none).hist <:+ t.hist := ih rest
            exact grows.trans later

theorem toScheduler_hist (run : toScheduler b c p s = .ok t) : s.hist <:+ t.hist := by
  cases b with
  | default =>
      have grows : (s.setCpu c none).hist <:+ t.hist := scanTable_hist run
      exact grows
  | _ => exact Except.ok.inj run ▸ List.suffix_rfl

theorem SleepsOn.wakeup1 (sleeps : SleepsOn q chan s) (run : wakeup1 b chan s = .ok t) :
    Roused q s t := by
  rcases wakeup1_hist run with ⟨entries, hist, -, sleepers⟩
  rw [Roused, hist]
  exact lastAt_mem (sleepers q sleeps)

theorem grows_wakeup1 (run : wakeup1 b chan s = .ok t) : s.hist <:+ t.hist := by
  rcases wakeup1_hist run with ⟨entries, hist, -⟩
  exact hist ▸ List.suffix_append _ _

theorem grows_reparent {curproc : Slot} {slots : List Slot}
    (run : slots.foldlM (reparent b curproc) s = .ok t) : s.hist <:+ t.hist := by
  induction slots generalizing s with
  | nil => exact Except.ok.inj run ▸ List.suffix_rfl
  | cons r slots ih =>
      rw [List.foldlM_cons] at run
      rcases bind_eq_ok.mp run with ⟨u, first, rest⟩
      rcases reparent_hist first with ⟨entries, hist, -⟩
      exact (hist ▸ List.suffix_append _ _ : s.hist <:+ u.hist).trans (ih rest)

theorem reparent_other {curproc r : Slot} (different : r ≠ p)
    (run : reparent b curproc s p = .ok t) : (t.proc r).parent = (s.proc r).parent := by
  have kept : ((s.setParent p s.initproc).proc r).parent = (s.proc r).parent := by
    simp [State.setParent_proc, different]
  unfold reparent at run
  split at run
  · dsimp only at run
    split at run
    · rw [wakeup1_proc run]
      split
      · exact kept
      · exact kept
    · exact Except.ok.inj run ▸ kept
  · exact Except.ok.inj run ▸ rfl

theorem SleepsOn.setParent {r : Slot} {parent : Option Slot} (sleeps : SleepsOn q chan s) :
    SleepsOn q chan (s.setParent r parent) := by
  unfold SleepsOn at sleeps ⊢
  rw [State.setParent_proc]
  split
  · rename_i isR
    exact isR ▸ sleeps
  · exact sleeps

/-- A child that is passed to init wakes who sleeps on the channel of init, if it is `ZOMBIE`. -/
theorem SleepsOn.reparent {curproc : Slot} (sleeps : SleepsOn q (.ofProc s.initproc) s)
    (run : reparent b curproc s p = .ok t) :
    if (s.proc p).parent = some curproc ∧ (s.proc p).state = .zombie then Roused q s t
    else SleepsOn q (.ofProc s.initproc) t := by
  have moved : SleepsOn q (.ofProc s.initproc) (s.setParent p s.initproc) := sleeps.setParent
  have state : ((s.setParent p s.initproc).proc p).state = (s.proc p).state := by
    simp [State.setParent_proc]
  unfold Xv6.reparent at run
  split at run
  · rename_i child
    dsimp only at run
    rw [state] at run
    split at run
    · rename_i zombie
      rw [if_pos ⟨child, zombie⟩]
      exact (moved.wakeup1 run).later (List.suffix_cons _ _)
    · rename_i notZombie
      rw [if_neg fun both => notZombie both.2]
      exact Except.ok.inj run ▸ moved
  · rename_i notChild
    rw [if_neg fun both => notChild both.1]
    exact Except.ok.inj run ▸ sleeps

/-- Who sleeps on the channel of init is woken when init gets a child that is `ZOMBIE`. -/
theorem SleepsOn.reparent_loop {curproc r : Slot} {slots : List Slot}
    (sleeps : SleepsOn q (.ofProc s.initproc) s) (notInit : s.initproc ≠ some curproc)
    (member : r ∈ slots) (child : (s.proc r).parent = some curproc)
    (zombie : (s.proc r).state = .zombie)
    (run : slots.foldlM (Xv6.reparent b curproc) s = .ok t) : Roused q s t := by
  induction slots generalizing s with
  | nil => exact absurd member List.not_mem_nil
  | cons x slots ih =>
      rw [List.foldlM_cons] at run
      rcases bind_eq_ok.mp run with ⟨u, first, rest⟩
      have adopts := (reparent_pass notInit first).1
      have pass := sleeps.reparent first
      split at pass
      · exact pass.extend (grows_reparent rest)
      · rename_i notNow
        have different : r ≠ x := by
          rintro rfl
          exact notNow ⟨child, zombie⟩
        have zombie' : (u.proc r).state = .zombie := by
          rcases adopts.state r with kept | ⟨asleep, -⟩
          · exact kept.trans zombie
          · simp [zombie] at asleep
        have roused : Roused q u t :=
          ih (adopts.rest.initproc ▸ pass) (adopts.rest.initproc ▸ notInit)
            ((List.mem_cons.mp member).resolve_left different)
            ((reparent_other different first).trans child) zombie' rest
        rcases reparent_hist first with ⟨entries, hist, -⟩
        exact roused.later (hist ▸ List.suffix_append _ _)

/-- Who sleeps on the channel of a `wakeup1` that an event calls is made `RUNNABLE`. -/
theorem CallsWakeup1.roused (calls : CallsWakeup1 s e chan) (sleeps : SleepsOn q chan s)
    (taken : Steps b s e t) : Roused q s t := by
  cases e with
  | wakeup chan' =>
      rcases calls with rfl
      exact sleeps.wakeup1 (Option.some.inj taken)
  | exit c =>
      rcases calls with ⟨p, current, on⟩
      rcases syscall_some taken with ⟨p', current', -, run⟩
      rcases Option.some.inj (current.symm.trans current') with rfl
      have run := run.symm
      unfold exit at run
      split at run
      · cases run
      rename_i notInit
      rcases bind_eq_ok.mp run with ⟨u, woken, run⟩
      rcases bind_eq_ok.mp run with ⟨v, moved, run⟩
      have rest := wakeup1_rest woken
      have ends : (sched .exit p (v.setState p .zombie)).hist <:+ t.hist := toScheduler_hist run
      have grows : v.hist <:+ t.hist := (List.suffix_cons _ _).trans ends
      have grows' : u.hist <:+ t.hist := (grows_reparent moved).trans grows
      by_cases parent : chan = .ofProc (s.proc p).parent
      · exact (SleepsOn.wakeup1 (parent ▸ sleeps) woken).extend grows'
      · rcases on with isParent | ⟨rfl, r, child, zombie⟩
        · exact absurd isParent parent
        -- the first call of `wakeup1` is for another channel
        have slept : u.proc q = s.proc q := by
          rw [wakeup1_proc woken, if_neg]
          rintro ⟨-, isParent⟩
          exact parent (sleeps.2.symm.trans isParent)
        have ended : u.proc r = s.proc r := by
          rw [wakeup1_proc woken, if_neg]
          rintro ⟨asleep, -⟩
          simp [zombie] at asleep
        have sleeps' : SleepsOn q (.ofProc u.initproc) u := by
          rw [SleepsOn, slept, rest.initproc]
          exact sleeps
        have roused : Roused q u v := sleeps'.reparent_loop (rest.initproc ▸ notInit) (mem_table r)
          (by rw [ended, child]) (by rw [ended, zombie]) moved
        exact (roused.later (grows_wakeup1 woken)).extend grows
  | _ => exact calls.elim

/-- `wakeup` makes exactly the sleepers of the channel `RUNNABLE`, and changes no other process. -/
theorem wakeup_exactly (taken : Steps b s (.wakeup chan) t) (q : Slot) :
    SleepsOn q chan s ∧ t.proc q = woken b (s.proc q) ∨
      ¬SleepsOn q chan s ∧ t.proc q = s.proc q := by
  have record := wakeup1_proc (Option.some.inj taken) q
  by_cases sleeps : SleepsOn q chan s
  · exact .inl ⟨sleeps, record.trans (if_pos sleeps)⟩
  · exact .inr ⟨sleeps, record.trans (if_neg sleeps)⟩

/-- An event without `ptable.lock` neither changes a CPU's process nor puts one to sleep. -/
theorem bare_ok (bare : e.bare = true) (taken : Steps b s e t) : t.cpu = s.cpu ∧
    ∀ p, SleepsOn p chan t → SleepsOn p chan s := by
  cases e with
  | forkKstack c page =>
      simp only [Steps, step] at taken
      split at taken
      · cases taken
      · split at taken
        · rcases Except.ok.inj (Option.some.inj taken) with rfl
          unfold forkKstack allocprocKstack
          cases page <;> refine ⟨rfl, fun p sleeps => ?_⟩ <;>
            simp only [SleepsOn, State.edit_proc, State.setState_proc] at sleeps ⊢ <;> grind
        · cases taken
  | forkCopyuvm c page =>
      simp only [Steps, step] at taken
      split at taken
      · cases taken
      · split at taken
        · rcases Except.ok.inj (Option.some.inj taken) with rfl
          unfold forkCopyuvm
          cases page with
          | none =>
              refine ⟨rfl, fun p sleeps => ?_⟩
              simp only [SleepsOn, State.edit_proc, State.setState_proc] at sleeps ⊢
              grind
          | some page =>
              dsimp only
              split <;> refine ⟨rfl, fun p sleeps => ?_⟩ <;>
                simp only [SleepsOn, State.edit_proc, State.setParent_proc] at sleeps ⊢ <;> grind
        · cases taken
  | exec c pgdir =>
      rcases syscall_some taken with ⟨p, -, -, eq⟩
      rcases Except.ok.inj eq with rfl
      refine ⟨rfl, fun p sleeps => ?_⟩
      simp only [SleepsOn, exec, State.edit_proc] at sleeps ⊢
      grind
  | trapFault c =>
      rcases syscall_some taken with ⟨p, -, -, eq⟩
      rcases Except.ok.inj eq with rfl
      refine ⟨rfl, fun p sleeps => ?_⟩
      simp only [SleepsOn, State.edit_proc] at sleeps ⊢
      grind
  | tick =>
      rcases Except.ok.inj (Option.some.inj taken) with rfl
      exact ⟨rfl, fun _ sleeps => sleeps⟩
  | _ => cases bare

/-! ## Runs with locks -/

/-- The moves whose events are `Tame`. -/
def TameMove (b : Build) (s : Machine ncpu) (m : Move ncpu) : Prop :=
  ∀ e, s.event m = some e → Tame b s.core e

/-- In a run from `s` to `t`, `p` is woken from its sleep on the channel. -/
def WokenBetween (b : Build) (guard : Machine ncpu → Move ncpu → Prop) (p : Slot) (chan : Chan)
    (s t : Machine ncpu) : Prop :=
  ∃ v m e w, Reachable (Moves b) guard s v ∧ guard v m ∧ Moves b v m w ∧ v.event m = some e ∧
    Rouses v.core e chan ∧ SleepsOn p chan v.core ∧ Roused p v.core w.core ∧
    Reachable (Moves b) guard w t

/-- Every `wakeup1` for the channel in a run from `s` finds `p` asleep and makes it `RUNNABLE`,
unless `p` has been woken before. -/
def WakeupsFind (b : Build) (guard : Machine ncpu → Move ncpu → Prop) (p : Slot) (chan : Chan)
    (s : Machine ncpu) : Prop :=
  ∀ t m e u, Reachable (Moves b) guard s t → guard t m → t.event m = some e →
    CallsWakeup1 t.core e chan → Moves b t m u →
      SleepsOn p chan t.core ∧ Roused p t.core u.core ∨ WokenBetween b guard p chan s t

section Machine

variable {x y z : Machine ncpu} {m : Move ncpu} {address : ℕ} {lk : Lock}
  {guard : Machine ncpu → Move ncpu → Prop}

/-- `p` is in `sleep`, between the release of its lock and `SLEEPING`. -/
def Pending (c : Fin ncpu) (p : Slot) (address : ℕ) (x : Machine ncpu) : Prop :=
  (∃ lk, x.control c = .sleepBody address lk) ∧ x.core.cpu c = some p

structure GoodMachine (b : Build) (x : Machine ncpu) : Prop where
  core : Good b x.core
  locks : LockInv x

theorem GoodMachine.effect (good : GoodMachine b x) (tame : TameMove b x m)
    (effect : Effect b x m y) : GoodMachine b y := by
  refine ⟨?_, good.locks.effect effect⟩
  rcases effect.event with ⟨-, same⟩ | ⟨e, event, taken⟩
  · exact same ▸ good.core
  · rcases good.core.step (tame e event) taken with ⟨core, same, good'⟩ | impossible
    · exact Except.ok.inj same ▸ good'
    · cases impossible

/-- Only one CPU is inside a critical section of `ptable.lock`. -/
theorem LockInv.exclusive (inv : LockInv x) {d : Fin ncpu} (holds : (x.control c).Holds)
    (holds' : (x.control d).Holds) : c = d := by
  have holder := (inv.holder c).mpr holds
  have holder' := (inv.holder d).mpr holds'
  exact Option.some.inj (holder.symm.trans holder')

/-- Nobody else comes in before the process is `SLEEPING`. -/
theorem Pending.effect (pending : Pending c p address x) (good : GoodMachine b x)
    (effect : Effect b x m y) :
    Pending c p address y ∨ SleepsOn p (.object address) y.core := by
  rcases pending with ⟨⟨lk, control⟩, current⟩
  have holds : (x.control c).Holds := by rw [control]; trivial
  -- a move of another CPU leaves the control of this one alone
  have elsewhere : ∀ {d : Fin ncpu} {next : Control ncpu}, x.control d ≠ x.control c →
      (x.setControl d next).control c = .sleepBody address lk := by
    intro d next apart
    have different : c ≠ d := by
      rintro rfl
      exact apart rfl
    simpa [Machine.setControl, different] using control
  cases effect with
  | acquire _ _ => exact .inl ⟨⟨lk, control⟩, current⟩
  | release _ => exact .inl ⟨⟨lk, control⟩, current⟩
  | sleep control' _ =>
      exact .inl ⟨⟨lk, elsewhere (by simp [control, control'])⟩, current⟩
  | sleepAcquire control' _ =>
      exact .inl ⟨⟨lk, elsewhere (by simp [control, control'])⟩, current⟩
  | sleepRelease control' =>
      exact .inl ⟨⟨lk, elsewhere (by simp [control, control'])⟩, current⟩
  | sleepBody control' current' run =>
      rcases good.locks.exclusive holds (by rw [control']; trivial) with rfl
      rcases Control.sleepBody.inj (control.symm.trans control') with ⟨rfl, -⟩
      exact .inr (sleepsOn_of_sleep good.core current run)
  | enter unlocked _ _ =>
      have holder := (good.locks.holder c).mpr holds
      cases unlocked.symm.trans holder
  | body control' run =>
      rcases good.locks.exclusive holds (by rw [control']; trivial) with rfl
      cases control.symm.trans control'
  | leave control' =>
      rcases good.locks.exclusive holds (by rw [control']; trivial) with rfl
      cases control.symm.trans control'
  | reacquire _ _ => exact .inl ⟨⟨lk, control⟩, current⟩
  | bare bare _ run =>
      have same := (bare_ok bare run : _ ∧ ∀ p, SleepsOn p .null _ → SleepsOn p .null _).1
      exact .inl ⟨⟨lk, control⟩, same ▸ current⟩

/-- What a wakeup that comes now finds of the sleeper. -/
theorem sleeper_of_reach (good : GoodMachine b x) (tame : ∀ x m, guard x m → TameMove b x m)
    (start : Pending c p address x ∧ chan = .object address ∨ SleepsOn p chan x.core)
    (reach : Reachable (Moves b) guard x y) :
    GoodMachine b y ∧ (Pending c p address y ∧ chan = .object address ∨ SleepsOn p chan y.core ∨
      WokenBetween b guard p chan x y) := by
  refine reach.invariant (fun y => GoodMachine b y ∧ (Pending c p address y ∧
    chan = .object address ∨ SleepsOn p chan y.core ∨ WokenBetween b guard p chan x y))
    ⟨good, start.imp_right .inl⟩ ?_
  rintro y m z reach ⟨good, state⟩ allowed taken
  have effect := taken.effect
  refine ⟨good.effect (tame y m allowed) effect, ?_⟩
  rcases state with ⟨pending, rfl⟩ | sleeps | ⟨v, m', e, w, before, guarded, moved, event, rouses,
    sleeps, roused, after⟩
  · rcases pending.effect good effect with pending | sleeps
    · exact .inl ⟨pending, rfl⟩
    · exact .inr (.inl sleeps)
  · rcases effect.event with ⟨-, same⟩ | ⟨e, event, run⟩
    · exact .inr (.inl (same ▸ sleeps))
    · rcases sleeps.step good.core (tame y m allowed e event) run with sleeps' | ⟨rouses, roused⟩
      · exact .inr (.inl sleeps')
      · exact .inr (.inr ⟨y, m, e, z, reach, allowed, taken, event, rouses, sleeps, roused, .refl⟩)
  · exact .inr (.inr ⟨v, m', e, w, before, guarded, moved, event, rouses, sleeps, roused,
      after.next allowed taken⟩)

theorem CallsWakeup1.not_bare (calls : CallsWakeup1 s e chan) : ¬e.bare = true := by
  cases e <;> first | exact calls.elim | exact Bool.false_ne_true

/-- The code that calls `wakeup1` runs with `ptable.lock`. -/
theorem CallsWakeup1.locked (calls : CallsWakeup1 x.core e chan) (event : x.event m = some e)
    (effect : Effect b x m y) : ∃ d, x.control d = .body e := by
  cases effect with
  | sleepBody control _ _ =>
      simp only [Machine.event, control, Option.some.injEq] at event
      exact (event ▸ calls : CallsWakeup1 x.core (.sleep _ _) chan).elim
  | body control _ =>
      simp only [Machine.event, control, Option.some.injEq] at event
      exact ⟨_, event ▸ control⟩
  | bare bare _ _ =>
      rcases Option.some.inj event with rfl
      exact absurd bare calls.not_bare
  | _ => cases event

theorem wakeupsFind (good : GoodMachine b x) (tame : ∀ x m, guard x m → TameMove b x m)
    (start : Pending c p address x ∧ chan = .object address ∨ SleepsOn p chan x.core) :
    WakeupsFind b guard p chan x := by
  intro y m e z reach allowed event calls taken
  rcases sleeper_of_reach good tame start reach with ⟨good', ⟨⟨⟨lk, control⟩, -⟩, -⟩ | sleeps |
    woken⟩
  · -- the sleeper holds `ptable.lock`
    rcases calls.locked event taken.effect with ⟨d, control'⟩
    rcases good'.locks.exclusive (c := c) (d := d) (by rw [control]; trivial)
      (by rw [control']; trivial) with rfl
    cases control.symm.trans control'
  · left
    rcases taken.effect.event with ⟨none, -⟩ | ⟨e', event', run⟩
    · cases none.symm.trans event
    · rcases Option.some.inj (event.symm.trans event') with rfl
      exact ⟨sleeps, calls.roused sleeps run⟩
  · exact .inr woken

/-- A process becomes `SLEEPING` in a critical section of `ptable.lock`. -/
theorem LockInv.fallsAsleep (inv : LockInv x) (effect : Effect b x m y)
    (awake : ¬SleepsOn p chan x.core) (sleeps : SleepsOn p chan y.core) :
    y.holder = some m.cpu := by
  cases effect with
  | sleepBody control current run =>
      rename_i c address lk q core
      exact (inv.holder c).mpr (by rw [control]; trivial)
  | body control run =>
      rename_i c e core
      exact (inv.holder c).mpr (by rw [control]; trivial)
  | bare bare _ run => exact absurd ((bare_ok bare run).2 p sleeps) awake
  | _ => exact absurd sleeps awake

theorem GoodMachine.wakeup_succeeds (good : GoodMachine b x)
    {result : Except Fault (Machine ncpu)} (event : x.event m = some (.wakeup chan))
    (run : move b x m = some result) : ∃ y, result = .ok y := by
  rcases wakeup1_ok good.core.levels good.core.ready chan with ⟨core, woken⟩
  cases m with
  | body c =>
      simp only [Machine.event] at event
      split at event
      · rename_i e control
        rcases Option.some.inj event with rfl
        have ran : move b x (.body c) = some (.ok { x.setControl c .leave with core }) := by
          simp only [move, control, Machine.runs, Machine.setControl, step, woken]
          rfl
        exact ⟨_, Option.some.inj (run.symm.trans ran)⟩
      · cases event
  | sleepBody c =>
      simp only [Machine.event] at event
      split at event
      · cases event
      · cases event
  | bare c e =>
      rcases Option.some.inj event with rfl
      simp [move, Event.bare] at run
  | _ => cases event

/-- What the locks and `sleep` guarantee. -/
structure SleepWakeup (b : Build) (guard : Machine ncpu → Move ncpu → Prop) (x : Machine ncpu) :
    Prop where
  /-- nobody else gets `lk` from the call of `sleep` to its `release(lk)` -/
  own : ∀ c address lk, x.control c = .sleepAcquire address lk ∨
    x.control c = .sleepRelease address lk → ∀ d, lk ∈ x.held d ↔ d = c
  /-- `lk` is not `ptable.lock`: a wakeup that comes after `release(lk)` is not lost -/
  other : ∀ c p address lk y, x.control c = .sleepRelease address lk → x.core.cpu c = some p →
    Moves b x (.sleepRelease c) y → WakeupsFind b guard p (.object address) y
  /-- `lk` is `ptable.lock`, which is still held when the process is `SLEEPING` -/
  ptable : ∀ m p chan y, guard x m → Moves b x m y → ¬SleepsOn p chan x.core →
    SleepsOn p chan y.core → y.holder = some m.cpu ∧ WakeupsFind b guard p chan y
  /-- a wakeup makes the sleepers of the channel `RUNNABLE`, and changes no other process -/
  exactly : ∀ m chan y, x.event m = some (.wakeup chan) → Moves b x m y → ∀ p,
    SleepsOn p chan x.core ∧ y.core.proc p = woken b (x.core.proc p) ∨
      ¬SleepsOn p chan x.core ∧ y.core.proc p = x.core.proc p
  /-- and it succeeds -/
  succeeds : ∀ m chan result, x.event m = some (.wakeup chan) → move b x m = some result →
    ∃ y, result = .ok y

theorem sleep_wakeup (reach : MachineReach b (TameMove b) x) : SleepWakeup b (TameMove b) x := by
  have good : GoodMachine b x := ⟨good_of_reach (fun _ _ (tame : Tame b _ _) => tame)
    (reach.core fun _ _ e tame event => tame e event), lockInv_of_reach reach⟩
  refine ⟨?_, ?_, ?_, ?_, ?_⟩
  · intro c address lk control d
    have own := good.locks.sleeper c address lk control
    exact ⟨fun member => good.locks.single lk d c member own, fun same => same ▸ own⟩
  · intro c p address lk y control current taken
    have effect := taken.effect
    have good' : GoodMachine b y := good.effect (by rintro e ⟨⟩) effect
    have pending : Pending c p address y := by
      cases effect with
      | sleepRelease control' =>
          rcases Control.sleepRelease.inj (control.symm.trans control') with ⟨rfl, rfl⟩
          exact ⟨⟨lk, by simp [Machine.setControl]⟩, current⟩
    exact wakeupsFind good' (fun _ _ tame => tame) (.inl ⟨pending, rfl⟩)
  · intro m p chan y tame taken awake sleeps
    have effect := taken.effect
    have good' : GoodMachine b y := good.effect tame effect
    exact ⟨good.locks.fallsAsleep effect awake sleeps,
      wakeupsFind good' (fun _ _ tame => tame)
        (.inr sleeps : Pending m.cpu p 0 y ∧ chan = .object 0 ∨ SleepsOn p chan y.core)⟩
  · intro m chan y event taken p
    rcases taken.effect.event with ⟨none, -⟩ | ⟨e, event', run⟩
    · cases none.symm.trans event
    · rcases Option.some.inj (event.symm.trans event') with rfl
      exact wakeup_exactly run p
  · exact fun m chan result event run => good.wakeup_succeeds event run

/-- Init calls `sleep` and is about to release its lock. -/
def initSleeps : Machine 2 :=
  (makes .default (boots 2 ++ [.acquire 0 1, .sleep 0 7 1, .sleepAcquire 0]) {}).getD {}

theorem sleep_wakeup_init : SleepWakeup .default (TameMove .default) initSleeps := by
  have done : (makes .default (boots 2 ++ [.acquire 0 1, .sleep 0 7 1, .sleepAcquire 0])
      ({} : Machine 2)).isSome = true := by decide +kernel
  rcases Option.isSome_iff_exists.mp done with ⟨x, eq⟩
  have same : initSleeps = x := by rw [initSleeps, eq]; rfl
  rw [same]
  exact sleep_wakeup (makes_reach (fun _ _ _ _ => tame_of_ne_mlq (by decide) _ _) eq)

/-! ## A lost wakeup -/

theorem grows_of_reach (consistent : Consistent x.core)
    (reach : Reachable (Moves b) guard x y) : Consistent y.core ∧ x.core.hist <:+ y.core.hist := by
  refine reach.invariant (fun y => Consistent y.core ∧ x.core.hist <:+ y.core.hist)
    ⟨consistent, List.suffix_rfl⟩ ?_
  rintro y m z - ⟨consistent, grows⟩ - taken
  rcases taken.effect.event with ⟨-, same⟩ | ⟨e, -, run⟩
  · exact same ▸ ⟨consistent, grows⟩
  · have follows : Follows (Action b (fun _ _ => True) (wakes y.core e)) _ id y.core
        (.ok z.core) := step_follows consistent trivial run
    exact ⟨consistent.path follows, grows.trans (hist_of_path follows)⟩

theorem WokenBetween.roused (woken : WokenBetween b guard p chan x y)
    (consistent : Consistent x.core) : Roused p x.core y.core := by
  rcases woken with ⟨v, m, e, w, before, allowed, taken, -, -, -, roused, after⟩
  have start := grows_of_reach consistent before
  have moved := grows_of_reach consistent (before.next allowed taken)
  exact (roused.later start.2).extend (grows_of_reach moved.1 after).2

/-- A call of `sleep` up to its `release(lk)`, and from there on. -/
def dozes (c : Fin 2) (address : ℕ) (lk : Lock) : List (Move 2) :=
  [.acquire c lk, .sleep c address lk, .sleepAcquire c]

def gives (c : Fin 2) : List (Move 2) := [.sleepRelease c, .sleepBody c, .leave c]

/-- The ring of level 2 goes on from the last cell to the first one when `chpr` moves the child of
init, which then calls `sleep`. -/
def childSleeps : List (Move 2) :=
  boots 2 ++ critical 0 (.fork 0) ++ [.bare 0 (.forkKstack 0 (some 3)),
    .bare 0 (.forkCopyuvm 0 (some 4))] ++ critical 0 (.forkReady 0) ++
  (List.replicate 63 (critical 0 (.yield 0) ++ critical 0 (.scheduler 0))).flatten ++
  critical 0 (.chpr 0 1 1) ++ dozes 0 7 1

/-- The scheduler goes through stale cells: it runs init, which sleeps, and then the child. -/
def childFound : List (Move 2) :=
  [.sleepBody 0, .leave 0] ++ critical 0 (.scheduler 0) ++ dozes 0 9 2 ++ gives 0 ++
  critical 0 (.scheduler 0) ++ [.reacquire 0, .release 0 2] ++ dozes 0 9 2 ++ gives 0 ++
  critical 0 (.scheduler 0) ++ [.reacquire 0, .release 0 2] ++ dozes 0 9 2 ++ gives 0 ++
  critical 0 (.scheduler 0) ++ [.reacquire 0, .release 0 1] ++ critical 1 (.scheduler 1) ++
  [.reacquire 1, .release 1 2, .acquire 1 1, .enter 1 (.wakeup (.object 7))]

set_option maxRecDepth 20000 in
/-- A wakeup comes after the release of the lock, and the process has neither been woken nor does it
sleep any more. -/
theorem sleep_wakeup_incorrect : ¬∀ x : Machine 2, MachineReach .mlq (fun _ _ => True) x →
    SleepWakeup .mlq (fun _ _ => True) x := by
  intro claimed
  have found : (makes .mlq childSleeps {}).any (fun x =>
      (x.control 0 = .sleepRelease 7 1 ∧ x.core.cpu 0 = some 1) ∧
      (makes .mlq [.sleepRelease 0] x).any fun y => (makes .mlq childFound y).any fun z =>
        z.control 1 = .body (.wakeup (.object 7)) ∧ (makes .mlq [.body 1] z).isSome ∧
        (z.core.proc 1).state ≠ .sleeping ∧
        readySince 1 z.core.hist ≤ y.core.hist.length) = true := by decide +kernel
  rcases Option.any_eq_true _ _ |>.mp found with ⟨x, slept, found⟩
  rcases of_decide_eq_true found with ⟨⟨control, current⟩, found⟩
  rcases Option.any_eq_true _ _ |>.mp found with ⟨y, released, found⟩
  rcases Option.any_eq_true _ _ |>.mp found with ⟨z, ran, found⟩
  rcases of_decide_eq_true found with ⟨control', woken, awake, unroused⟩
  have reach : MachineReach .mlq (fun _ _ => True) x := makes_reach (fun _ _ => trivial) slept
  have releases : Moves .mlq x (.sleepRelease 0) y := taken_of_makes released
  rcases Option.isSome_iff_exists.mp woken with ⟨u, woken⟩
  have finds := (claimed x reach).other 0 1 7 1 y control current releases z (.body 1)
    (.wakeup (.object 7)) u (makes_reach (fun _ _ => trivial) ran) trivial
    (by simp [Machine.event, control']) rfl (taken_of_makes woken)
  rcases finds with ⟨sleeps, -⟩ | between
  · exact awake sleeps.1
  · have reach' : AnyReach .mlq y.core :=
      MachineReach.core (fun _ _ _ _ _ => trivial) (reach.next trivial releases)
    exact Nat.not_lt_of_le unroused (between.roused (consistent_of_reach reach'))

end Machine

end Xv6
