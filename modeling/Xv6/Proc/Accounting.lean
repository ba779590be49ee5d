import Xv6.Proc.Reaping

/-!
# The times that `waitnstats` reports

A process is `RUNNING`, `RUNNABLE` or `SLEEPING` at every tick from the `fork` that makes it
`RUNNABLE` up to its exit, and its counters say at how many of them it was which.
-/

namespace Xv6

variable {ncpu : ℕ}

/-- How many ticks since `allocproc` has taken its slot have found `p` started and not exited. -/
def lifetime (p : Slot) (hist : List Entry) : ℕ :=
  ticksIn .running p hist + ticksIn .runnable p hist + ticksIn .sleeping p hist

/-- `RUNNING`, `RUNNABLE` or `SLEEPING` -/
def ProcState.Live (state : ProcState) : Prop :=
  state = .running ∨ state = .runnable ∨ state = .sleeping

instance : DecidablePred ProcState.Live := fun state =>
  inferInstanceAs (Decidable (state = .running ∨ state = .runnable ∨ state = .sleeping))

/-- The history of the process that is in slot `p` from the `fork` that makes it `RUNNABLE` on:
`between` comes after that entry, `before` before it. -/
structure Started (p : Slot) (hist between before : List Entry) : Prop where
  split : hist = between ++ .state p .runnable :: before
  embryo : stateOf p before = .embryo
  same : Entry.state p .embryo ∉ between
  alive : Entry.state p .zombie ∉ between
  ticks : lifetime p hist = between.count .tick

/-- The history of a process that has exited: `newest` comes after its exit. -/
structure Exited (p : Slot) (hist newest between before : List Entry) : Prop where
  split : hist = newest ++ .state p .zombie :: (between ++ .state p .runnable :: before)
  embryo : stateOf p before = .embryo
  same : Entry.state p .embryo ∉ newest ++ between
  alive : Entry.state p .zombie ∉ newest ++ between
  ticks : lifetime p hist = between.count .tick

variable {b : Build} {s : State ncpu} {p q : Slot} {state : ProcState}
  {hist between before : List Entry} {entry : Entry}

/-! ## One more entry -/

theorem lifetime_state : lifetime p (.state q state :: hist) =
    if q = p ∧ state = .embryo then 0 else lifetime p hist := by
  cases state <;> simp [lifetime, ticksIn]
  split <;> rfl

theorem lifetime_tick : lifetime p (.tick :: hist) =
    lifetime p hist + if (stateOf p hist).Live then 1 else 0 := by
  simp only [lifetime, ticksIn, ProcState.Live]
  grind

/-- An entry that is no tick and does not say that a slot has been taken. -/
theorem lifetime_other (notTick : entry ≠ .tick) (notTaken : entry ≠ .state p .embryo) :
    lifetime p (entry :: hist) = lifetime p hist := by
  cases entry with
  | state q state => grind [lifetime_state]
  | parent => rfl
  | reap => rfl
  | dropped => rfl
  | tick => exact absurd rfl notTick

/-! ## The life of a process -/

/-- While `p` is an `EMBRYO`, no tick counts. -/
theorem Lawful.lifetime_embryo (lawful : Lawful hist) (embryo : stateOf p hist = .embryo) :
    lifetime p hist = 0 := by
  induction hist with
  | nil => rfl
  | cons entry older ih =>
      cases entry with
      | state q state =>
          have older := ih lawful.2
          have legal := lawful.1
          grind [lifetime_state, stateOf]
      | parent q parent => exact ih lawful embryo
      | reap waiter q times =>
          have older := ih lawful.2
          grind [lifetime_other, stateOf]
      | dropped q => exact ih lawful embryo
      | tick =>
          have told : stateOf p older = .embryo := embryo
          rw [lifetime_tick, told, ih lawful told]
          simp [ProcState.Live]

/-- One more entry in the life of a process. -/
theorem Started.cons (started : Started p hist between before) (live : (stateOf p hist).Live)
    (notTaken : entry ≠ .state p .embryo) (notExit : entry ≠ .state p .zombie) :
    Started p (entry :: hist) (entry :: between) before where
  split := by rw [started.split, List.cons_append]
  embryo := started.embryo
  same := by simp [started.same, notTaken.symm]
  alive := by simp [started.alive, notExit.symm]
  ticks := by
    by_cases tick : entry = .tick
    · rw [tick, lifetime_tick, if_pos live, started.ticks, List.count_cons_self]
    · rw [lifetime_other tick notTaken, started.ticks, List.count_cons_of_ne tick]

/-- A process that is live has been started by a `fork`. -/
theorem Lawful.started (lawful : Lawful hist) (live : (stateOf p hist).Live) :
    ∃ between before, Started p hist between before := by
  induction hist with
  | nil => simp [stateOf, ProcState.Live] at live
  | cons entry older ih =>
      have step : (stateOf p older).Live → Lawful older → entry ≠ .state p .embryo →
          entry ≠ .state p .zombie → ∃ between before, Started p (entry :: older) between before := by
        intro olderLive olderLawful notTaken notExit
        rcases ih olderLawful olderLive with ⟨between, before, started⟩
        exact ⟨entry :: between, before, started.cons olderLive notTaken notExit⟩
      cases entry with
      | state q state =>
          by_cases same : q = p
          · subst same
            have now : state.Live := by simpa [stateOf] using live
            have legal := lawful.1
            by_cases embryo : stateOf q older = .embryo
            · -- the `fork` that starts it
              have runnable : state = .runnable := by
                rw [embryo] at legal
                cases legal with
                | release => simp [ProcState.Live] at now
                | fork => rfl
              subst runnable
              refine ⟨[], older, rfl, embryo, List.not_mem_nil, List.not_mem_nil, ?_⟩
              rw [lifetime_other (by simp) (by simp), lawful.2.lifetime_embryo embryo]
              rfl
            · apply step _ lawful.2
              · rintro ⟨⟩
                simp [ProcState.Live] at now
              · rintro ⟨⟩
                simp [ProcState.Live] at now
              · generalize stateOf q older = old at legal embryo ⊢
                cases legal <;> simp_all [ProcState.Live]
          · have olderLive : (stateOf p older).Live := by simpa [stateOf, same] using live
            exact step olderLive lawful.2 (by simp [same]) (by simp [same])
      | parent q parent => exact step live lawful (by simp) (by simp)
      | reap waiter q times =>
          have olderLive : (stateOf p older).Live := by
            unfold stateOf at live
            split at live
            · simp [ProcState.Live] at live
            · exact live
          exact step olderLive lawful.2 (by simp) (by simp)
      | dropped q => exact step live lawful (by simp) (by simp)
      | tick => exact step live lawful (by simp) (by simp)

/-- A `ZOMBIE` has been started by a `fork` and has exited. -/
theorem Lawful.exited (lawful : Lawful hist) (zombie : stateOf p hist = .zombie) :
    ∃ newest between before, Exited p hist newest between before := by
  induction hist with
  | nil => cases zombie
  | cons entry older ih =>
      have step : stateOf p older = .zombie → Lawful older → entry ≠ .state p .embryo →
          entry ≠ .state p .zombie →
          ∃ newest between before, Exited p (entry :: older) newest between before := by
        intro olderZombie olderLawful notTaken notExit
        rcases ih olderLawful olderZombie with ⟨newest, between, before, exited⟩
        refine ⟨entry :: newest, between, before, ?_, exited.embryo, ?_, ?_, ?_⟩
        · rw [exited.split, List.cons_append]
        · simpa [notTaken.symm] using exited.same
        · simpa [notExit.symm] using exited.alive
        · rw [← exited.ticks]
          by_cases tick : entry = .tick
          · simp [tick, lifetime_tick, olderZombie, ProcState.Live]
          · exact lifetime_other tick notTaken
      cases entry with
      | state q state =>
          by_cases same : q = p
          · subst same
            have now : state = .zombie := by simpa [stateOf] using zombie
            subst now
            have running : stateOf q older = .running := by
              have legal := lawful.1
              generalize stateOf q older = old at legal
              cases legal
              rfl
            rcases lawful.2.started (.inl running) with ⟨between, before, started⟩
            refine ⟨[], between, before, ?_, started.embryo, started.same, started.alive, ?_⟩
            · rw [List.nil_append, ← started.split]
            · rw [lifetime_other (by simp) (by simp), started.ticks]
          · have olderZombie : stateOf p older = .zombie := by simpa [stateOf, same] using zombie
            exact step olderZombie lawful.2 (by simp [same]) (by simp [same])
      | parent q parent => exact step zombie lawful (by simp) (by simp)
      | reap waiter q times =>
          have olderZombie : stateOf p older = .zombie := by
            unfold stateOf at zombie
            split at zombie
            · cases zombie
            · exact zombie
          exact step olderZombie lawful.2 (by simp) (by simp)
      | dropped q => exact step zombie lawful (by simp) (by simp)
      | tick => exact step zombie lawful (by simp) (by simp)

/-! ## waitnstats -/

/-- The times that a call of `waitnstats` reports of `p`: at how many ticks it was `RUNNING`,
`RUNNABLE` and `SLEEPING`, and that these are all ticks from the `fork` that has made it
`RUNNABLE` to its exit. -/
structure TimesReported (p : Slot) (run ready slept : BitVec 32) (hist : List Entry) : Prop where
  running : run = .ofNat 32 (ticksIn .running p hist)
  runnable : ready = .ofNat 32 (ticksIn .runnable p hist)
  sleeping : slept = .ofNat 32 (ticksIn .sleeping p hist)
  total : ∃ newest between before, Exited p hist newest between before ∧
    run + ready + slept = BitVec.ofNat 32 (between.count .tick)

/-- What holds of the counters of all processes, and of the reports made from them. -/
structure TimesCorrect (s : State ncpu) : Prop where
  /-- the history leads to the states of the table -/
  told : ∀ p, (s.proc p).state = stateOf p s.hist
  /-- the counters count the ticks that have found the process in a state -/
  counted : ∀ p, (s.proc p).timerun = .ofNat 32 (ticksIn .running p s.hist) ∧
    (s.proc p).timeready = .ofNat 32 (ticksIn .runnable p s.hist) ∧
    (s.proc p).timeslept = .ofNat 32 (ticksIn .sleeping p s.hist)
  reported : ∀ newer waiter p run ready slept older,
    s.hist = newer ++ .reap waiter p (some (run, ready, slept)) :: older →
    TimesReported p run ready slept older

theorem Lawful.timesReported {newer older : List Entry} {waiter : Slot}
    {run ready slept : BitVec 32}
    (lawful : Lawful (newer ++ .reap waiter p (some (run, ready, slept)) :: older)) :
    TimesReported p run ready slept older := by
  rcases lawful.older with ⟨⟨zombie, -, times⟩, olderLawful⟩
  rcases times run ready slept rfl with ⟨rfl, rfl, rfl⟩
  rcases olderLawful.exited zombie with ⟨newest, between, before, exited⟩
  refine ⟨rfl, rfl, rfl, newest, between, before, exited, ?_⟩
  rw [← exited.ticks, lifetime, BitVec.ofNat_add, BitVec.ofNat_add]

theorem times_correct (reach : AnyReach b s) : TimesCorrect s := by
  have recorded := recorded_of_reach reach
  refine ⟨recorded.state, fun p => (recorded.told p).2.2, ?_⟩
  intro newer waiter p run ready slept older hist
  exact (hist ▸ recorded.lawful).timesReported

/-- Init waits for a child that is `RUNNABLE` at one tick and `RUNNING` at another. -/
theorem times_correct_reaped : TimesCorrect (after .dmlq (boot 1 ++ (forks 1 ++
    [.updateprocesstimes, .waitnstats 0, .scheduler 0, .updateprocesstimes, .exit 0,
      .scheduler 0]))) :=
  times_correct (after_reach (by decide +kernel))

end Xv6
