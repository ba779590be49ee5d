import Xv6.Lib.Transition

/-!
# Monitors

Processes that run sections of code under one lock. In a section a process may change the shared
state, wake all sleepers of some channels, and then leave, or go to sleep on a channel; a sleeper that
is woken runs its next section when it gets the lock again. Interrupts run sections of their own, and
may wake single processes.

`Waiting` says that the sleepers of a channel have a reason to sleep. It is kept if every section that
ends the reason wakes the channel.
-/

namespace Monitor

open Transition

variable {σ ι χ κ ε : Type*}

/-- Where a process is between two sections: outside, waiting for the lock, or asleep. -/
inductive Place (χ κ : Type*) where
  | out
  | ready (next : κ)
  | sleeping (chan : χ) (next : κ)
  deriving DecidableEq

/-- What a section does: the shared state, the channels that it wakes and the place of its process. -/
structure Section (σ χ κ : Type*) where
  shared : σ
  wakes : List χ := []
  place : Place χ κ := .out

/-- What an interrupt does. -/
structure Interrupt (σ ι χ : Type*) where
  shared : σ
  wakes : List χ := []
  rouses : List ι := []

structure Code (σ ι χ κ ε : Type*) where
  body : ι → κ → σ → Section σ χ κ
  interrupt : ε → σ → Interrupt σ ι χ

structure State (σ ι χ κ : Type*) where
  shared : σ
  place : ι → Place χ κ := fun _ => .out

inductive Label (ι κ ε : Type*) where
  /-- A process begins to run the code at `entry`. -/
  | call (i : ι) (entry : κ)
  /-- A process gets the lock and runs a section. -/
  | run (i : ι)
  | interrupt (event : ε)

variable [DecidableEq ι] [DecidableEq χ]

/-- The places after the sleepers of `wakes` and the processes `rouses` have been woken. -/
def wake (wakes : List χ) (rouses : List ι) (place : ι → Place χ κ) (i : ι) : Place χ κ :=
  match place i with
  | .sleeping chan next => if chan ∈ wakes ∨ i ∈ rouses then .ready next else .sleeping chan next
  | other => other

/-- One section, or the beginning of a call. -/
inductive Step (code : Code σ ι χ κ ε) : State σ ι χ κ → Label ι κ ε → State σ ι χ κ → Prop
  | call {s : State σ ι χ κ} {i : ι} (entry : κ) (outside : s.place i = .out) :
      Step code s (.call i entry) { s with place := Function.update s.place i (.ready entry) }
  | run {s : State σ ι χ κ} {i : ι} {next : κ} (ready : s.place i = .ready next) :
      Step code s (.run i)
        { shared := (code.body i next s.shared).shared
          place := Function.update (wake (code.body i next s.shared).wakes [] s.place) i
            (code.body i next s.shared).place }
  | interrupt {s : State σ ι χ κ} (event : ε) :
      Step code s (.interrupt event)
        { shared := (code.interrupt event s.shared).shared
          place := wake (code.interrupt event s.shared).wakes
            (code.interrupt event s.shared).rouses s.place }

variable {code : Code σ ι χ κ ε} {s t : State σ ι χ κ} {label : Label ι κ ε} {i j : ι} {chan : χ}
  {next : κ} {wakes : List χ} {rouses : List ι} {place : ι → Place χ κ}

/-- Whoever sleeps after a wakeup slept before, on a channel that was not woken. -/
theorem sleeping_of_wake (sleeps : wake wakes rouses place i = .sleeping chan next) :
    place i = .sleeping chan next ∧ chan ∉ wakes ∧ i ∉ rouses := by
  unfold wake at sleeps
  cases before : place i with
  | out =>
      rw [before] at sleeps
      cases sleeps
  | ready next' =>
      rw [before] at sleeps
      cases sleeps
  | sleeping chan' next' =>
      rw [before] at sleeps
      dsimp only at sleeps
      split at sleeps
      · cases sleeps
      · rename_i stays
        cases sleeps
        exact ⟨rfl, not_or.1 stays⟩

/-- A wakeup keeps what every process is about to run. -/
theorem wake_cases (wakes : List χ) (rouses : List ι) (place : ι → Place χ κ) (i : ι) :
    wake wakes rouses place i = place i ∨
      ∃ chan next, place i = .sleeping chan next ∧ wake wakes rouses place i = .ready next := by
  unfold wake
  cases before : place i with
  | out => exact .inl rfl
  | ready next => exact .inl rfl
  | sleeping chan next =>
      dsimp only
      split
      · exact .inr ⟨chan, next, rfl, rfl⟩
      · exact .inl rfl

/-- What a process is about to run when it is, or gets, awake. -/
def Place.code? : Place χ κ → Option κ
  | .out => none
  | .ready next => some next
  | .sleeping _ next => some next

@[simp]
theorem wake_code (wakes : List χ) (rouses : List ι) (place : ι → Place χ κ) (i : ι) :
    (wake wakes rouses place i).code? = (place i).code? := by
  rcases wake_cases wakes rouses place i with same | ⟨chan, next, before, after⟩
  · rw [same]
  · rw [before, after]
    rfl

/-- The calls that run. -/
def State.calls (s : State σ ι χ κ) (i : ι) : Option κ := (s.place i).code?

omit [DecidableEq χ] in
theorem calls_call (s : State σ ι χ κ) (i : ι) (entry : κ) :
    State.calls { s with place := Function.update s.place i (.ready entry) } =
      Function.update s.calls i (some entry) := by
  funext j
  unfold State.calls
  by_cases same : j = i
  · subst same
    simp [Place.code?]
  · simp [same]

theorem calls_run (s : State σ ι χ κ) (i : ι) (body : Section σ χ κ) :
    State.calls { shared := body.shared, place := Function.update (wake body.wakes [] s.place) i body.place } =
      Function.update s.calls i body.place.code? := by
  funext j
  unfold State.calls
  by_cases same : j = i
  · subst same
    simp
  · simp [same]

theorem calls_interrupt (s : State σ ι χ κ) (body : Interrupt σ ι χ) :
    State.calls { shared := body.shared, place := wake body.wakes body.rouses s.place } = s.calls := by
  funext j
  exact wake_code _ _ _ j

/-- The sleepers of a channel have a reason to sleep. -/
def Waiting (Waits : χ → σ → Prop) (s : State σ ι χ κ) : Prop :=
  ∀ i chan next, s.place i = .sleeping chan next → Waits chan s.shared

/-- No wakeup is lost: a section that goes to sleep has a reason, and one that ends the reason of
others wakes them. -/
theorem Waiting.step {Waits : χ → σ → Prop} (step : Step code s label t) (waiting : Waiting Waits s)
    (sleeps : ∀ i next chan again, label = .run i → s.place i = .ready next →
      (code.body i next s.shared).place = .sleeping chan again →
      Waits chan (code.body i next s.shared).shared)
    (wakes : ∀ i next j chan again, label = .run i → s.place i = .ready next →
      s.place j = .sleeping chan again → chan ∉ (code.body i next s.shared).wakes →
      Waits chan (code.body i next s.shared).shared)
    (interrupts : ∀ event chan, label = .interrupt event → Waits chan s.shared →
      chan ∉ (code.interrupt event s.shared).wakes →
      Waits chan (code.interrupt event s.shared).shared) : Waiting Waits t := by
  intro j chan next sleeping
  cases step with
  | @call i entry outside =>
      dsimp only at sleeping
      by_cases same : j = i
      · subst same
        rw [Function.update_self] at sleeping
        cases sleeping
      · rw [Function.update_of_ne same] at sleeping
        exact waiting j chan next sleeping
  | @run i entry ready =>
      dsimp only at sleeping
      by_cases same : j = i
      · subst same
        rw [Function.update_self] at sleeping
        exact sleeps _ _ chan next rfl ready sleeping
      · rw [Function.update_of_ne same] at sleeping
        rcases sleeping_of_wake sleeping with ⟨before, notWoken, -⟩
        exact wakes _ _ j chan next rfl ready before notWoken
  | interrupt event =>
      rcases sleeping_of_wake sleeping with ⟨before, notWoken, -⟩
      exact interrupts event chan rfl (waiting j chan next before) notWoken

/-! ## Runs -/

/-- The step of a label, if it can be taken. -/
def take (code : Code σ ι χ κ ε) (s : State σ ι χ κ) : Label ι κ ε → Option (State σ ι χ κ)
  | .call i entry => match s.place i with
      | .out => some { s with place := Function.update s.place i (.ready entry) }
      | _ => none
  | .run i => match s.place i with
      | .ready entry =>
          let body := code.body i entry s.shared
          some { shared := body.shared, place := Function.update (wake body.wakes [] s.place) i body.place }
      | _ => none
  | .interrupt event =>
      let body := code.interrupt event s.shared
      some { shared := body.shared, place := wake body.wakes body.rouses s.place }

theorem step_of_take (taken : take code s label = some t) : Step code s label t := by
  unfold take at taken
  split at taken
  · rename_i i entry
    split at taken
    · rename_i outside
      cases taken
      exact .call entry outside
    · cases taken
  · rename_i i
    split at taken
    · rename_i entry ready
      cases taken
      exact .run ready
    · cases taken
  · cases taken
    exact .interrupt _

/-- A run of given labels, each of which the guard admits. -/
def runs (code : Code σ ι χ κ ε) (guard : State σ ι χ κ → Label ι κ ε → Prop)
    [∀ s label, Decidable (guard s label)] : List (Label ι κ ε) → State σ ι χ κ → Option (State σ ι χ κ)
  | [], s => some s
  | label :: labels, s =>
      if guard s label then (take code s label).bind (runs code guard labels) else none

theorem reachable_of_runs {guard : State σ ι χ κ → Label ι κ ε → Prop}
    [∀ s label, Decidable (guard s label)] {start : State σ ι χ κ} (labels : List (Label ι κ ε)) :
    ∀ {s}, Reachable (Step code) guard start s → runs code guard labels s = some t →
      Reachable (Step code) guard start t := by
  induction labels with
  | nil =>
      intro s reach ran
      cases ran
      exact reach
  | cons label labels ih =>
      intro s reach ran
      unfold runs at ran
      split at ran
      · rename_i admitted
        rcases Option.bind_eq_some_iff.1 ran with ⟨s', taken, rest⟩
        exact ih (reach.next admitted (step_of_take taken)) rest
      · cases ran

end Monitor
