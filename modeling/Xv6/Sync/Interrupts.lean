import Xv6.Sync.CriticalSection

/-!
# Interrupts and locks on all CPUs

The invariant of the machine. Each CPU runs code that is safe from its view, whatever the other CPUs
do; a kernel stack that no CPU runs on can be resumed by any CPU that holds just `ptable.lock`.
-/

namespace Xv6.Spin

open Transition

variable {ncpu : ℕ} {s s' : Machine ncpu} {c d : Fin ncpu}

namespace Machine

/-- The state of the process of a thread. -/
def stateOf (s : Machine ncpu) : Thread ncpu → ProcState
  | .scheduler _ => .running
  | .process p => s.state p

def view (s : Machine ncpu) (c : Fin ncpu) : View where
  on := (s.cpu c).interrupts
  ncli := (s.cpu c).ncli
  intena := (s.cpu c).intena
  held := (s.cpu c).held
  mine lk := decide ((s.lock lk).cpu = some c)
  proc := (s.cpu c).proc
  self := (s.cpu c).thread.proc
  state := s.stateOf (s.cpu c).thread

end Machine

/-- What a lock says about the CPUs that hold it. -/
structure Locks (s : Machine ncpu) : Prop where
  locked : ∀ lk, (s.lock lk).locked = true ↔ ∃ c, lk ∈ (s.cpu c).held
  single : ∀ lk c d, lk ∈ (s.cpu c).held → lk ∈ (s.cpu d).held → c = d
  named : ∀ lk c, (s.lock lk).cpu = some c → lk ∈ (s.cpu c).held
  nodup : ∀ c, (s.cpu c).held.Nodup

/-- A frame that an interrupt can return to. -/
def Resumable (self : Option ℕ) (f : Frame) : Prop :=
  ∀ intena, Pre f.todo f.locals (View.outside self intena)

/-- A stack that a CPU can switch to. -/
def Parked (t : Thread ncpu) (stack : List Frame) : Prop :=
  ∃ f below, stack = f :: below ∧
    (∀ proc intena, (t.proc = none ∨ proc = t.proc) →
      Pre f.todo f.locals (View.switched t.proc proc intena)) ∧
    ∀ g ∈ below, Resumable t.proc g

/-- The stack that a CPU runs on. -/
def Active (s : Machine ncpu) (c : Fin ncpu) : Prop :=
  ∃ f below, s.stack (s.cpu c).thread = f :: below ∧ Pre f.todo f.locals (s.view c) ∧
    ∀ g ∈ below, Resumable (s.cpu c).thread.proc g

structure Inv (s : Machine ncpu) : Prop where
  locks : Locks s
  apart : ∀ c d, (s.cpu c).thread = (s.cpu d).thread → c = d
  home : ∀ c d, (s.cpu c).thread = .scheduler d → d = c
  stopped : ∀ c p, (s.cpu c).thread = .process p → s.state p ≠ .running → .ptable ∈ (s.cpu c).held
  live : ∀ c, s.stack (s.cpu c).thread ≠ []
  active : ∀ c, (s.cpu c).panicked = none → Active s c
  halted : ∀ c, (s.cpu c).panicked ≠ none → (s.cpu c).interrupts = false
  parked : ∀ t, (∀ c, (s.cpu c).thread ≠ t) → s.stack t = [] ∧ s.stateOf t = .unused ∨
    s.stateOf t = .zombie ∨ Parked t (s.stack t)
  returned : ∀ t, ∀ f ∈ s.stack t, ∀ p, f.locals.p = some p → p = t.proc

/-! ## Steps of one CPU -/

/-- Safe code can run its next instruction. -/
theorem Pre.wp {i : Instr} {rest : List Instr} {l : Locals} {v : View}
    (pre : Pre (i :: rest) l v) : i.wp (Pre rest) l v := by
  cases on : v.on with
  | false => exact (pre_off on).1 pre
  | true =>
      rcases (pre_on on).1 pre with ⟨out, wp⟩
      rw [out]
      exact wp v.intena

theorem Pre.resumable {f : Frame} {v : View} (pre : Pre f.todo f.locals v) (on : v.on = true) :
    v = View.outside v.self v.intena ∧ Resumable v.self f := by
  unfold Resumable
  cases todo : f.todo with
  | nil =>
      rw [todo] at pre
      have out := Idle.interruptible pre on
      refine ⟨out, fun intena => ⟨?_, rfl⟩⟩
      have quiet := pre.1.withIntena intena (pre.1.off on)
      rw [out] at quiet
      exact quiet
  | cons i rest =>
      rw [todo] at pre
      rcases (pre_on on).1 pre with ⟨out, wp⟩
      exact ⟨out, fun intena => (pre_on rfl).2 ⟨rfl, wp⟩⟩

/-- What a step of a CPU on its stack leaves alone. -/
structure Frames (s : Machine ncpu) (c : Fin ncpu) (s' : Machine ncpu) : Prop where
  others : ∀ d, d ≠ c → s'.cpu d = s.cpu d
  names : ∀ d lk, d ≠ c → ((s'.lock lk).cpu = some d ↔ (s.lock lk).cpu = some d)
  thread : (s'.cpu c).thread = (s.cpu c).thread
  panicked : (s'.cpu c).panicked = (s.cpu c).panicked
  stack : s'.stack = s.stack
  state : ∀ p, (s.cpu c).thread ≠ .process p → s'.state p = s.state p

theorem Frames.refl : Frames s c s where
  others := fun _ _ => rfl
  names := fun _ _ _ => Iff.rfl
  thread := rfl
  panicked := rfl
  stack := rfl
  state := fun _ _ => rfl

theorem Frames.thread_eq (frames : Frames s c s') (d : Fin ncpu) :
    (s'.cpu d).thread = (s.cpu d).thread := by
  by_cases same : d = c
  · rw [same]
    exact frames.thread
  · rw [frames.others d same]

theorem Frames.stateOf (frames : Frames s c s') {t : Thread ncpu} (other : (s.cpu c).thread ≠ t) :
    s'.stateOf t = s.stateOf t := by
  cases t with
  | scheduler d => rfl
  | process p => exact frames.state p other

theorem Frames.view (frames : Frames s c s') (inv : Inv s) (other : d ≠ c) :
    s'.view d = s.view d := by
  have cpu := frames.others d other
  have state : s'.stateOf (s.cpu d).thread = s.stateOf (s.cpu d).thread :=
    frames.stateOf fun same => other (inv.apart c d same).symm
  have mine : (fun lk => decide ((s'.lock lk).cpu = some d)) =
      fun lk => decide ((s.lock lk).cpu = some d) :=
    funext fun lk => decide_eq_decide.2 (frames.names d lk other)
  unfold Machine.view
  rw [cpu, state, mine]

/-- A step that changes the stack of its CPU. -/
theorem Inv.replace (inv : Inv s) (frames : Frames s c s') (running : (s.cpu c).panicked = none)
    {g : Frame} {below : List Frame} (resumable : ∀ h ∈ below, Resumable (s.cpu c).thread.proc h) (locks : Locks s')
    (stopped : ∀ p, (s.cpu c).thread = .process p → s'.state p ≠ .running →
      .ptable ∈ (s'.cpu c).held)
    (pre : Pre g.todo g.locals (s'.view c))
    (returned : ∀ h ∈ g :: below, ∀ p, h.locals.p = some p → p = (s.cpu c).thread.proc) :
    Inv (s'.setStack (s.cpu c).thread (g :: below)) where
  locks := ⟨locks.locked, locks.single, locks.named, locks.nodup⟩
  apart := by
    intro d e same
    refine inv.apart d e ?_
    rw [← frames.thread_eq d, ← frames.thread_eq e]
    exact same
  home := by
    intro d e same
    refine inv.home d e ?_
    rw [← frames.thread_eq d]
    exact same
  stopped := by
    intro d p process
    have process' : (s.cpu d).thread = .process p := (frames.thread_eq d).symm.trans process
    by_cases same : d = c
    · subst same
      exact stopped p process'
    · intro state
      have cpu := frames.others d same
      show _ ∈ (s'.cpu d).held
      rw [cpu]
      refine inv.stopped d p process' ?_
      rw [← frames.state p fun own => same (inv.apart d c (process'.trans own.symm))]
      exact state
  live := by
    intro d
    show Function.update s'.stack _ _ (s'.cpu d).thread ≠ []
    rw [frames.thread_eq d]
    by_cases same : (s.cpu d).thread = (s.cpu c).thread
    · rw [same, Function.update_self]
      exact List.cons_ne_nil _ _
    · rw [Function.update_of_ne same, frames.stack]
      exact inv.live d
  active := by
    intro d alive
    by_cases same : d = c
    · subst same
      refine ⟨g, below, ?_, pre, ?_⟩
      · show Function.update s'.stack _ _ (s'.cpu d).thread = _
        rw [frames.thread, Function.update_self]
      · intro h member
        show Resumable (s'.cpu d).thread.proc h
        rw [frames.thread]
        exact resumable h member
    · have cpu := frames.others d same
      have alive' : (s.cpu d).panicked = none := cpu ▸ alive
      rcases inv.active d alive' with ⟨f', below', stack', pre', resumable'⟩
      refine ⟨f', below', ?_, ?_, ?_⟩
      · show Function.update s'.stack _ _ (s'.cpu d).thread = _
        rw [cpu, Function.update_of_ne fun own => same (inv.apart d c own), frames.stack]
        exact stack'
      · have view := frames.view inv same
        show Pre _ _ (s'.view d)
        rw [view]
        exact pre'
      · show ∀ h ∈ below', Resumable (s'.cpu d).thread.proc h
        rw [cpu]
        exact resumable'
  halted := by
    intro d dead
    by_cases same : d = c
    · subst same
      exact absurd (frames.panicked.trans running) dead
    · show (s'.cpu d).interrupts = false
      rw [frames.others d same]
      refine inv.halted d ?_
      rw [← frames.others d same]
      exact dead
  parked := by
    intro t away
    have away' : ∀ d, (s.cpu d).thread ≠ t := fun d => frames.thread_eq d ▸ away d
    have state : s'.stateOf t = s.stateOf t := frames.stateOf (away' c)
    show Function.update s'.stack _ _ t = [] ∧ s'.stateOf t = _ ∨ s'.stateOf t = _ ∨
      Parked t (Function.update s'.stack _ _ t)
    rw [Function.update_of_ne (away' c).symm, frames.stack, state]
    exact inv.parked t away'
  returned := by
    intro t h member p result
    change h ∈ Function.update s'.stack _ _ t at member
    by_cases same : t = (s.cpu c).thread
    · subst same
      rw [Function.update_self] at member
      exact returned h member p result
    · rw [Function.update_of_ne same, frames.stack] at member
      exact inv.returned t h member p result

/-! ## Instructions -/

/-- What an instruction other than `swtch` does for the code after it. -/
structure Stepped (s : Machine ncpu) (c : Fin ncpu) (rest : List Instr) (l : Locals)
    (s' : Machine ncpu) (l' : Locals) : Prop where
  frames : Frames s c s'
  locks : Locks s'
  stopped : ∀ p, (s.cpu c).thread = .process p → s'.state p ≠ .running → .ptable ∈ (s'.cpu c).held
  pre : Pre rest l' (s'.view c)
  returned : ∀ p, l'.p = some p → l.p = some p ∨ p = (s.cpu c).thread.proc

variable {rest : List Instr} {l l' : Locals} {lk : LockName}

/-- The instruction only sets local variables. -/
theorem Stepped.ofLocals (inv : Inv s) (pre : Pre rest l' (s.view c))
    (returned : ∀ p, l'.p = some p → l.p = some p ∨ p = (s.cpu c).thread.proc) :
    Stepped s c rest l s l' where
  frames := Frames.refl
  locks := inv.locks
  stopped := inv.stopped c
  pre := pre
  returned := returned

@[simp]
theorem setCpu_self (s : Machine ncpu) (c : Fin ncpu) (cpu : Cpu ncpu) :
    (s.setCpu c cpu).cpu c = cpu := Function.update_self ..

theorem setCpu_other (s : Machine ncpu) (cpu : Cpu ncpu) (other : d ≠ c) :
    (s.setCpu c cpu).cpu d = s.cpu d := Function.update_of_ne other ..

/-- The locks that every CPU holds stay the same. -/
theorem setCpu_held (s : Machine ncpu) (c : Fin ncpu) (cpu : Cpu ncpu)
    (held : cpu.held = (s.cpu c).held) (d : Fin ncpu) :
    ((s.setCpu c cpu).cpu d).held = (s.cpu d).held := by
  by_cases same : d = c
  · rw [same, setCpu_self, held]
  · rw [setCpu_other s cpu same]

theorem Locks.congr (locks : Locks s) (lock : s'.lock = s.lock)
    (held : ∀ d, (s'.cpu d).held = (s.cpu d).held) : Locks s' := by
  constructor
  · intro lk
    rw [lock, locks.locked lk]
    simp only [held]
  · intro lk d e
    rw [held, held]
    exact locks.single lk d e
  · intro lk d
    rw [lock, held]
    exact locks.named lk d
  · intro d
    rw [held]
    exact locks.nodup d

theorem Frames.ofCpu {cpu : Cpu ncpu} (thread : cpu.thread = (s.cpu c).thread)
    (panicked : cpu.panicked = (s.cpu c).panicked) : Frames s c (s.setCpu c cpu) where
  others := fun d other => setCpu_other s cpu other
  names := fun _ _ _ => Iff.rfl
  thread := by rw [setCpu_self, thread]
  panicked := by rw [setCpu_self, panicked]
  stack := rfl
  state := fun _ _ => rfl

/-- The view of a CPU that goes on with its thread. -/
theorem view_setCpu (s : Machine ncpu) {c : Fin ncpu} {cpu : Cpu ncpu}
    (thread : cpu.thread = (s.cpu c).thread) :
    (s.setCpu c cpu).view c = { s.view c with
      on := cpu.interrupts, ncli := cpu.ncli, intena := cpu.intena, held := cpu.held,
      proc := cpu.proc } := by
  unfold Machine.view
  rw [setCpu_self, thread]
  rfl

/-- The instruction only sets the flags of its CPU. -/
theorem Stepped.ofCpu (inv : Inv s) {cpu : Cpu ncpu} (thread : cpu.thread = (s.cpu c).thread)
    (panicked : cpu.panicked = (s.cpu c).panicked) (held : cpu.held = (s.cpu c).held)
    (pre : Pre rest l { s.view c with
      on := cpu.interrupts, ncli := cpu.ncli, intena := cpu.intena, proc := cpu.proc }) :
    Stepped s c rest l (s.setCpu c cpu) l where
  frames := Frames.ofCpu thread panicked
  locks := inv.locks.congr rfl (setCpu_held s c cpu held)
  stopped := by
    intro p process stopped
    rw [setCpu_held s c cpu held]
    exact inv.stopped c p process stopped
  pre := by
    rw [view_setCpu s thread, held]
    exact pre
  returned := fun _ result => .inl result

/-- `xchg` finds the lock free. -/
theorem Locks.take (locks : Locks s) (free : (s.lock lk).locked = false) :
    Locks ((s.setLock lk { s.lock lk with locked := true }).setCpu c
      { s.cpu c with held := lk :: (s.cpu c).held }) := by
  have nobody : ∀ d, lk ∉ (s.cpu d).held := by
    intro d member
    rw [(locks.locked lk).2 ⟨d, member⟩] at free
    cases free
  have held : ∀ d lk', lk' ∈ (((s.setLock lk { s.lock lk with locked := true }).setCpu c
      { s.cpu c with held := lk :: (s.cpu c).held }).cpu d).held ↔
      d = c ∧ lk' = lk ∨ lk' ∈ (s.cpu d).held := by
    intro d lk'
    by_cases same : d = c
    · subst same
      rw [setCpu_self, List.mem_cons]
      simp
    · rw [setCpu_other _ _ same]
      simp [same, Machine.setLock]
  constructor
  · intro lk'
    simp only [held]
    by_cases same : lk' = lk
    · subst same
      simp [Machine.setCpu, Machine.setLock]
    · simpa [Machine.setCpu, Machine.setLock, same] using locks.locked lk'
  · intro lk' d e inD inE
    rcases (held d lk').1 inD with ⟨rfl, rfl⟩ | beforeD
    · rcases (held e lk').1 inE with ⟨rfl, -⟩ | beforeE
      · rfl
      · exact absurd beforeE (nobody e)
    · rcases (held e lk').1 inE with ⟨rfl, rfl⟩ | beforeE
      · exact absurd beforeD (nobody d)
      · exact locks.single lk' d e beforeD beforeE
  · intro lk' d named
    refine (held d lk').2 (.inr (locks.named lk' d ?_))
    by_cases same : lk' = lk
    · subst same
      simpa [Machine.setCpu, Machine.setLock] using named
    · simpa [Machine.setCpu, Machine.setLock, same] using named
  · intro d
    by_cases same : d = c
    · subst same
      rw [setCpu_self]
      exact List.nodup_cons.2 ⟨nobody d, locks.nodup d⟩
    · rw [setCpu_other _ _ same]
      exact locks.nodup d

/-- The store that frees a lock. -/
theorem Locks.free (locks : Locks s) (member : lk ∈ (s.cpu c).held)
    (unnamed : (s.lock lk).cpu ≠ some c) :
    Locks ((s.setLock lk { s.lock lk with locked := false }).setCpu c
      { s.cpu c with held := (s.cpu c).held.erase lk }) := by
  have held : ∀ d lk', lk' ∈ (((s.setLock lk { s.lock lk with locked := false }).setCpu c
      { s.cpu c with held := (s.cpu c).held.erase lk }).cpu d).held ↔
      lk' ≠ lk ∧ lk' ∈ (s.cpu d).held := by
    intro d lk'
    by_cases same : d = c
    · subst same
      rw [setCpu_self]
      exact (locks.nodup d).mem_erase_iff
    · rw [setCpu_other _ _ same]
      refine ⟨fun inD => ⟨?_, inD⟩, fun both => both.2⟩
      rintro rfl
      exact same (locks.single _ d c inD member)
  constructor
  · intro lk'
    simp only [held]
    by_cases same : lk' = lk
    · subst same
      simp [Machine.setCpu, Machine.setLock]
    · simpa [Machine.setCpu, Machine.setLock, same] using locks.locked lk'
  · intro lk' d e inD inE
    exact locks.single lk' d e ((held d lk').1 inD).2 ((held e lk').1 inE).2
  · intro lk' d named
    refine (held d lk').2 ?_
    by_cases same : lk' = lk
    · subst same
      have before : (s.lock lk').cpu = some d := by
        simpa [Machine.setCpu, Machine.setLock] using named
      have own := locks.single lk' d c (locks.named lk' d before) member
      exact absurd (own ▸ before) unnamed
    · refine ⟨same, locks.named lk' d ?_⟩
      simpa [Machine.setCpu, Machine.setLock, same] using named
  · intro d
    by_cases same : d = c
    · subst same
      rw [setCpu_self]
      exact (locks.nodup d).erase lk
    · rw [setCpu_other _ _ same]
      exact locks.nodup d

/-- A CPU writes the `cpu` of a lock that it holds. -/
theorem Locks.name (locks : Locks s) (member : lk ∈ (s.cpu c).held) (cpu : Option (Fin ncpu))
    (own : cpu = some c ∨ cpu = none) : Locks (s.setLock lk { s.lock lk with cpu }) := by
  constructor
  · intro lk'
    refine Iff.trans ?_ (locks.locked lk')
    by_cases same : lk' = lk
    · subst same
      simp [Machine.setLock]
    · simp [Machine.setLock, same]
  · exact locks.single
  · intro lk' d named
    by_cases same : lk' = lk
    · subst same
      have set : cpu = some d := by simpa [Machine.setLock] using named
      rcases own with mine | nobody
      · cases mine.symm.trans set
        exact member
      · cases nobody.symm.trans set
    · refine locks.named lk' d ?_
      simpa [Machine.setLock, same] using named
  · exact locks.nodup

/-- Nobody else is named by a lock that the CPU holds. -/
theorem Locks.names (locks : Locks s) (member : lk ∈ (s.cpu c).held) (cpu : Option (Fin ncpu))
    (own : cpu = some c ∨ cpu = none) (other : d ≠ c) (lk' : LockName) :
    ((s.setLock lk { s.lock lk with cpu }).lock lk').cpu = some d ↔ (s.lock lk').cpu = some d := by
  by_cases same : lk' = lk
  · subst same
    have before : (s.lock lk').cpu ≠ some d :=
      fun named => other (locks.single lk' d c (locks.named lk' d named) member)
    have after : cpu ≠ some d := by
      rintro rfl
      rcases own with mine | nobody
      · exact other (Option.some.inj mine)
      · cases nobody
    simp [Machine.setLock, before, after]
  · simp [Machine.setLock, same]

theorem view_lock (s : Machine ncpu) (c : Fin ncpu) (lk : LockName) (locked : Bool) :
    (s.setLock lk { s.lock lk with locked }).view c = s.view c := by
  have mine : (fun lk' => decide (((s.setLock lk { s.lock lk with locked }).lock lk').cpu = some c)) =
      (s.view c).mine := by
    funext lk'
    by_cases same : lk' = lk
    · subst same
      simp [Machine.setLock, Machine.view]
    · simp [Machine.setLock, Machine.view, same]
  unfold Machine.view at mine ⊢
  rw [mine]
  rfl

/-- The view after a lock has been taken or freed. -/
theorem view_locked (s : Machine ncpu) (c : Fin ncpu) (lk : LockName) (locked : Bool)
    (held : List LockName) :
    ((s.setLock lk { s.lock lk with locked }).setCpu c { s.cpu c with held }).view c =
      { s.view c with held } := by
  have same := view_lock s c lk locked
  rw [view_setCpu (s.setLock lk { s.lock lk with locked })
    (show ({ s.cpu c with held } : Cpu ncpu).thread = (s.cpu c).thread from rfl), same]
  rfl

theorem thread_of_self {p : ℕ} (self : (s.view c).self = some p) :
    (s.cpu c).thread = .process p := by
  change (s.cpu c).thread.proc = some p at self
  cases thread : (s.cpu c).thread with
  | scheduler d =>
      rw [thread] at self
      cases self
  | process q =>
      rw [thread] at self
      cases self
      rfl

/-- The view after a process has set its own state. -/
theorem view_setState {p : ℕ} (own : (s.cpu c).thread = .process p) (state : ProcState) :
    (s.setState p state).view c = { s.view c with state } := by
  have after : (s.setState p state).stateOf (s.cpu c).thread = state := by
    rw [own]
    exact Function.update_self ..
  unfold Machine.view
  rw [show (s.setState p state).cpu = s.cpu from rfl, after]
  rfl

/-- The view after the `cpu` of a lock has been written. -/
theorem view_name (s : Machine ncpu) (c : Fin ncpu) (lk : LockName) (cpu : Option (Fin ncpu)) :
    (s.setLock lk { s.lock lk with cpu }).view c = { s.view c with
      mine := Function.update (s.view c).mine lk (decide (cpu = some c)) } := by
  have mine : (fun lk' => decide (((s.setLock lk { s.lock lk with cpu }).lock lk').cpu = some c)) =
      Function.update (s.view c).mine lk (decide (cpu = some c)) := by
    funext lk'
    by_cases same : lk' = lk
    · subst same
      simp [Machine.setLock]
    · simp [Machine.setLock, Machine.view, same]
  unfold Machine.view
  rw [mine]
  rfl

variable {i : Instr} {why : Panic}

/-- Code that calls `mycpu` with interrupts off. -/
theorem mycpu_off {body : Outcome ncpu} (off : (s.view c).on = false) : mycpu s c body = body := by
  have off' : (s.cpu c).interrupts = false := off
  unfold mycpu
  rw [off', if_neg Bool.false_ne_true]

theorem exec_stepped (inv : Inv s) (wp : i.wp (Pre rest) l (s.view c)) (notSwtch : i ≠ .swtch) (ran : exec s c l i = some (.next s' l')) :
    Stepped s c rest l s' l' := by
  cases i with
  | readeflags =>
      cases ran
      exact .ofLocals inv wp fun _ result => .inl result
  | cli =>
      cases ran
      exact .ofCpu inv rfl rfl rfl wp
  | saveIntena =>
      rcases wp with ⟨off, pre⟩
      simp only [exec, mycpu_off off] at ran
      split at ran <;> rename_i zero
      · cases ran
        refine .ofCpu inv rfl rfl rfl ?_
        rw [if_pos (show (s.view c).ncli = 0 from zero)] at pre
        exact pre
      · cases ran
        rw [if_neg (show (s.view c).ncli ≠ 0 from zero)] at pre
        exact .ofLocals inv pre fun _ result => .inl result
  | incNcli =>
      rcases wp with ⟨off, pre⟩
      simp only [exec, mycpu_off off] at ran
      cases ran
      exact .ofCpu inv rfl rfl rfl pre
  | checkInterruptible =>
      rcases wp with ⟨off, pre⟩
      have off' : (s.cpu c).interrupts = false := off
      simp only [exec, off'] at ran
      cases ran
      exact .ofLocals inv pre fun _ result => .inl result
  | decNcli =>
      rcases wp with ⟨off, positive, pre⟩
      simp only [exec, mycpu_off off] at ran
      split at ran
      · cases ran
      · cases ran
        exact .ofCpu inv rfl rfl rfl pre
  | restore =>
      rcases wp with ⟨off, pre⟩
      simp only [exec, mycpu_off off] at ran
      split at ran <;> rename_i outermost
      · cases ran
        refine .ofCpu inv rfl rfl rfl ?_
        have on : (decide ((s.view c).ncli = 0) && (s.view c).intena) = true := by
          rw [decide_eq_true (show (s.view c).ncli = 0 from outermost.1), Bool.true_and]
          exact outermost.2
        rw [on] at pre
        exact pre
      · cases ran
        refine .ofLocals inv ?_ fun _ result => .inl result
        have on : (decide ((s.view c).ncli = 0) && (s.view c).intena) = (s.view c).on := by
          rw [off, Bool.and_eq_false_iff, ← Bool.not_eq_true, ← Bool.not_eq_true,
            decide_eq_true_iff]
          exact not_and_or.1 outermost
        rw [on] at pre
        exact pre
  | readLocked lk =>
      cases ran
      refine .ofLocals inv (wp _ ?_) fun _ result => .inl result
      exact fun member => (inv.locks.locked lk).2 ⟨c, member⟩
  | readCpu lk =>
      rcases wp with ⟨off, pre⟩
      simp only [exec, mycpu_off off] at ran
      split at ran <;> rename_i r
      · cases ran
        rw [r, Bool.true_and] at pre
        exact .ofLocals inv pre fun _ result => .inl result
      · cases ran
        have none : l.r = false := Bool.not_eq_true _ ▸ r
        rw [none, Bool.false_and, ← none] at pre
        exact .ofLocals inv pre fun _ result => .inl result
  | checkAcquire lk =>
      rcases wp with ⟨exact', pre⟩
      simp only [exec] at ran
      split at ran <;> rename_i r
      · cases ran
      · cases ran
        exact .ofLocals inv (pre fun member => r (exact'.2 member)) fun _ result => .inl result
  | xchg lk =>
      rcases wp with ⟨off, new, pre⟩
      simp only [exec] at ran
      split at ran <;> rename_i taken
      · cases ran
      · cases ran
        refine ⟨⟨?_, ?_, ?_, ?_, rfl, fun _ _ => rfl⟩, ?_, ?_, ?_, fun _ result => .inl result⟩
        · exact fun d other => setCpu_other _ _ other
        · intro d lk' other
          by_cases same : lk' = lk
          · subst same
            simp [Machine.setCpu, Machine.setLock]
          · simp [Machine.setCpu, Machine.setLock, same]
        · rw [setCpu_self]
        · rw [setCpu_self]
        · exact inv.locks.take (Bool.not_eq_true _ ▸ taken)
        · intro p process stopped
          rw [setCpu_self]
          exact List.mem_cons_of_mem _ (inv.stopped c p process stopped)
        · rw [view_locked]
          exact pre
  | setCpu lk =>
      rcases wp with ⟨off, member, pre⟩
      simp only [exec, mycpu_off off] at ran
      cases ran
      refine ⟨⟨fun _ _ => rfl, ?_, rfl, rfl, rfl, fun _ _ => rfl⟩, ?_, inv.stopped c, ?_,
        fun _ result => .inl result⟩
      · exact fun d lk' other => inv.locks.names member _ (.inl rfl) other lk'
      · exact inv.locks.name member _ (.inl rfl)
      · rw [view_name, decide_eq_true rfl]
        exact pre
  | checkRelease lk =>
      rcases wp with ⟨exact', pre⟩
      simp only [exec] at ran
      split at ran <;> rename_i r
      · cases ran
        exact .ofLocals inv (pre (exact'.1 r)) fun _ result => .inl result
      · cases ran
  | clearCpu lk =>
      rcases wp with ⟨mine, pre⟩
      have member : lk ∈ (s.cpu c).held := inv.locks.named lk c (of_decide_eq_true mine)
      cases ran
      refine ⟨⟨fun _ _ => rfl, ?_, rfl, rfl, rfl, fun _ _ => rfl⟩, ?_, inv.stopped c, ?_,
        fun _ result => .inl result⟩
      · exact fun d lk' other => inv.locks.names member _ (.inr rfl) other lk'
      · exact inv.locks.name member _ (.inr rfl)
      · rw [view_name, decide_eq_false (fun h => nomatch h)]
        exact pre
  | unlock lk =>
      rcases wp with ⟨member, unnamed, running, pre⟩
      cases ran
      refine ⟨⟨?_, ?_, ?_, ?_, rfl, fun _ _ => rfl⟩, ?_, ?_, ?_, fun _ result => .inl result⟩
      · exact fun d other => setCpu_other _ _ other
      · intro d lk' other
        by_cases same : lk' = lk
        · subst same
          simp [Machine.setCpu, Machine.setLock]
        · simp [Machine.setCpu, Machine.setLock, same]
      · rw [setCpu_self]
      · rw [setCpu_self]
      · exact inv.locks.free member (of_decide_eq_false unnamed)
      · intro p process stopped
        rw [setCpu_self]
        refine (List.mem_erase_of_ne ?_).2 (inv.stopped c p process stopped)
        intro same
        have own := running same.symm
        unfold Machine.view Machine.stateOf at own
        rw [process] at own
        exact stopped own
      · rw [view_locked]
        exact pre
  | readProc =>
      rcases wp with ⟨off, own, pre⟩
      simp only [exec, mycpu_off off] at ran
      cases ran
      refine .ofLocals inv pre ?_
      intro p result
      exact .inr ((Option.some.inj result).symm.trans own)
  | checkSleep =>
      rcases wp with ⟨p, pre⟩
      simp only [exec] at ran
      split at ran
      · cases ran
      · rename_i process
        cases ran
        refine .ofLocals inv (pre ?_) fun _ result => .inl result
        intro none
        rw [p, none] at process
        cases process
  | checkLk lk =>
      simp only [exec] at ran
      cases lk with
      | none => cases ran
      | some lk =>
          cases ran
          refine .ofLocals inv (wp (Option.some_ne_none lk)) fun _ result => .inl result
  | setState state =>
      rcases wp with ⟨p, member, stops, pre⟩
      simp only [exec] at ran
      split at ran
      · cases ran
      · rename_i q process
        cases ran
        have self : (s.view c).self = some q := by
          rw [p] at process
          exact process
        have own := thread_of_self self
        refine ⟨⟨fun _ _ => rfl, fun _ _ _ => Iff.rfl, rfl, rfl, rfl, ?_⟩,
          inv.locks.congr rfl fun _ => rfl, fun _ _ _ => member, ?_, fun _ result => .inl result⟩
        · intro q' other
          refine Function.update_of_ne ?_ ..
          rintro rfl
          exact other own
        · rw [view_setState own]
          refine pre ?_
          rw [self]
          exact Option.some_ne_none q
  | checkSched =>
      rcases wp with ⟨r, off, p, -, -, -, pre⟩
      simp only [exec, r, mycpu_off off] at ran
      split at ran
      · cases ran
      · split at ran <;> rename_i one
        · cases ran
        · split at ran
          · cases ran
          · rename_i q process
            split at ran
            · cases ran
            · split at ran
              · cases ran
              · cases ran
                refine .ofLocals inv (pre (not_not.1 one) ?_) fun _ result => .inl result
                intro none
                rw [p, none] at process
                cases process
  | saveThread =>
      rcases wp with ⟨off, pre⟩
      simp only [exec, mycpu_off off] at ran
      cases ran
      exact .ofLocals inv pre fun _ result => .inl result
  | swtch => exact absurd rfl notSwtch
  | restoreThread =>
      rcases wp with ⟨off, pre⟩
      simp only [exec, mycpu_off off] at ran
      cases ran
      exact .ofCpu inv rfl rfl rfl pre
  | zombieExit => cases wp
  | sti =>
      rcases wp with ⟨-, -, pre⟩
      cases ran
      exact .ofCpu inv rfl rfl rfl pre
  | dispatch => cases ran
  | clearProc =>
      rcases wp with ⟨-, -, pre⟩
      cases ran
      exact .ofCpu inv rfl rfl rfl pre
  | again => cases ran

/-! ## Switching between stacks -/

/-- The CPU goes over to the stack of `u`, and leaves `stack` behind. -/
def Machine.switchTo (s : Machine ncpu) (c : Fin ncpu) (u : Thread ncpu) (proc : Option ℕ)
    (stack : List Frame) (state : ℕ → ProcState) : Machine ncpu where
  cpu := Function.update s.cpu c { s.cpu c with proc, thread := u }
  lock := s.lock
  stack := Function.update s.stack (s.cpu c).thread stack
  state

variable {f g : Frame} {below stack : List Frame} {t u : Thread ncpu} {proc : Option ℕ}
  {state : ℕ → ProcState}

@[simp]
theorem switchTo_self : (s.switchTo c u proc stack state).cpu c =
    { s.cpu c with proc, thread := u } := Function.update_self ..

theorem switchTo_other (other : d ≠ c) : (s.switchTo c u proc stack state).cpu d = s.cpu d :=
  Function.update_of_ne other ..

theorem switchTo_left : (s.switchTo c u proc stack state).stack (s.cpu c).thread = stack :=
  Function.update_self ..

theorem switchTo_stack (other : t ≠ (s.cpu c).thread) :
    (s.switchTo c u proc stack state).stack t = s.stack t := Function.update_of_ne other ..

theorem switchTo_stateOf (same : ∀ p, u ≠ .process p → state p = s.state p) (other : u ≠ t) :
    (s.switchTo c u proc stack state).stateOf t = s.stateOf t := by
  cases t with
  | scheduler d => rfl
  | process p => exact same p other

/-- A CPU that holds just `ptable.lock` goes over to a stack that no CPU runs on. -/
theorem Inv.switch (inv : Inv s) (running : (s.cpu c).panicked = none)
    (stack : s.stack (s.cpu c).thread = f :: below)
    (away : ∀ d, (s.cpu d).thread ≠ u) (home : ∀ d, u = .scheduler d → d = c)
    (view : s.view c = { View.switched (s.cpu c).thread.proc (s.cpu c).proc (s.cpu c).intena with
      state := s.stateOf (s.cpu c).thread })
    (own : u.proc = none ∨ proc = u.proc) (next : Parked u (s.stack u))
    (last : s.stateOf (s.cpu c).thread = .zombie ∨ Parked (s.cpu c).thread (g :: below))
    (same : ∀ p, u ≠ .process p → state p = s.state p)
    (runs : ∀ p, u = .process p → state p = .running)
    (returned : g.locals.p = f.locals.p) :
    Inv (s.switchTo c u proc (g :: below) state) := by
  rcases next with ⟨h, rest, top, pre, resumable⟩
  constructor
  · refine inv.locks.congr rfl ?_
    intro d
    by_cases here : d = c
    · rw [here, switchTo_self]
    · rw [switchTo_other here]
  · intro d e
    by_cases hereD : d = c <;> by_cases hereE : e = c
    · exact fun _ => hereD.trans hereE.symm
    · rw [hereD, switchTo_self, switchTo_other hereE]
      exact fun both => absurd both.symm (away e)
    · rw [hereE, switchTo_self, switchTo_other hereD]
      exact fun both => absurd both (away d)
    · rw [switchTo_other hereD, switchTo_other hereE]
      exact inv.apart d e
  · intro d e
    by_cases here : d = c
    · rw [here, switchTo_self]
      exact home e
    · rw [switchTo_other here]
      exact inv.home d e
  · intro d p
    by_cases here : d = c
    · rw [here, switchTo_self]
      exact fun process stopped => absurd (runs p process) stopped
    · rw [switchTo_other here]
      intro process stopped
      refine inv.stopped d p process ?_
      rw [← same p fun both => away d (process.trans both.symm)]
      exact stopped
  · intro d
    by_cases here : d = c
    · rw [here, switchTo_self, switchTo_stack (away c).symm, top]
      exact List.cons_ne_nil _ _
    · rw [switchTo_other here, switchTo_stack fun both => here (inv.apart d c both)]
      exact inv.live d
  · intro d alive
    by_cases here : d = c
    · subst here
      have state' : (s.switchTo d u proc (g :: below) state).stateOf u = .running := by
        cases u with
        | scheduler e => rfl
        | process p => exact runs p rfl
      have after : (s.switchTo d u proc (g :: below) state).view d =
          View.switched u.proc proc (s.cpu d).intena := by
        have on := congrArg View.on view
        have ncli := congrArg View.ncli view
        have held := congrArg View.held view
        have mine := congrArg View.mine view
        unfold Machine.view at on ncli held mine ⊢
        rw [switchTo_self, state']
        dsimp only at on ncli held ⊢
        rw [on, ncli, held]
        exact congrArg (fun mine => View.mk false 1 (s.cpu d).intena [.ptable] mine proc u.proc
          .running) mine
      refine ⟨h, rest, ?_, ?_, ?_⟩
      · rw [switchTo_self, switchTo_stack (away d).symm]
        exact top
      · rw [after]
        exact pre proc _ own
      · rw [switchTo_self]
        exact resumable
    · rw [switchTo_other here] at alive
      rcases inv.active d alive with ⟨f', below', stack', pre', resumable'⟩
      have view' : (s.switchTo c u proc (g :: below) state).view d = s.view d := by
        unfold Machine.view
        rw [switchTo_other here, switchTo_stateOf same (away d).symm]
        rfl
      refine ⟨f', below', ?_, ?_, ?_⟩
      · rw [switchTo_other here, switchTo_stack fun both => here (inv.apart d c both)]
        exact stack'
      · rw [view']
        exact pre'
      · rw [switchTo_other here]
        exact resumable'
  · intro d
    by_cases here : d = c
    · rw [here, switchTo_self]
      exact fun dead => absurd running dead
    · rw [switchTo_other here]
      exact inv.halted d
  · intro t gone
    have notU : u ≠ t := by
      have at' := gone c
      rw [switchTo_self] at at'
      exact at'
    rw [switchTo_stateOf same notU]
    by_cases left : t = (s.cpu c).thread
    · rw [left, switchTo_left]
      exact .inr last
    · rw [switchTo_stack left]
      refine inv.parked t ?_
      intro d
      by_cases here : d = c
      · rw [here]
        exact Ne.symm left
      · have at' := gone d
        rw [switchTo_other here] at at'
        exact at'
  · intro t h' member p result
    by_cases left : t = (s.cpu c).thread
    · subst left
      rw [switchTo_left] at member
      rcases List.mem_cons.1 member with rfl | member
      · exact inv.returned _ f (stack ▸ List.mem_cons_self) p (returned ▸ result)
      · exact inv.returned _ h' (stack ▸ List.mem_cons_of_mem _ member) p result
    · rw [switchTo_stack left] at member
      exact inv.returned t h' member p result

/-! ## The invariant -/

def Machine.halt (s : Machine ncpu) (c : Fin ncpu) (why : Panic) : Machine ncpu :=
  s.setCpu c { s.cpu c with panicked := some why, interrupts := false }

theorem halt_thread (d : Fin ncpu) : ((s.halt c why).cpu d).thread = (s.cpu d).thread := by
  unfold Machine.halt
  by_cases here : d = c
  · rw [here, setCpu_self]
  · rw [setCpu_other _ _ here]

theorem halt_held (d : Fin ncpu) : ((s.halt c why).cpu d).held = (s.cpu d).held :=
  setCpu_held s c { s.cpu c with panicked := some why, interrupts := false } rfl d

/-- The CPU stops. -/
theorem Inv.halt (inv : Inv s) (why : Panic) : Inv (s.halt c why) := by
  constructor
  · exact inv.locks.congr rfl halt_held
  · intro d e
    rw [halt_thread, halt_thread]
    exact inv.apart d e
  · intro d e
    rw [halt_thread]
    exact inv.home d e
  · intro d p
    rw [halt_thread, halt_held]
    exact inv.stopped d p
  · intro d
    rw [halt_thread]
    exact inv.live d
  · intro d alive
    by_cases here : d = c
    · rw [here, Machine.halt, setCpu_self] at alive
      cases alive
    · have cpu : (s.halt c why).cpu d = s.cpu d := setCpu_other _ _ here
      rw [cpu] at alive
      rcases inv.active d alive with ⟨f, below, stack, pre, resumable⟩
      have view : (s.halt c why).view d = s.view d := by
        unfold Machine.view
        rw [cpu]
        rfl
      refine ⟨f, below, ?_, ?_, ?_⟩
      · rw [halt_thread]
        exact stack
      · rw [view]
        exact pre
      · rw [halt_thread]
        exact resumable
  · intro d
    by_cases here : d = c
    · rw [here, Machine.halt, setCpu_self]
      exact fun _ => rfl
    · rw [show (s.halt c why).cpu d = s.cpu d from setCpu_other _ _ here]
      exact inv.halted d
  · intro t gone
    exact inv.parked t fun d => halt_thread d ▸ gone d
  · exact inv.returned

/-- A process becomes `RUNNABLE`, with this stack. -/
def Machine.ready (s : Machine ncpu) (p : ℕ) (stack : List Frame) : Machine ncpu :=
  (s.setStack (.process p) stack).setState p .runnable

theorem ready_stateOf {p : ℕ} (other : t ≠ .process p) :
    (s.ready p stack).stateOf t = s.stateOf t := by
  cases t with
  | scheduler d => rfl
  | process q =>
      refine Function.update_of_ne ?_ ..
      rintro rfl
      exact other rfl

theorem ready_stack {p : ℕ} (other : t ≠ .process p) : (s.ready p stack).stack t = s.stack t :=
  Function.update_of_ne other ..

theorem ready_stack_self {p : ℕ} : (s.ready p stack).stack (.process p) = stack :=
  Function.update_self ..

/-- A process that no CPU runs becomes `RUNNABLE`. -/
theorem Inv.ready (inv : Inv s) {p : ℕ} (away : ∀ d, (s.cpu d).thread ≠ .process p)
    (parked : Parked (.process p : Thread ncpu) stack)
    (returned : ∀ f ∈ stack, ∀ q, f.locals.p = some q → q = some p) : Inv (s.ready p stack) := by
  constructor
  · exact inv.locks.congr rfl fun _ => rfl
  · exact inv.apart
  · exact inv.home
  · intro d q process stopped
    refine inv.stopped d q process ?_
    have other : (.process q : Thread ncpu) ≠ .process p := fun both => away d (process.trans both)
    have state : (s.ready p stack).state q = s.state q := ready_stateOf other
    exact state ▸ stopped
  · intro d
    show (s.ready p stack).stack (s.cpu d).thread ≠ []
    rw [ready_stack (away d)]
    exact inv.live d
  · intro d alive
    rcases inv.active d alive with ⟨f, below, top, pre, resumable⟩
    have view : (s.ready p stack).view d = s.view d := by
      unfold Machine.view
      rw [show (s.ready p stack).cpu = s.cpu from rfl, ready_stateOf (away d)]
      rfl
    refine ⟨f, below, (ready_stack (away d)).trans top, ?_, resumable⟩
    rw [view]
    exact pre
  · exact inv.halted
  · intro t gone
    by_cases own : t = .process p
    · subst own
      rw [ready_stack_self]
      exact .inr (.inr parked)
    · rw [ready_stack own, ready_stateOf own]
      exact inv.parked t gone
  · intro t f member q result
    by_cases own : t = .process p
    · subst own
      rw [ready_stack_self] at member
      exact returned f member q result
    · rw [ready_stack own] at member
      exact inv.returned t f member q result

theorem parked_newStack (p : ℕ) : Parked (.process p : Thread ncpu) newStack := by
  refine ⟨_, _, rfl, ?_, ?_⟩
  · intro proc intena own
    rcases own with none | same
    · cases none
    · rw [same]
      exact pre_forkret rfl _ _
  · intro g member
    rw [List.mem_singleton] at member
    subst member
    intro intena
    refine ⟨quiet_outside _ _ ?_, rfl⟩
    intro b fixed
    exact (Option.some.inj fixed).symm

theorem inv_boot : Inv (boot ncpu) := by
  constructor
  · constructor
    · intro lk
      constructor
      · intro taken
        cases taken
      · rintro ⟨c, member⟩
        cases member
    · intro lk c d member
      cases member
    · intro lk c named
      cases named
    · exact fun _ => List.nodup_nil
  · intro c d same
    cases same
    rfl
  · intro c d same
    cases same
    rfl
  · intro c p process
    cases process
  · intro c
    exact List.cons_ne_nil _ _
  · intro c _
    refine ⟨{ todo := scheduler }, [], rfl, ?_, fun _ member => by cases member⟩
    refine pre_scheduler ⟨⟨rfl, List.nodup_nil, fun _ => rfl, rfl, fun _ => rfl, ?_⟩, rfl⟩ rfl rfl rfl
    intro b fixed
    cases fixed
  · intro c _
    rfl
  · intro t away
    cases t with
    | scheduler c => exact absurd rfl (away c)
    | process p =>
        by_cases first : p = 0
        · subst first
          exact .inr (.inr (parked_newStack 0))
        · exact .inl ⟨if_neg first, if_neg first⟩
  · intro t f member p result
    cases t with
    | scheduler c =>
        rw [List.mem_singleton.1 member] at result
        cases result
    | process q =>
        change f ∈ (if q = 0 then newStack else []) at member
        split at member
        · rcases List.mem_cons.1 member with rfl | member
          · cases result
          · rw [List.mem_singleton.1 member] at result
            cases result
        · cases member

/-- The process that the scheduler has chosen is not on any CPU. -/
theorem Inv.away (inv : Inv s) {p : ℕ} (member : .ptable ∈ (s.cpu c).held)
    (stopped : s.state p ≠ .running) (notOwn : (s.cpu c).thread ≠ .process p) (d : Fin ncpu) :
    (s.cpu d).thread ≠ .process p := by
  intro process
  have holds := inv.stopped d p process stopped
  have same := inv.locks.single _ d c holds member
  exact notOwn (same ▸ process)

/-- A process whose state is not that of an unused slot or of a zombie can be resumed. -/
theorem Inv.parked_of (inv : Inv s) {p : ℕ} (away : ∀ d, (s.cpu d).thread ≠ .process p)
    (used : s.state p ≠ .unused) (alive : s.state p ≠ .zombie) :
    Parked (.process p : Thread ncpu) (s.stack (.process p)) := by
  rcases inv.parked _ away with ⟨-, unused⟩ | zombie | parked
  · exact absurd unused used
  · exact absurd zombie alive
  · exact parked

/-- Only the end of `scheduler` jumps. -/
theorem exec_goto {code : List Instr} (ran : exec s c l i = some (.goto code)) :
    i = .again ∧ code = scheduler := by
  cases i with
  | again =>
      cases ran
      exact ⟨rfl, rfl⟩
  | _ =>
      unfold exec mycpu at ran
      dsimp only at ran
      repeat' split at ran
      all_goals cases ran

/-- `sched` leaves the CPU to its scheduler. -/
theorem Inv.swtch (inv : Inv s) (alive : (s.cpu c).panicked = none)
    (stack : s.stack (s.cpu c).thread = f :: below)
    (resumable : ∀ h ∈ below, Resumable (s.cpu c).thread.proc h)
    (wp : Instr.wp (Pre rest) f.locals (s.view c) .swtch) :
    Inv (s.switchTo c (.scheduler c) (s.cpu c).proc ({ todo := rest, locals := f.locals } :: below)
      s.state) := by
  rcases wp with ⟨process, view, -, next⟩
  have away : ∀ d, (s.cpu d).thread ≠ .scheduler c := by
    intro d thread
    have same := inv.home d c thread
    subst same
    refine process ?_
    show (s.cpu c).thread.proc = none
    rw [thread]
    rfl
  have proc : (s.cpu c).proc = (s.cpu c).thread.proc := congrArg View.proc view
  have view' : s.view c = { View.switched (s.cpu c).thread.proc (s.cpu c).proc (s.cpu c).intena with
      state := s.stateOf (s.cpu c).thread } := by
    rw [proc]
    exact view
  have parked : Parked (.scheduler c) (s.stack (.scheduler c)) := by
    rcases inv.parked _ away with ⟨-, unused⟩ | zombie | parked
    · cases unused
    · cases zombie
    · exact parked
  refine inv.switch alive stack away (fun d same => (Thread.scheduler.inj same).symm) view' (.inl rfl)
    parked ?_ (fun _ _ => rfl) (fun _ same => by cases same) rfl
  by_cases zombie : s.stateOf (s.cpu c).thread = .zombie
  · exact .inl zombie
  · refine .inr ⟨_, _, rfl, ?_, resumable⟩
    intro proc' intena own
    rcases own with none | same
    · exact absurd none process
    · rw [same]
      exact next zombie intena

theorem Inv.run (inv : Inv s) (taken : take s (.run c) = some s') : Inv s' := by
  unfold take at taken
  dsimp only at taken
  split at taken
  · rename_i f below stack alive
    split at taken
    · cases taken
    · rename_i i rest todo
      rcases Option.map_eq_some_iff.1 taken with ⟨outcome, ran, rfl⟩
      rcases inv.active c alive with ⟨f', below', stack', pre, resumable⟩
      cases stack.symm.trans stack'
      rw [todo] at pre
      have wp := pre.wp
      have kept : ∀ h ∈ f :: below, ∀ p, h.locals.p = some p → p = (s.cpu c).thread.proc :=
        fun h member => inv.returned _ h (stack ▸ member)
      cases outcome with
      | panic why => exact inv.halt why
      | next s₁ l =>
          by_cases swtch : i = .swtch
          · subst swtch
            have off := congrArg View.on wp.2.1
            simp only [exec, mycpu_off off] at ran
            cases ran
            exact inv.swtch alive stack resumable wp
          · have stepped := exec_stepped inv wp swtch ran
            refine inv.replace stepped.frames alive resumable stepped.locks stepped.stopped
              stepped.pre ?_
            intro h member p result
            rcases List.mem_cons.1 member with rfl | member
            · rcases stepped.returned p result with before | own
              · exact kept f List.mem_cons_self p before
              · exact own
            · exact kept h (List.mem_cons_of_mem _ member) p result
      | spin => exact inv
      | goto code =>
          rcases exec_goto ran with ⟨rfl, rfl⟩
          rcases wp with ⟨self, empty, idle, base⟩
          refine inv.replace Frames.refl alive resumable inv.locks (inv.stopped c)
            (pre_scheduler idle empty self base) ?_
          intro h member
          rcases List.mem_cons.1 member with rfl | member
          · exact kept f List.mem_cons_self
          · exact kept h (List.mem_cons_of_mem _ member)
  · cases taken

theorem Inv.dispatch (inv : Inv s) {choice : Option ℕ}
    (taken : take s (.dispatch c choice) = some s') : Inv s' := by
  unfold take at taken
  dsimp only at taken
  split at taken
  · rename_i f below stack alive
    rcases inv.active c alive with ⟨f', below', stack', pre, resumable⟩
    cases stack.symm.trans stack'
    split at taken
    · rename_i rest todo
      cases taken
      rw [todo] at pre
      rcases pre.wp with ⟨view, next⟩
      refine inv.replace Frames.refl alive resumable inv.locks (inv.stopped c) ?_ ?_
      · rw [view]
        exact next _
      · intro h member
        rcases List.mem_cons.1 member with rfl | member
        · exact inv.returned _ f (stack ▸ List.mem_cons_self)
        · exact inv.returned _ h (stack ▸ List.mem_cons_of_mem _ member)
    · rename_i rest p todo
      split at taken
      · rename_i runnable
        cases taken
        rw [todo] at pre
        rcases pre.wp with ⟨view, next⟩
        have self : (s.cpu c).thread.proc = none := congrArg View.self view
        have proc : (s.cpu c).proc = none := congrArg View.proc view
        have member : LockName.ptable ∈ (s.cpu c).held := by
          have held : (s.cpu c).held = [.ptable] := congrArg View.held view
          rw [held]
          exact List.mem_cons_self
        have stopped : s.state p ≠ .running := by
          rw [runnable]
          decide
        have notOwn : (s.cpu c).thread ≠ .process p := by
          intro own
          rw [own] at self
          cases self
        have away := inv.away member stopped notOwn
        have parked := inv.parked_of away (by rw [runnable]; decide) (by rw [runnable]; decide)
        have state : s.stateOf (s.cpu c).thread = .running := congrArg View.state view
        have view' : s.view c = { View.switched (s.cpu c).thread.proc (s.cpu c).proc
            (s.cpu c).intena with state := s.stateOf (s.cpu c).thread } := by
          rw [self, proc, state]
          exact view
        have back : Parked (s.cpu c).thread
            ({ f with todo := .clearProc :: .dispatch :: rest } :: below) := by
          refine ⟨_, _, rfl, ?_, resumable⟩
          intro proc' intena _
          rw [self]
          exact (pre_off rfl).2 ⟨rfl, rfl, (pre_off rfl).2 ⟨rfl, next⟩⟩
        show Inv (s.switchTo c (.process p) (some p)
          ({ f with todo := .clearProc :: .dispatch :: rest } :: below)
          (Function.update s.state p .running))
        refine inv.switch alive stack away (fun _ same => by cases same) view' (.inr rfl) parked
          (.inr back) ?_ ?_ rfl
        · intro q other
          refine Function.update_of_ne ?_ ..
          rintro rfl
          exact other rfl
        · intro q same
          cases same
          exact Function.update_self ..
      · cases taken
    · cases taken
  · cases taken

theorem Inv.call (inv : Inv s) {procedure : Procedure}
    (admitted : procedure = .sleep (some .ptable) → .ptable ∈ (s.cpu c).held)
    (taken : take s (.call c procedure) = some s') : Inv s' := by
  unfold take at taken
  dsimp only at taken
  split at taken
  · rename_i f below stack alive
    rcases inv.active c alive with ⟨f', below', stack', pre, resumable⟩
    cases stack.symm.trans stack'
    split at taken
    · rename_i todo
      cases taken
      rw [todo] at pre
      refine inv.replace Frames.refl alive resumable inv.locks (inv.stopped c)
        (pre_code procedure pre admitted) ?_
      intro h member
      rcases List.mem_cons.1 member with rfl | member
      · exact inv.returned _ f (stack ▸ List.mem_cons_self)
      · exact inv.returned _ h (stack ▸ List.mem_cons_of_mem _ member)
    · cases taken
  · cases taken

theorem Inv.interrupt (inv : Inv s) (taken : take s (.interrupt c) = some s') : Inv s' := by
  unfold take at taken
  dsimp only at taken
  split at taken
  · rename_i on
    cases taken
    have alive : (s.cpu c).panicked = none := by
      by_contra dead
      rw [inv.halted c dead] at on
      cases on
    rcases inv.active c alive with ⟨f, below, stack, pre, resumable⟩
    rcases pre.resumable on with ⟨out, own⟩
    have held : (s.cpu c).held = [] := congrArg View.held out
    rw [stack]
    have frames : Frames s c (s.setCpu c { s.cpu c with interrupts := false }) :=
      Frames.ofCpu rfl rfl
    have locks : Locks (s.setCpu c { s.cpu c with interrupts := false }) :=
      inv.locks.congr rfl (setCpu_held s c _ rfl)
    refine inv.replace frames alive ?_ locks ?_ ?_ ?_
    · intro h member
      rcases List.mem_cons.1 member with rfl | member
      · exact own
      · exact resumable h member
    · intro p process stopped
      rw [setCpu_self]
      exact inv.stopped c p process stopped
    · rw [view_setCpu s
        (show ({ s.cpu c with interrupts := false } : Cpu ncpu).thread = (s.cpu c).thread from rfl)]
      have closed : { View.outside (s.view c).self (s.view c).intena with on := false } =
          { s.view c with on := false } := by rw [← out]
      have idle : Idle { base := some false }
          { View.outside (s.view c).self (s.view c).intena with on := false } := by
        refine ⟨⟨rfl, List.nodup_nil, fun _ => rfl, rfl, (fun on => by cases on), ?_⟩, rfl⟩
        intro b fixed
        refine (if_pos rfl).mpr ?_
        exact Option.some.inj fixed
      rw [closed] at idle
      exact idle
    · intro h member p result
      rcases List.mem_cons.1 member with rfl | member
      · cases result
      · exact inv.returned _ h (stack ▸ member) p result
  · cases taken

theorem Inv.iret (inv : Inv s) (admitted : (s.cpu c).held = [])
    (taken : take s (.iret c) = some s') : Inv s' := by
  unfold take at taken
  dsimp only at taken
  split at taken
  · rename_i f g below stack alive
    rcases inv.active c alive with ⟨f', below', stack', pre, resumable⟩
    cases stack.symm.trans stack'
    split at taken
    · rename_i todo
      cases taken
      rw [todo] at pre
      have frames : Frames s c (s.setCpu c { s.cpu c with interrupts := true }) :=
        Frames.ofCpu rfl rfl
      have locks : Locks (s.setCpu c { s.cpu c with interrupts := true }) :=
        inv.locks.congr rfl (setCpu_held s c _ rfl)
      refine inv.replace frames alive (fun h member => resumable h (List.mem_cons_of_mem _ member))
        locks ?_ ?_ ?_
      · intro p process stopped
        rw [setCpu_self]
        exact inv.stopped c p process stopped
      · have open' : { s.view c with on := true } =
            View.outside (s.view c).self (s.view c).intena := by
          rw [pre.1.eq_free pre.2 admitted]
          rfl
        rw [view_setCpu s
          (show ({ s.cpu c with interrupts := true } : Cpu ncpu).thread = (s.cpu c).thread from rfl)]
        show Pre _ _ { s.view c with on := true }
        rw [open']
        exact resumable g List.mem_cons_self _
      · intro h member
        exact inv.returned _ h (stack ▸ List.mem_cons_of_mem _ member)
    · cases taken
  · cases taken

theorem Inv.spawn (inv : Inv s) {p : ℕ} (taken : take s (.spawn c p) = some s') : Inv s' := by
  unfold take at taken
  dsimp only at taken
  split at taken
  · rename_i f below stack new alive
    split at taken
    · cases taken
      refine inv.ready ?_ (parked_newStack p) ?_
      · intro d process
        exact inv.live d (process ▸ new)
      · intro g member q result
        rcases List.mem_cons.1 member with rfl | member
        · cases result
        · rw [List.mem_singleton.1 member] at result
          cases result
    · cases taken
  · cases taken

theorem Inv.wake (inv : Inv s) {p : ℕ} (admitted : .ptable ∈ (s.cpu c).held)
    (taken : take s (.wake c p) = some s') : Inv s' := by
  unfold take at taken
  dsimp only at taken
  split at taken
  · rename_i f below stack alive
    rcases inv.active c alive with ⟨f', below', stack', pre, resumable⟩
    cases stack.symm.trans stack'
    split at taken
    · rename_i todo
      rw [todo] at pre
      split at taken
      · rename_i sleeping
        cases taken
        have notOwn : (s.cpu c).thread ≠ .process p := by
          intro own
          have running : s.stateOf (s.cpu c).thread = .running := pre.2
          rw [own] at running
          exact absurd (sleeping.symm.trans running) (by decide)
        have away := inv.away admitted (by rw [sleeping]; decide) notOwn
        have parked := inv.parked_of away (by rw [sleeping]; decide) (by rw [sleeping]; decide)
        have ready := inv.ready away parked fun g member q result =>
          inv.returned _ g member q result
        unfold Machine.ready Machine.setStack at ready
        rw [Function.update_eq_self] at ready
        exact ready
      · cases taken
    · cases taken
  · cases taken

/-- What holds of every interleaving. -/
theorem Runs.inv (runs : Runs s) : Inv s := by
  refine Reachable.invariant runs Inv inv_boot ?_
  intro s label t _ inv admitted taken
  cases label with
  | run c => exact inv.run taken
  | dispatch c choice => exact inv.dispatch taken
  | call c procedure =>
      refine inv.call ?_ taken
      rintro rfl
      exact admitted
  | interrupt c => exact inv.interrupt taken
  | iret c => exact inv.iret admitted taken
  | spawn c p => exact inv.spawn taken
  | wake c p => exact inv.wake admitted taken

end Xv6.Spin
