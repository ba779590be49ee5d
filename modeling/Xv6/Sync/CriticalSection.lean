import Xv6.Sync.Spinlock

/-!
# Critical sections of one CPU

What an instruction sequence does to the CPU that runs it, apart from the other CPUs. `Pre code l v`
says that `code` can be run from the view `v` and ends in a quiet state, whatever interrupts do in
between. There is one rule for each function of `spinlock.c`.
-/

namespace Xv6.Spin

/-- What only the CPU itself writes. -/
structure View where
  on : Bool
  ncli : ℤ
  intena : Bool
  held : List LockName
  /-- the locks whose `cpu` is this one -/
  mine : LockName → Bool
  proc : Option ℕ
  /-- the process of the running thread, and its state -/
  self : Option ℕ
  state : ProcState

namespace View

/-- A CPU that can be interrupted. -/
def outside (self : Option ℕ) (intena : Bool) : View :=
  { on := true, ncli := 0, intena, held := [], mine := fun _ => false, proc := self, self,
    state := .running }

/-- A CPU on either side of a `swtch`. -/
def switched (self proc : Option ℕ) (intena : Bool) : View :=
  { on := false, ncli := 1, intena, held := [.ptable], mine := fun lk => decide (lk = .ptable),
    proc, self, state := .running }

end View

/-- The CPU is between two calls of functions of `spinlock.c`. -/
structure Quiet (l : Locals) (v : View) : Prop where
  count : v.ncli = v.held.length
  nodup : v.held.Nodup
  mine : ∀ lk, v.mine lk = decide (lk ∈ v.held)
  proc : v.proc = v.self
  off : v.on = true → v.held = []
  base : ∀ b, l.base = some b → if v.held = [] then v.on = b else v.intena = b

/-- A frame in which no function of `spinlock.c` or `proc.c` is being called. -/
def Idle (l : Locals) (v : View) : Prop := Quiet l v ∧ v.state = .running

/-- What an instruction needs, and what it leads to. -/
def Instr.wp (Q : Locals → View → Prop) (l : Locals) (v : View) : Instr → Prop
  | .readeflags => Q { l with eflags := v.on } v
  | .cli => Q l { v with on := false }
  | .saveIntena => v.on = false ∧ Q l { v with intena := if v.ncli = 0 then l.eflags else v.intena }
  | .incNcli => v.on = false ∧ Q l { v with ncli := v.ncli + 1 }
  | .checkInterruptible => v.on = false ∧ Q l v
  | .decNcli => v.on = false ∧ 0 < v.ncli ∧ Q l { v with ncli := v.ncli - 1 }
  | .restore => v.on = false ∧ Q l { v with on := decide (v.ncli = 0) && v.intena }
  | .readLocked lk => ∀ b, (lk ∈ v.held → b = true) → Q { l with r := b } v
  | .readCpu lk => v.on = false ∧ Q { l with r := l.r && v.mine lk } v
  | .checkAcquire lk => (l.r = true ↔ lk ∈ v.held) ∧ (lk ∉ v.held → Q l v)
  | .xchg lk => v.on = false ∧ lk ∉ v.held ∧ Q l { v with held := lk :: v.held }
  | .setCpu lk =>
      v.on = false ∧ lk ∈ v.held ∧ Q l { v with mine := Function.update v.mine lk true }
  | .checkRelease lk => (l.r = true ↔ lk ∈ v.held) ∧ (lk ∈ v.held → Q l v)
  | .clearCpu lk => v.mine lk = true ∧ Q l { v with mine := Function.update v.mine lk false }
  | .unlock lk => lk ∈ v.held ∧ v.mine lk = false ∧ (lk = .ptable → v.state = .running) ∧
      Q l { v with held := v.held.erase lk }
  | .readProc => v.on = false ∧ v.proc = v.self ∧ Q { l with p := some v.proc } v
  | .checkSleep => l.p = some v.self ∧ (v.self ≠ none → Q l v)
  | .checkLk lk => lk ≠ none → Q l v
  | .setState state => l.p = some v.self ∧ .ptable ∈ v.held ∧ state ≠ .running ∧
      (v.self ≠ none → Q l { v with state })
  | .checkSched => l.r = true ∧ v.on = false ∧ l.p = some v.self ∧ v.state ≠ .running ∧
      .ptable ∈ v.held ∧ v.ncli = v.held.length ∧ (v.ncli = 1 → v.self ≠ none → Q l v)
  | .saveThread => v.on = false ∧ Q { l with intena := v.intena } v
  | .swtch => v.self ≠ none ∧ v = { View.switched v.self v.self v.intena with state := v.state } ∧
      v.state ≠ .running ∧
      (v.state ≠ .zombie → ∀ intena, Q l (View.switched v.self v.self intena))
  | .restoreThread => v.on = false ∧ Q l { v with intena := l.intena }
  | .zombieExit => False
  | .sti => v.held = [] ∧ v.ncli = 0 ∧ Q l { v with on := true }
  | .dispatch => v = View.switched none none v.intena ∧
      ∀ intena, Q l (View.switched none none intena)
  | .clearProc => v.self = none ∧ v.on = false ∧ Q l { v with proc := none }
  | .again => v.self = none ∧ v.held = [] ∧ Idle l v ∧ l.base = none

/-- The code can be run to its end. Where interrupts are on, handlers may run first, and leave behind
what they did to `intena`. -/
def Pre : List Instr → Locals → View → Prop
  | [], l, v => Idle l v
  | i :: rest, l, v =>
      (v.on = true → v = View.outside v.self v.intena ∧
        ∀ intena, i.wp (Pre rest) l (View.outside v.self intena)) ∧
      (v.on = false → i.wp (Pre rest) l v)

variable {l : Locals} {v : View} {lk : LockName} {code rest : List Instr} {i : Instr} {b : Bool}

theorem pre_off (off : v.on = false) : Pre (i :: rest) l v ↔ i.wp (Pre rest) l v := by
  simp only [Pre, off, Bool.false_eq_true, false_implies, true_implies, true_and]

theorem pre_on (on : v.on = true) : Pre (i :: rest) l v ↔ v = View.outside v.self v.intena ∧
    ∀ intena, i.wp (Pre rest) l (View.outside v.self intena) := by
  simp only [Pre, on, Bool.true_eq_false, false_implies, true_implies, and_true]

/-! ## Quiet states -/

/-- A CPU that holds nothing. -/
theorem Quiet.eq_free (quiet : Quiet l v) (running : v.state = .running) (held : v.held = []) :
    v = { View.outside v.self v.intena with on := v.on } := by
  have ncli : v.ncli = 0 := by
    rw [quiet.count, held]
    rfl
  have mine : v.mine = fun _ => false := by
    funext lk
    rw [quiet.mine lk, held]
    exact decide_eq_false (List.not_mem_nil)
  have proc := quiet.proc
  cases v
  simp only at running held ncli mine proc
  subst running held ncli mine proc
  rfl

theorem Quiet.eq_outside (quiet : Quiet l v) (running : v.state = .running) (on : v.on = true) :
    v = View.outside v.self v.intena := by
  have same := quiet.eq_free running (quiet.off on)
  rw [on] at same
  exact same

theorem quiet_outside (self : Option ℕ) (intena : Bool) (base : ∀ b, l.base = some b → b = true) :
    Quiet l (View.outside self intena) where
  count := rfl
  nodup := List.nodup_nil
  mine lk := rfl
  proc := rfl
  off := fun _ => rfl
  base := by
    intro b fixed
    refine (if_pos rfl).mpr ?_
    exact (base b fixed).symm

/-- The registers of a frame do not matter between two calls, apart from `base`. -/
theorem Quiet.congr {k : Locals} (quiet : Quiet l v) (base : k.base = l.base) : Quiet k v where
  count := quiet.count
  nodup := quiet.nodup
  mine := quiet.mine
  proc := quiet.proc
  off := quiet.off
  base := fun b fixed => quiet.base b (base ▸ fixed)

theorem Quiet.ncli_eq_zero (quiet : Quiet l v) : v.ncli = 0 ↔ v.held = [] := by
  rw [quiet.count]
  constructor
  · intro zero
    exact List.length_eq_zero_iff.1 (by exact_mod_cast zero)
  · intro empty
    rw [empty]
    rfl

theorem Quiet.ncli_nonneg (quiet : Quiet l v) : 0 ≤ v.ncli := by
  rw [quiet.count]
  exact Int.natCast_nonneg _

/-- `intena` does not matter where nothing is held. -/
theorem Quiet.withIntena (quiet : Quiet l v) (intena : Bool) (empty : v.held = []) :
    Quiet l { v with intena } where
  count := quiet.count
  nodup := quiet.nodup
  mine := quiet.mine
  proc := quiet.proc
  off := quiet.off
  base := by
    intro b fixed
    have same := quiet.base b fixed
    rw [if_pos empty] at same
    rw [if_pos empty]
    exact same

theorem idle_switched (self : Option ℕ) (intena : Bool)
    (base : ∀ b, l.base = some b → intena = b) : Idle l (View.switched self self intena) := by
  refine ⟨⟨rfl, List.nodup_singleton _, ?_, rfl, ?_, ?_⟩, rfl⟩
  · intro lk
    exact decide_eq_decide.2 List.mem_singleton.symm
  · intro on
    cases on
  · intro b fixed
    refine (if_neg (List.cons_ne_nil _ _)).mpr ?_
    exact base b fixed

/-- A CPU that holds just `ptable.lock`. -/
theorem Quiet.eq_switched (quiet : Quiet l v) (member : .ptable ∈ v.held) (one : v.ncli = 1) :
    v = { View.switched v.self v.self v.intena with state := v.state } := by
  have length : v.held.length = 1 := by
    have count := quiet.count
    omega
  have held : v.held = [.ptable] := by
    rcases List.length_eq_one_iff.1 length with ⟨lk, single⟩
    rw [single, List.mem_singleton] at member
    rw [single, member]
  have off : v.on = false := by
    cases on : v.on with
    | false => rfl
    | true =>
        rw [quiet.off on] at member
        cases member
  have mine : v.mine = fun lk => decide (lk = .ptable) := by
    funext lk
    rw [quiet.mine lk, held]
    exact decide_eq_decide.2 List.mem_singleton
  have proc := quiet.proc
  cases v
  simp only at off one held mine proc
  subst off one held mine proc
  rfl

/-! ## One rule for each function -/

/-- Interrupts are on only where a handler may run. -/
def View.Interruptible (v : View) : Prop := v.on = true → v = View.outside v.self v.intena

theorem Idle.interruptible (idle : Idle l v) : v.Interruptible :=
  idle.1.eq_outside idle.2

theorem pre_pushcli (safe : v.Interruptible)
    (next : Pre rest { l with eflags := v.on } { v with
      on := false, ncli := v.ncli + 1, intena := if v.ncli = 0 then v.on else v.intena }) :
    Pre (pushcli ++ rest) l v := by
  cases on : v.on with
  | false =>
      rw [on] at next
      unfold pushcli
      rw [List.cons_append, pre_off on]
      show Pre _ _ _
      rw [List.cons_append, pre_off on]
      show Pre _ _ _
      rw [List.cons_append, pre_off rfl]
      refine ⟨rfl, ?_⟩
      rw [List.cons_append, pre_off rfl]
      refine ⟨rfl, ?_⟩
      simp only [on]
      exact next
  | true =>
      have out := safe on
      unfold pushcli
      rw [List.cons_append, pre_on on]
      refine ⟨out, fun x => ?_⟩
      show Pre _ _ _
      rw [List.cons_append, pre_on rfl]
      refine ⟨rfl, fun y => ?_⟩
      show Pre _ _ _
      rw [List.cons_append, pre_off rfl]
      refine ⟨rfl, ?_⟩
      rw [List.cons_append, pre_off rfl]
      refine ⟨rfl, ?_⟩
      rw [out] at next
      exact next

theorem pre_popcli (off : v.on = false) (pushed : 0 < v.ncli)
    (next : Pre rest l { v with on := decide (v.ncli - 1 = 0) && v.intena, ncli := v.ncli - 1 }) :
    Pre (popcli ++ rest) l v := by
  unfold popcli
  rw [List.cons_append, pre_off off]
  refine ⟨off, ?_⟩
  rw [List.cons_append, pre_off off]
  refine ⟨off, pushed, ?_⟩
  refine (pre_off (v := { v with ncli := v.ncli - 1 }) off).2 ?_
  exact ⟨off, next⟩

/-- `intena` after a balanced `pushcli` and `popcli`. -/
def View.touched (v : View) : View := { v with intena := if v.ncli = 0 then v.on else v.intena }

theorem Quiet.touched (quiet : Quiet l v) : Quiet l v.touched := by
  unfold View.touched
  split
  · rename_i zero
    exact quiet.withIntena _ (quiet.ncli_eq_zero.1 zero)
  · exact quiet

/-- A `pushcli`, code that leaves the flags alone, and a `popcli`. -/
theorem pre_balanced {body : List Instr} (safe : v.Interruptible)
    (inner : Pre (body ++ (popcli ++ rest)) { l with eflags := v.on } { v with
      on := false, ncli := v.ncli + 1, intena := if v.ncli = 0 then v.on else v.intena }) :
    Pre (pushcli ++ (body ++ popcli) ++ rest) l v := by
  rw [List.append_assoc, List.append_assoc]
  exact pre_pushcli safe inner

theorem pre_popcli_touched (quiet : Quiet l v) {k : Locals} (next : Pre rest k v.touched) :
    Pre (popcli ++ rest) k { v with
      on := false, ncli := v.ncli + 1, intena := if v.ncli = 0 then v.on else v.intena } := by
  have nonneg := quiet.ncli_nonneg
  refine pre_popcli rfl (by dsimp only; omega) ?_
  have back : v.ncli + 1 - 1 = v.ncli := by omega
  have same : (decide (v.ncli = 0) && if v.ncli = 0 then v.on else v.intena) = v.on := by
    by_cases zero : v.ncli = 0
    · rw [if_pos zero, decide_eq_true zero, Bool.true_and]
    · rw [decide_eq_false zero, Bool.false_and]
      cases on : v.on with
      | false => rfl
      | true => exact absurd (quiet.ncli_eq_zero.2 (quiet.off on)) zero
  simp only [back, same]
  exact next

/-- `holding` finds out whether this CPU holds the lock, and leaves the flags as they were. -/
theorem pre_holding (quiet : Quiet l v) (safe : v.Interruptible)
    (next : Pre rest { l with eflags := v.on, r := decide (lk ∈ v.held) } v.touched) :
    Pre (holding lk ++ rest) l v := by
  unfold holding
  refine pre_balanced safe ?_
  rw [List.cons_append, pre_off rfl]
  intro b ofHeld
  rw [List.cons_append, pre_off rfl]
  refine ⟨rfl, ?_⟩
  have result : (b && v.mine lk) = decide (lk ∈ v.held) := by
    rw [quiet.mine lk]
    by_cases member : lk ∈ v.held
    · rw [ofHeld member, decide_eq_true member, Bool.true_and]
    · rw [decide_eq_false member, Bool.and_false]
  simp only [result]
  exact pre_popcli_touched quiet next

/-- `myproc` returns the process of its own thread. -/
theorem pre_myproc (quiet : Quiet l v) (safe : v.Interruptible)
    (next : Pre rest { l with eflags := v.on, p := some v.self } v.touched) :
    Pre (myproc ++ rest) l v := by
  unfold myproc
  refine pre_balanced safe ?_
  rw [List.cons_append, pre_off rfl]
  refine ⟨rfl, quiet.proc, ?_⟩
  rw [← quiet.proc] at next
  exact pre_popcli_touched quiet next

/-- After a function that keeps everything but the flags and the locks. -/
structure After (l : Locals) (v : View) (held : List LockName) (k : Locals) (w : View) : Prop where
  quiet : Quiet k w
  held : w.held = held
  self : w.self = v.self
  state : w.state = v.state
  p : k.p = l.p
  base : k.base = l.base

theorem Quiet.acquired (quiet : Quiet l v) (new : lk ∉ v.held) (eflags r : Bool) :
    After l v (lk :: v.held) { l with eflags, r } { v with
      on := false, ncli := v.ncli + 1, intena := if v.ncli = 0 then v.on else v.intena,
      held := lk :: v.held, mine := Function.update v.mine lk true } := by
  refine ⟨⟨?_, ?_, ?_, quiet.proc, ?_, ?_⟩, rfl, rfl, rfl, rfl, rfl⟩
  · rw [quiet.count, List.length_cons]
    push_cast
    rfl
  · exact List.nodup_cons.2 ⟨new, quiet.nodup⟩
  · intro lk'
    by_cases same : lk' = lk
    · subst same
      simp
    · simp [same, quiet.mine lk']
  · intro on
    cases on
  · intro b fixed
    have before := quiet.base b fixed
    refine (if_neg (List.cons_ne_nil _ _)).mpr ?_
    by_cases empty : v.held = []
    · rw [if_pos empty] at before
      exact (if_pos (quiet.ncli_eq_zero.2 empty)).trans before
    · rw [if_neg empty] at before
      exact (if_neg fun zero => empty (quiet.ncli_eq_zero.1 zero)).trans before

/-- `acquire` panics if the CPU holds the lock, and comes to hold it otherwise. -/
theorem pre_acquire (quiet : Quiet l v) (safe : v.Interruptible)
    (next : ∀ k w, lk ∉ v.held → w.on = false → After l v (lk :: v.held) k w → Pre rest k w) :
    Pre (acquire lk ++ rest) l v := by
  have nonneg := quiet.ncli_nonneg
  unfold acquire
  rw [List.append_assoc, List.append_assoc]
  refine pre_pushcli safe ?_
  have inner : v.ncli + 1 ≠ 0 := by omega
  unfold holding
  rw [List.append_assoc]
  refine pre_pushcli (fun on => by cases on) ?_
  simp only [inner, if_false]
  rw [List.append_assoc, List.cons_append, pre_off rfl]
  intro b ofHeld
  rw [List.cons_append, pre_off rfl]
  refine ⟨rfl, ?_⟩
  have result : (b && v.mine lk) = decide (lk ∈ v.held) := by
    rw [quiet.mine lk]
    by_cases member : lk ∈ v.held
    · rw [ofHeld member, decide_eq_true member, Bool.true_and]
    · rw [decide_eq_false member, Bool.and_false]
  simp only [result, List.nil_append]
  refine pre_popcli rfl (by dsimp only; omega) ?_
  have back : v.ncli + 1 + 1 - 1 = v.ncli + 1 := by omega
  simp only [back, inner, decide_false, Bool.false_and]
  rw [List.cons_append, pre_off rfl]
  refine ⟨decide_eq_true_iff, fun new => ?_⟩
  rw [List.cons_append, pre_off rfl]
  refine ⟨rfl, new, ?_⟩
  refine (pre_off rfl).2 ?_
  exact ⟨rfl, List.mem_cons_self, next _ _ new rfl (quiet.acquired new _ _)⟩

theorem Quiet.released (quiet : Quiet l v) (member : lk ∈ v.held) (eflags r : Bool) :
    After l v (v.held.erase lk) { l with eflags, r } { v with
      on := decide (v.ncli - 1 = 0) && v.intena, ncli := v.ncli - 1,
      held := v.held.erase lk, mine := Function.update v.mine lk false } := by
  have length : (v.held.erase lk).length = v.held.length - 1 := List.length_erase_of_mem member
  have positive : 0 < v.held.length := List.length_pos_of_mem member
  have count : v.ncli - 1 = (v.held.erase lk).length := by
    rw [quiet.count, length]
    omega
  have zero : v.ncli - 1 = 0 ↔ v.held.erase lk = [] := by
    rw [count]
    exact Int.natCast_eq_zero.trans List.length_eq_zero_iff
  refine ⟨⟨count, quiet.nodup.erase lk, ?_, quiet.proc, ?_, ?_⟩, rfl, rfl, rfl, rfl, rfl⟩
  · intro lk'
    by_cases same : lk' = lk
    · subst same
      simp [quiet.nodup.mem_erase_iff]
    · simp [same, quiet.mine lk', quiet.nodup.mem_erase_iff]
  · intro on
    exact zero.1 (of_decide_eq_true (Bool.and_eq_true_iff.1 on).1)
  · intro b fixed
    have before := quiet.base b fixed
    rw [if_neg (List.ne_nil_of_mem member)] at before
    dsimp only
    split
    · rename_i empty
      rw [decide_eq_true (zero.2 empty), Bool.true_and]
      exact before
    · exact before

/-- `release` panics if the CPU does not hold the lock, and frees it otherwise. Interrupts are back on
after the last one. -/
theorem pre_release (quiet : Quiet l v) (safe : v.Interruptible)
    (running : lk = .ptable → v.state = .running)
    (next : ∀ k w, lk ∈ v.held → After l v (v.held.erase lk) k w → Pre rest k w) :
    Pre (release lk ++ rest) l v := by
  unfold release
  rw [List.append_assoc]
  refine pre_holding quiet safe ?_
  rw [List.append_assoc, List.cons_append]
  cases on : v.on with
  | true =>
      have empty := quiet.off on
      refine (pre_on (v := v.touched) on).2 ⟨?_, fun x => ?_⟩
      · rw [safe on]
        rfl
      · refine ⟨?_, fun member => ?_⟩
        · simp [empty, View.outside]
        · cases member
  | false =>
      refine (pre_off (v := v.touched) on).2 ?_
      refine ⟨decide_eq_true_iff, fun member => ?_⟩
      have nonzero : v.ncli ≠ 0 := fun zero =>
        List.ne_nil_of_mem member (quiet.ncli_eq_zero.1 zero)
      have nonneg := quiet.ncli_nonneg
      unfold View.touched
      simp only [nonzero, if_false]
      rw [List.cons_append, pre_off on]
      refine ⟨?_, ?_⟩
      · rw [quiet.mine lk]
        exact decide_eq_true member
      · refine (pre_off (v := { v with mine := Function.update v.mine lk false }) on).2 ?_
        refine ⟨member, Function.update_self .., running, ?_⟩
        refine pre_popcli (v := { v with
          held := v.held.erase lk, mine := Function.update v.mine lk false }) on
          (by dsimp only; omega) ?_
        exact next _ _ member (quiet.released member _ _)

theorem View.touched_eq (held : v.ncli ≠ 0) : v.touched = v := by
  unfold View.touched
  rw [if_neg held]

/-- `sched` panics if the CPU holds another lock than `ptable.lock`. It comes back, on any CPU, with
`intena` as it was, unless the process is a zombie. -/
theorem pre_sched (quiet : Quiet l v) (member : .ptable ∈ v.held) (stopped : v.state ≠ .running)
    (next : v.state ≠ .zombie → ∀ k w, Idle k w → w.on = false → w.held = [.ptable] →
      w.self = v.self → k.base = l.base → Pre rest k w) :
    Pre (sched ++ rest) l v := by
  have nonzero : v.ncli ≠ 0 := fun zero => List.ne_nil_of_mem member (quiet.ncli_eq_zero.1 zero)
  have off : v.on = false := by
    cases on : v.on with
    | false => rfl
    | true =>
        rw [quiet.off on] at member
        cases member
  have safe : v.Interruptible := by
    intro on
    rw [off] at on
    cases on
  unfold sched
  rw [List.append_assoc, List.append_assoc]
  refine pre_myproc quiet safe ?_
  rw [View.touched_eq nonzero]
  refine pre_holding (quiet.congr rfl) safe ?_
  rw [View.touched_eq nonzero, List.cons_append]
  refine (pre_off off).2 ⟨decide_eq_true member, off, rfl, stopped, member, quiet.count, ?_⟩
  intro one process
  rw [List.cons_append]
  refine (pre_off off).2 ⟨off, ?_⟩
  rw [List.cons_append]
  refine (pre_off off).2 ⟨process, quiet.eq_switched member one, stopped, ?_⟩
  intro alive intena
  rw [List.cons_append]
  refine (pre_off rfl).2 ⟨rfl, ?_⟩
  refine next alive _ (View.switched v.self v.self v.intena) ?_ rfl rfl rfl rfl
  refine idle_switched _ _ ?_
  intro b fixed
  have before := quiet.base b fixed
  rw [if_neg (List.ne_nil_of_mem member)] at before
  exact before

theorem After.interruptible {k : Locals} {w : View} {held : List LockName}
    (after : After l v held k w) (running : v.state = .running) : w.Interruptible :=
  after.quiet.eq_outside (after.state.trans running)

theorem After.idle {k : Locals} {w : View} {held : List LockName} (after : After l v held k w)
    (running : v.state = .running) : Idle k w := ⟨after.quiet, after.state.trans running⟩

/-- What is run with `ptable.lock` held by code that gives up the CPU. -/
theorem pre_stop {state : ProcState} (idle : Idle l v) (p : l.p = some v.self)
    (member : .ptable ∈ v.held) (stops : state ≠ .running)
    (next : state ≠ .zombie → ∀ k w, Idle k w → w.on = false → w.held = [.ptable] →
      w.self = v.self → k.base = l.base → Pre rest k w) :
    Pre ([.setState state] ++ (sched ++ rest)) l v := by
  have held : v.held ≠ [] := List.ne_nil_of_mem member
  have off : v.on = false := by
    cases on : v.on with
    | false => rfl
    | true => exact absurd (idle.1.off on) held
  refine (pre_off off).2 ⟨p, member, stops, fun _ => ?_⟩
  have quiet : Quiet l { v with state } :=
    ⟨idle.1.count, idle.1.nodup, idle.1.mine, idle.1.proc, idle.1.off, idle.1.base⟩
  exact pre_sched quiet member stops next

theorem pre_yield (idle : Idle l v) : Pre yield l v := by
  refine pre_acquire idle.1 idle.interruptible ?_
  intro k w _ _ after
  have member : .ptable ∈ w.held := after.held ▸ List.mem_cons_self
  have held : w.held ≠ [] := List.ne_nil_of_mem member
  have nonzero : w.ncli ≠ 0 := fun zero => held (after.quiet.ncli_eq_zero.1 zero)
  refine pre_myproc after.quiet (after.interruptible idle.2) ?_
  rw [View.touched_eq nonzero]
  refine pre_stop ⟨after.quiet.congr rfl, after.state.trans idle.2⟩ rfl member (by decide) ?_
  intro _ k w idle _ _ _ _
  rw [← List.append_nil (release _)]
  refine pre_release idle.1 idle.interruptible (fun _ => idle.2) ?_
  intro k w _ after
  exact after.idle idle.2

/-- Handlers that run before an instruction only touch `intena`. -/
theorem pre_test (idle : Idle l v) (wp : ∀ w, Idle l w → w.held = v.held → w.self = v.self →
    i.wp (Pre rest) l w) : Pre (i :: rest) l v := by
  refine ⟨fun on => ?_, fun _ => wp v idle rfl rfl⟩
  have out := idle.interruptible on
  refine ⟨out, fun intena => wp _ ⟨?_, rfl⟩ ?_ rfl⟩
  · refine quiet_outside _ _ ?_
    intro b fixed
    have before := idle.1.base b fixed
    rw [if_pos (idle.1.off on), on] at before
    exact before.symm
  · exact (idle.1.off on).symm

theorem pre_sleep {lock : Option LockName} (idle : Idle l v)
    (held : lock = some .ptable → .ptable ∈ v.held) : Pre (sleep lock) l v := by
  unfold sleep
  refine pre_myproc idle.1 idle.interruptible ?_
  refine pre_test ⟨idle.1.touched.congr rfl, idle.2⟩ ?_
  intro w₀ idle₀ held₀ self₀
  refine ⟨congrArg some self₀.symm, fun _ => ?_⟩
  apply pre_test idle₀
  intro w idle' held₁ self₁ given
  have held' : w.held = v.held := held₁.trans held₀
  have self' : w.self = v.self := self₁.trans self₀
  rcases Option.ne_none_iff_exists'.1 given with ⟨lk, rfl⟩
  dsimp only
  split
  · rename_i other
    refine pre_acquire idle'.1 idle'.interruptible ?_
    intro k₁ w₁ _ _ acquired
    have p₁ : k₁.p = some w₁.self := by
      rw [acquired.p, acquired.self, self']
    refine pre_release acquired.quiet (acquired.interruptible idle'.2)
      (fun same => absurd same other) ?_
    intro k₂ w₂ _ released
    have running : w₂.state = .running := released.state.trans (acquired.state.trans idle'.2)
    have p₂ : k₂.p = some w₂.self := by rw [released.p, released.self, p₁]
    have member : LockName.ptable ∈ w₂.held := by
      rw [released.held, acquired.held]
      exact (List.mem_erase_of_ne (Ne.symm other)).2 List.mem_cons_self
    refine pre_stop ⟨released.quiet, running⟩ p₂ member (by decide) ?_
    intro _ k₃ w₃ idle₃ _ _ _ _
    refine pre_release idle₃.1 idle₃.interruptible (fun _ => idle₃.2) ?_
    intro k₄ w₄ _ after₄
    rw [← List.append_nil (acquire lk)]
    refine pre_acquire after₄.quiet (after₄.interruptible idle₃.2) ?_
    intro k₅ w₅ _ _ after₅
    exact after₅.idle (after₄.state.trans idle₃.2)
  · rename_i same
    have member : LockName.ptable ∈ w.held := by
      rw [held']
      exact held (congrArg some (not_not.1 same))
    rw [← List.append_nil sched]
    refine pre_stop idle' (congrArg some self'.symm) member (by decide) ?_
    intro _ k w idle _ _ _ _
    exact idle

theorem pre_exit (idle : Idle l v) : Pre exit l v := by
  refine pre_myproc idle.1 idle.interruptible ?_
  refine pre_acquire (idle.1.touched.congr rfl)
    (Idle.interruptible ⟨idle.1.touched.congr rfl, idle.2⟩) ?_
  intro k w _ _ acquired
  refine pre_stop ⟨acquired.quiet, acquired.state.trans idle.2⟩ ?_
    (acquired.held ▸ List.mem_cons_self) (by decide) (fun alive => absurd rfl alive)
  rw [acquired.p, acquired.self]
  rfl

/-- Every function of the kernel leads from a quiet state to one. -/
theorem pre_code (procedure : Procedure) (idle : Idle l v)
    (held : procedure = .sleep (some .ptable) → .ptable ∈ v.held) : Pre procedure.code l v := by
  cases procedure with
  | acquire lk =>
      show Pre (acquire lk) l v
      rw [← List.append_nil (acquire lk)]
      exact pre_acquire idle.1 idle.interruptible fun _ _ _ _ after => after.idle idle.2
  | release lk =>
      show Pre (release lk) l v
      rw [← List.append_nil (release lk)]
      exact pre_release idle.1 idle.interruptible (fun _ => idle.2)
        fun _ _ _ after => after.idle idle.2
  | holding lk =>
      show Pre (holding lk) l v
      rw [← List.append_nil (holding lk)]
      exact pre_holding idle.1 idle.interruptible ⟨idle.1.touched.congr rfl, idle.2⟩
  | myproc =>
      show Pre myproc l v
      rw [← List.append_nil myproc]
      exact pre_myproc idle.1 idle.interruptible ⟨idle.1.touched.congr rfl, idle.2⟩
  | yield => exact pre_yield idle
  | sleep lk => exact pre_sleep idle fun same => held (congrArg _ same)
  | exit => exact pre_exit idle

/-- The loop of `scheduler`. -/
theorem pre_scheduler (idle : Idle l v) (empty : v.held = []) (self : v.self = none)
    (base : l.base = none) : Pre scheduler l v := by
  have free : ∀ b, l.base = some b → b = true := by
    intro b fixed
    rw [base] at fixed
    cases fixed
  unfold scheduler
  rw [List.singleton_append]
  refine pre_test idle ?_
  intro w idle' held' self'
  refine ⟨held'.trans empty, idle'.1.ncli_eq_zero.2 (held'.trans empty), ?_⟩
  have out : { w with on := true } = View.outside none w.intena := by
    rw [idle'.1.eq_free idle'.2 (held'.trans empty), self', self]
    rfl
  rw [out]
  have start : Idle l (View.outside none w.intena) := ⟨quiet_outside _ _ free, rfl⟩
  refine pre_acquire start.1 start.interruptible ?_
  intro k₁ w₁ _ off acquired
  have member : LockName.ptable ∈ w₁.held := acquired.held ▸ List.mem_cons_self
  have one : w₁.ncli = 1 := by
    rw [acquired.quiet.count, acquired.held]
    rfl
  have switched : w₁ = View.switched none none w₁.intena := by
    have same := acquired.quiet.eq_switched member one
    rw [acquired.self, acquired.state] at same
    exact same
  refine (pre_off off).2 ⟨switched, fun intena => ?_⟩
  have idle₂ : Idle k₁ (View.switched none none intena) := by
    refine idle_switched _ _ ?_
    intro b fixed
    rw [acquired.base, base] at fixed
    cases fixed
  refine pre_release idle₂.1 idle₂.interruptible (fun _ => rfl) ?_
  intro k₃ w₃ _ released
  have idle₃ := released.idle rfl
  refine pre_test idle₃ ?_
  intro w₄ idle₄ held₄ self₄
  refine ⟨self₄.trans released.self, held₄.trans released.held, idle₄, ?_⟩
  rw [released.base, acquired.base, base]

theorem pre_forkret (base : l.base = none) (self : Option ℕ) (intena : Bool) :
    Pre forkret l (View.switched self self intena) := by
  have idle : Idle l (View.switched self self intena) := by
    refine idle_switched _ _ ?_
    intro b fixed
    rw [base] at fixed
    cases fixed
  show Pre (release .ptable) l _
  rw [← List.append_nil (release _)]
  exact pre_release idle.1 idle.interruptible (fun _ => rfl) fun _ _ _ after => after.idle rfl

end Xv6.Spin
