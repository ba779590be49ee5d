import Xv6.Lib.Fallible
import Xv6.Proc.State

/-!
# The functions of `proc.c`

Every definition is the part of a C function that runs while `ptable.lock` is held, or the part
between two such critical sections. The loops over `ptable.proc` go through the slots in order.
-/

namespace Xv6

variable {ncpu : ℕ}

/-- `for(p = ptable.proc; p < &ptable.proc[NPROC]; p++)` -/
def table : List Slot := List.finRange nproc

/-- What every place that makes a process `RUNNABLE` does with the ready queue. -/
def addReady (b : Build) (p : Slot) (s : State ncpu) : Except Fault (State ncpu) :=
  match b with
  | .default => .ok s
  | .fcfs =>
      let s := if s.pqueue.size < nproc then s else s.log (.dropped p)
      .ok { s with pqueue := s.pqueue.insert (fun q => (s.proc q).timecreated) p }
  | .mlq | .dmlq => do
      let s := if s.multiqueue.isfull (s.proc p).priority then s.log (.dropped p) else s
      let multiqueue ← s.multiqueue.enque (s.proc p).priority p
      return { s with multiqueue }

/-- What `wakeup1` and `kill` do with a process that they find `SLEEPING`. -/
def wake (b : Build) (p : Slot) (s : State ncpu) : Except Fault (State ncpu) :=
  let s := s.setState p .runnable
  let s := if b = .dmlq then s.edit p fun q => { q with priority := hipr } else s
  addReady b p s

def wakeup1 (b : Build) (chan : Chan) (s : State ncpu) : Except Fault (State ncpu) :=
  table.foldlM (fun s p =>
    if (s.proc p).state = .sleeping ∧ (s.proc p).chan = chan then wake b p s else .ok s) s

/-- The effect of `sched` on the process that calls it, up to the `swtch`. -/
def sched (context : Context) (p : Slot) (s : State ncpu) : State ncpu :=
  s.edit p fun q => { q with switchnum := wrapInt (q.switchnum + 1), context }

/-- What `wait` and `waitnstats` do with the `ZOMBIE` child they have found. -/
def reap (stats : Bool) (p child : Slot) (s : State ncpu) : State ncpu :=
  let q := s.proc child
  (s.edit child fun q =>
    { q with kstack := none, pid := 0, parent := none, killed := false, state := .unused }).log
      (.reap p child (if stats then some (q.timerun, q.timeready, q.timeslept) else none))

/-- One pass of the `for(;;)` loop of `wait` (of `waitnstats` if `stats`): its return value, or
`none` if the process goes to sleep on its own `struct proc`. -/
def waitPass (stats : Bool) (p : Slot) (s : State ncpu) : Option ℤ × State ncpu :=
  match table.find? fun q => (s.proc q).parent = some p ∧ (s.proc q).state = .zombie with
  | some child => (some (s.proc child).pid, reap stats p child s)
  | none =>
      let havekids := table.any fun q => (s.proc q).parent = some p
      if !havekids || (s.proc p).killed then (some (-1), s)
      else
        let s := (s.edit p fun q => { q with chan := .proc p }).setState p .sleeping
        (none, sched (if stats then .waitnstats else .wait) p s)

/-- A process runs on from where `swtch` resumes it, until it releases `ptable.lock` (`true`) or
calls `sched` again (`false`). -/
def resume (p : Slot) (s : State ncpu) : Except Fault (Bool × State ncpu) :=
  let tidy := s.edit p fun q => { q with chan := .null }
  match (s.proc p).context with
  | .forkret | .yield => .ok (true, s)
  | .sleep => .ok (true, tidy)
  | .wait =>
      let (result, s) := waitPass false p tidy
      .ok (result.isSome, s)
  | .waitnstats =>
      let (result, s) := waitPass true p tidy
      .ok (result.isSome, s)
  | .exit => .error (.panic "zombie exit")

/-- The scheduler's switch to the process it has chosen, up to the release of `ptable.lock` or
the switch back. The stack of a process that runs on a CPU, or that is not set up, is not one that
`swtch` could resume. -/
def runProc (c : Fin ncpu) (p : Slot) (s : State ncpu) : Except Fault (Bool × State ncpu) :=
  if (s.proc p).kstack = none then .error (.panic "switchuvm: no kstack")
  else if (s.proc p).pgdir = none then .error (.panic "switchuvm: no pgdir")
  else if (s.proc p).state = .unused ∨ (s.proc p).state = .embryo ∨ (s.proc p).state = .running then
    .error .staleContext
  else
    let s := ((s.setCpu c (some p)).setState p .running).edit p fun q =>
      { q with timescheduled := s.ticks }
    resume p s

/-- The loop of the scheduler of the `DEFAULT` build over the rest of the table. -/
def scanTable (c : Fin ncpu) : List Slot → State ncpu → Except Fault (State ncpu)
  | [], s => .ok s
  | p :: rest, s =>
      if (s.proc p).state ≠ .runnable then scanTable c rest s
      else do
        let (running, s) ← runProc c p s
        if running then return s else scanTable c rest (s.setCpu c none)

/-- What the scheduler of CPU `c` does when a process switches back to it, up to the release of
`ptable.lock`. The `DEFAULT` build first goes on with its loop over the table. -/
def toScheduler (b : Build) (c : Fin ncpu) (p : Slot) (s : State ncpu) :
    Except Fault (State ncpu) :=
  match b with
  | .default => scanTable c (table.drop (p + 1)) (s.setCpu c none)
  | _ => .ok (s.setCpu c none)

/-- The loop over the levels in the scheduler of the MLQ and DMLQ builds. -/
def pickLevel : List ℤ → MultiQueue → Except Fault (Option Slot × MultiQueue)
  | [], queue => .ok (none, queue)
  | pr :: rest, queue => do
      if !(← queue.isempty pr) then queue.deque pr else pickLevel rest queue

/-- The choice of the next process in the FCFS, MLQ and DMLQ builds. -/
def pickNext (b : Build) (s : State ncpu) : Except Fault (Option Slot × State ncpu) :=
  match b with
  | .default => .ok (none, s)
  | .fcfs =>
      let (p, pqueue) := s.pqueue.remove fun q => (s.proc q).timecreated
      .ok (p, { s with pqueue })
  | .mlq | .dmlq => do
      let (p, multiqueue) ← pickLevel [1, 2, 3] s.multiqueue
      return (p, { s with multiqueue })

/-- The scheduler of these builds after its choice. -/
def runPicked (c : Fin ncpu) : Option Slot × State ncpu → Except Fault (State ncpu)
  | (none, s) => .ok s
  | (some p, s) => do
      let (running, s) ← runProc c p s
      return if running then s else s.setCpu c none

/-- One iteration of `scheduler`, between two releases of `ptable.lock`. -/
def scheduler (b : Build) (c : Fin ncpu) (s : State ncpu) : Except Fault (State ncpu) :=
  match b with
  | .default => scanTable c table s
  | _ => do runPicked c (← pickNext b s)

/-- The critical section of `allocproc`. -/
def allocproc (s : State ncpu) : Option (Slot × State ncpu) :=
  match table.find? fun p => (s.proc p).state = .unused with
  | none => none
  | some p =>
      let s := (s.setState p .embryo).edit p fun q =>
        { q with pid := s.nextpid, timecreated := s.ticks, timeready := 0, timerun := 0,
                 timeslept := 0, switchnum := 0 }
      some (p, { s with nextpid := wrapInt (s.nextpid + 1) })

/-- The rest of `allocproc`; `page` is the result of `kalloc`. -/
def allocprocKstack (np : Slot) (page : Option Page) (s : State ncpu) : State ncpu :=
  let s := s.edit np fun q => { q with kstack := page }
  match page with
  | none => s.setState np .unused
  | some _ => s.edit np fun q => { q with context := .forkret }

/-- `userinit` up to its critical section. -/
def userinitAlloc (b : Build) (kstack pgdir : Page) (s : State ncpu) : Except Fault (State ncpu) :=
  match allocproc s with
  | none => .error .nullPointer
  | some (p, s) =>
      let s := allocprocKstack p (some kstack) s
      let s := { s with initproc := some p }
      let s := s.edit p fun q =>
        { q with pgdir := some pgdir, priority := if b = .mlq ∨ b = .dmlq then mdpr else q.priority }
      .ok { s with boot := .allocated p }

def userinitReady (b : Build) (p : Slot) (s : State ncpu) : Except Fault (State ncpu) := do
  let s ← addReady b p (s.setState p .runnable)
  return { s with boot := .done }

/-- `fork` up to the end of the critical section of `allocproc`. -/
def fork (p : Slot) (s : State ncpu) : State ncpu :=
  match allocproc s with
  | none => s
  | some (np, s) => s.edit p fun q => { q with frame := .kstack np }

/-- `allocproc` after its critical section, called from `fork`. -/
def forkKstack (p np : Slot) (page : Option Page) (s : State ncpu) : State ncpu :=
  (allocprocKstack np page s).edit p fun q =>
    { q with frame := if page = none then .user else .copyuvm np }

/-- `fork` from `copyuvm`, whose result is `page`, to its last critical section. -/
def forkCopyuvm (b : Build) (p np : Slot) (page : Option Page) (s : State ncpu) : State ncpu :=
  let s := s.edit np fun q => { q with pgdir := page }
  match page with
  | none =>
      let s := (s.edit np fun q => { q with kstack := none }).setState np .unused
      s.edit p fun q => { q with frame := .user }
  | some _ =>
      let s := s.setParent np (some p)
      let s := if b = .mlq ∨ b = .dmlq then
        s.edit np fun q => { q with priority := (s.proc p).priority } else s
      s.edit p fun q => { q with frame := .ready np }

/-- The last critical section of `fork`. -/
def forkReady (b : Build) (p np : Slot) (s : State ncpu) : Except Fault (State ncpu) := do
  let s ← addReady b np (s.setState np .runnable)
  return s.edit p fun q => { q with frame := .user }

/-- The body of the loop of `exit` that passes abandoned children to init. -/
def reparent (b : Build) (curproc : Slot) (s : State ncpu) (p : Slot) :
    Except Fault (State ncpu) :=
  if (s.proc p).parent = some curproc then
    let s := s.setParent p s.initproc
    if (s.proc p).state = .zombie then wakeup1 b (.ofProc s.initproc) s else .ok s
  else .ok s

def exit (b : Build) (c : Fin ncpu) (curproc : Slot) (s : State ncpu) :
    Except Fault (State ncpu) := do
  if s.initproc = some curproc then throw (.panic "init exiting")
  let s ← wakeup1 b (.ofProc (s.proc curproc).parent) s
  let s ← table.foldlM (reparent b curproc) s
  toScheduler b c curproc (sched .exit curproc (s.setState curproc .zombie))

/-- `wait`, or `waitnstats` if `stats`, up to its return or its first sleep. -/
def wait (b : Build) (stats : Bool) (c : Fin ncpu) (curproc : Slot) (s : State ncpu) :
    Except Fault (State ncpu) :=
  match waitPass stats curproc s with
  | (some _, s) => .ok s
  | (none, s) => toScheduler b c curproc s

def yield (b : Build) (c : Fin ncpu) (p : Slot) (s : State ncpu) : Except Fault (State ncpu) := do
  let s ← addReady b p (s.setState p .runnable)
  toScheduler b c p (sched .yield p s)

/-- `sleep` from the point where `lk` is released. -/
def sleep (b : Build) (c : Fin ncpu) (p : Slot) (chan : Chan) (s : State ncpu) :
    Except Fault (State ncpu) :=
  let s := (s.edit p fun q => { q with chan }).setState p .sleeping
  toScheduler b c p (sched .sleep p s)

/-- The process that a search for a pid finds: the first in the table, in any state. -/
def findPid (pid : ℤ) (s : State ncpu) : Option Slot :=
  table.find? fun p => (s.proc p).pid = pid

def kill (b : Build) (pid : ℤ) (s : State ncpu) : Except Fault (ℤ × State ncpu) :=
  match findPid pid s with
  | none => .ok (-1, s)
  | some p => do
      let s := s.edit p fun q => { q with killed := true }
      let s ← if (s.proc p).state = .sleeping then wake b p s else .ok s
      return (0, s)

/-- `sys_chpr` after it has fetched its arguments. A search that finds nothing leaves `p` at
`&ptable.proc[NPROC]`. -/
def chpr (b : Build) (pid priority : ℤ) (s : State ncpu) : Except Fault (State ncpu) :=
  if b ≠ .mlq then .ok s
  else match findPid pid s with
    | none => .error .outOfBounds
    | some p =>
        let oldpriority := (s.proc p).priority
        if oldpriority ≠ priority then do
          let s := s.edit p fun q => { q with priority }
          if (s.proc p).state = .runnable then
            let multiqueue ← s.multiqueue.swapque (fun q => (s.proc q).pid) oldpriority priority
              (s.proc p).pid
            return { s with multiqueue }
          else return s
        else .ok s

def updateprocesstimes (s : State ncpu) : State ncpu :=
  { s with proc := fun p =>
    let q := s.proc p
    if q.state = .running then { q with timerun := q.timerun + 1 }
    else if q.state = .runnable then { q with timeready := q.timeready + 1 }
    else if q.state = .sleeping then { q with timeslept := q.timeslept + 1 }
    else q }

/-- `exec` from the point where it commits to the new image, whose page directory is `pgdir`. -/
def exec (b : Build) (p : Slot) (pgdir : Page) (s : State ncpu) : State ncpu :=
  s.edit p fun q =>
    { q with pgdir := some pgdir, priority := if b = .dmlq then mdpr else q.priority }

/-- The test of `trap` on a timer interrupt. -/
def quantumUsed (timescheduled ticks : BitVec 32) : Bool := timescheduled + quanta ≤ ticks

/-- The last part of `trap` on a timer interrupt that finds `p` running. -/
def trapTimer (b : Build) (c : Fin ncpu) (p : Slot) (s : State ncpu) :
    Except Fault (State ncpu) :=
  if (s.proc p).state = .running ∧ quantumUsed (s.proc p).timescheduled s.ticks then
    match b with
    | .fcfs => .ok s
    | .default | .mlq => yield b c p s
    | .dmlq =>
        yield b c p (s.edit p fun q =>
          { q with priority := if q.priority < lwpr then q.priority + 1 else q.priority })
  else .ok s

/-! ## What the functions find and what they leave alone -/

theorem mem_table (p : Slot) : p ∈ table := List.mem_finRange p

theorem find_table_none {test : Slot → Bool} (found : table.find? test = none) (p : Slot) :
    test p = false := by
  simpa using List.find?_eq_none.mp found p (mem_table p)

theorem find_table_some {test : Slot → Bool} {p : Slot} (found : table.find? test = some p) :
    test p = true := List.find?_some found

variable {b : Build} {s t : State ncpu} {p : Slot}

theorem scheduler_queued {c : Fin ncpu} (queued : b ≠ .default) :
    scheduler b c s = pickNext b s >>= runPicked c := by
  cases b with
  | default => exact absurd rfl queued
  | _ => rfl

/-- The slot that `allocproc` finds, and the state it leaves. -/
theorem allocproc_some (run : allocproc s = some (p, t)) : (s.proc p).state = .unused ∧
    t = { s with
      proc := Function.update s.proc p { s.proc p with
        state := .embryo, pid := s.nextpid, timecreated := s.ticks, timeready := 0, timerun := 0,
        timeslept := 0, switchnum := 0 }
      nextpid := wrapInt (s.nextpid + 1)
      hist := .state p .embryo :: s.hist } := by
  unfold allocproc at run
  split at run
  · cases run
  · rename_i q found
    obtain ⟨rfl, rfl⟩ := Prod.mk.inj (Option.some.inj run)
    refine ⟨of_decide_eq_true (find_table_some found), ?_⟩
    simp [State.setState, State.edit, State.log]

theorem userinitAlloc_ok {kstack pgdir : Page} (run : userinitAlloc b kstack pgdir s = .ok t) :
    ∃ p, (s.proc p).state = .unused ∧ t = { s with
      proc := Function.update s.proc p { s.proc p with
        state := .embryo, pid := s.nextpid, timecreated := s.ticks, timeready := 0, timerun := 0,
        timeslept := 0, switchnum := 0, kstack := some kstack, context := .forkret,
        pgdir := some pgdir,
        priority := if b = .mlq ∨ b = .dmlq then mdpr else (s.proc p).priority }
      initproc := some p
      nextpid := wrapInt (s.nextpid + 1)
      boot := .allocated p
      hist := .state p .embryo :: s.hist } := by
  unfold userinitAlloc at run
  split at run
  · cases run
  · rename_i p u alloc
    obtain ⟨unused, rfl⟩ := allocproc_some alloc
    refine ⟨p, unused, (Except.ok.inj run).symm.trans ?_⟩
    simp [allocprocKstack, State.edit]

/-- `p->killed = 1` -/
def markKilled (p : Slot) (s : State ncpu) : State ncpu :=
  s.edit p fun q => { q with killed := true }

@[simp]
theorem markKilled_state (q : Slot) : ((markKilled p s).proc q).state = (s.proc q).state := by
  simp only [markKilled, State.edit_proc]
  split
  · rename_i same
    rw [same]
  · rfl

/-- `kill` marks the process that it finds, and wakes it if it is asleep. -/
theorem kill_ok {pid result : ℤ} (run : kill b pid s = .ok (result, t)) :
    findPid pid s = none ∧ result = -1 ∧ t = s ∨
    ∃ p, findPid pid s = some p ∧ result = 0 ∧
      ((s.proc p).state = .sleeping ∧ wake b p (markKilled p s) = .ok t ∨
        (s.proc p).state ≠ .sleeping ∧ t = markKilled p s) := by
  unfold kill at run
  split at run
  · rename_i found
    obtain ⟨rfl, rfl⟩ := Prod.mk.inj (Except.ok.inj run)
    exact .inl ⟨found, rfl, rfl⟩
  · rename_i p found
    dsimp only at run
    rw [show (s.edit p fun q => { q with killed := true }) = markKilled p s from rfl] at run
    rw [markKilled_state] at run
    split at run
    · rename_i asleep
      obtain ⟨u, woken, eq⟩ := Fallible.bind_eq_ok.mp run
      obtain ⟨rfl, rfl⟩ := Prod.mk.inj (Except.ok.inj eq)
      exact .inr ⟨p, found, rfl, .inl ⟨asleep, woken⟩⟩
    · rename_i awake
      obtain ⟨rfl, rfl⟩ := Prod.mk.inj (Except.ok.inj run)
      exact .inr ⟨p, found, rfl, .inr ⟨awake, rfl⟩⟩

/-- `p->priority = priority` -/
def setPriority (p : Slot) (priority : ℤ) (s : State ncpu) : State ncpu :=
  s.edit p fun q => { q with priority }

/-- Of the table, `chpr` changes at most the priority of the process that it finds. -/
theorem chpr_ok {pid priority : ℤ} (run : chpr b pid priority s = .ok t) :
    t = s ∨ b = .mlq ∧ ∃ p multiqueue, findPid pid s = some p ∧
      t = { setPriority p priority s with multiqueue } := by
  unfold chpr at run
  split at run
  · exact .inl (Except.ok.inj run).symm
  rename_i mlq
  rw [ne_eq, not_not] at mlq
  split at run
  · cases run
  rename_i p found
  dsimp only at run
  split at run
  · split at run
    · obtain ⟨multiqueue, -, eq⟩ := Fallible.bind_eq_ok.mp run
      exact .inr ⟨mlq, p, multiqueue, found, (Except.ok.inj eq).symm⟩
    · exact .inr ⟨mlq, p, s.multiqueue, found, (Except.ok.inj run).symm⟩
  · exact .inl (Except.ok.inj run).symm

/-- Only the ready queue and, if that is full, the history change. -/
theorem addReady_frame (run : addReady b p s = .ok t) :
    ∃ pqueue multiqueue drops, t = { s with pqueue, multiqueue, hist := drops ++ s.hist } ∧
      (drops = [] ∨ drops = [.dropped p]) := by
  have multi : ∀ {t}, (do
      let s := if s.multiqueue.isfull (s.proc p).priority then s.log (.dropped p) else s
      let multiqueue ← s.multiqueue.enque (s.proc p).priority p
      return { s with multiqueue }) = Except.ok (ε := Fault) t →
      ∃ pqueue multiqueue drops, t = { s with pqueue, multiqueue, hist := drops ++ s.hist } ∧
        (drops = [] ∨ drops = [.dropped p]) := by
    intro t run
    obtain ⟨queue, -, eq⟩ := Fallible.bind_eq_ok.mp run
    obtain rfl := Except.ok.inj eq
    split
    · exact ⟨s.pqueue, queue, [.dropped p], rfl, .inr rfl⟩
    · exact ⟨s.pqueue, queue, [], rfl, .inl rfl⟩
  cases b with
  | default =>
      obtain rfl := Except.ok.inj run
      exact ⟨s.pqueue, s.multiqueue, [], rfl, .inl rfl⟩
  | fcfs =>
      obtain rfl := Except.ok.inj run
      split
      · exact ⟨_, s.multiqueue, [], rfl, .inl rfl⟩
      · exact ⟨_, s.multiqueue, [.dropped p], rfl, .inr rfl⟩
  | mlq => exact multi run
  | dmlq => exact multi run

/-- The record of a process that has been woken. -/
def woken (b : Build) (q : Proc) : Proc :=
  { q with state := .runnable, priority := if b = .dmlq then hipr else q.priority }

theorem wake_proc (run : wake b p s = .ok t) (q : Slot) :
    t.proc q = if q = p then woken b (s.proc p) else s.proc q := by
  obtain ⟨_, _, _, rfl, -⟩ := addReady_frame run
  by_cases dmlq : b = .dmlq <;> by_cases same : q = p <;>
    simp [dmlq, same, woken, State.edit_proc, State.setState_proc]

/-- Everything but the table, the ready queue and the history is as it was. -/
structure SameRest (s t : State ncpu) : Prop where
  initproc : t.initproc = s.initproc
  nextpid : t.nextpid = s.nextpid
  ticks : t.ticks = s.ticks
  cpu : t.cpu = s.cpu
  boot : t.boot = s.boot

theorem SameRest.refl (s : State ncpu) : SameRest s s := ⟨rfl, rfl, rfl, rfl, rfl⟩

theorem SameRest.trans {s t u : State ncpu} (first : SameRest s t) (second : SameRest t u) :
    SameRest s u where
  initproc := second.initproc.trans first.initproc
  nextpid := second.nextpid.trans first.nextpid
  ticks := second.ticks.trans first.ticks
  cpu := second.cpu.trans first.cpu
  boot := second.boot.trans first.boot

theorem wake_rest (run : wake b p s = .ok t) : SameRest s t := by
  obtain ⟨_, _, _, rfl, -⟩ := addReady_frame run
  by_cases dmlq : b = .dmlq <;> simp only [dmlq, if_true, if_false] <;>
    exact ⟨rfl, rfl, rfl, rfl, rfl⟩

/-- `wakeup1` up to a place in the table wakes exactly the sleepers found there. -/
theorem wakeup1_loop {chan : Chan} {slots : List Slot} (nodup : slots.Nodup)
    (run : slots.foldlM (fun s p => if (s.proc p).state = .sleeping ∧ (s.proc p).chan = chan then
      wake b p s else .ok s) s = .ok t) :
    SameRest s t ∧ ∀ q, t.proc q =
      if q ∈ slots ∧ (s.proc q).state = .sleeping ∧ (s.proc q).chan = chan then
        woken b (s.proc q) else s.proc q := by
  induction slots generalizing s with
  | nil =>
      obtain rfl := Except.ok.inj run
      exact ⟨.refl s, fun q => by simp⟩
  | cons p slots ih =>
      obtain ⟨notMem, nodup⟩ := List.nodup_cons.mp nodup
      rw [List.foldlM_cons] at run
      obtain ⟨u, first, others⟩ := Fallible.bind_eq_ok.mp run
      obtain ⟨rest, procs⟩ := ih nodup others
      have pass : SameRest s u ∧ ∀ q, u.proc q =
          if q = p ∧ (s.proc q).state = .sleeping ∧ (s.proc q).chan = chan then
            woken b (s.proc q) else s.proc q := by
        split at first
        · rename_i asleep
          refine ⟨wake_rest first, fun q => ?_⟩
          rw [wake_proc first]
          grind
        · rename_i notAsleep
          obtain rfl := Except.ok.inj first
          refine ⟨.refl s, fun q => ?_⟩
          grind
      refine ⟨pass.1.trans rest, fun q => ?_⟩
      rw [procs, pass.2]
      grind

/-- `wakeup1` makes exactly the processes that sleep on the channel `RUNNABLE`. -/
theorem wakeup1_proc {chan : Chan} (run : wakeup1 b chan s = .ok t) (q : Slot) :
    t.proc q = if (s.proc q).state = .sleeping ∧ (s.proc q).chan = chan then
      woken b (s.proc q) else s.proc q := by
  have := (wakeup1_loop (List.nodup_finRange nproc) run).2 q
  simpa [mem_table] using this

theorem wakeup1_rest {chan : Chan} (run : wakeup1 b chan s = .ok t) : SameRest s t :=
  (wakeup1_loop (List.nodup_finRange nproc) run).1

/-- One process with the channel wakes up. -/
def Wakes (b : Build) (chan : Chan) (s t : State ncpu) : Prop :=
  ∃ p, (s.proc p).state = .sleeping ∧ (s.proc p).chan = chan ∧ wake b p s = .ok t

/-- `wakeup1` wakes one process after the other. -/
theorem wakeup1_path {chan : Chan} (run : wakeup1 b chan s = .ok t) :
    Relation.ReflTransGen (Wakes b chan) s t := by
  unfold wakeup1 at run
  generalize table = slots at run
  induction slots generalizing s with
  | nil => exact Except.ok.inj run ▸ .refl
  | cons p slots ih =>
      rw [List.foldlM_cons] at run
      obtain ⟨u, first, others⟩ := Fallible.bind_eq_ok.mp run
      split at first
      · rename_i asleep
        exact .head ⟨p, asleep.1, asleep.2, first⟩ (ih others)
      · exact Except.ok.inj first ▸ ih others

/-- What the second loop of `exit` may do to the table: children of the exiting process become
children of init, and sleepers are woken. -/
structure Adopts (curproc : Slot) (s t : State ncpu) : Prop where
  rest : SameRest s t
  chan : ∀ q, (t.proc q).chan = (s.proc q).chan
  frame : ∀ q, (t.proc q).frame = (s.proc q).frame
  state : ∀ q, (t.proc q).state = (s.proc q).state ∨
    (s.proc q).state = .sleeping ∧ (t.proc q).state = .runnable
  parent : ∀ q, (t.proc q).parent = (s.proc q).parent ∨
    (s.proc q).parent = some curproc ∧ (t.proc q).parent = s.initproc

theorem Adopts.refl (curproc : Slot) (s : State ncpu) : Adopts curproc s s :=
  ⟨.refl s, fun _ => rfl, fun _ => rfl, fun _ => .inl rfl, fun _ => .inl rfl⟩

theorem Adopts.trans {curproc : Slot} {s t u : State ncpu} (first : Adopts curproc s t)
    (second : Adopts curproc t u) : Adopts curproc s u where
  rest := first.rest.trans second.rest
  chan q := (second.chan q).trans (first.chan q)
  frame q := (second.frame q).trans (first.frame q)
  state q := by
    have := first.state q
    have := second.state q
    grind
  parent q := by
    have := first.parent q
    have := second.parent q
    have := first.rest.initproc
    grind

theorem adopts_setParent {curproc : Slot} (child : (s.proc p).parent = some curproc) :
    Adopts curproc s (s.setParent p s.initproc) := by
  refine ⟨⟨rfl, rfl, rfl, rfl, rfl⟩, ?_, ?_, ?_, ?_⟩ <;> intro q <;>
    rw [State.setParent_proc] <;> grind

theorem adopts_wakeup1 {chan : Chan} (curproc : Slot) (run : wakeup1 b chan s = .ok t) :
    Adopts curproc s t := by
  refine ⟨wakeup1_rest run, ?_, ?_, ?_, ?_⟩ <;> intro q <;>
    rw [wakeup1_proc run] <;> grind [woken]

theorem reparent_pass {curproc : Slot} (notInit : s.initproc ≠ some curproc)
    (run : reparent b curproc s p = .ok t) :
    Adopts curproc s t ∧ (t.proc p).parent ≠ some curproc := by
  unfold reparent at run
  split at run
  · rename_i child
    have moved := adopts_setParent child
    dsimp only at run
    split at run
    · refine ⟨moved.trans (adopts_wakeup1 curproc run), ?_⟩
      rw [wakeup1_proc run, State.setParent_proc]
      grind [woken]
    · obtain rfl := Except.ok.inj run
      refine ⟨moved, ?_⟩
      rw [State.setParent_proc]
      simpa using notInit
  · rename_i notChild
    obtain rfl := Except.ok.inj run
    exact ⟨.refl curproc s, notChild⟩

/-- The second loop of `exit` leaves no child behind. -/
theorem reparent_loop {curproc : Slot} {slots : List Slot}
    (notInit : s.initproc ≠ some curproc) (run : slots.foldlM (reparent b curproc) s = .ok t) :
    Adopts curproc s t ∧ ∀ q ∈ slots, (t.proc q).parent ≠ some curproc := by
  induction slots generalizing s with
  | nil =>
      obtain rfl := Except.ok.inj run
      exact ⟨.refl curproc s, fun q member => absurd member List.not_mem_nil⟩
  | cons p slots ih =>
      rw [List.foldlM_cons] at run
      obtain ⟨u, first, others⟩ := Fallible.bind_eq_ok.mp run
      obtain ⟨pass, moved⟩ := reparent_pass notInit first
      obtain ⟨adopts, left⟩ := ih (pass.rest.initproc ▸ notInit) others
      refine ⟨pass.trans adopts, fun q member => ?_⟩
      rcases List.mem_cons.mp member with rfl | member
      · rcases adopts.parent q with same | ⟨child, -⟩
        · exact same ▸ moved
        · exact absurd child moved
      · exact left q member

end Xv6
