import Xv6.Proc.Kernel

/-!
# The actions that events are made of

An event that gives up a CPU can set off more than one change: `wakeup1` wakes several processes,
and the scheduler of the `DEFAULT` build goes on to dispatch others, which may go back to sleep at
once. `Action` lists the changes one by one, each with what is known where it happens, so that an
invariant has to be shown once for each of them and not once for each event. The invariants of
the process table hold in the states between the actions of one event too.
-/

namespace Xv6

variable {ncpu : ℕ}

/-- The events that are one change, with the state they happen in. -/
inductive Leaf (b : Build) (s : State ncpu) : Event ncpu → State ncpu → Prop where
  | userinitAlloc {kstack pgdir : Page} {t : State ncpu} (boot : s.boot = .start)
      (run : userinitAlloc b kstack pgdir s = .ok t) : Leaf b s (.userinitAlloc kstack pgdir) t
  | userinitReady {p : Slot} {t : State ncpu} (boot : s.boot = .allocated p)
      (run : userinitReady b p s = .ok t) : Leaf b s .userinitReady t
  | fork {c : Fin ncpu} {p : Slot} (current : s.cpu c = some p) (user : (s.proc p).frame = .user) :
      Leaf b s (.fork c) (fork p s)
  | forkKstack {c : Fin ncpu} {p np : Slot} {page : Option Page} (current : s.cpu c = some p)
      (frame : (s.proc p).frame = .kstack np) :
      Leaf b s (.forkKstack c page) (forkKstack p np page s)
  | forkCopyuvm {c : Fin ncpu} {p np : Slot} {page : Option Page} (current : s.cpu c = some p)
      (frame : (s.proc p).frame = .copyuvm np) :
      Leaf b s (.forkCopyuvm c page) (forkCopyuvm b p np page s)
  | forkReady {c : Fin ncpu} {p np : Slot} {t : State ncpu} (current : s.cpu c = some p)
      (frame : (s.proc p).frame = .ready np) (run : forkReady b p np s = .ok t) :
      Leaf b s (.forkReady c) t
  | exec {c : Fin ncpu} {p : Slot} {pgdir : Page} (current : s.cpu c = some p)
      (user : (s.proc p).frame = .user) : Leaf b s (.exec c pgdir) (exec b p pgdir s)
  | kill {c : Fin ncpu} {pid result : ℤ} {t : State ncpu} (run : kill b pid s = .ok (result, t)) :
      Leaf b s (.kill c pid) t
  | trapFault {c : Fin ncpu} {p : Slot} (current : s.cpu c = some p) :
      Leaf b s (.trapFault c) (s.edit p fun q => { q with killed := true })
  | chpr {c : Fin ncpu} {pid priority : ℤ} {t : State ncpu} (run : chpr b pid priority s = .ok t) :
      Leaf b s (.chpr c pid priority) t
  | tick : Leaf b s .tick { s with ticks := s.ticks + 1 }
  | updateprocesstimes : Leaf b s .updateprocesstimes ((updateprocesstimes s).log .tick)

/-- The scheduler's choice of a process that is not `ZOMBIE`, up to the `swtch`; `s'` is `s`
without the process in its ready queue. -/
def dispatched (c : Fin ncpu) (p : Slot) (s' : State ncpu) : State ncpu :=
  ((s'.setCpu c (some p)).setState p .running).edit p fun q =>
    { q with timescheduled := s'.ticks }

/-- What `pickNext`, or the scan of the `DEFAULT` build, may answer. -/
def Picks (b : Build) (p : Slot) (s s' : State ncpu) : Prop :=
  pickNext b s = .ok (some p, s') ∨
    b = .default ∧ s' = s ∧ (s.proc p).state = .runnable

/-- The changes an event is made of. `chans` are the channels the event wakes up, and `admitted`
holds of the events that are one change. -/
inductive Action (b : Build) (admitted : State ncpu → Event ncpu → Prop) (chans : Chan → Prop)
    (s : State ncpu) : State ncpu → Prop where
  | leaf {e : Event ncpu} {t : State ncpu} (allowed : admitted s e) (leaf : Leaf b s e t) :
      Action b admitted chans s t
  | wake {p : Slot} {t : State ncpu} (asleep : (s.proc p).state = .sleeping)
      (chan : chans (s.proc p).chan) (run : wake b p s = .ok t) : Action b admitted chans s t
  | reparent {c : Fin ncpu} {curproc p : Slot} {t : State ncpu} (current : s.cpu c = some curproc)
      (user : (s.proc curproc).frame = .user) (chan : chans (.ofProc s.initproc)) (run : reparent b curproc s p = .ok t) :
      Action b admitted chans s t
  | zombie {c : Fin ncpu} {p : Slot} (current : s.cpu c = some p)
      (user : (s.proc p).frame = .user) (notInit : s.initproc ≠ some p)
      (childless : ∀ q, (s.proc q).parent ≠ some p)
      (calm : ∀ q, (s.proc p).parent = some q →
        ¬((s.proc q).state = .sleeping ∧ (s.proc q).chan = .proc q)) :
      Action b admitted chans s ((sched .exit p (s.setState p .zombie)).setCpu c none)
  | yield {c : Fin ncpu} {p : Slot} {t : State ncpu} (current : s.cpu c = some p)
      (run : addReady b p (s.setState p .runnable) = .ok t) :
      Action b admitted chans s ((sched .yield p t).setCpu c none)
  | demote {c : Fin ncpu} {p : Slot} (current : s.cpu c = some p) (dmlq : b = .dmlq) :
      Action b admitted chans s (s.edit p fun q =>
        { q with priority := if q.priority < lwpr then q.priority + 1 else q.priority })
  | sleep {c : Fin ncpu} {p : Slot} {chan : Chan} {context : Context}
      (current : s.cpu c = some p) (user : (s.proc p).frame = .user)
      (resumable : context = .sleep ∨ context = .wait ∨ context = .waitnstats)
      (attentive : chan = .proc p → ∀ q, (s.proc q).parent = some p → (s.proc q).state ≠ .zombie) :
      Action b admitted chans s
        ((sched context p ((s.edit p fun q => { q with chan }).setState p .sleeping)).setCpu c none)
  | pickNone {t : State ncpu} (run : pickNext b s = .ok (none, t)) : Action b admitted chans s t
  | dispatch {c : Fin ncpu} {p : Slot} {s' : State ncpu} (idle : s.cpu c = none)
      (picks : Picks b p s s')
      (ready : (s.proc p).state = .runnable ∨ (s.proc p).state = .sleeping) :
      Action b admitted chans s (dispatched c p s')
  | tidy {c : Fin ncpu} {p : Slot} (current : s.cpu c = some p) :
      Action b admitted chans s (s.edit p fun q => { q with chan := .null })
  | reap {c : Fin ncpu} {p child : Slot} {stats : Bool} (current : s.cpu c = some p)
      (own : (s.proc child).parent = some p) (zombie : (s.proc child).state = .zombie) :
      Action b admitted chans s (reap stats p child s)

variable {b : Build} {s t : State ncpu}

/-- Choosing a process changes the ready queue only. -/
theorem pickNext_frame {picked : Option Slot} (run : pickNext b s = .ok (picked, t)) :
    ∃ pqueue multiqueue, t = { s with pqueue, multiqueue } := by
  cases b with
  | default =>
      obtain ⟨-, rfl⟩ := Prod.mk.inj (Except.ok.inj run)
      exact ⟨_, _, rfl⟩
  | fcfs =>
      obtain ⟨-, rfl⟩ := Prod.mk.inj (Except.ok.inj run)
      exact ⟨_, _, rfl⟩
  | mlq =>
      obtain ⟨_, -, eq⟩ := Fallible.bind_eq_ok.mp run
      obtain ⟨-, rfl⟩ := Prod.mk.inj (Except.ok.inj eq)
      exact ⟨_, _, rfl⟩
  | dmlq =>
      obtain ⟨_, -, eq⟩ := Fallible.bind_eq_ok.mp run
      obtain ⟨-, rfl⟩ := Prod.mk.inj (Except.ok.inj eq)
      exact ⟨_, _, rfl⟩

theorem Picks.frame {p : Slot} (picks : Picks b p s t) :
    ∃ pqueue multiqueue, t = { s with pqueue, multiqueue } := by
  rcases picks with run | ⟨-, rfl, -⟩
  · exact pickNext_frame run
  · exact ⟨_, _, rfl⟩

end Xv6
