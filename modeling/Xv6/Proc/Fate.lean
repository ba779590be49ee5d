import Xv6.Proc.Arrival
import Xv6.Proc.Decomposition

/-!
# What an action does to one process

`Fate` lists what can become of the process in a slot in one action, and `Action.hist` what an
action adds to the history. Invariants about single processes follow from these.
-/

namespace Xv6

open Relation Fallible

variable {ncpu : ℕ}

/-- `p` sleeps on the channel. -/
def SleepsOn (p : Slot) (chan : Chan) (s : State ncpu) : Prop :=
  (s.proc p).state = .sleeping ∧ (s.proc p).chan = chan

/-- The event gives up the slot that its `fork` has taken, since there is no memory. -/
def GivesUp (s : State ncpu) (e : Event ncpu) (np : Slot) : Prop :=
  ∃ c p, s.cpu c = some p ∧
    (e = .forkKstack c none ∧ (s.proc p).frame = .kstack np ∨
      e = .forkCopyuvm c none ∧ (s.proc p).frame = .copyuvm np)

/-- The fields that stay as they are from `allocproc` on, as long as nobody kills the process. -/
def Proc.SameLife (q r : Proc) : Prop :=
  q.pid = r.pid ∧ q.killed = r.killed ∧ q.timecreated = r.timecreated

/-- `t` comes after `s`, and `p` has become `RUNNABLE` in between. -/
def Roused (p : Slot) (s t : State ncpu) : Prop := s.hist.length < readySince p t.hist

/-- What can become of `p` in one action. -/
inductive Fate (b : Build) (admitted : State ncpu → Event ncpu → Prop) (chans : Chan → Prop)
    (s t : State ncpu) (p : Slot) : Prop where
  | same (state : (t.proc p).state = (s.proc p).state)
      (chan : (s.proc p).state = .sleeping → (t.proc p).chan = (s.proc p).chan)
      (life : (t.proc p).SameLife (s.proc p))
  | taken (unused : (s.proc p).state = .unused) (embryo : (t.proc p).state = .embryo)
      (killed : (t.proc p).killed = (s.proc p).killed)
      (created : (t.proc p).timecreated = s.ticks) (hist : t.hist = .state p .embryo :: s.hist)
  | givenUp {e : Event ncpu} (allowed : admitted s e) (givesUp : GivesUp s e p)
      (embryo : (s.proc p).state = .embryo) (unused : (t.proc p).state = .unused)
      (life : (t.proc p).SameLife (s.proc p))
  | advanced (before : (s.proc p).state ≠ .unused ∧ (s.proc p).state ≠ .sleeping)
      (after : (t.proc p).state ≠ .unused ∧ (t.proc p).state ≠ .embryo)
      (life : (t.proc p).SameLife (s.proc p))
  | woken (asleep : (s.proc p).state = .sleeping) (chan : chans (s.proc p).chan)
      (record : t.proc p = woken b (s.proc p)) (roused : Roused p s t)
  /-- only if the ready queue is broken -/
  | strayed {u : State ncpu} (asleep : (s.proc p).state = .sleeping) (picks : Picks b p s u)
      (running : (t.proc p).state = .running) (life : (t.proc p).SameLife (s.proc p))
  | reaped (zombie : (s.proc p).state = .zombie) (unused : (t.proc p).state = .unused)
      (killed : (t.proc p).killed = false)
  | killed {c : Fin ncpu} {pid : ℤ} (allowed : admitted s (.kill c pid))
      (found : findPid pid s = some p)
      (record : t.proc p = { s.proc p with killed := true } ∨
        (s.proc p).state = .sleeping ∧ Roused p s t ∧
          t.proc p = woken b { s.proc p with killed := true })
  | faulted (running : (s.proc p).state = .running)
      (record : t.proc p = { s.proc p with killed := true })

variable {b : Build} {s t u : State ncpu} {admitted : State ncpu → Event ncpu → Prop}
  {chans : Chan → Prop} {c : Fin ncpu} {p q : Slot} {chan : Chan}

/-! ## The history -/

theorem lastAt_mem {entry : Entry} {entries hist : List Entry} (member : entry ∈ entries) :
    hist.length < lastAt entry (entries ++ hist) := by
  induction entries with
  | nil => exact absurd member List.not_mem_nil
  | cons other entries ih =>
      rw [List.cons_append, lastAt]
      split
      · simp only [List.length_append]
        omega
      · rename_i different
        rcases List.mem_cons.mp member with same | older
        · exact absurd same.symm different
        · exact ih older

theorem lastAt_mono {entry : Entry} {hist newer : List Entry} (grows : hist <:+ newer) :
    lastAt entry hist ≤ lastAt entry newer := by
  rcases grows with ⟨entries, rfl⟩
  by_cases member : entry ∈ entries
  · exact (lastAt_le entry hist).trans (lastAt_mem member).le
  · exact (lastAt_append member).ge

/-- The entries that making a process `RUNNABLE` leaves. -/
def Entry.Wakening (entry : Entry) : Prop :=
  ∃ p, entry = .state p .runnable ∨ entry = .dropped p

/-- What is in the history once `p` has got its place in the ready queue. -/
theorem addReady_hist (hist : u.hist = .state p .runnable :: s.hist)
    (run : addReady b p u = .ok t) :
    ∃ entries, t.hist = entries ++ s.hist ∧ (∀ entry ∈ entries, entry.Wakening) ∧
      .state p .runnable ∈ entries := by
  have own : Entry.Wakening (.state p .runnable) := ⟨p, .inl rfl⟩
  rcases addReady_frame run with ⟨_, _, drops, rfl, rfl | rfl⟩
  · exact ⟨[.state p .runnable], by simp [hist], by simp [own], by simp⟩
  · exact ⟨[.dropped p, .state p .runnable], by simp [hist], by simp [Entry.Wakening], by simp⟩

theorem wake_hist (run : wake b p s = .ok t) :
    ∃ entries, t.hist = entries ++ s.hist ∧ (∀ entry ∈ entries, entry.Wakening) ∧
      .state p .runnable ∈ entries := by
  refine addReady_hist ?_ run
  split <;> rfl

theorem wakeup1_hist (run : wakeup1 b chan s = .ok t) :
    ∃ entries, t.hist = entries ++ s.hist ∧ (∀ entry ∈ entries, entry.Wakening) ∧
      ∀ p, SleepsOn p chan s → .state p .runnable ∈ entries := by
  have path := wakeup1_path run
  -- who still sleeps at the end of the path has slept on another channel
  have left : ∀ p, ¬SleepsOn p chan t := by
    intro p asleep
    have proc := wakeup1_proc run p
    unfold SleepsOn at asleep
    rw [proc] at asleep
    grind [woken]
  clear run
  induction path using ReflTransGen.head_induction_on with
  | refl => exact ⟨[], rfl, by simp, fun p asleep => absurd asleep (left p)⟩
  | head wakes _ ih =>
      rcases wakes with ⟨q, asleep, on, run⟩
      rcases ih with ⟨entries, hist, wakening, sleepers⟩
      rcases wake_hist run with ⟨first, hist', wakening', own⟩
      refine ⟨entries ++ first, by rw [hist, hist', List.append_assoc], ?_, ?_⟩
      · intro entry member
        rcases List.mem_append.mp member with later | now
        · exact wakening entry later
        · exact wakening' entry now
      · intro p sleeps
        rw [List.mem_append]
        by_cases same : p = q
        · exact .inr (same ▸ own)
        · apply Or.inl
          apply sleepers
          unfold SleepsOn
          rw [wake_proc run, if_neg same]
          exact sleeps

theorem reparent_hist {curproc : Slot} (run : reparent b curproc s p = .ok t) :
    ∃ entries, t.hist = entries ++ s.hist ∧ ∀ q, .state q .embryo ∉ entries := by
  unfold reparent at run
  split at run
  · dsimp only at run
    split at run
    · rcases wakeup1_hist run with ⟨entries, hist, wakening, -⟩
      refine ⟨entries ++ [.parent p s.initproc], by simp [hist], fun q member => ?_⟩
      rcases List.mem_append.mp member with new | own
      · rcases wakening _ new with ⟨r, impossible | impossible⟩ <;> cases impossible
      · simp at own
    · exact ⟨[.parent p s.initproc], (Except.ok.inj run) ▸ rfl, by simp⟩
  · exact ⟨[], (Except.ok.inj run) ▸ rfl, by simp⟩

/-- What an action adds to the history: `allocproc` takes a slot, or none is taken. -/
def Adds (s : State ncpu) (entries : List Entry) : Prop :=
  (∀ p, .state p .embryo ∉ entries) ∨
    ∃ p, entries = [.state p .embryo] ∧ (s.proc p).state = .unused

theorem Adds.of_wakening {entries : List Entry} (wakening : ∀ entry ∈ entries, entry.Wakening) :
    Adds s entries := by
  refine .inl fun p member => ?_
  rcases wakening _ member with ⟨q, impossible | impossible⟩ <;> cases impossible

theorem Leaf.hist {e : Event ncpu} (leaf : Leaf b s e t) :
    ∃ entries, t.hist = entries ++ s.hist ∧ Adds s entries := by
  have none : Adds s [] := .inl (by simp)
  cases leaf with
  | userinitAlloc boot run =>
      rcases userinitAlloc_ok run with ⟨p, unused, rfl⟩
      exact ⟨[.state p .embryo], rfl, .inr ⟨p, rfl, unused⟩⟩
  | userinitReady boot run =>
      rcases bind_eq_ok.mp run with ⟨u, added, eq⟩
      rcases addReady_hist rfl added with ⟨entries, hist, wakening, -⟩
      refine ⟨entries, ?_, .of_wakening wakening⟩
      rw [← Except.ok.inj eq]
      exact hist
  | fork current user =>
      unfold Xv6.fork
      split
      · exact ⟨[], rfl, none⟩
      · rename_i np u alloc
        rcases allocproc_some alloc with ⟨unused, rfl⟩
        exact ⟨[.state np .embryo], rfl, .inr ⟨np, rfl, unused⟩⟩
  | forkKstack current frame =>
      rename_i c p np page
      cases page with
      | none => exact ⟨[.state np .unused], rfl, .inl (by simp)⟩
      | some page => exact ⟨[], rfl, none⟩
  | forkCopyuvm current frame =>
      rename_i c p np page
      cases page with
      | none => exact ⟨[.state np .unused], rfl, .inl (by simp)⟩
      | some page =>
          refine ⟨[.parent np (some p)], ?_, .inl (by simp)⟩
          unfold Xv6.forkCopyuvm
          dsimp only
          split <;> rfl
  | forkReady current frame run =>
      rcases bind_eq_ok.mp run with ⟨u, added, eq⟩
      rcases addReady_hist rfl added with ⟨entries, hist, wakening, -⟩
      refine ⟨entries, ?_, .of_wakening wakening⟩
      rw [← Except.ok.inj eq]
      exact hist
  | exec current user => exact ⟨[], rfl, none⟩
  | kill run =>
      rcases kill_ok run with ⟨-, -, rfl⟩ | ⟨p, -, -, ⟨asleep, woken⟩ | ⟨-, rfl⟩⟩
      · exact ⟨[], rfl, none⟩
      · rcases wake_hist woken with ⟨entries, hist, wakening, -⟩
        exact ⟨entries, hist, .of_wakening wakening⟩
      · exact ⟨[], rfl, none⟩
  | trapFault current => exact ⟨[], rfl, none⟩
  | chpr run =>
      rcases chpr_ok run with rfl | ⟨-, p, multiqueue, -, rfl⟩
      · exact ⟨[], rfl, none⟩
      · exact ⟨[], rfl, none⟩
  | tick => exact ⟨[], rfl, none⟩
  | updateprocesstimes => exact ⟨[.tick], rfl, .inl (by simp)⟩

theorem Action.hist (action : Action b admitted chans s t) :
    ∃ entries, t.hist = entries ++ s.hist ∧ Adds s entries := by
  cases action with
  | leaf _ leaf => exact leaf.hist
  | wake asleep _ run =>
      rcases wake_hist run with ⟨entries, hist, wakening, -⟩
      exact ⟨entries, hist, .of_wakening wakening⟩
  | reparent current user _ run =>
      rcases reparent_hist run with ⟨entries, hist, notTaken⟩
      exact ⟨entries, hist, .inl notTaken⟩
  | zombie current user notInit childless calm =>
      rename_i p
      exact ⟨[.state p .zombie], rfl, .inl (by simp)⟩
  | yield current run =>
      rcases addReady_hist rfl run with ⟨entries, hist, wakening, -⟩
      exact ⟨entries, hist, .of_wakening wakening⟩
  | demote current dmlq => exact ⟨[], rfl, .inl (by simp)⟩
  | sleep current user resumable attentive =>
      rename_i p chan context
      exact ⟨[.state p .sleeping], rfl, .inl (by simp)⟩
  | pickNone run =>
      rcases pickNext_frame run with ⟨_, _, rfl⟩
      exact ⟨[], rfl, .inl (by simp)⟩
  | dispatch idle picks ready =>
      rename_i p s'
      rcases picks.frame with ⟨_, _, rfl⟩
      exact ⟨[.state p .running], rfl, .inl (by simp)⟩
  | tidy current => exact ⟨[], rfl, .inl (by simp)⟩
  | reap current own zombie => exact ⟨[.reap _ _ _], rfl, .inl (by simp)⟩

/-- The history only grows. -/
theorem hist_of_path (path : ReflTransGen (Action b admitted chans) s t) : s.hist <:+ t.hist := by
  induction path with
  | refl => exact List.suffix_rfl
  | tail _ action ih =>
      rcases action.hist with ⟨entries, hist, -⟩
      rw [hist]
      exact ih.trans (List.suffix_append _ _)

/-! ## The process -/

theorem Fate.of_eq (record : t.proc p = s.proc p) : Fate b admitted chans s t p :=
  .same (by rw [record]) (by simp [record]) (by rw [record]; exact ⟨rfl, rfl, rfl⟩)

/-- All that an action changes in the table is about one process. -/
theorem Fate.only (others : p ≠ q → t.proc p = s.proc p) (own : Fate b admitted chans s t q) :
    Fate b admitted chans s t p := by
  by_cases same : p = q
  · exact same ▸ own
  · exact .of_eq (others same)

/-- An assignment to fields that are neither the state, the channel nor one of `SameLife`. -/
theorem Fate.of_edit {change : Proc → Proc} (record : t.proc p = (s.edit q change).proc p)
    (state : ∀ r, (change r).state = r.state) (chan : ∀ r, (change r).chan = r.chan)
    (life : ∀ r, (change r).SameLife r) : Fate b admitted chans s t p := by
  rw [State.edit_proc] at record
  split at record
  · rename_i same
    subst same
    exact .same (by simp [record, state]) (by simp [record, chan]) (by simpa [record] using life _)
  · exact .of_eq record

theorem Fate.wake (asleep : (s.proc q).state = .sleeping) (on : chans (s.proc q).chan)
    (run : wake b q s = .ok t) : Fate b admitted chans s t p := by
  have record := wake_proc run
  rcases wake_hist run with ⟨entries, hist, -, own⟩
  refine .only (q := q) (fun different => by simp [record, different]) ?_
  exact .woken asleep on (by simp [record]) (by rw [Roused, hist]; exact lastAt_mem own)

theorem Fate.of_setParent {parent : Option Slot}
    (record : t.proc p = (s.setParent q parent).proc p) : Fate b admitted chans s t p := by
  rw [State.setParent_proc] at record
  split at record
  · rename_i same
    subst same
    exact .same (by rw [record]) (by simp [record]) (by rw [record]; exact ⟨rfl, rfl, rfl⟩)
  · exact .of_eq record

theorem Fate.reparent {curproc : Slot} (on : chans (.ofProc s.initproc))
    (run : reparent b curproc s q = .ok t) : Fate b admitted chans s t p := by
  unfold Xv6.reparent at run
  split at run
  · dsimp only at run
    split at run
    · rename_i zombie
      have record := wakeup1_proc run p
      split at record
      · rename_i asleep
        -- the child that moves is a `ZOMBIE`
        have different : p ≠ q := by
          rintro rfl
          rw [zombie] at asleep
          cases asleep.1
        have before : (s.setParent q s.initproc).proc p = s.proc p := by
          simp [State.setParent_proc, different]
        rcases wakeup1_hist run with ⟨entries, hist, -, sleepers⟩
        have later : (s.setParent q s.initproc).hist.length <
            lastAt (.state p .runnable) (entries ++ (s.setParent q s.initproc).hist) :=
          lastAt_mem (sleepers p asleep)
        rw [before] at asleep record
        refine .woken asleep.1 (asleep.2 ▸ on) record ?_
        rw [Roused, readySince, hist]
        exact (Nat.lt_succ_self _).trans later
      · exact .of_setParent record
    · exact Except.ok.inj run ▸ .of_setParent rfl
  · exact Except.ok.inj run ▸ .of_eq rfl

theorem Fate.leaf (consistent : Consistent s) {e : Event ncpu} (allowed : admitted s e)
    (leaf : Leaf b s e t) : Fate b admitted chans s t p := by
  cases leaf with
  | userinitAlloc boot run =>
      rcases userinitAlloc_ok run with ⟨q, unused, rfl⟩
      refine .only (q := q) (fun different => by simp [different]) ?_
      exact .taken unused (by simp) (by simp) (by simp) rfl
  | userinitReady boot run =>
      rename_i q
      rcases bind_eq_ok.mp run with ⟨u, added, eq⟩
      rcases addReady_frame added with ⟨_, _, _, rfl, -⟩
      rcases Except.ok.inj eq with rfl
      have embryo := consistent.forks.boot q boot q
      refine .only (q := q) (fun different => by simp [State.setState_proc, different]) ?_
      exact .advanced (by simp [embryo]) (by simp) (by simp [Proc.SameLife])
  | fork current user =>
      rename_i c q
      have running := consistent.cpus.running c q current
      unfold Xv6.fork
      split
      · exact .of_eq rfl
      · rename_i np u alloc
        rcases allocproc_some alloc with ⟨unused, rfl⟩
        have different : np ≠ q := by
          rintro rfl
          rw [running] at unused
          cases unused
        by_cases caller : p = q
        · subst caller
          exact .same (by simp [different.symm]) (by simp [different.symm])
            (by simp [different.symm, Proc.SameLife])
        · refine .only (q := np) (fun other => by simp [State.edit_proc, caller, other]) ?_
          exact .taken unused (by simp [State.edit_proc, different])
            (by simp [State.edit_proc, different]) (by simp [State.edit_proc, different]) rfl
  | forkKstack current frame =>
      rename_i c q np page
      have embryo := consistent.forks.embryo q np (by rw [frame]; rfl)
      have running := consistent.cpus.running c q current
      unfold Xv6.forkKstack allocprocKstack
      cases page with
      | none =>
          by_cases child : p = np
          · subst child
            refine .givenUp allowed ⟨c, q, current, .inl ⟨rfl, frame⟩⟩ embryo ?_ ?_ <;>
              simp only [State.edit_proc, State.setState_proc, Proc.SameLife] <;> grind
          · refine .same ?_ ?_ ?_ <;>
              simp only [State.edit_proc, State.setState_proc, Proc.SameLife] <;> grind
      | some page =>
          refine .same ?_ ?_ ?_ <;> simp only [State.edit_proc, Proc.SameLife] <;> grind
  | forkCopyuvm current frame =>
      rename_i c q np page
      have embryo := consistent.forks.embryo q np (by rw [frame]; rfl)
      have running := consistent.cpus.running c q current
      unfold Xv6.forkCopyuvm
      cases page with
      | none =>
          by_cases child : p = np
          · subst child
            refine .givenUp allowed ⟨c, q, current, .inr ⟨rfl, frame⟩⟩ embryo ?_ ?_ <;>
              simp only [State.edit_proc, State.setState_proc, Proc.SameLife] <;> grind
          · refine .same ?_ ?_ ?_ <;>
              simp only [State.edit_proc, State.setState_proc, Proc.SameLife] <;> grind
      | some page =>
          dsimp only
          split <;> refine .same ?_ ?_ ?_ <;>
            simp only [State.edit_proc, State.setParent_proc, Proc.SameLife] <;> grind
  | forkReady current frame run =>
      rename_i c q np
      have embryo := consistent.forks.embryo q np (by rw [frame]; rfl)
      have running := consistent.cpus.running c q current
      rcases bind_eq_ok.mp run with ⟨u, added, eq⟩
      rcases addReady_frame added with ⟨_, _, _, rfl, -⟩
      rcases Except.ok.inj eq with rfl
      clear run added eq
      by_cases child : p = np
      · subst child
        refine .advanced (by simp [embryo]) ?_ ?_ <;>
          simp only [State.edit_proc, State.setState_proc, Proc.SameLife] <;> grind
      · refine .same ?_ ?_ ?_ <;>
          simp only [State.edit_proc, State.setState_proc, Proc.SameLife] <;> grind
  | exec current user => exact .of_edit rfl (fun _ => rfl) (fun _ => rfl) fun _ => ⟨rfl, rfl, rfl⟩
  | kill run =>
      rcases kill_ok run with ⟨-, -, rfl⟩ | ⟨q, found, -, ⟨asleep, woken⟩ | ⟨-, rfl⟩⟩
      · exact .of_eq rfl
      · have record := wake_proc woken
        rcases wake_hist woken with ⟨entries, hist, -, own⟩
        have others : ∀ r, r ≠ q → (markKilled q s).proc r = s.proc r := fun r different => by
          simp [markKilled, State.edit_proc, different]
        refine .only (q := q) (fun different => by simp [record, different, others p different]) ?_
        refine .killed allowed found (.inr ⟨asleep, ?_, by simp [record, markKilled]⟩)
        rw [Roused, hist]
        exact lastAt_mem own
      · refine .only (q := q) (fun different => by simp [markKilled, State.edit_proc, different]) ?_
        exact .killed allowed found (.inl (by simp [markKilled]))
  | trapFault current =>
      rename_i c q
      refine .only (q := q) (fun different => by simp [State.edit_proc, different]) ?_
      exact .faulted (consistent.cpus.running c q current) (by simp)
  | chpr run =>
      rcases chpr_ok run with rfl | ⟨-, q, multiqueue, -, rfl⟩
      · exact .of_eq rfl
      · refine .same ?_ ?_ ?_ <;>
          simp only [setPriority, State.edit_proc, Proc.SameLife] <;> grind
  | tick => exact .of_eq rfl
  | updateprocesstimes =>
      refine .same ?_ ?_ ?_ <;> simp only [Xv6.updateprocesstimes, State.log_proc, Proc.SameLife] <;>
        grind

theorem Action.fate (consistent : Consistent s) (action : Action b admitted chans s t)
    (p : Slot) : Fate b admitted chans s t p := by
  cases action with
  | leaf allowed leaf => exact .leaf consistent allowed leaf
  | wake asleep on run => exact .wake asleep on run
  | reparent current user on run => exact .reparent on run
  | zombie current user notInit childless calm =>
      rename_i c q
      have running := consistent.cpus.running c q current
      refine .only (q := q) (fun different => ?_) ?_
      · simp [sched, State.edit_proc, State.setState_proc, different]
      · exact .advanced (by simp [running]) (by simp [sched]) (by simp [sched, Proc.SameLife])
  | yield current run =>
      rename_i c q u
      have running := consistent.cpus.running c q current
      rcases addReady_frame run with ⟨_, _, _, rfl, -⟩
      refine .only (q := q) (fun different => ?_) ?_
      · simp [sched, State.edit_proc, State.setState_proc, different]
      · exact .advanced (by simp [running]) (by simp [sched]) (by simp [sched, Proc.SameLife])
  | demote current dmlq => exact .of_edit rfl (fun _ => rfl) (fun _ => rfl) fun _ => ⟨rfl, rfl, rfl⟩
  | sleep current user resumable attentive =>
      rename_i c q chan context
      have running := consistent.cpus.running c q current
      refine .only (q := q) (fun different => ?_) ?_
      · simp [sched, State.edit_proc, State.setState_proc, different]
      · exact .advanced (by simp [running]) (by simp [sched]) (by simp [sched, Proc.SameLife])
  | pickNone run =>
      rcases pickNext_frame run with ⟨_, _, rfl⟩
      exact .of_eq rfl
  | dispatch idle picks ready =>
      rename_i c q u
      have same : ∀ r, u.proc r = s.proc r := by
        rcases picks.frame with ⟨_, _, rfl⟩
        exact fun _ => rfl
      refine .only (q := q) (fun different => ?_) ?_
      · simp [dispatched, State.edit_proc, State.setState_proc, different, same]
      · have life : ((dispatched c q u).proc q).SameLife (s.proc q) := by
          simp [dispatched, same, Proc.SameLife]
        have running : ((dispatched c q u).proc q).state = .running := by simp [dispatched]
        rcases ready with runnable | asleep
        · exact .advanced (by simp [runnable]) (by simp [running]) life
        · exact .strayed asleep picks running life
  | tidy current =>
      rename_i c q
      have running := consistent.cpus.running c q current
      refine .only (q := q) (fun different => by simp [State.edit_proc, different]) ?_
      exact .same (by simp) (by simp [running]) (by simp [Proc.SameLife])
  | reap current own zombie =>
      rename_i child stats
      refine .only (q := child) (fun different => by simp [Xv6.reap, State.edit_proc, different]) ?_
      exact .reaped zombie (by simp [Xv6.reap]) (by simp [Xv6.reap])

/-! ## The clock -/

theorem Leaf.ticks {e : Event ncpu} (leaf : Leaf b s e t) :
    t.ticks = s.ticks ∨ e = .tick ∧ t.ticks = s.ticks + 1 := by
  cases leaf with
  | tick => exact .inr ⟨rfl, rfl⟩
  | userinitAlloc boot run =>
      rcases userinitAlloc_ok run with ⟨_, -, rfl⟩
      exact .inl rfl
  | userinitReady boot run =>
      rcases bind_eq_ok.mp run with ⟨u, added, eq⟩
      rcases addReady_frame added with ⟨_, _, _, rfl, -⟩
      exact .inl (Except.ok.inj eq ▸ rfl)
  | fork current user =>
      unfold Xv6.fork
      split
      · exact .inl rfl
      · rename_i alloc
        rcases allocproc_some alloc with ⟨-, rfl⟩
        exact .inl rfl
  | forkKstack current frame =>
      rename_i page
      cases page <;> exact .inl rfl
  | forkCopyuvm current frame =>
      rename_i page
      unfold Xv6.forkCopyuvm
      cases page with
      | none => exact .inl rfl
      | some page =>
          dsimp only
          split <;> exact .inl rfl
  | forkReady current frame run =>
      rcases bind_eq_ok.mp run with ⟨u, added, eq⟩
      rcases addReady_frame added with ⟨_, _, _, rfl, -⟩
      exact .inl (Except.ok.inj eq ▸ rfl)
  | kill run =>
      rcases kill_ok run with ⟨-, -, rfl⟩ | ⟨_, -, -, ⟨-, woken⟩ | ⟨-, rfl⟩⟩
      · exact .inl rfl
      · exact .inl (wake_rest woken).ticks
      · exact .inl rfl
  | chpr run => rcases chpr_ok run with rfl | ⟨-, _, _, -, rfl⟩ <;> exact .inl rfl
  | exec current user => exact .inl rfl
  | trapFault current => exact .inl rfl
  | updateprocesstimes => exact .inl rfl

theorem Action.ticks (action : Action b admitted chans s t) :
    t.ticks = s.ticks ∨ admitted s .tick ∧ t.ticks = s.ticks + 1 := by
  cases action with
  | leaf allowed leaf =>
      rcases leaf.ticks with same | ⟨rfl, later⟩
      · exact .inl same
      · exact .inr ⟨allowed, later⟩
  | wake asleep _ run => exact .inl (wake_rest run).ticks
  | reparent current user _ run =>
      unfold Xv6.reparent at run
      split at run
      · dsimp only at run
        split at run
        · exact .inl (wakeup1_rest run).ticks
        · exact .inl (Except.ok.inj run ▸ rfl)
      · exact .inl (Except.ok.inj run ▸ rfl)
  | yield current run =>
      rcases addReady_frame run with ⟨_, _, _, rfl, -⟩
      exact .inl rfl
  | pickNone run =>
      rcases pickNext_frame run with ⟨_, _, rfl⟩
      exact .inl rfl
  | dispatch idle picks ready =>
      rcases picks.frame with ⟨_, _, rfl⟩
      exact .inl rfl
  | zombie current user notInit childless calm => exact .inl rfl
  | demote current dmlq => exact .inl rfl
  | sleep current user resumable attentive => exact .inl rfl
  | tidy current => exact .inl rfl
  | reap current own zombie => exact .inl rfl

end Xv6
