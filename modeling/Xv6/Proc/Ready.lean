import Xv6.Proc.LifeCycle

/-!
# The ready queues and the `RUNNABLE` processes

The invariants that connect the ready queues of a build with the table, and how they are kept when
a process becomes `RUNNABLE`, when the scheduler takes one, and when neither happens.
-/

namespace Xv6

variable {ncpu : ℕ}

/-- The build schedules by levels. -/
def Build.Multilevel (b : Build) : Prop := b = .mlq ∨ b = .dmlq

/-- A priority that is a level. -/
def InRange (priority : ℤ) : Prop := hipr ≤ priority ∧ priority ≤ lwpr

/-- The heap holds the `RUNNABLE` processes, each once. -/
structure HeapInv (s : State ncpu) : Prop where
  nodup : s.pqueue.toList.Nodup
  mem : ∀ p, p ∈ s.pqueue.toList ↔ (s.proc p).state = .runnable
  ordered : s.pqueue.Ordered fun p => (s.proc p).timecreated

/-- Every level's ring holds the `RUNNABLE` processes of that priority, each once. -/
structure RingInv (s : State ncpu) : Prop where
  wellFormed : s.multiqueue.WellFormed
  nodup : ∀ qindex, (s.multiqueue.ring qindex).Nodup
  mem : ∀ qindex x, x ∈ s.multiqueue.ring qindex ↔
    ∃ p, x = some p ∧ (s.proc p).state = .runnable ∧ (s.proc p).priority = qindex + 1
  level : ∀ p, (s.proc p).state = .runnable → InRange (s.proc p).priority

/-- What the ready queue of a build has to do with the table. -/
def ReadyInv (b : Build) (s : State ncpu) : Prop :=
  match b with
  | .default => True
  | .fcfs => HeapInv s
  | .mlq | .dmlq => RingInv s

/-- An entry that is not about the ready queues. -/
def Entry.Calm (entry : Entry) : Prop := ∀ p, entry ≠ .state p .runnable ∧ entry ≠ .dropped p

/-- Nothing changes for the ready queues. -/
structure Quiet (s t : State ncpu) : Prop where
  pqueue : t.pqueue = s.pqueue
  multiqueue : t.multiqueue = s.multiqueue
  runnable : ∀ p, (t.proc p).state = .runnable ↔ (s.proc p).state = .runnable
  priority : ∀ p, (s.proc p).state = .runnable → (t.proc p).priority = (s.proc p).priority
  timecreated : ∀ p, (s.proc p).state = .runnable →
    (t.proc p).timecreated = (s.proc p).timecreated
  hist : ∃ entries, t.hist = entries ++ s.hist ∧ ∀ entry ∈ entries, entry.Calm

/-- `t` is `s` with `p` made `RUNNABLE`, and not in the ready queue yet. -/
structure Enters (b : Build) (p : Slot) (s t : State ncpu) : Prop where
  pqueue : t.pqueue = s.pqueue
  multiqueue : t.multiqueue = s.multiqueue
  before : (s.proc p).state ≠ .runnable
  runnable : (t.proc p).state = .runnable
  others : ∀ q, q ≠ p → t.proc q = s.proc q
  level : b.Multilevel → InRange (t.proc p).priority
  hist : t.hist = .state p .runnable :: s.hist

/-- `t` is `s` with `p` no longer `RUNNABLE`. -/
structure Leaves (p : Slot) (s t : State ncpu) : Prop where
  pqueue : t.pqueue = s.pqueue
  multiqueue : t.multiqueue = s.multiqueue
  after : (t.proc p).state ≠ .runnable
  others : ∀ q, q ≠ p → t.proc q = s.proc q
  hist : ∃ entries, t.hist = entries ++ s.hist ∧ ∀ entry ∈ entries, entry.Calm

variable {b : Build} {s t u : State ncpu} {p : Slot}

/-- The queue index of a priority in range. -/
theorem exists_qindex {priority : ℤ} (inside : InRange priority) :
    ∃ qindex : Fin numpr, priority = qindex + 1 := by
  refine ⟨⟨(priority - 1).toNat, ?_⟩, ?_⟩ <;> simp only [InRange, hipr, lwpr] at * <;> grind

theorem inRange_qindex (qindex : Fin numpr) : InRange (qindex + 1) := by
  have := qindex.isLt
  simp only [InRange, hipr, lwpr, numpr] at *
  omega

/-! ## The heap -/

theorem PQueue.Ordered.congr {queue : PQueue} {timecreated timecreated' : Slot → BitVec 32}
    (ordered : queue.Ordered timecreated)
    (same : ∀ p ∈ queue.toList, timecreated' p = timecreated p) :
    queue.Ordered timecreated' := by
  intro x y xInside yInside child
  have memX : queue.proc[x] ∈ queue.toList := Array.mem_def.mp (Array.getElem_mem xInside)
  have memY : queue.proc[y] ∈ queue.toList := Array.mem_def.mp (Array.getElem_mem yInside)
  unfold PQueue.created
  rw [same _ memX, same _ memY]
  exact ordered x y xInside yInside child

theorem HeapInv.initial : HeapInv ({} : State ncpu) := by
  refine ⟨List.nodup_nil, fun p => by simp [PQueue.toList], ?_⟩
  intro x y xInside
  simp at xInside

theorem HeapInv.quiet (inv : HeapInv s) (quiet : Quiet s t) : HeapInv t where
  nodup := quiet.pqueue ▸ inv.nodup
  mem p := by rw [quiet.pqueue, inv.mem, quiet.runnable]
  ordered := by
    rw [quiet.pqueue]
    exact inv.ordered.congr fun p member => quiet.timecreated p ((inv.mem p).mp member)

/-- The heap has room for a process that is not in it. -/
theorem HeapInv.room (inv : HeapInv s) (before : (s.proc p).state ≠ .runnable) :
    s.pqueue.size < nproc := by
  have notMem : p ∉ s.pqueue.toList := fun member => before ((inv.mem p).mp member)
  have bound := (List.nodup_cons.mpr ⟨notMem, inv.nodup⟩).length_le_card
  rw [List.length_cons, PQueue.length_toList, Fintype.card_fin] at bound
  exact bound

theorem HeapInv.addReady (inv : HeapInv s) (enters : Enters .fcfs p s u) :
    ∃ pqueue, addReady .fcfs p u = .ok { u with pqueue } ∧ HeapInv { u with pqueue } := by
  have room : u.pqueue.size < nproc := enters.pqueue ▸ inv.room enters.before
  refine ⟨u.pqueue.insert (fun q => (u.proc q).timecreated) p,
    by simp only [Xv6.addReady, room, if_true], ?_⟩
  have perm := @PQueue.insert_perm (fun q => (u.proc q).timecreated) u.pqueue p room
  have member : ∀ q, q ∈ u.pqueue.toList ↔ (s.proc q).state = .runnable :=
    fun q => enters.pqueue ▸ inv.mem q
  have notMem : p ∉ u.pqueue.toList := fun member' => enters.before ((member p).mp member')
  refine ⟨?_, ?_, PQueue.insert_ordered ?_⟩
  · rw [perm.nodup_iff]
    exact List.nodup_cons.mpr ⟨notMem, enters.pqueue ▸ inv.nodup⟩
  · intro q
    rw [perm.mem_iff, List.mem_cons, member]
    by_cases same : q = p
    · simp [same, enters.runnable]
    · simp [same, enters.others q same]
  · have ordered : u.pqueue.Ordered fun p => (s.proc p).timecreated := enters.pqueue ▸ inv.ordered
    refine ordered.congr fun q member' => ?_
    rw [enters.others q]
    rintro rfl
    exact notMem member'

theorem HeapInv.pickNone (inv : HeapInv s) (none : ∀ p, (s.proc p).state ≠ .runnable) :
    pickNext .fcfs s = .ok (.none, s) := by
  have empty : s.pqueue.toList = [] :=
    List.eq_nil_iff_forall_not_mem.mpr fun p member => none p ((inv.mem p).mp member)
  simp [pickNext, PQueue.remove_empty empty]

/-- The heap gives the process with the least `timecreated`. -/
theorem HeapInv.pick (inv : HeapInv s) {r : Slot} (some' : (s.proc r).state = .runnable) :
    ∃ p pqueue, pickNext .fcfs s = .ok (some p, { s with pqueue }) ∧
      (s.proc p).state = .runnable ∧
      (∀ q, (s.proc q).state = .runnable → (s.proc p).timecreated ≤ (s.proc q).timecreated) ∧
      ∀ t, Leaves p { s with pqueue } t → HeapInv t := by
  have nonempty : s.pqueue.toList ≠ [] := List.ne_nil_of_mem ((inv.mem r).mpr some')
  obtain ⟨p, rest, removed, perm⟩ :=
    @PQueue.remove_perm (fun q => (s.proc q).timecreated) s.pqueue nonempty
  have ordered := PQueue.remove_ordered inv.ordered
  rw [removed] at ordered
  have nodup := perm.nodup_iff.mp inv.nodup
  rw [List.nodup_cons] at nodup
  have member : ∀ q, (s.proc q).state = .runnable ↔ q = p ∨ q ∈ rest.toList := by
    intro q
    rw [← inv.mem, perm.mem_iff, List.mem_cons]
  refine ⟨p, rest, by simp [pickNext, removed], (member p).mpr (.inl rfl), ?_, ?_⟩
  · intro q runnable
    exact PQueue.remove_least inv.ordered removed ((inv.mem q).mpr runnable)
  · intro t leaves
    refine ⟨leaves.pqueue ▸ nodup.2, ?_, ?_⟩
    · intro q
      rw [leaves.pqueue]
      by_cases same : q = p
      · subst same
        simp [nodup.1, leaves.after]
      · rw [leaves.others q same, member]
        simp [same]
    · rw [leaves.pqueue]
      refine PQueue.Ordered.congr ordered fun q inRest => ?_
      rw [leaves.others q]
      rintro rfl
      exact nodup.1 inRest

/-! ## The rings -/

theorem RingInv.initial : RingInv ({} : State ncpu) := by
  have empty : ∀ qindex, (({} : State ncpu).multiqueue.ring qindex) = [] :=
    fun qindex => (MultiQueue.start_eq_stop_iff MultiQueue.wellFormed_initial).mp rfl
  refine ⟨MultiQueue.wellFormed_initial, fun qindex => ?_, fun qindex x => ?_, fun p => ?_⟩
  · rw [empty]
    exact List.nodup_nil
  · rw [empty]
    simp
  · simp

theorem RingInv.quiet (inv : RingInv s) (quiet : Quiet s t) : RingInv t where
  wellFormed := quiet.multiqueue ▸ inv.wellFormed
  nodup := quiet.multiqueue ▸ inv.nodup
  mem qindex x := by
    rw [quiet.multiqueue, inv.mem]
    have := quiet.runnable
    have := quiet.priority
    grind
  level p runnable := by
    have before := (quiet.runnable p).mp runnable
    rw [quiet.priority p before]
    exact inv.level p before

theorem RingInv.absent (inv : RingInv s) (before : (s.proc p).state ≠ .runnable)
    (qindex : Fin numpr) : some p ∉ s.multiqueue.ring qindex := fun member => by
  obtain ⟨q, same, runnable, -⟩ := (inv.mem qindex (some p)).mp member
  exact before (Option.some.inj same ▸ runnable)

/-- A level has room for a process that is not in it. -/
theorem RingInv.room (inv : RingInv s) {qindex : Fin numpr}
    (absent : some p ∉ s.multiqueue.ring qindex) : (s.multiqueue.ring qindex).length < nproc := by
  have filled : none ∉ s.multiqueue.ring qindex := fun member => by
    obtain ⟨q, same, -⟩ := (inv.mem qindex none).mp member
    cases same
  have nodup : (none :: some p :: s.multiqueue.ring qindex).Nodup := by
    simp [absent, filled, inv.nodup qindex]
  have bound := nodup.length_le_card
  rw [List.length_cons, List.length_cons, Fintype.card_option, Fintype.card_fin] at bound
  exact Nat.le_of_succ_le_succ bound

/-- The levels after a process has been appended to one of them. -/
theorem RingInv.append (inv : RingInv s) {multiqueue : MultiQueue} {target : Fin numpr}
    (wellFormed : multiqueue.WellFormed)
    (rings : ∀ qindex, multiqueue.ring qindex = if qindex = target then
      s.multiqueue.ring target ++ [some p] else s.multiqueue.ring qindex)
    (same : t.multiqueue = multiqueue) (before : (s.proc p).state ≠ .runnable)
    (runnable : (t.proc p).state = .runnable) (priority : (t.proc p).priority = target + 1)
    (others : ∀ q, q ≠ p → t.proc q = s.proc q) : RingInv t := by
  have absent := inv.absent before
  refine ⟨same ▸ wellFormed, fun qindex => ?_, fun qindex x => ?_, fun q after => ?_⟩
  · rw [same, rings]
    split
    · exact List.nodup_append.mpr ⟨inv.nodup target, List.nodup_singleton _, by
        grind [List.mem_singleton]⟩
    · exact inv.nodup qindex
  · rw [same, rings]
    have := inv.mem qindex x
    split
    · grind
    · grind
  · have := inv.level q
    have := target.isLt
    by_cases new : q = p
    · subst new
      rw [priority]
      exact inRange_qindex target
    · grind

theorem RingInv.addReady (inv : RingInv s) (multilevel : b.Multilevel)
    (enters : Enters b p s u) :
    ∃ multiqueue qindex, (u.proc p).priority = (qindex : Fin numpr) + 1 ∧
      addReady b p u = .ok { u with multiqueue } ∧
      (∀ other, multiqueue.ring other = if other = qindex then
        s.multiqueue.ring qindex ++ [some p] else s.multiqueue.ring other) ∧
      RingInv { u with multiqueue } := by
  obtain ⟨qindex, priority⟩ := exists_qindex (enters.level multilevel)
  have room := inv.room (inv.absent enters.before qindex)
  obtain ⟨multiqueue, enqued, wellFormed, rings⟩ := MultiQueue.enque_spec (p := p)
    inv.wellFormed room
  refine ⟨multiqueue, qindex, priority, ?_, rings, ?_⟩
  · have notFull : ¬u.multiqueue.isfull (u.proc p).priority = true := by
      rw [enters.multiqueue, priority, MultiQueue.isfull_iff inv.wellFormed]
      omega
    rw [← enters.multiqueue, ← priority] at enqued
    rcases multilevel with rfl | rfl <;> unfold Xv6.addReady <;> dsimp only <;>
      rw [if_neg notFull, enqued] <;> rfl
  · exact inv.append wellFormed rings rfl enters.before enters.runnable priority enters.others

/-- The loop over the levels takes the first process of the first level that has one. -/
theorem pickLevel_spec {queue : MultiQueue} (wellFormed : queue.WellFormed)
    (levels : List (Fin numpr)) :
    (∀ qindex ∈ levels, queue.ring qindex = []) ∧
      pickLevel (levels.map fun qindex => (qindex : ℤ) + 1) queue = .ok (none, queue) ∨
    ∃ qindex first rest above below queue', levels = above ++ qindex :: below ∧
      (∀ other ∈ above, queue.ring other = []) ∧ queue.ring qindex = first :: rest ∧
      pickLevel (levels.map fun qindex => (qindex : ℤ) + 1) queue = .ok (first, queue') ∧
      queue'.WellFormed ∧
      ∀ other, queue'.ring other = if other = qindex then rest else queue.ring other := by
  induction levels with
  | nil => exact .inl ⟨fun qindex member => absurd member List.not_mem_nil, rfl⟩
  | cons level levels ih =>
      have test := @MultiQueue.isempty_eq queue level wellFormed
      cases ring : queue.ring level with
      | nil =>
          have skip : pickLevel ((level :: levels).map fun qindex => (qindex : ℤ) + 1) queue =
              pickLevel (levels.map fun qindex => (qindex : ℤ) + 1) queue := by
            simp [pickLevel, test, ring]
          rw [skip]
          rcases ih with ⟨empty, eq⟩ | ⟨qindex, first, rest, above, below, queue', split, empty, found⟩
          · exact .inl ⟨by simpa [ring] using empty, eq⟩
          · exact .inr ⟨qindex, first, rest, level :: above, below, queue', by simp [split],
              by simpa [ring] using empty, found⟩
      | cons first rest =>
          obtain ⟨queue', dequed, wellFormed', rings⟩ := MultiQueue.deque_spec wellFormed ring
          refine .inr ⟨level, first, rest, [], levels, queue', rfl, by simp, ring, ?_, wellFormed',
            rings⟩
          simp [pickLevel, test, ring, dequed]

theorem pickNext_multilevel (multilevel : b.Multilevel) :
    pickNext b s = (do
      let (p, multiqueue) ← pickLevel
        (([0, 1, 2] : List (Fin numpr)).map fun qindex => (qindex : ℤ) + 1) s.multiqueue
      return (p, { s with multiqueue })) := by
  rcases multilevel with rfl | rfl <;> rfl

theorem RingInv.pickNone (inv : RingInv s) (multilevel : b.Multilevel)
    (none : ∀ p, (s.proc p).state ≠ .runnable) : pickNext b s = .ok (.none, s) := by
  rw [pickNext_multilevel multilevel]
  rcases pickLevel_spec inv.wellFormed [0, 1, 2] with ⟨-, eq⟩ |
    ⟨qindex, first, rest, _, _, _, -, -, ring, -⟩
  · rw [eq]
    rfl
  · have member : first ∈ s.multiqueue.ring qindex := ring ▸ List.mem_cons_self
    obtain ⟨p, -, runnable, -⟩ := (inv.mem qindex first).mp member
    exact absurd runnable (none p)

/-- The rings give the first process of the most urgent level that has one. -/
theorem RingInv.pick (inv : RingInv s) (multilevel : b.Multilevel) {r : Slot}
    (some' : (s.proc r).state = .runnable) :
    ∃ p qindex rest multiqueue, pickNext b s = .ok (some p, { s with multiqueue }) ∧
      (s.proc p).state = .runnable ∧ (s.proc p).priority = (qindex : Fin numpr) + 1 ∧
      s.multiqueue.ring qindex = some p :: rest ∧
      (∀ other, multiqueue.ring other = if other = qindex then rest else s.multiqueue.ring other) ∧
      (∀ q, (s.proc q).state = .runnable → (s.proc p).priority ≤ (s.proc q).priority) ∧
      ∀ t, Leaves p { s with multiqueue } t → RingInv t := by
  have total : ∀ qindex : Fin numpr, qindex ∈ ([0, 1, 2] : List (Fin numpr)) := by decide
  rw [pickNext_multilevel multilevel]
  rcases pickLevel_spec inv.wellFormed [0, 1, 2] with ⟨empty, -⟩ |
    ⟨qindex, first, rest, above, below, multiqueue, split, empty, ring, picked, wellFormed, rings⟩
  · obtain ⟨qindex, priority⟩ := exists_qindex (inv.level r some')
    have member := (inv.mem qindex (some r)).mpr ⟨r, rfl, some', priority⟩
    rw [empty qindex (total qindex)] at member
    cases member
  · have member : first ∈ s.multiqueue.ring qindex := ring ▸ List.mem_cons_self
    obtain ⟨p, rfl, runnable, priority⟩ := (inv.mem qindex first).mp member
    refine ⟨p, qindex, rest, multiqueue, by rw [picked]; rfl, runnable, priority, ring, rings, ?_,
      ?_⟩
    · intro q runnable'
      obtain ⟨other, priority'⟩ := exists_qindex (inv.level q runnable')
      rw [priority, priority']
      by_contra less
      have sooner : other < qindex := by omega
      have sorted : ([0, 1, 2] : List (Fin numpr)).Pairwise (· < ·) := by decide
      rw [split, List.pairwise_append, List.pairwise_cons] at sorted
      have inAbove : other ∈ above := by
        have := total other
        have := sorted.2.1.1 other
        grind
      have member := (inv.mem other (some q)).mpr ⟨q, rfl, runnable', priority'⟩
      rw [empty other inAbove] at member
      cases member
    · intro t leaves
      have nodup := inv.nodup qindex
      rw [ring, List.nodup_cons] at nodup
      have elsewhere : ∀ other, other ≠ qindex → some p ∉ s.multiqueue.ring other := by
        intro other different member'
        obtain ⟨q, same, -, priority'⟩ := (inv.mem other (some p)).mp member'
        obtain rfl := Option.some.inj same
        exact different (Fin.ext (by omega))
      refine ⟨leaves.multiqueue ▸ wellFormed, fun other => ?_, fun other x => ?_, fun q after => ?_⟩
      · rw [leaves.multiqueue, rings]
        split
        · exact nodup.2
        · exact inv.nodup other
      · rw [leaves.multiqueue, rings]
        have := inv.mem other x
        have := leaves.after
        have := leaves.others
        have := elsewhere other
        split <;> grind
      · have := inv.level q
        have := leaves.after
        have := leaves.others q
        grind

/-! ## `chpr` -/

/-- The calls of `chpr` that the rings survive: the priority is one of the levels, the pid names
an entry of the table and, if that process has to move to another level, then it is the first with
that pid in its ring, and the ring does not go around the end of its array behind it. -/
def Orderly (pid priority : ℤ) (s : State ncpu) : Prop :=
  InRange priority ∧ ∃ p, findPid pid s = some p ∧
    ((s.proc p).state = .runnable → (s.proc p).priority ≠ priority →
      ∀ qindex : Fin numpr, (s.proc p).priority = qindex + 1 →
        s.multiqueue.Movable (fun q => (s.proc q).pid) qindex p)

theorem chpr_found {pid priority : ℤ} (found : findPid pid s = some p) :
    chpr .mlq pid priority s =
      if (s.proc p).priority ≠ priority then
        if (s.proc p).state = .runnable then do
          let multiqueue ← s.multiqueue.swapque (fun q => (s.proc q).pid) (s.proc p).priority
            priority (s.proc p).pid
          return { setPriority p priority s with multiqueue }
        else .ok (setPriority p priority s)
      else .ok s := by
  have pids : (fun q => ((setPriority p priority s).proc q).pid) = fun q => (s.proc q).pid := by
    funext q
    simp only [setPriority, State.edit_proc]
    split
    · rename_i same
      rw [same]
    · rfl
  have state : ((setPriority p priority s).proc p).state = (s.proc p).state := by
    simp [setPriority]
  have pid' : ((setPriority p priority s).proc p).pid = (s.proc p).pid := by simp [setPriority]
  simp only [chpr, found, ne_eq, not_true_eq_false, if_false]
  rw [show (s.edit p fun q => { q with priority }) = setPriority p priority s from rfl, pids, state,
    pid']
  rfl

theorem setPriority_quiet {priority : ℤ} (notRunnable : (s.proc p).state ≠ .runnable) :
    Quiet s (setPriority p priority s) := by
  refine ⟨rfl, rfl, ?_, ?_, ?_, ⟨[], rfl, by simp⟩⟩ <;> intro q <;>
    simp only [setPriority, State.edit_proc] <;> grind

theorem RingInv.chpr (inv : RingInv s) {pid priority : ℤ} (orderly : Orderly pid priority s) :
    ∃ t, chpr .mlq pid priority s = .ok t ∧ RingInv t ∧ t.hist = s.hist := by
  obtain ⟨inside, p, found, movable⟩ := orderly
  rw [chpr_found found]
  split
  · rename_i changes
    split
    · rename_i runnable
      obtain ⟨qindex, old⟩ := exists_qindex (inv.level p runnable)
      obtain ⟨target, new⟩ := exists_qindex inside
      have different : target ≠ qindex := by
        rintro rfl
        exact changes (old.trans new.symm)
      have absent : some p ∉ s.multiqueue.ring target := fun member => by
        obtain ⟨q, same, -, priority⟩ := (inv.mem target (some p)).mp member
        obtain rfl := Option.some.inj same
        exact different (Fin.ext (by omega))
      obtain ⟨multiqueue, before, after, ring, moved, wellFormed, shorter, rings⟩ :=
        MultiQueue.swapque_spec inv.wellFormed (movable runnable changes qindex old) different
          (inv.room absent)
      rw [old, new, moved]
      have nodup := inv.nodup qindex
      rw [ring, List.nodup_middle, List.nodup_cons] at nodup
      have mem := inv.mem qindex
      simp only [ring, List.mem_append, List.mem_cons] at mem nodup
      refine ⟨_, rfl, ⟨wellFormed, fun other => ?_, fun other x => ?_, fun q => ?_⟩, rfl⟩
      · by_cases same : other = qindex
        · rw [same, shorter]
          exact nodup.2
        · rw [rings other same]
          split
          · exact List.nodup_append.mpr ⟨inv.nodup target, List.nodup_singleton _, by
              grind [List.mem_singleton]⟩
          · exact inv.nodup other
      · simp only [setPriority, State.edit_proc]
        by_cases same : other = qindex
        · rw [same, shorter, List.mem_append]
          have := mem x
          grind
        · rw [rings other same]
          have := inv.mem other x
          have := inv.mem target x
          split <;> grind
      · simp only [setPriority, State.edit_proc]
        have := inv.level q
        grind
    · rename_i notRunnable
      exact ⟨_, rfl, inv.quiet (setPriority_quiet notRunnable), rfl⟩
  · exact ⟨s, rfl, inv, rfl⟩

end Xv6
