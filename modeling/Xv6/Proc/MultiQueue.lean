import Xv6.Lib.CircularBuffer
import Xv6.Lib.Fallible
import Xv6.Proc.Basic

/-!
# The ready queues of the MLQ and DMLQ builds

`multiqueue` of `proc.c`: one circular buffer per priority level, with one spare cell.
-/

namespace Xv6

/-- `multiqueue`; `stop` is the array `end`. Both index arrays are arrays of `int`. -/
structure MultiQueue where
  start : Fin numpr → ℤ := fun _ => 0
  stop : Fin numpr → ℤ := fun _ => 0
  proc : Fin numpr → Fin (nproc + 1) → Option Slot := fun _ _ => none

namespace MultiQueue

/-- The index `qindex` of a level into `start`, `end` and `proc`. -/
def level (qindex : ℤ) : Except Fault (Fin numpr) :=
  if inside : 0 ≤ qindex ∧ qindex < numpr then .ok ⟨qindex.toNat, by omega⟩
  else .error .outOfBounds

/-- The cell that `proc[qindex][index]` is. The rows lie one after the other in memory, so an
`index` outside the row is a cell of another row, or no cell of `proc` at all. -/
def cell (qindex : Fin numpr) (index : ℤ) : Except Fault (Fin numpr × Fin (nproc + 1)) :=
  let position := (nproc + 1) * qindex + index
  if inside : 0 ≤ position ∧ position < (nproc + 1) * numpr then
    .ok (⟨(position / (nproc + 1)).toNat, by
        have : 0 ≤ position ∧ position < 65 * 3 := inside
        show (position / 65).toNat < 3
        omega⟩,
      ⟨(position % (nproc + 1)).toNat, by
        show (position % 65).toNat < 65
        omega⟩)
  else .error .outOfBounds

def read (queue : MultiQueue) (qindex : Fin numpr) (index : ℤ) : Except Fault (Option Slot) := do
  let (row, column) ← cell qindex index
  return queue.proc row column

def write (queue : MultiQueue) (qindex : Fin numpr) (index : ℤ) (p : Option Slot) :
    Except Fault MultiQueue := do
  let (row, column) ← cell qindex index
  return { queue with
    proc := Function.update queue.proc row (Function.update (queue.proc row) column p) }

/-- The next index of a ring: `(index + 1) % (NPROC + 1)`. -/
def next (index : ℤ) : ℤ := (index + 1).tmod (nproc + 1)

def isempty (priority : ℤ) (queue : MultiQueue) : Except Fault Bool := do
  let qindex ← level (priority - 1)
  return queue.start qindex == queue.stop qindex

/-- The test of `enque` for a ring with no cell to spare. -/
def full (qindex : Fin numpr) (queue : MultiQueue) : Bool :=
  next (queue.stop qindex) == queue.start qindex

/-- Whether `enque` would return early. -/
def isfull (priority : ℤ) (queue : MultiQueue) : Bool :=
  match level (priority - 1) with
  | .ok qindex => queue.full qindex
  | .error _ => false

def enque (priority : ℤ) (p : Slot) (queue : MultiQueue) : Except Fault MultiQueue := do
  let qindex ← level (priority - 1)
  if queue.full qindex then return queue
  let queue ← queue.write qindex (queue.stop qindex) (some p)
  return { queue with stop := Function.update queue.stop qindex (next (queue.stop qindex)) }

def deque (priority : ℤ) (queue : MultiQueue) : Except Fault (Option Slot × MultiQueue) := do
  let qindex ← level (priority - 1)
  if queue.start qindex = queue.stop qindex then return (none, queue)
  let index := queue.start qindex
  let p ← queue.read qindex index
  return (p, { queue with start := Function.update queue.start qindex (next index) })

/-- The first loop of `swapque`, from index `i`: the index of the first process with the pid.
A loop over more cells than a ring has never ends. -/
def swapqueFind (pidOf : Slot → ℤ) (pid : ℤ) (qindex : Fin numpr) (queue : MultiQueue) :
    ℕ → ℤ → Except Fault (Option (ℤ × Slot))
  | 0, _ => .error .endless
  | fuel + 1, i => do
      if i = queue.stop qindex then return none
      match ← queue.read qindex i with
      | none => .error .nullPointer
      | some p =>
          if pidOf p = pid then return some (i, p)
          swapqueFind pidOf pid qindex queue fuel (next i)

/-- The inner loop of `swapque`, from index `j`: every process moves down by one cell. -/
def swapqueShift (qindex : Fin numpr) : ℕ → ℤ → MultiQueue → Except Fault MultiQueue
  | 0, _, _ => .error .endless
  | fuel + 1, j, queue => do
      if j = queue.stop qindex then return queue
      let p ← queue.read qindex j
      let queue ← queue.write qindex (j - 1) p
      swapqueShift qindex fuel (next j) queue

def swapque (pidOf : Slot → ℤ) (priority1 priority2 pid : ℤ) (queue : MultiQueue) :
    Except Fault MultiQueue := do
  let qindex1 ← level (priority1 - 1)
  let found ← swapqueFind pidOf pid qindex1 queue (nproc + 2) (queue.start qindex1)
  let queue ← match found with
    | none => pure queue
    | some (i, _) => swapqueShift qindex1 (nproc + 2) (next i) queue
  let queue := { queue with
    stop := Function.update queue.stop qindex1 ((queue.stop qindex1 - 1).tmod (nproc + 1)) }
  match found with
  | none => return queue
  | some (_, p) => enque priority2 p queue

/-- The indices of every level lie in `0..NPROC`. -/
def WellFormed (queue : MultiQueue) : Prop :=
  ∀ qindex, (0 ≤ queue.start qindex ∧ queue.start qindex ≤ nproc) ∧
    0 ≤ queue.stop qindex ∧ queue.stop qindex ≤ nproc

/-- The cells of a level read from `start` to `end`. -/
def ring (queue : MultiQueue) (qindex : Fin numpr) : List (Option Slot) :=
  CircularBuffer.contents (queue.proc qindex) (queue.start qindex).toNat
    (queue.stop qindex).toNat

/-! ## Indices and cells -/

theorem wellFormed_initial : WellFormed {} := by
  intro qindex
  revert qindex
  decide

/-- The indices of a level as natural numbers. -/
theorem WellFormed.indices {queue : MultiQueue} (wf : queue.WellFormed) (qindex : Fin numpr) :
    ((queue.start qindex).toNat < nproc + 1 ∧
      ((queue.start qindex).toNat : ℤ) = queue.start qindex) ∧
    (queue.stop qindex).toNat < nproc + 1 ∧
      ((queue.stop qindex).toNat : ℤ) = queue.stop qindex := by
  have := wf qindex
  omega

theorem level_eq (qindex : Fin numpr) : level ((qindex : ℤ) + 1 - 1) = .ok qindex := by
  revert qindex
  decide

theorem next_eq {i : ℕ} (inside : i < nproc + 1) :
    next i = (CircularBuffer.succ (nproc + 1) i : ℕ) := by
  have nonneg : (0 : ℤ) ≤ (i : ℤ) + 1 := by omega
  unfold next CircularBuffer.succ
  rw [Int.tmod_eq_emod_of_nonneg nonneg]
  have : nproc = 64 := rfl
  split <;> simp only [nproc] <;> omega

theorem cell_eq (qindex : Fin numpr) (i : Fin (nproc + 1)) :
    cell qindex (i : ℤ) = .ok (qindex, i) := by
  have row := qindex.isLt
  have column := i.isLt
  have inside : 0 ≤ ((nproc : ℤ) + 1) * qindex + i ∧
      ((nproc : ℤ) + 1) * qindex + i < (nproc + 1) * numpr := by
    simp only [nproc, numpr] at *
    omega
  simp only [cell, inside, and_self, dite_true, Except.ok.injEq, Prod.mk.injEq, Fin.ext_iff]
  simp only [nproc, numpr] at *
  omega

theorem read_eq (queue : MultiQueue) (qindex : Fin numpr) (i : Fin (nproc + 1)) :
    queue.read qindex (i : ℤ) = .ok (queue.proc qindex i) := by
  simp [read, cell_eq]

theorem write_eq (queue : MultiQueue) (qindex : Fin numpr) (i : Fin (nproc + 1))
    (p : Option Slot) :
    queue.write qindex (i : ℤ) p = .ok { queue with
      proc := Function.update queue.proc qindex (Function.update (queue.proc qindex) i p) } := by
  simp [write, cell_eq]

/-- A level's ring depends on its own row and indices only. -/
theorem ring_congr {queue queue' : MultiQueue} {qindex : Fin numpr}
    (start : queue'.start qindex = queue.start qindex)
    (stop : queue'.stop qindex = queue.stop qindex)
    (proc : queue'.proc qindex = queue.proc qindex) :
    queue'.ring qindex = queue.ring qindex := by
  rw [ring, ring, start, stop, proc]

/-! ## isempty, enque and deque -/

variable {queue queue' : MultiQueue} {qindex : Fin numpr} {p : Slot}

theorem length_ring (wf : queue.WellFormed) (qindex : Fin numpr) :
    (queue.ring qindex).length ≤ nproc := by
  have indices := wf.indices qindex
  have := CircularBuffer.count_lt indices.1.1 indices.2.1
  rw [ring, CircularBuffer.length_contents]
  omega

theorem start_eq_stop_iff (wf : queue.WellFormed) :
    queue.start qindex = queue.stop qindex ↔ queue.ring qindex = [] := by
  have indices := wf.indices qindex
  rw [ring, CircularBuffer.contents_eq_nil_iff indices.1.1]
  omega

theorem isempty_eq (wf : queue.WellFormed) :
    queue.isempty ((qindex : ℤ) + 1) = .ok (queue.ring qindex).isEmpty := by
  rw [isempty, level_eq]
  have := @start_eq_stop_iff queue qindex wf
  change Except.ok (queue.start qindex == queue.stop qindex) = _
  rw [Except.ok.injEq, Bool.eq_iff_iff, beq_iff_eq, List.isEmpty_iff]
  exact this

theorem full_iff (wf : queue.WellFormed) :
    queue.full qindex = true ↔ (queue.ring qindex).length = nproc := by
  have indices := wf.indices qindex
  rw [full, beq_iff_eq, ← indices.2.2, next_eq indices.2.1, ← indices.1.2, Int.natCast_inj,
    CircularBuffer.succ_eq_start_iff indices.1.1 indices.2.1, ring,
    CircularBuffer.length_contents]
  rfl

theorem isfull_iff (wf : queue.WellFormed) :
    queue.isfull ((qindex : ℤ) + 1) = true ↔ (queue.ring qindex).length = nproc := by
  rw [isfull, level_eq]
  exact full_iff wf

theorem enque_full (wf : queue.WellFormed) (noRoom : (queue.ring qindex).length = nproc) :
    queue.enque ((qindex : ℤ) + 1) p = .ok queue := by
  have full := (full_iff wf).mpr noRoom
  rw [enque, level_eq]
  simp [full]

/-- `enque` appends to its own level and leaves the others alone. -/
theorem enque_spec (wf : queue.WellFormed) (room : (queue.ring qindex).length < nproc) :
    ∃ queue', queue.enque ((qindex : ℤ) + 1) p = .ok queue' ∧ queue'.WellFormed ∧
      ∀ other, queue'.ring other =
        if other = qindex then queue.ring qindex ++ [some p] else queue.ring other := by
  have indices := wf.indices qindex
  have notFull : ¬queue.full qindex = true := fun full => by
    have := (full_iff wf).mp full
    omega
  have spare : CircularBuffer.succ (nproc + 1) (queue.stop qindex).toNat ≠
      (queue.start qindex).toNat := by
    intro same
    apply notFull
    rw [full, beq_iff_eq, ← indices.2.2, next_eq indices.2.1, same, indices.1.2]
  have step : next (queue.stop qindex) =
      (CircularBuffer.succ (nproc + 1) (queue.stop qindex).toNat : ℕ) := by
    conv_lhs => rw [← indices.2.2]
    exact next_eq indices.2.1
  have written := write_eq queue qindex ⟨_, indices.2.1⟩ (some p)
  simp only [indices.2.2] at written
  refine ⟨{ queue with
    proc := Function.update queue.proc qindex
      (Function.update (queue.proc qindex) ⟨_, indices.2.1⟩ (some p))
    stop := Function.update queue.stop qindex (next (queue.stop qindex)) }, ?_, ?_, ?_⟩
  · rw [enque, level_eq]
    simp [notFull, written]
  · intro other
    by_cases same : other = qindex
    · subst same
      have := CircularBuffer.succ_lt indices.2.1
      simp only [Function.update_self, step]
      exact ⟨(wf other).1, by omega⟩
    · simp only [Function.update_of_ne same]
      exact wf other
  · intro other
    split
    · rename_i same
      subst same
      simp only [ring, Function.update_self, step, Int.toNat_natCast]
      exact CircularBuffer.contents_push (some p) indices.1.1 indices.2.1 spare
    · rename_i different
      exact ring_congr rfl (Function.update_of_ne different _ _)
        (Function.update_of_ne different _ _)

theorem deque_empty (wf : queue.WellFormed) (empty : queue.ring qindex = []) :
    queue.deque ((qindex : ℤ) + 1) = .ok (none, queue) := by
  have same := (start_eq_stop_iff wf).mpr empty
  rw [deque, level_eq]
  simp [same]

/-- `deque` takes the first process of its own level and leaves the other levels alone. -/
theorem deque_spec {first : Option Slot} {rest : List (Option Slot)} (wf : queue.WellFormed)
    (holds : queue.ring qindex = first :: rest) :
    ∃ queue', queue.deque ((qindex : ℤ) + 1) = .ok (first, queue') ∧ queue'.WellFormed ∧
      ∀ other, queue'.ring other = if other = qindex then rest else queue.ring other := by
  have indices := wf.indices qindex
  have different : ¬queue.start qindex = queue.stop qindex := by
    rw [start_eq_stop_iff wf, holds]
    exact List.cons_ne_nil _ _
  have step : next (queue.start qindex) =
      (CircularBuffer.succ (nproc + 1) (queue.start qindex).toNat : ℕ) := by
    conv_lhs => rw [← indices.1.2]
    exact next_eq indices.1.1
  have popped : queue.ring qindex = _ :=
    CircularBuffer.contents_pop indices.1.1 indices.2.1 (by omega)
  have firstAndRest := popped.symm.trans holds
  rw [List.cons.injEq] at firstAndRest
  have held := read_eq queue qindex ⟨_, indices.1.1⟩
  simp only [indices.1.2, firstAndRest.1] at held
  refine ⟨{ queue with
    start := Function.update queue.start qindex (next (queue.start qindex)) }, ?_, ?_, ?_⟩
  · rw [deque, level_eq]
    simp [different, held]
  · intro other
    by_cases same : other = qindex
    · subst same
      have := CircularBuffer.succ_lt indices.1.1
      simp only [Function.update_self, step]
      exact ⟨by omega, (wf other).2⟩
    · simp only [Function.update_of_ne same]
      exact wf other
  · intro other
    split
    · rename_i same
      subst same
      simp only [ring, Function.update_self, step, Int.toNat_natCast]
      exact firstAndRest.2
    · rename_i apart
      exact ring_congr (Function.update_of_ne apart _ _) rfl rfl

/-! ## swapque -/

/-- `p` is the first process of the level that has the pid, and from there to its end the ring
does not go around the end of its array. -/
def Movable (pidOf : Slot → ℤ) (qindex : Fin numpr) (p : Slot) (queue : MultiQueue) : Prop :=
  ∃ before after, queue.ring qindex = before ++ some p :: after ∧
    (∀ x ∈ before, ∃ r, x = some r ∧ pidOf r ≠ pidOf p) ∧
    ((queue.start qindex + before.length) % (nproc + 1) < queue.stop qindex)

/-- The index of the cell at an offset from the start of a level. -/
def index (queue : MultiQueue) (qindex : Fin numpr) (offset : ℕ) : Fin (nproc + 1) :=
  Fin.ofNat (nproc + 1) ((queue.start qindex).toNat + offset)

theorem index_zero (wf : queue.WellFormed) : ((queue.index qindex 0).val : ℤ) =
    queue.start qindex := by
  have indices := wf.indices qindex
  rw [index, CircularBuffer.ofNat_val indices.1.1 (Nat.succ_pos _)]
  simp only [Nat.add_zero, indices.1.1, if_true, indices.1.2]

theorem next_index (wf : queue.WellFormed) {k : ℕ} (small : k < nproc) :
    next (queue.index qindex k).val = (queue.index qindex (k + 1)).val := by
  rw [next_eq (queue.index qindex k).isLt, index, index,
    CircularBuffer.ofNat_succ (wf.indices qindex).1.1 (by omega)]

theorem index_ne_stop (wf : queue.WellFormed) {k : ℕ} (held : k < (queue.ring qindex).length) :
    ¬((queue.index qindex k).val : ℤ) = queue.stop qindex := by
  have indices := wf.indices qindex
  rw [ring, CircularBuffer.length_contents] at held
  rw [← indices.2.2, Int.natCast_inj]
  exact CircularBuffer.ofNat_ne_stop indices.1.1 indices.2.1 held

theorem proc_index {k : ℕ} {x : Option Slot} (held : (queue.ring qindex)[k]? = some x) :
    queue.proc qindex (queue.index qindex k) = x := by
  obtain ⟨inside, eq⟩ := List.getElem?_eq_some_iff.mp held
  rw [← eq]
  exact (CircularBuffer.getElem_contents _ _ _ k inside).symm

variable {pidOf : Slot → ℤ} {before after : List (Option Slot)}

/-- From every cell up to the process, the search ends at the process. -/
theorem swapqueFind_spec (wf : queue.WellFormed)
    (holds : queue.ring qindex = before ++ some p :: after)
    (earlier : ∀ x ∈ before, ∃ r, x = some r ∧ pidOf r ≠ pidOf p) (fuel k : ℕ)
    (reached : k ≤ before.length) (enough : before.length < fuel + k) :
    swapqueFind pidOf (pidOf p) qindex queue fuel (queue.index qindex k).val =
      .ok (some ((queue.index qindex before.length).val, p)) := by
  have total := length_ring wf qindex
  have held : before.length < (queue.ring qindex).length := by simp [holds]
  induction fuel generalizing k with
  | zero => omega
  | succ fuel ih =>
      have notStop : ¬((queue.index qindex k).val : ℤ) = queue.stop qindex :=
        index_ne_stop wf (by omega)
      rcases Nat.lt_or_eq_of_le reached with sooner | rfl
      · obtain ⟨r, rEq, other⟩ := earlier _ (List.getElem_mem sooner)
        have here : queue.proc qindex (queue.index qindex k) = some r := by
          apply proc_index
          rw [holds, List.getElem?_append_left sooner, List.getElem?_eq_getElem sooner, rEq]
        simp only [swapqueFind, notStop, if_false, read_eq, Fallible.bind_ok, here, other]
        rw [next_index wf (by omega)]
        exact ih (k + 1) sooner (by omega)
      · have here : queue.proc qindex (queue.index qindex before.length) = some p := by
          apply proc_index
          simp [holds]
        simp [swapqueFind, notStop, read_eq, here]

/-- Moving the processes from index `j` to the end down by one cell, where the ring does not go
around the end of its array. -/
theorem swapqueShift_spec (fuel j : ℕ) (queue : MultiQueue) (wf : queue.WellFormed)
    (positive : 0 < j) (unwrapped : (j : ℤ) ≤ queue.stop qindex)
    (enough : queue.stop qindex < fuel + j) :
    ∃ proc, swapqueShift qindex fuel j queue = .ok { queue with proc } ∧
      (∀ row, row ≠ qindex → proc row = queue.proc row) ∧
      ∀ i : Fin (nproc + 1), proc qindex i =
        if inside : j ≤ i.val + 1 ∧ (i.val + 1 : ℤ) < queue.stop qindex then
          queue.proc qindex ⟨i + 1, by have := wf qindex; omega⟩
        else queue.proc qindex i := by
  induction fuel generalizing j queue with
  | zero => omega
  | succ fuel ih =>
      have bounds := wf qindex
      by_cases atStop : (j : ℤ) = queue.stop qindex
      · refine ⟨queue.proc, by simp [swapqueShift, atStop], fun _ _ => rfl, fun i => ?_⟩
        rw [dif_neg (by omega)]
      · have jInside : j < nproc + 1 := by omega
        have down : ((j - 1 : ℕ) : ℤ) = (j : ℤ) - 1 := by omega
        have readJ := read_eq queue qindex ⟨j, jInside⟩
        have writeBelow := write_eq queue qindex ⟨j - 1, by omega⟩
          (queue.proc qindex ⟨j, jInside⟩)
        have up : next (j : ℤ) = ((j + 1 : ℕ) : ℤ) := by
          rw [next_eq jInside, CircularBuffer.succ, if_neg (by omega)]
        have further : ((j + 1 : ℕ) : ℤ) ≤ queue.stop qindex := by omega
        dsimp only at readJ writeBelow
        rw [down] at writeBelow
        simp only [swapqueShift, atStop, if_false, readJ, Fallible.bind_ok, writeBelow, up]
        obtain ⟨proc, run, rows, cells⟩ := ih (j + 1)
          { queue with
            proc := Function.update queue.proc qindex
              (Function.update (queue.proc qindex) ⟨j - 1, by omega⟩
                (queue.proc qindex ⟨j, jInside⟩)) }
          wf (Nat.succ_pos j) further (by push_cast; omega)
        refine ⟨proc, run, fun row different => ?_, fun i => ?_⟩
        · rw [rows row different]
          exact Function.update_of_ne different _ _
        · rw [cells]
          simp only [Function.update_self, Function.update_apply]
          split <;> split <;> grind

/-- Where the process is movable, `swapque` takes it out of its level, keeps the order of the
others, and appends it to the other level. -/
theorem swapque_spec {target : Fin numpr} (wf : queue.WellFormed)
    (movable : queue.Movable pidOf qindex p) (different : target ≠ qindex)
    (room : (queue.ring target).length < nproc) :
    ∃ queue' before after, queue.ring qindex = before ++ some p :: after ∧
      queue.swapque pidOf ((qindex : ℤ) + 1) ((target : ℤ) + 1) (pidOf p) = .ok queue' ∧
      queue'.WellFormed ∧ queue'.ring qindex = before ++ after ∧
      ∀ other, other ≠ qindex → queue'.ring other =
        if other = target then queue.ring target ++ [some p] else queue.ring other := by
  obtain ⟨before, after, holds, earlier, unwrapped⟩ := movable
  have indices := wf.indices qindex
  have bounds := wf qindex
  have total := length_ring wf qindex
  have held : before.length < (queue.ring qindex).length := by simp [holds]
  have position : ((queue.index qindex before.length).val : ℤ) < queue.stop qindex := by
    rw [index, Fin.val_ofNat, Int.natCast_emod]
    push_cast
    rw [indices.1.2]
    exact unwrapped
  have search := swapqueFind_spec wf holds earlier (nproc + 2) 0 (Nat.zero_le _) (by omega)
  rw [index_zero wf] at search
  have up : next (queue.index qindex before.length).val =
      ((queue.index qindex before.length + 1 : ℕ) : ℤ) := by
    rw [next_eq (queue.index qindex before.length).isLt, CircularBuffer.succ, if_neg (by omega)]
  obtain ⟨proc, shift, rows, cells⟩ := @swapqueShift_spec qindex (nproc + 2)
    (queue.index qindex before.length + 1) queue wf (Nat.succ_pos _) (by omega) (by omega)
  -- the level without the process
  let shorter : MultiQueue := { queue with
    proc
    stop := Function.update queue.stop qindex ((queue.stop qindex - 1).tmod (nproc + 1)) }
  have stop : shorter.stop qindex = queue.stop qindex - 1 := by
    simp only [shorter, Function.update_self]
    exact Int.tmod_eq_of_lt (by omega) (by omega)
  have shorterWf : shorter.WellFormed := by
    intro other
    by_cases same : other = qindex
    · subst same
      exact ⟨bounds.1, by omega⟩
    · simp only [shorter, Function.update_of_ne same]
      exact wf other
  have shorterRing : shorter.ring qindex = before ++ after := by
    have erased : before ++ after = (queue.ring qindex).eraseIdx before.length := by
      simp [holds, List.eraseIdx_append_of_length_le]
    have stopNat : (queue.stop qindex - 1).toNat = (queue.stop qindex).toNat - 1 := by omega
    rw [erased, ring, ring, stop, stopNat]
    refine CircularBuffer.contents_shift indices.1.1 indices.2.1 ?_ ?_ ?_ ?_ ?_
    · rwa [ring, CircularBuffer.length_contents] at held
    · change (queue.index qindex before.length).val < _
      omega
    · intro j below
      have := Fin.lt_def.mp below
      change j.val < (queue.index qindex before.length).val at this
      exact (cells j).trans (dif_neg (by omega))
    · intro j from' inside
      have := Fin.le_def.mp from'
      change (queue.index qindex before.length).val ≤ j.val at this
      exact (cells j).trans (dif_pos (by omega))
    · intro j above
      exact (cells j).trans (dif_neg (by omega))
  have others : ∀ other, other ≠ qindex → shorter.ring other = queue.ring other := by
    intro other apart
    exact ring_congr rfl (Function.update_of_ne apart _ _) (rows other apart)
  have room' : (shorter.ring target).length < nproc := by rwa [others target different]
  obtain ⟨queue', enqued, wf', rings⟩ := enque_spec (p := p) shorterWf room'
  refine ⟨queue', before, after, holds, ?_, wf', ?_, ?_⟩
  · rw [swapque, level_eq]
    simp only [Fallible.bind_ok, search, up, shift, Fallible.pure_eq]
    exact enqued
  · rw [rings, if_neg different.symm, shorterRing]
  · intro other apart
    rw [rings, others target different]
    split
    · rfl
    · exact others other apart

/-! ## Where swapque goes wrong -/

theorem cell_ne_last {index : ℤ} (below : index < nproc) :
    cell qindex index ≠ .ok (qindex, Fin.last nproc) := by
  intro address
  have width : ((nproc : ℤ) + 1) = 65 := rfl
  unfold cell at address
  dsimp only at address
  split at address
  · rename_i inside
    rcases Prod.mk.inj (Except.ok.inj address) with ⟨rowEq, columnEq⟩
    have row := congrArg Fin.val rowEq
    have column := congrArg Fin.val columnEq
    simp only [width, Fin.val_last] at row column inside
    simp only [nproc] at *
    omega
  · cases address

/-- An assignment at an index below the last one does not reach the last cell of the row. -/
theorem write_last {index : ℤ} {x : Option Slot} (below : index < nproc)
    (run : queue.write qindex index x = .ok queue') :
    queue'.start = queue.start ∧ queue'.stop = queue.stop ∧
      queue'.proc qindex (Fin.last nproc) = queue.proc qindex (Fin.last nproc) := by
  rcases Fallible.bind_eq_ok.mp run with ⟨⟨row, column⟩, address, eq⟩
  rcases Except.ok.inj eq with rfl
  refine ⟨rfl, rfl, ?_⟩
  dsimp only
  by_cases same : row = qindex
  · subst same
    have other : Fin.last nproc ≠ column := by
      rintro rfl
      exact cell_ne_last below address
    rw [Function.update_self, Function.update_of_ne other]
  · rw [Function.update_of_ne (Ne.symm same)]

theorem next_inside {j : ℤ} (inside : 0 ≤ j) : 0 ≤ next j ∧ next j ≤ nproc := by
  have nonneg : (0 : ℤ) ≤ j + 1 := by omega
  unfold next
  rw [Int.tmod_eq_emod_of_nonneg nonneg]
  simp only [nproc]
  omega

/-- The inner loop of `swapque` never writes to the last cell of its row. -/
theorem swapqueShift_last {fuel : ℕ} {j : ℤ} (inside : 0 ≤ j ∧ j ≤ nproc)
    (run : swapqueShift qindex fuel j queue = .ok queue') :
    queue'.start = queue.start ∧ queue'.stop = queue.stop ∧
      queue'.proc qindex (Fin.last nproc) = queue.proc qindex (Fin.last nproc) := by
  induction fuel generalizing j queue with
  | zero => cases run
  | succ fuel ih =>
      unfold swapqueShift at run
      split at run
      · rcases Except.ok.inj run with rfl
        exact ⟨rfl, rfl, rfl⟩
      · rcases Fallible.bind_eq_ok.mp run with ⟨x, -, rest⟩
        rcases Fallible.bind_eq_ok.mp rest with ⟨moved, written, rest⟩
        have first := write_last (by omega) written
        have others := ih (next_inside inside.1) rest
        exact ⟨others.1.trans first.1, others.2.1.trans first.2.1, others.2.2.trans first.2.2⟩

/-- The first process of a level with a pid. -/
theorem exists_first (pidOf : Slot → ℤ) (member : some p ∈ queue.ring qindex) (filled : none ∉ queue.ring qindex) :
    ∃ before r after, queue.ring qindex = before ++ some r :: after ∧ pidOf r = pidOf p ∧
      ∀ x ∈ before, ∃ q, x = some q ∧ pidOf q ≠ pidOf p := by
  have found : (queue.ring qindex).find? (fun x => x.map pidOf = some (pidOf p)) ≠ none := by
    rw [ne_eq, List.find?_eq_none]
    intro absent
    exact absent _ member (by simp)
  rcases Option.ne_none_iff_exists'.mp found with ⟨x, eq⟩
  rcases List.find?_eq_some_iff_append.mp eq with ⟨pid, before, after, ring, others⟩
  cases x with
  | none => simp at pid
  | some r =>
      refine ⟨before, r, after, ring, by simpa using pid, fun y inside => ?_⟩
      cases y with
      | none => exact absurd (ring ▸ List.mem_append_left _ inside) filled
      | some q => exact ⟨q, rfl, by simpa using others _ inside⟩

/-- `enque` moves the indices of its own level only. -/
theorem enque_indices {target : Fin numpr} (run : queue.enque ((target : ℤ) + 1) p = .ok queue') :
    queue'.start = queue.start ∧ ∀ other, other ≠ target → queue'.stop other = queue.stop other := by
  rw [enque, level_eq, Fallible.bind_ok] at run
  split at run
  · rcases Except.ok.inj run with rfl
    exact ⟨rfl, fun _ _ => rfl⟩
  · rcases Fallible.bind_eq_ok.mp run with ⟨written, write, eq⟩
    rcases Fallible.bind_eq_ok.mp write with ⟨⟨row, column⟩, -, eq'⟩
    rcases Except.ok.inj eq' with rfl
    rcases Except.ok.inj eq with rfl
    exact ⟨rfl, fun other apart => Function.update_of_ne apart _ _⟩

/-- The cell of the array at which a ring that goes around its end does so. -/
theorem wrapped_index (wf : queue.WellFormed) {k : ℕ} (held : k < (queue.ring qindex).length)
    (wrapped : queue.stop qindex < (queue.index qindex k).val) (stop : 0 < queue.stop qindex) :
    ∃ j, k ≤ j ∧ j + 1 < (queue.ring qindex).length ∧ queue.index qindex j = Fin.last nproc := by
  have indices := wf.indices qindex
  rw [ring, CircularBuffer.length_contents] at held ⊢
  have small := CircularBuffer.count_lt indices.1.1 indices.2.1
  have position := CircularBuffer.ofNat_val (k := k) indices.1.1 (by omega)
  rw [index, position] at wrapped
  refine ⟨nproc - (queue.start qindex).toNat, ?_, ?_, ?_⟩
  · grind [CircularBuffer.count]
  · grind [CircularBuffer.count]
  · apply Fin.ext
    rw [index, Fin.val_last, CircularBuffer.ofNat_val indices.1.1 (by omega)]
    grind

/-- `swapque` does what it should only where the process is movable. -/
theorem movable_of_swapque {target : Fin numpr} (wf : queue.WellFormed)
    (member : some p ∈ queue.ring qindex) (filled : none ∉ queue.ring qindex)
    (nodup : (queue.ring qindex).Nodup) (different : target ≠ qindex)
    (room : (queue.ring target).length < nproc)
    (run : queue.swapque pidOf ((qindex : ℤ) + 1) ((target : ℤ) + 1) (pidOf p) = .ok queue')
    (removed : ∃ before after, queue.ring qindex = before ++ some p :: after ∧
      queue'.ring qindex = before ++ after)
    (appended : queue'.ring target = queue.ring target ++ [some p]) :
    queue.Movable pidOf qindex p := by
  rcases exists_first pidOf member filled with ⟨before, r, after, ring, pid, earlier⟩
  have indices := wf.indices qindex
  have bounds := wf qindex
  have total := length_ring wf qindex
  have held : before.length < (queue.ring qindex).length := by simp [ring]
  have earlier' : ∀ x ∈ before, ∃ q, x = some q ∧ pidOf q ≠ pidOf r := pid ▸ earlier
  have search := swapqueFind_spec wf ring earlier' (nproc + 2) 0 (Nat.zero_le _) (by omega)
  rw [index_zero wf, pid] at search
  rw [swapque, level_eq] at run
  simp only [Fallible.bind_ok, search, Fallible.pure_eq] at run
  rcases Fallible.bind_eq_ok.mp run with ⟨shifted, shift, enqued⟩
  rcases swapqueShift_last (next_inside (Int.natCast_nonneg _)) shift with ⟨start, stop, last⟩
  have indices' := enque_indices enqued
  rcases removed with ⟨before', after', ring', removed⟩
  have size := congrArg List.length ring
  have size' := congrArg List.length ring'
  have shorter := congrArg List.length removed
  by_cases zero : queue.stop qindex = 0
  · -- `end` becomes -1, and the ring does not get shorter
    have stop' : queue'.stop qindex = -1 := by
      rw [indices'.2 qindex different.symm]
      simp only [stop, zero, Function.update_self]
      rfl
    have same : (queue'.ring qindex).length = (queue.ring qindex).length := by
      rw [MultiQueue.ring, MultiQueue.ring, CircularBuffer.length_contents,
        CircularBuffer.length_contents, indices'.1, start, stop', zero]
      rfl
    simp only [List.length_append, List.length_cons] at *
    omega
  · let shorterQueue : MultiQueue := { shifted with
      stop := Function.update shifted.stop qindex ((shifted.stop qindex - 1).tmod (nproc + 1)) }
    have stop' : shorterQueue.stop qindex = queue.stop qindex - 1 := by
      simp only [shorterQueue, Function.update_self, stop]
      exact Int.tmod_eq_of_lt (by omega) (by omega)
    have start' : shorterQueue.start = queue.start := start
    have others : ∀ other, other ≠ qindex → shorterQueue.stop other = queue.stop other := by
      intro other apart
      simp only [shorterQueue, Function.update_of_ne apart, stop]
    have wf' : shorterQueue.WellFormed := by
      intro other
      rw [start']
      by_cases same : other = qindex
      · subst same
        exact ⟨bounds.1, by omega⟩
      · exact others other same ▸ wf other
    have room' : (shorterQueue.ring target).length < nproc := by
      rw [MultiQueue.ring, CircularBuffer.length_contents] at room ⊢
      rwa [start', others target different]
    rcases enque_spec (p := r) wf' room' with ⟨queue'', enqued', -, rings⟩
    rcases Except.ok.inj (enqued.symm.trans enqued') with rfl
    -- the process that has been found is `p`
    have moved := rings target
    rw [if_pos rfl, appended] at moved
    rcases Option.some.inj (List.cons.inj (List.append_inj_right' moved rfl)).1 with rfl
    refine ⟨before, after, ring, earlier, ?_⟩
    by_contra wrapped
    have position : ((queue.index qindex before.length).val : ℤ) =
        (queue.start qindex + before.length) % (nproc + 1) := by
      rw [index, Fin.val_ofNat, Int.natCast_emod]
      push_cast
      rw [indices.1.2]
    have notStop := index_ne_stop wf held
    rcases wrapped_index wf held (by omega) (by omega) with ⟨j, behind, inside, corner⟩
    -- the last cell of the row still holds the same process, which now belongs one place further up
    have cell : (queue'.ring qindex)[j]? = (queue.ring qindex)[j]? := by
      have inside' : j < (shorterQueue.ring qindex).length := by
        have kept := rings qindex
        rw [if_neg different.symm] at kept
        simp only [← kept, List.length_append, List.length_cons] at *
        omega
      rw [rings qindex, if_neg different.symm, List.getElem?_eq_getElem inside',
        List.getElem?_eq_getElem (by omega)]
      simp only [MultiQueue.ring, CircularBuffer.getElem_contents]
      change some (shifted.proc qindex (Fin.ofNat (nproc + 1) ((shorterQueue.start qindex).toNat + j))) =
        some (queue.proc qindex (queue.index qindex j))
      rw [start', ← index, corner, last]
    have place : before.length = before'.length := by
      apply (List.getElem?_inj held nodup).mp
      rw [ring, List.getElem?_append_right le_rfl, ← ring, ring',
        List.getElem?_append_right le_rfl]
      simp
    have next : (queue'.ring qindex)[j]? = (queue.ring qindex)[j + 1]? := by
      rw [removed, ring', List.getElem?_append_right (by omega),
        List.getElem?_append_right (by omega), Nat.sub_add_comm (by omega), List.getElem?_cons_succ]
    have same := (List.getElem?_inj (by omega) nodup).mp (cell.symm.trans next)
    omega

end MultiQueue

end Xv6
