import Xv6.Lib.ArrayHeap
import Xv6.Proc.Basic

/-!
# The ready queue of the FCFS build

`pqueue` of `proc.c` is a binary heap of the `RUNNABLE` processes, ordered by `timecreated`.
-/

namespace Xv6

/-- `pqueue`. The array holds the cells below `size`; the cells from `size` on hold stale pointers
that no function reads. Every index below is used together with a proof that it is below `size`. -/
structure PQueue where
  proc : Array Slot := #[]

namespace PQueue

def size (queue : PQueue) : ℕ := queue.proc.size

def parent (i : ℕ) : ℕ := (i - 1) / 2

def leftchild (i : ℕ) : ℕ := 2 * i + 1

def rightchild (i : ℕ) : ℕ := 2 * i + 2

variable (timecreated : Slot → BitVec 32)

/-- The loop of `shiftup`. -/
def shiftup (proc : Array Slot) (i : ℕ) (inside : i < proc.size) : Array Slot :=
  if positive : 0 < i then
    have parentInside : parent i < proc.size := by unfold parent; omega
    if timecreated proc[parent i] > timecreated proc[i] then
      shiftup (proc.swap (parent i) i) (parent i) (by simpa using parentInside)
    else proc
  else proc
termination_by i
decreasing_by unfold parent; omega

/-- One of the two tests that `shiftdown` makes to find `minindex`. -/
def smaller (proc : Array Slot) (child : ℕ) (minindex : Fin proc.size) : Fin proc.size :=
  if inside : child < proc.size then
    if timecreated proc[child] < timecreated proc[minindex] then ⟨child, inside⟩ else minindex
  else minindex

/-- `minindex` as `shiftdown` computes it. -/
def minindex (proc : Array Slot) (i : Fin proc.size) : Fin proc.size :=
  smaller timecreated proc (rightchild i) (smaller timecreated proc (leftchild i) i)

def shiftdown (proc : Array Slot) (i : ℕ) (inside : i < proc.size) : Array Slot :=
  let least := minindex timecreated proc ⟨i, inside⟩
  if left : least.val = leftchild i then
    shiftdown (proc.swap least i) least (by simp)
  else if right : least.val = rightchild i then
    shiftdown (proc.swap least i) least (by simp)
  else proc
termination_by proc.size - i
decreasing_by
  · simp only [Array.size_swap]; have := left; unfold leftchild at this; omega
  · simp only [Array.size_swap]; have := right; unfold rightchild at this; omega

def insert (p : Slot) (queue : PQueue) : PQueue :=
  if queue.size < nproc then
    ⟨shiftup timecreated (queue.proc.push p) queue.size (by simp [size])⟩
  else queue

def remove (queue : PQueue) : Option Slot × PQueue :=
  if nonempty : queue.size = 0 then (none, queue)
  else
    have inside : 0 < queue.proc.size := Nat.pos_of_ne_zero nonempty
    let p := queue.proc[0]
    let rest := (queue.proc.set 0 queue.proc[queue.proc.size - 1]).pop
    -- with one process in the queue, `shiftdown(0)` finds no child below `size`
    (some p, ⟨if some' : 0 < rest.size then shiftdown timecreated rest 0 some' else rest⟩)

/-- The key of the heap. -/
def created (p : Slot) : ℕ := (timecreated p).toNat

/-- The heap order. -/
def Ordered (queue : PQueue) : Prop := ArrayHeap.Ordered (created timecreated) queue.proc

/-- The processes in the queue, in the order of the cells. -/
def toList (queue : PQueue) : List Slot := queue.proc.toList

variable {timecreated}

theorem parent_child {i : ℕ} (positive : 0 < i) : ArrayHeap.Child (parent i) i :=
  ArrayHeap.child_of_pos positive

theorem parent_eq_of_child {i x : ℕ} (child : ArrayHeap.Child x i) : x = parent i := by
  unfold ArrayHeap.Child at child
  unfold parent
  omega

/-! ## shiftup -/

theorem shiftup_perm (proc : Array Slot) (i : ℕ) (inside : i < proc.size) :
    (shiftup timecreated proc i inside).Perm proc := by
  fun_induction shiftup timecreated proc i inside with
  | case1 proc i inside positive parentInside less ih =>
      exact ih.trans (Array.swap_perm _ _)
  | case2 => exact Array.Perm.refl _
  | case3 => exact Array.Perm.refl _

theorem shiftup_ordered (proc : Array Slot) (i : ℕ) (inside : i < proc.size)
    (ready : ArrayHeap.UpReady (created timecreated) proc i) :
    ArrayHeap.Ordered (created timecreated) (shiftup timecreated proc i inside) := by
  fun_induction shiftup timecreated proc i inside with
  | case1 proc i inside positive parentInside less ih =>
      exact ih (ready.swap (parent_child positive) inside parentInside less)
  | case2 proc i inside positive parentInside notLess =>
      apply ready.finish
      intro x xInside _ child
      obtain rfl := parent_eq_of_child child
      exact not_lt.mp notLess
  | case3 proc i inside atRoot =>
      apply ready.finish
      intro x _ _ child
      have := child.lt
      omega

/-! ## shiftdown -/

/-- `minindex` is `i` or one of its children, and no smaller one of them exists. -/
theorem minindex_spec (proc : Array Slot) (i : Fin proc.size) :
    (minindex timecreated proc i = i ∨
      ArrayHeap.Child i (minindex timecreated proc i) ∧
        created timecreated proc[minindex timecreated proc i] < created timecreated proc[i]) ∧
    ∀ (y : ℕ) (yInside : y < proc.size), ArrayHeap.Child i y →
      created timecreated proc[minindex timecreated proc i] ≤ created timecreated proc[y] := by
  unfold minindex smaller leftchild rightchild created ArrayHeap.Child
  grind [BitVec.lt_def]

theorem shiftdown_perm (proc : Array Slot) (i : ℕ) (inside : i < proc.size) :
    (shiftdown timecreated proc i inside).Perm proc := by
  fun_induction shiftdown timecreated proc i inside with
  | case1 proc i inside least left ih => exact ih.trans (Array.swap_perm _ _)
  | case2 proc i inside least notLeft right ih => exact ih.trans (Array.swap_perm _ _)
  | case3 => exact Array.Perm.refl _

theorem DownReady.swap_minindex {proc : Array Slot} {i : ℕ} {inside : i < proc.size}
    (ready : ArrayHeap.DownReady (created timecreated) proc i)
    (moves : (minindex timecreated proc ⟨i, inside⟩).val ≠ i) :
    ArrayHeap.DownReady (created timecreated)
      (proc.swap (minindex timecreated proc ⟨i, inside⟩) i)
      (minindex timecreated proc ⟨i, inside⟩) := by
  obtain ⟨stays | ⟨child, less⟩, least⟩ :=
    @minindex_spec timecreated proc ⟨i, inside⟩
  · exact absurd (congrArg Fin.val stays) moves
  · exact ready.swap child inside _ less least

theorem shiftdown_ordered (proc : Array Slot) (i : ℕ) (inside : i < proc.size)
    (ready : ArrayHeap.DownReady (created timecreated) proc i) :
    ArrayHeap.Ordered (created timecreated) (shiftdown timecreated proc i inside) := by
  fun_induction shiftdown timecreated proc i inside with
  | case1 proc i inside least left ih =>
      refine ih (DownReady.swap_minindex ready ?_)
      have : least.val = 2 * i + 1 := left
      omega
  | case2 proc i inside least notLeft right ih =>
      refine ih (DownReady.swap_minindex ready ?_)
      have : least.val = 2 * i + 2 := right
      omega
  | case3 proc i inside least notLeft notRight =>
      obtain ⟨stays | ⟨child, less⟩, smallest⟩ :=
        @minindex_spec timecreated proc ⟨i, inside⟩
      · apply ready.finish
        intro y _ yInside child
        have least : created timecreated proc[i] ≤ created timecreated proc[y] := by
          simpa only [stays, Fin.getElem_fin] using smallest y yInside child
        exact least
      · rcases child with left | right
        · exact absurd left notLeft
        · exact absurd right notRight

/-! ## insert and remove -/

@[simp]
theorem length_toList (queue : PQueue) : queue.toList.length = queue.size := by
  simp [toList, size]

theorem insert_perm {queue : PQueue} {p : Slot} (room : queue.size < nproc) :
    (queue.insert timecreated p).toList.Perm (p :: queue.toList) := by
  have sifted : (queue.insert timecreated p).proc.Perm (queue.proc.push p) := by
    simp only [insert, room, if_true]
    exact shiftup_perm _ _ _
  have appended : (queue.insert timecreated p).toList.Perm (queue.toList ++ [p]) := by
    simpa [toList] using sifted.toList
  exact appended.trans (List.perm_append_singleton p queue.toList)

theorem insert_ordered {queue : PQueue} {p : Slot} (ordered : queue.Ordered timecreated) :
    (queue.insert timecreated p).Ordered timecreated := by
  unfold insert
  split
  · exact shiftup_ordered _ _ _ (ArrayHeap.Ordered.upReady_push ordered p)
  · exact ordered

theorem remove_empty {queue : PQueue} (empty : queue.toList = []) :
    queue.remove timecreated = (none, queue) := by
  have zero : queue.size = 0 := by simpa [empty] using (length_toList queue).symm
  simp [remove, zero]

/-- The process taken from a queue that is not empty is one of those in it, and the others stay. -/
theorem remove_perm {queue : PQueue} (nonempty : queue.toList ≠ []) :
    ∃ p rest, queue.remove timecreated = (some p, rest) ∧ queue.toList.Perm (p :: rest.toList) := by
  have positive : ¬queue.size = 0 := by
    rwa [← length_toList, List.length_eq_zero_iff]
  have inside : 0 < queue.proc.size := Nat.pos_of_ne_zero positive
  simp only [remove, positive, dite_false, Prod.mk.injEq, Option.some.injEq]
  refine ⟨_, _, ⟨rfl, rfl⟩, ?_⟩
  have sifted : (PQueue.mk (if some' : 0 < ((queue.proc.set 0
      queue.proc[queue.proc.size - 1]).pop).size then shiftdown timecreated _ 0 some'
      else (queue.proc.set 0 queue.proc[queue.proc.size - 1]).pop)).toList.Perm
      ((queue.proc.set 0 queue.proc[queue.proc.size - 1]).pop).toList := by
    split
    · exact (shiftdown_perm _ _ _).toList
    · exact List.Perm.refl _
  refine List.Perm.trans ?_ (sifted.symm.cons _)
  -- the array as its first item and the others, the last of which takes the place of the first
  obtain ⟨proc⟩ := queue
  obtain ⟨items⟩ := proc
  cases items with
  | nil => simp at inside
  | cons first others =>
      rcases List.eq_nil_or_concat others with rfl | ⟨middle, last, rfl⟩
      · simp [toList]
      · simp [toList, List.dropLast_cons_of_ne_nil]

theorem remove_ordered {queue : PQueue} (ordered : queue.Ordered timecreated) :
    (queue.remove timecreated).2.Ordered timecreated := by
  unfold remove
  split
  · exact ordered
  · rename_i nonempty
    have inside : 0 < queue.proc.size := Nat.pos_of_ne_zero nonempty
    have ready := (ArrayHeap.Ordered.downReady_set ordered
      (queue.proc[queue.proc.size - 1]) inside).pop
    dsimp only
    split
    · exact shiftdown_ordered _ _ _ ready
    · rename_i empty
      intro x y xInside _ _
      exact absurd (Nat.zero_lt_of_lt xInside) empty

/-- The process taken is created first, as far as `timecreated` tells. -/
theorem remove_least {queue rest : PQueue} {p q : Slot} (ordered : queue.Ordered timecreated)
    (removed : queue.remove timecreated = (some p, rest)) (member : q ∈ queue.toList) :
    timecreated p ≤ timecreated q := by
  unfold remove at removed
  split at removed
  · cases removed
  · rename_i nonempty
    have inside : 0 < queue.proc.size := Nat.pos_of_ne_zero nonempty
    simp only [Prod.mk.injEq, Option.some.injEq] at removed
    obtain ⟨j, jInside, jEq⟩ := Array.mem_iff_getElem.mp (Array.mem_def.mpr member)
    rw [← removed.1, ← jEq, BitVec.le_def]
    exact ArrayHeap.Ordered.root_le ordered inside j jInside

end PQueue

end Xv6
