import Xv6.Lib.Calls
import Xv6.Lib.Fallible
import Xv6.Proc.PriorityQueue

/-!
# The cells of the FCFS queue

`pqueue` as the C code has it: `size` and an array of pointers, every access to a cell being checked
against the number of cells in use. The cells refine the arrays of `PQueue`, and these a bag of
processes from which the one that was created first is taken.
-/

namespace Xv6

/-- `pqueue` -/
structure HeapCells where
  size : ℕ := 0
  proc : ℕ → Option Slot := fun _ => none

namespace HeapCells

open PQueue (parent leftchild rightchild)

/-- A cell below `used` is read. -/
def get (used : ℕ) (cells : HeapCells) (i : ℕ) : Except Fault Slot :=
  if i < used then
    match cells.proc i with
    | some p => .ok p
    | none => .error .nullPointer
  else .error .outOfBounds

/-- A cell below `used` is written. -/
def put (used : ℕ) (cells : HeapCells) (i : ℕ) (p : Slot) : Except Fault HeapCells :=
  if i < used then .ok { cells with proc := Function.update cells.proc i (some p) }
  else .error .outOfBounds

/-- The exchange of two cells by means of `tmp`. -/
def exchange (used : ℕ) (cells : HeapCells) (i j : ℕ) : Except Fault HeapCells := do
  let tmp ← cells.get used i
  let p ← cells.get used j
  let cells ← cells.put used i p
  cells.put used j tmp

variable (timecreated : Slot → BitVec 32)

/-- The loop of `shiftup`, with the number of passes that are allowed. -/
def shiftup (used : ℕ) : ℕ → ℕ → HeapCells → Except Fault HeapCells
  | 0, _, _ => .error .endless
  | passes + 1, i, cells =>
      if 0 < i then do
        let above ← cells.get used (parent i)
        let p ← cells.get used i
        if timecreated above > timecreated p then
          let cells ← cells.exchange used (parent i) i
          shiftup used passes (parent i) cells
        else return cells
      else .ok cells

/-- One of the two tests for `minindex`. -/
def smaller (cells : HeapCells) (child minindex : ℕ) : Except Fault ℕ :=
  if child < cells.size then do
    let p ← cells.get cells.size child
    let q ← cells.get cells.size minindex
    return if timecreated p < timecreated q then child else minindex
  else .ok minindex

/-- `shiftdown`, with the depth of the recursion that is allowed. -/
def shiftdown : ℕ → ℕ → HeapCells → Except Fault HeapCells
  | 0, _, _ => .error .endless
  | depth + 1, i, cells => do
      let minindex ← cells.smaller timecreated (leftchild i) i
      let minindex ← cells.smaller timecreated (rightchild i) minindex
      if minindex = leftchild i then
        let cells ← cells.exchange cells.size (leftchild i) i
        shiftdown depth minindex cells
      else if minindex = rightchild i then
        let cells ← cells.exchange cells.size (rightchild i) i
        shiftdown depth minindex cells
      else return cells

/-- `insert`; `shiftup` is called before `size` is incremented. -/
def insert (p : Slot) (cells : HeapCells) : Except Fault HeapCells :=
  if cells.size < nproc then do
    let cells ← cells.put (cells.size + 1) cells.size p
    let cells ← shiftup timecreated (cells.size + 1) (nproc + 1) cells.size cells
    return { cells with size := cells.size + 1 }
  else .ok cells

/-- `remove` -/
def remove (cells : HeapCells) : Except Fault (Option Slot × HeapCells) :=
  if cells.size = 0 then .ok (none, cells)
  else do
    let p ← cells.get cells.size 0
    let last ← cells.get cells.size (cells.size - 1)
    let cells ← cells.put cells.size 0 last
    let cells ← shiftdown timecreated (nproc + 1) 0 { cells with size := cells.size - 1 }
    return (some p, cells)

/-- The cells in use are those of an array. -/
def Holds (cells : HeapCells) (proc : Array Slot) : Prop :=
  ∀ (i : ℕ) (inside : i < proc.size), cells.proc i = some proc[i]

variable {timecreated} {cells cells' : HeapCells} {proc : Array Slot} {i j : ℕ}

/-! ## Accesses -/

theorem Holds.get (holds : Holds cells proc) (inside : i < proc.size) :
    cells.get proc.size i = .ok proc[i] := by
  unfold HeapCells.get
  rw [if_pos inside, holds i inside]

theorem Holds.exchange (holds : Holds cells proc) (iInside : i < proc.size) (jInside : j < proc.size) :
    ∃ cells', cells.exchange proc.size i j = .ok cells' ∧ cells'.size = cells.size ∧
      Holds cells' (proc.swap i j) := by
  refine ⟨{ cells with
    proc := Function.update (Function.update cells.proc i (some proc[j])) j (some proc[i]) }, ?_, rfl, ?_⟩
  · unfold HeapCells.exchange
    rw [holds.get iInside, holds.get jInside]
    simp only [Fallible.bind_ok, put, if_pos iInside, if_pos jInside]
  · intro k inside
    rw [Array.size_swap] at inside
    rw [Array.getElem_swap]
    dsimp only
    rw [Function.update_apply, Function.update_apply]
    by_cases isJ : k = j
    · by_cases isI : k = i
      · subst isI
        subst isJ
        rw [if_pos rfl, if_pos rfl]
      · rw [if_pos isJ, if_neg isI, if_pos isJ]
    · by_cases isI : k = i
      · rw [if_neg isJ, if_pos isI, if_pos isI]
      · rw [if_neg isJ, if_neg isI, if_neg isI, if_neg isJ]
        exact holds k inside

/-! ## Sifting -/

theorem Holds.shiftup (timecreated : Slot → BitVec 32) (passes : ℕ) : ∀ {cells : HeapCells} {proc : Array Slot} {i : ℕ} (inside : i < proc.size),
    Holds cells proc → i < passes → ∃ cells', HeapCells.shiftup timecreated proc.size passes i cells = .ok cells' ∧
      cells'.size = cells.size ∧ Holds cells' (PQueue.shiftup timecreated proc i inside) := by
  induction passes with
  | zero =>
      intro cells proc i inside holds enough
      exact absurd enough (Nat.not_lt_zero i)
  | succ passes ih =>
      intro cells proc i inside holds enough
      unfold HeapCells.shiftup PQueue.shiftup
      by_cases positive : 0 < i
      · have less : parent i < i := by
          unfold PQueue.parent
          omega
        rw [if_pos positive, dif_pos positive, holds.get (less.trans inside), holds.get inside]
        simp only [Fallible.bind_ok]
        by_cases later : timecreated proc[parent i] > timecreated proc[i]
        · rw [if_pos later, if_pos later]
          rcases holds.exchange (less.trans inside) inside with ⟨cells₁, exchanged, size, holds₁⟩
          rw [exchanged, Fallible.bind_ok]
          have inside' : parent i < (proc.swap (parent i) i).size := by
            rw [Array.size_swap]
            exact less.trans inside
          rcases ih inside' holds₁ (by omega) with ⟨cells', sifted, size', holds'⟩
          rw [Array.size_swap] at sifted
          exact ⟨cells', sifted, size'.trans size, holds'⟩
        · rw [if_neg later, if_neg later]
          exact ⟨cells, rfl, rfl, holds⟩
      · rw [if_neg positive, dif_neg positive]
        exact ⟨cells, rfl, rfl, holds⟩

theorem Holds.smaller (holds : Holds cells proc) (timecreated : Slot → BitVec 32)
    (isSize : cells.size = proc.size) (child : ℕ) (least : Fin proc.size) :
    cells.smaller timecreated child least = .ok (PQueue.smaller timecreated proc child least).val := by
  unfold HeapCells.smaller PQueue.smaller
  rw [isSize]
  split
  · rename_i inside
    rw [holds.get inside, holds.get least.isLt]
    simp only [Fallible.bind_ok, Fallible.pure_eq, Fin.getElem_fin]
    split
    · rfl
    · rfl
  · rfl

theorem Holds.shiftdown (timecreated : Slot → BitVec 32) (depth : ℕ) : ∀ {cells : HeapCells} {proc : Array Slot} {i : ℕ} (inside : i < proc.size),
    Holds cells proc → cells.size = proc.size → proc.size - i < depth →
    ∃ cells', HeapCells.shiftdown timecreated depth i cells = .ok cells' ∧ cells'.size = cells.size ∧
      Holds cells' (PQueue.shiftdown timecreated proc i inside) := by
  induction depth with
  | zero =>
      intro cells proc i inside holds isSize enough
      exact absurd enough (Nat.not_lt_zero _)
  | succ depth ih =>
      intro cells proc i inside holds isSize enough
      unfold HeapCells.shiftdown PQueue.shiftdown
      have first := holds.smaller timecreated isSize (leftchild i) ⟨i, inside⟩
      have second := holds.smaller timecreated isSize (rightchild i)
        (PQueue.smaller timecreated proc (leftchild i) ⟨i, inside⟩)
      have isMinindex : PQueue.smaller timecreated proc (rightchild i) (PQueue.smaller timecreated proc
          (leftchild i) ⟨i, inside⟩) = PQueue.minindex timecreated proc ⟨i, inside⟩ := rfl
      rw [isMinindex] at second
      rw [first, Fallible.bind_ok, second, Fallible.bind_ok]
      dsimp only
      set least := PQueue.minindex timecreated proc ⟨i, inside⟩
      have step : ∀ child, least.val = child → i < child → ∃ cells', (do
          let cells ← cells.exchange cells.size child i
          HeapCells.shiftdown timecreated depth least cells) = .ok cells' ∧ cells'.size = cells.size ∧
            Holds cells' (PQueue.shiftdown timecreated (proc.swap least i) least (by simp)) := by
        intro child isChild below
        rcases holds.exchange least.isLt inside with ⟨cells₁, exchanged, size, holds₁⟩
        rw [isChild, ← isSize] at exchanged
        have size₁ : cells₁.size = (proc.swap least i).size := by rw [size, isSize, Array.size_swap]
        have inside' : least.val < (proc.swap least i).size := by simp
        have enough' : (proc.swap least i).size - least.val < depth := by
          rw [Array.size_swap]
          omega
        rcases ih inside' holds₁ size₁ enough' with ⟨cells', sifted, size', holds'⟩
        rw [exchanged, Fallible.bind_ok]
        exact ⟨cells', sifted, size'.trans size, holds'⟩
      by_cases left : least.val = leftchild i
      · rw [if_pos left, dif_pos left]
        exact step _ left (by unfold PQueue.leftchild; omega)
      · rw [if_neg left, dif_neg left]
        by_cases right : least.val = rightchild i
        · rw [if_pos right, dif_pos right]
          exact step _ right (by unfold PQueue.rightchild; omega)
        · rw [if_neg right, dif_neg right]
          exact ⟨cells, rfl, rfl, holds⟩

/-- The children of the root of an empty heap are outside. -/
theorem shiftdown_empty (empty : cells.size = 0) (depth : ℕ) :
    HeapCells.shiftdown timecreated (depth + 1) 0 cells = .ok cells := by
  have outside : ∀ child minindex, cells.smaller timecreated child minindex = .ok minindex := by
    intro child minindex
    unfold HeapCells.smaller
    rw [empty, if_neg (Nat.not_lt_zero child)]
  unfold HeapCells.shiftdown
  rw [outside, Fallible.bind_ok, outside, Fallible.bind_ok]
  rfl

/-! ## insert and remove -/

/-- The cells that are in use are those of the queue. -/
structure Refines (cells : HeapCells) (queue : PQueue) : Prop where
  size : cells.size = queue.proc.size
  holds : Holds cells queue.proc
  bound : queue.proc.size ≤ nproc

variable {queue : PQueue} {p : Slot}

theorem refines_initial : Refines {} {} :=
  ⟨rfl, fun i inside => absurd inside (Nat.not_lt_zero i), Nat.zero_le _⟩

theorem Refines.insert (refines : Refines cells queue) (timecreated : Slot → BitVec 32) (p : Slot) :
    ∃ cells', cells.insert timecreated p = .ok cells' ∧ Refines cells' (queue.insert timecreated p) := by
  unfold HeapCells.insert PQueue.insert PQueue.size
  rw [refines.size]
  by_cases room : queue.proc.size < nproc
  · rw [if_pos room, if_pos room]
    have isPut : cells.put (queue.proc.size + 1) queue.proc.size p =
        .ok { cells with proc := Function.update cells.proc queue.proc.size (some p) } :=
      if_pos (Nat.lt_succ_self _)
    have pushed : Holds { cells with proc := Function.update cells.proc queue.proc.size (some p) }
        (queue.proc.push p) := by
      intro i inside
      rw [Array.size_push] at inside
      rw [Array.getElem_push]
      dsimp only
      rw [Function.update_apply]
      split
      · rename_i isLast
        rw [dif_neg (by omega)]
      · rename_i notLast
        rw [dif_pos (by omega)]
        exact refines.holds i (by omega)
    have inside : queue.proc.size < (queue.proc.push p).size := by simp
    rcases pushed.shiftup timecreated (nproc + 1) inside (by omega) with
      ⟨cells', sifted, size, holds⟩
    rw [Array.size_push] at sifted
    rw [refines.size] at sifted size
    rw [isPut, Fallible.bind_ok]
    dsimp only
    rw [refines.size, sifted, Fallible.bind_ok]
    have permuted : (PQueue.shiftup timecreated (queue.proc.push p) queue.proc.size inside).size = _ :=
      (PQueue.shiftup_perm _ _ inside).size_eq
    rw [Array.size_push] at permuted
    refine ⟨_, rfl, ?_, holds, ?_⟩
    · dsimp only
      rw [size, permuted]
    · dsimp only
      omega
  · rw [if_neg room, if_neg room]
    exact ⟨cells, rfl, refines⟩

theorem Refines.remove (refines : Refines cells queue) (timecreated : Slot → BitVec 32) :
    ∃ cells', cells.remove timecreated = .ok ((queue.remove timecreated).1, cells') ∧
      Refines cells' (queue.remove timecreated).2 := by
  unfold HeapCells.remove PQueue.remove PQueue.size
  rw [refines.size]
  by_cases empty : queue.proc.size = 0
  · rw [if_pos empty, dif_pos empty]
    exact ⟨cells, rfl, refines⟩
  · have inside : 0 < queue.proc.size := Nat.pos_of_ne_zero empty
    have lastInside : queue.proc.size - 1 < queue.proc.size := by omega
    rw [if_neg empty, dif_neg empty, refines.holds.get inside, refines.holds.get lastInside]
    simp only [Fallible.bind_ok]
    have isPut : cells.put queue.proc.size 0 queue.proc[queue.proc.size - 1] =
        .ok { cells with proc := Function.update cells.proc 0 (some queue.proc[queue.proc.size - 1]) } :=
      if_pos inside
    rw [isPut, Fallible.bind_ok]
    dsimp only
    rw [refines.size]
    generalize isRest : (queue.proc.set 0 queue.proc[queue.proc.size - 1]).pop = rest
    have size : rest.size = queue.proc.size - 1 := by
      rw [← isRest]
      simp
    have moved : Holds ⟨queue.proc.size - 1,
        Function.update cells.proc 0 (some queue.proc[queue.proc.size - 1])⟩ rest := by
      intro i inside'
      subst isRest
      rw [Array.getElem_pop, Array.getElem_set]
      dsimp only
      rw [Function.update_apply]
      by_cases first : i = 0
      · rw [if_pos first, if_pos first.symm]
      · rw [if_neg first, if_neg (Ne.symm first)]
        exact refines.holds i (by omega)
    have bound := refines.bound
    by_cases some' : 0 < rest.size
    · rcases moved.shiftdown timecreated (nproc + 1) some' size.symm (by omega) with
        ⟨cells', sifted, size', holds⟩
      have permuted : (PQueue.shiftdown timecreated rest 0 some').size = _ :=
        (PQueue.shiftdown_perm _ _ some').size_eq
      rw [sifted, Fallible.bind_ok, dif_pos some']
      refine ⟨cells', rfl, ?_, holds, ?_⟩
      · dsimp only
        rw [size', permuted, size]
      · dsimp only
        omega
    · rw [dif_neg some', shiftdown_empty (by dsimp only; omega) nproc, Fallible.bind_ok]
      refine ⟨_, rfl, size.symm, moved, ?_⟩
      dsimp only
      omega

/-! ## Sequences of calls -/

inductive Call where
  | insert (p : Slot)
  | remove

/-- `insert` has no result, and `remove` a process or 0. -/
def perform (timecreated : Slot → BitVec 32) : Call → HeapCells → Except Fault (Option Slot × HeapCells)
  | .insert p, cells => (cells.insert timecreated p).map fun cells => (none, cells)
  | .remove, cells => cells.remove timecreated

/-- What the queue is for: a bag of at most `NPROC` processes from which one that was created first is
taken. -/
def Earliest (timecreated : Slot → BitVec 32) (bag : Multiset Slot) : Call → Option Slot → Multiset Slot → Prop
  | .insert p, result, bag' => result = none ∧ bag' = if bag.card < nproc then p ::ₘ bag else bag
  | .remove, none, bag' => bag = 0 ∧ bag' = 0
  | .remove, some p, bag' => bag = p ::ₘ bag' ∧ ∀ q ∈ bag, timecreated p ≤ timecreated q

/-- Every process but the first was not created before its parent. -/
def Ordered (timecreated : Slot → BitVec 32) (cells : HeapCells) : Prop :=
  ∀ i, 0 < i → i < cells.size → ∃ p q, cells.proc (parent i) = some p ∧ cells.proc i = some q ∧
    timecreated p ≤ timecreated q

/-- The processes that are stored. -/
def stored (cells : HeapCells) : Multiset Slot := ((List.range cells.size).filterMap cells.proc : List Slot)

/-- The cells are a heap that holds the bag. -/
def Represents (timecreated : Slot → BitVec 32) (cells : HeapCells) (bag : Multiset Slot) : Prop :=
  ∃ queue : PQueue, Refines cells queue ∧ queue.Ordered timecreated ∧ bag = queue.toList

variable {bag : Multiset Slot}

theorem filterMap_range {f : ℕ → Option Slot} (items : List Slot)
    (all : ∀ (i : ℕ) (inside : i < items.length), f i = some items[i]) :
    (List.range items.length).filterMap f = items := by
  induction items generalizing f with
  | nil => rfl
  | cons first rest ih =>
      have isFirst : f 0 = some first := all 0 (Nat.succ_pos _)
      have others := ih (f := fun i => f (i + 1)) fun i inside => all (i + 1) (Nat.succ_lt_succ inside)
      rw [List.length_cons, List.range_succ_eq_map, List.filterMap_cons_some isFirst, List.filterMap_map]
      exact congrArg (first :: ·) others

theorem Refines.stored_eq (refines : Refines cells queue) : cells.stored = queue.toList := by
  have same : (List.range queue.toList.length).filterMap cells.proc = queue.toList := by
    apply filterMap_range
    intro i inside
    exact refines.holds i (by simpa [PQueue.toList] using inside)
  have size : cells.size = queue.toList.length := by
    rw [refines.size, PQueue.length_toList]
    rfl
  unfold stored
  rw [size, same]

theorem Refines.ordered (refines : Refines cells queue) (ordered : queue.Ordered timecreated) :
    cells.Ordered timecreated := by
  intro i positive inside
  rw [refines.size] at inside
  have child := PQueue.parent_child positive
  have inside' : parent i < queue.proc.size := child.lt.trans inside
  exact ⟨_, _, refines.holds _ inside', refines.holds _ inside, ordered _ _ inside' inside child⟩

theorem Represents.insert (represents : Represents timecreated cells bag) (p : Slot) :
    ∃ cells' bag', perform timecreated (.insert p) cells = .ok (none, cells') ∧
      Earliest timecreated bag (.insert p) none bag' ∧ Represents timecreated cells' bag' := by
  rcases represents with ⟨queue, refines, ordered, rfl⟩
  rcases refines.insert timecreated p with ⟨cells', inserted, refines'⟩
  refine ⟨cells', (queue.insert timecreated p).toList, ?_, ⟨rfl, ?_⟩,
    queue.insert timecreated p, refines', PQueue.insert_ordered ordered, rfl⟩
  · rw [perform, inserted]
    rfl
  · have card : Multiset.card (queue.toList : Multiset Slot) = queue.size := by
      rw [Multiset.coe_card, PQueue.length_toList]
    rw [card]
    split
    · rename_i room
      exact Multiset.coe_eq_coe.2 (PQueue.insert_perm room)
    · rename_i full
      unfold PQueue.insert
      rw [if_neg full]

theorem Represents.remove (represents : Represents timecreated cells bag) :
    ∃ result cells' bag', perform timecreated .remove cells = .ok (result, cells') ∧
      Earliest timecreated bag .remove result bag' ∧ Represents timecreated cells' bag' := by
  rcases represents with ⟨queue, refines, ordered, rfl⟩
  rcases refines.remove timecreated with ⟨cells', removed, refines'⟩
  have ordered' := PQueue.remove_ordered ordered
  by_cases empty : queue.toList = []
  · rw [PQueue.remove_empty empty] at removed refines' ordered'
    refine ⟨none, cells', 0, removed, ⟨?_, rfl⟩, queue, refines', ordered', ?_⟩
    · rw [empty]
      rfl
    · rw [empty]
      rfl
  · have taken : ∃ p rest, queue.remove timecreated = (some p, rest) ∧ queue.toList.Perm (p :: rest.toList) :=
      PQueue.remove_perm empty
    rcases taken with ⟨p, rest, isRemoved, perm⟩
    rw [isRemoved] at removed refines' ordered'
    refine ⟨some p, cells', rest.toList, removed, ⟨Multiset.coe_eq_coe.2 perm, ?_⟩, rest, refines', ordered', rfl⟩
    intro q member
    exact PQueue.remove_least ordered isRemoved (Multiset.mem_coe.1 member)

theorem Represents.perform (represents : Represents timecreated cells bag) (call : Call) :
    ∃ result cells' bag', perform timecreated call cells = .ok (result, cells') ∧
      Earliest timecreated bag call result bag' ∧ Represents timecreated cells' bag' := by
  cases call with
  | insert p =>
      rcases represents.insert p with ⟨cells', bag', performed, allowed, represents'⟩
      exact ⟨none, cells', bag', performed, allowed, represents'⟩
  | remove => exact represents.remove

/-- Removing until the queue is empty yields the processes in the order of their creation. -/
theorem Represents.drain (represents : Represents timecreated cells bag) :
    ∃ order cells', Calls.run (HeapCells.perform timecreated) (List.replicate bag.card .remove) cells =
        .ok (order.map some, cells') ∧ cells'.size = 0 ∧ bag = (order : List Slot) ∧
      order.Pairwise fun p q => timecreated p ≤ timecreated q := by
  generalize isCard : bag.card = left
  induction left generalizing cells bag with
  | zero =>
      refine ⟨[], cells, rfl, ?_, Multiset.card_eq_zero.1 isCard, List.Pairwise.nil⟩
      rcases represents with ⟨queue, refines, -, rfl⟩
      rw [Multiset.coe_card, PQueue.length_toList] at isCard
      exact refines.size.trans isCard
  | succ left ih =>
      rcases represents.remove with ⟨result, cells₁, bag₁, removed, allowed, represents₁⟩
      cases result with
      | none =>
          rw [allowed.1] at isCard
          exact absurd isCard (Nat.succ_ne_zero left).symm
      | some p =>
          rcases allowed with ⟨isBag, least⟩
          have isCard₁ : bag₁.card = left := by
            rw [isBag, Multiset.card_cons] at isCard
            exact Nat.succ.inj isCard
          rcases ih represents₁ isCard₁ with ⟨order, cells', ran, empty, isBag₁, sorted⟩
          refine ⟨p :: order, cells', Calls.run_cons removed ran, empty, ?_, ?_⟩
          · rw [isBag, isBag₁]
            rfl
          · rw [List.pairwise_cons]
            refine ⟨fun q member => least q ?_, sorted⟩
            rw [isBag, isBag₁]
            exact Multiset.mem_cons_of_mem (Multiset.mem_coe.2 member)

theorem represents_initial : Represents timecreated {} 0 :=
  ⟨{}, refines_initial, fun _ _ inside => absurd inside (Nat.not_lt_zero _), rfl⟩

/-- Every sequence of calls has the results of the bag, the cells in use are a heap that stores the bag,
and removing until the queue is empty sorts it. -/
theorem pqueue_earliest (timecreated : Slot → BitVec 32) (calls : List Call) :
    ∃ results cells bag, Calls.run (perform timecreated) calls {} = .ok (results, cells) ∧
      Calls.Allowed (Earliest timecreated) 0 calls results bag ∧
      cells.Ordered timecreated ∧ cells.stored = bag ∧
      ∃ order cells', Calls.run (perform timecreated) (List.replicate bag.card .remove) cells =
          .ok (order.map some, cells') ∧ cells'.size = 0 ∧ bag = (order : List Slot) ∧
        order.Pairwise fun p q => timecreated p ≤ timecreated q := by
  rcases Calls.run_allowed (Represents timecreated) (fun call represents => represents.perform call) calls
    represents_initial with ⟨results, cells, bag, ran, allowed, represents⟩
  have drained := represents.drain
  rcases represents with ⟨queue, refines, ordered, isBag⟩
  exact ⟨results, cells, bag, ran, allowed, refines.ordered ordered, refines.stored_eq.trans isBag.symm, drained⟩

end HeapCells

end Xv6
