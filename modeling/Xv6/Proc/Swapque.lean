import Xv6.Proc.MultiQueue

/-!
# `swapque`

Where `swapque` moves a process from one level to another, and where it does not. The cells that its
loops use are listed by their indices.
-/

namespace Xv6

namespace MultiQueue

variable {pidOf : Slot → ℤ} {pid : ℤ} {queue queue' : MultiQueue} {qindex target : Fin numpr} {p : Slot}
  {before rest : List (Option Slot)}

/-- The indices of the level that the first loop of `swapque` uses. -/
def findIndices (pidOf : Slot → ℤ) (pid : ℤ) (qindex : Fin numpr) (queue : MultiQueue) : ℕ → ℤ → List ℤ
  | 0, _ => []
  | fuel + 1, i =>
      if i = queue.stop qindex then []
      else i :: match queue.read qindex i with
        | .ok (some p) => if pidOf p = pid then [] else findIndices pidOf pid qindex queue fuel (next i)
        | _ => []

/-- The indices of the level that the inner loop uses. -/
def shiftIndices (qindex : Fin numpr) (queue : MultiQueue) : ℕ → ℤ → List ℤ
  | 0, _ => []
  | fuel + 1, j =>
      if j = queue.stop qindex then [] else j :: (j - 1) :: shiftIndices qindex queue fuel (next j)

/-- The indices of its level `priority1 - 1` that `swapque` uses. -/
def swapqueIndices (pidOf : Slot → ℤ) (pid : ℤ) (qindex : Fin numpr) (queue : MultiQueue) : List ℤ :=
  findIndices pidOf pid qindex queue (nproc + 2) (queue.start qindex) ++
    match swapqueFind pidOf pid qindex queue (nproc + 2) (queue.start qindex) with
    | .ok (some (i, _)) => shiftIndices qindex queue (nproc + 2) (next i)
    | _ => []

/-- What `swapque` should do. -/
def Swaps (pidOf : Slot → ℤ) (qindex target : Fin numpr) (pid : ℤ) (queue : MultiQueue) : Prop :=
  ∃ queue', queue.swapque pidOf ((qindex : ℤ) + 1) ((target : ℤ) + 1) pid = .ok queue' ∧ queue'.WellFormed ∧
    (∀ i ∈ swapqueIndices pidOf pid qindex queue, 0 ≤ i ∧ i ≤ nproc) ∧
    ((∃ p, some p ∈ queue.ring qindex ∧ pidOf p = pid) →
      ∃ p before after, queue.ring qindex = before ++ some p :: after ∧ pidOf p = pid ∧
        queue'.ring qindex = before ++ after ∧ queue'.ring target = queue.ring target ++ [some p] ∧
        ∀ other, other ≠ qindex → other ≠ target → queue'.ring other = queue.ring other) ∧
    ((¬∃ p, some p ∈ queue.ring qindex ∧ pidOf p = pid) → ∀ other, queue'.ring other = queue.ring other)

/-! ## The search -/

/-- The search goes past processes with other pids. -/
theorem swapqueFind_skip (wf : queue.WellFormed) (holds : queue.ring qindex = before ++ rest)
    (earlier : ∀ x ∈ before, ∃ r, x = some r ∧ pidOf r ≠ pid) (fuel left : ℕ) :
    ∀ {k}, k + left = before.length →
      swapqueFind pidOf pid qindex queue (fuel + left) (queue.index qindex k).val =
        swapqueFind pidOf pid qindex queue fuel (queue.index qindex before.length).val := by
  have total := length_ring wf qindex
  rw [holds, List.length_append] at total
  induction left with
  | zero =>
      intro k isEnd
      rw [Nat.add_zero] at isEnd ⊢
      rw [isEnd]
  | succ left ih =>
      intro k isEnd
      have sooner : k < before.length := by omega
      have notStop : ¬((queue.index qindex k).val : ℤ) = queue.stop qindex := by
        apply index_ne_stop wf
        rw [holds, List.length_append]
        omega
      rcases earlier _ (List.getElem_mem sooner) with ⟨r, rEq, other⟩
      have here : queue.proc qindex (queue.index qindex k) = some r := by
        apply proc_index
        rw [holds, List.getElem?_append_left sooner, List.getElem?_eq_getElem sooner, rEq]
      rw [← Nat.add_assoc]
      simp only [swapqueFind, notStop, if_false, read_eq, Fallible.bind_ok, here, other]
      rw [next_index wf (by omega)]
      exact ih (by omega)

theorem swapqueFind_start (wf : queue.WellFormed) (holds : queue.ring qindex = before ++ rest)
    (earlier : ∀ x ∈ before, ∃ r, x = some r ∧ pidOf r ≠ pid) :
    ∃ fuel, swapqueFind pidOf pid qindex queue (nproc + 2) (queue.start qindex) =
      swapqueFind pidOf pid qindex queue (fuel + 1) (queue.index qindex before.length).val := by
  have total := length_ring wf qindex
  rw [holds, List.length_append] at total
  refine ⟨nproc + 1 - before.length, ?_⟩
  have skipped := swapqueFind_skip wf holds earlier (nproc + 1 - before.length + 1) before.length (Nat.zero_add _)
  have isFuel : nproc + 1 - before.length + 1 + before.length = nproc + 2 := by omega
  rw [isFuel, index_zero wf] at skipped
  exact skipped

/-- The cell after the last process is the stop. -/
theorem index_length (wf : queue.WellFormed) :
    ((queue.index qindex (queue.ring qindex).length).val : ℤ) = queue.stop qindex := by
  have indices := wf.indices qindex
  have small := CircularBuffer.count_lt indices.1.1 indices.2.1
  have position := CircularBuffer.ofNat_val (n := nproc + 1) indices.1.1 small
  have isStop : (queue.index qindex (queue.ring qindex).length).val = (queue.stop qindex).toNat := by
    rw [ring, CircularBuffer.length_contents, index, position]
    grind [CircularBuffer.count]
  rw [isStop, indices.2.2]

/-- The first process with the pid, an empty cell before it, or neither. -/
theorem search_cases (pidOf : Slot → ℤ) (pid : ℤ) (items : List (Option Slot)) :
    ∃ before rest, items = before ++ rest ∧ (∀ x ∈ before, ∃ r, x = some r ∧ pidOf r ≠ pid) ∧
      (rest = [] ∨ (∃ after, rest = none :: after) ∨ ∃ p after, rest = some p :: after ∧ pidOf p = pid) := by
  induction items with
  | nil => exact ⟨[], [], rfl, fun _ member => absurd member List.not_mem_nil, .inl rfl⟩
  | cons first items ih =>
      have start : ∀ x ∈ ([] : List (Option Slot)), ∃ r, x = some r ∧ pidOf r ≠ pid :=
        fun _ member => absurd member List.not_mem_nil
      cases first with
      | none => exact ⟨[], _, rfl, start, .inr (.inl ⟨items, rfl⟩)⟩
      | some p =>
          by_cases same : pidOf p = pid
          · exact ⟨[], _, rfl, start, .inr (.inr ⟨p, items, rfl, same⟩)⟩
          · rcases ih with ⟨before, rest, rfl, earlier, cases⟩
            refine ⟨some p :: before, rest, rfl, fun x member => ?_, cases⟩
            rcases List.mem_cons.1 member with rfl | later
            · exact ⟨p, rfl, same⟩
            · exact earlier x later

/-! ## The indices -/

theorem findIndices_inside (fuel : ℕ) : ∀ {i : ℤ}, 0 ≤ i ∧ i ≤ nproc →
    ∀ j ∈ findIndices pidOf pid qindex queue fuel i, 0 ≤ j ∧ j ≤ nproc := by
  induction fuel with
  | zero =>
      intro i _ j member
      exact absurd member List.not_mem_nil
  | succ fuel ih =>
      intro i inside j member
      unfold findIndices at member
      split at member
      · exact absurd member List.not_mem_nil
      · rcases List.mem_cons.1 member with rfl | later
        · exact inside
        · split at later
          · split at later
            · exact absurd later List.not_mem_nil
            · exact ih (next_inside inside.1) j later
          · exact absurd later List.not_mem_nil

theorem next_of_lt {j : ℤ} (inside : 0 ≤ j) (less : j < nproc) : next j = j + 1 := by
  unfold next
  rw [Int.tmod_eq_emod_of_nonneg (by omega)]
  simp only [nproc] at *
  omega

theorem next_last : next (nproc : ℤ) = 0 := by decide

/-- Up to the stop, the inner loop stays inside. -/
theorem shiftIndices_inside (stop : queue.stop qindex ≤ nproc) (fuel : ℕ) :
    ∀ {j : ℤ}, 0 < j → j ≤ queue.stop qindex →
      ∀ i ∈ shiftIndices qindex queue fuel j, 0 ≤ i ∧ i ≤ nproc := by
  induction fuel with
  | zero =>
      intro j _ _ i member
      exact absurd member List.not_mem_nil
  | succ fuel ih =>
      intro j positive below i member
      unfold shiftIndices at member
      split at member
      · exact absurd member List.not_mem_nil
      · rename_i notStop
        rcases List.mem_cons.1 member with rfl | later
        · omega
        · rcases List.mem_cons.1 later with rfl | later
          · omega
          · rw [next_of_lt (by omega) (by omega)] at later
            exact ih (by omega) (by omega) i later

/-- From behind the stop, the inner loop uses the index -1. -/
theorem shiftIndices_wrapped (stop : 0 < queue.stop qindex) (left : ℕ) :
    ∀ {j : ℤ} (fuel : ℕ), queue.stop qindex < j → j + left = nproc →
      -1 ∈ shiftIndices qindex queue (fuel + 1 + left) (next j) := by
  induction left with
  | zero =>
      intro j fuel behind isLast
      have isLast : j = nproc := by omega
      unfold shiftIndices
      rw [isLast, next_last, if_neg stop.ne]
      exact List.mem_cons_of_mem _ (List.mem_cons_self ..)
  | succ left ih =>
      intro j fuel behind isLast
      rw [← Nat.add_assoc, next_of_lt (by omega) (by omega)]
      unfold shiftIndices
      rw [if_neg (by omega)]
      exact List.mem_cons_of_mem _ (List.mem_cons_of_mem _ (ih fuel (by omega) (by omega)))

/-! ## Where it is right -/

/-- The process is movable, and the other level has room. -/
def Swappable (pidOf : Slot → ℤ) (qindex target : Fin numpr) (pid : ℤ) (queue : MultiQueue) : Prop :=
  (∃ p, pidOf p = pid ∧ queue.Movable pidOf qindex p) ∧ (queue.ring target).length < nproc

theorem Swappable.swaps (swappable : queue.Swappable pidOf qindex target pid) (wf : queue.WellFormed)
    (different : target ≠ qindex) : queue.Swaps pidOf qindex target pid := by
  rcases swappable with ⟨⟨p, rfl, movable⟩, room⟩
  rcases swapque_spec wf movable different room with ⟨queue', before, after, ring, ran, wf', removed, others⟩
  have member : some p ∈ queue.ring qindex := by
    rw [ring]
    simp
  refine ⟨queue', ran, wf', ?_, fun _ => ?_, fun absent => absurd ⟨p, member, rfl⟩ absent⟩
  · intro i isIndex
    rcases List.mem_append.1 isIndex with search | shift
    · exact findIndices_inside _ (wf qindex).1 i search
    · rcases movable with ⟨before, after, ring, earlier, unwrapped⟩
      have search := swapqueFind_spec wf ring earlier (nproc + 2) 0 (Nat.zero_le _) (by
        have total := length_ring wf qindex
        rw [ring, List.length_append] at total
        omega)
      rw [index_zero wf] at search
      rw [search] at shift
      dsimp only at shift
      have position : ((queue.index qindex before.length).val : ℤ) < queue.stop qindex := by
        rw [index, Fin.val_ofNat, Int.natCast_emod]
        push_cast
        rw [(wf.indices qindex).1.2]
        exact unwrapped
      have bounds := (wf qindex).2
      rw [next_of_lt (by omega) (by omega)] at shift
      exact shiftIndices_inside bounds.2 _ (by omega) (by omega) i shift
  · refine ⟨p, before, after, ring, rfl, removed, ?_, ?_⟩
    · rw [others target different, if_pos rfl]
    · intro other apart notTarget
      rw [others other apart, if_neg notTarget]

/-- Without a process that has the pid, the last process of the level is lost, or its index leaves the
range. -/
theorem Swaps.not_absent (swaps : queue.Swaps pidOf qindex target pid) (wf : queue.WellFormed)
    (absent : ∀ x ∈ queue.ring qindex, ∃ r, x = some r ∧ pidOf r ≠ pid) : False := by
  have all : queue.ring qindex = queue.ring qindex ++ [] := (List.append_nil _).symm
  rcases swapqueFind_start wf all absent with ⟨fuel, search⟩
  rw [index_length wf] at search
  have notFound : swapqueFind pidOf pid qindex queue (fuel + 1) (queue.stop qindex) = .ok none := by
    unfold swapqueFind
    rw [if_pos rfl]
    rfl
  rw [notFound] at search
  rcases swaps with ⟨queue', ran, wf', -, -, unchanged⟩
  rw [swapque, level_eq, Fallible.bind_ok, search] at ran
  have isQueue := Except.ok.inj ran
  have nobody : ¬∃ p, some p ∈ queue.ring qindex ∧ pidOf p = pid := by
    rintro ⟨p, member, isPid⟩
    rcases absent _ member with ⟨r, isR, other⟩
    exact other ((Option.some.inj isR) ▸ isPid)
  have same := congrArg List.length (unchanged nobody qindex)
  have bounds := wf qindex
  have bounds' := (wf' qindex).2
  rw [ring, ring, CircularBuffer.length_contents, CircularBuffer.length_contents, ← isQueue] at same
  rw [← isQueue] at bounds'
  simp only [Function.update_self] at same bounds'
  by_cases zero : queue.stop qindex = 0
  · rw [zero] at bounds'
    exact absurd bounds'.1 (by decide)
  · have isStop : (queue.stop qindex - 1).tmod (nproc + 1) = queue.stop qindex - 1 :=
      Int.tmod_eq_of_lt (by omega) (by omega)
    rw [isStop] at same
    have down : (queue.stop qindex - 1).toNat = (queue.stop qindex).toNat - 1 := by omega
    rw [down] at same
    have indices := wf.indices qindex
    have isWidth : nproc + 1 = 65 := rfl
    unfold CircularBuffer.count at same
    split at same <;> split at same <;> omega

/-- Behind the stop, `end` becomes -1 or the index -1 is used. -/
theorem Swaps.position {after : List (Option Slot)} (swaps : queue.Swaps pidOf qindex target (pidOf p))
    (wf : queue.WellFormed) (different : target ≠ qindex) (holds : queue.ring qindex = before ++ some p :: after)
    (earlier : ∀ x ∈ before, ∃ r, x = some r ∧ pidOf r ≠ pidOf p) :
    ((queue.index qindex before.length).val : ℤ) < queue.stop qindex := by
  have total := length_ring wf qindex
  rw [holds, List.length_append] at total
  have search := swapqueFind_spec wf holds earlier (nproc + 2) 0 (Nat.zero_le _) (by omega)
  rw [index_zero wf] at search
  rcases swaps with ⟨queue', ran, wf', inside, -, -⟩
  by_contra notBelow
  have notStop : ¬((queue.index qindex before.length).val : ℤ) = queue.stop qindex := by
    apply index_ne_stop wf
    rw [holds, List.length_append, List.length_cons]
    omega
  have bounds := (wf qindex).2
  have small := (queue.index qindex before.length).isLt
  by_cases zero : queue.stop qindex = 0
  · rw [swapque, level_eq] at ran
    simp only [Fallible.bind_ok, search, Fallible.pure_eq] at ran
    rcases Fallible.bind_eq_ok.mp ran with ⟨shifted, shift, enqued⟩
    have stop := (swapqueShift_last (next_inside (Int.natCast_nonneg _)) shift).2.1
    have isStop := (enque_indices enqued).2 qindex different.symm
    have bounds' := (wf' qindex).2
    simp only [Function.update_self, stop, zero] at isStop
    rw [isStop] at bounds'
    exact absurd bounds'.1 (by decide)
  · have wrapped : -1 ∈ shiftIndices qindex queue ((queue.index qindex before.length).val + 1 + 1 +
        (nproc - (queue.index qindex before.length).val)) (next (queue.index qindex before.length).val) :=
      shiftIndices_wrapped (by omega) _ _ (by omega) (by omega)
    have isFuel : (queue.index qindex before.length).val + 1 + 1 +
        (nproc - (queue.index qindex before.length).val) = nproc + 2 := by omega
    rw [isFuel] at wrapped
    have used : (-1 : ℤ) ∈ swapqueIndices pidOf (pidOf p) qindex queue := by
      unfold swapqueIndices
      rw [search]
      exact List.mem_append_right _ wrapped
    exact absurd (inside _ used).1 (by decide)

theorem Swaps.swappable (swaps : queue.Swaps pidOf qindex target pid) (wf : queue.WellFormed)
    (different : target ≠ qindex) : queue.Swappable pidOf qindex target pid := by
  rcases search_cases pidOf pid (queue.ring qindex) with ⟨before, rest, holds, earlier, none | null | found⟩
  · rw [none, List.append_nil] at holds
    exact (swaps.not_absent wf (holds ▸ earlier)).elim
  · rcases null with ⟨after, rfl⟩
    rcases swapqueFind_start wf holds earlier with ⟨fuel, search⟩
    have held : before.length < (queue.ring qindex).length := by simp [holds]
    have here : queue.proc qindex (queue.index qindex before.length) = none := by
      apply proc_index
      simp [holds]
    have isError : swapqueFind pidOf pid qindex queue (fuel + 1) (queue.index qindex before.length).val =
        .error .nullPointer := by
      unfold swapqueFind
      rw [if_neg (index_ne_stop wf held), read_eq, here]
      rfl
    rw [isError] at search
    rcases swaps with ⟨queue', ran, -⟩
    rw [swapque, level_eq, Fallible.bind_ok, search] at ran
    cases ran
  · rcases found with ⟨p, after, rfl, rfl⟩
    have below := swaps.position wf different holds earlier
    rw [index, Fin.val_ofNat, Int.natCast_emod] at below
    push_cast at below
    rw [(wf.indices qindex).1.2] at below
    refine ⟨⟨p, rfl, before, after, holds, earlier, below⟩, ?_⟩
    rcases swaps with ⟨queue', -, wf', -, present, -⟩
    rcases present ⟨p, by rw [holds]; simp, rfl⟩ with ⟨_, _, _, -, -, -, appended, -⟩
    have bound := length_ring wf' target
    rw [appended, List.length_append] at bound
    exact bound

/-- `swapque` is right if and only if the process is movable and the other level has room. -/
theorem swapque_iff (wf : queue.WellFormed) (different : target ≠ qindex) (pidOf : Slot → ℤ) (pid : ℤ) :
    queue.Swaps pidOf qindex target pid ↔ queue.Swappable pidOf qindex target pid :=
  ⟨fun swaps => swaps.swappable wf different, fun swappable => swappable.swaps wf different⟩

/-- A queue whose first level holds one process, in the cell `start`. -/
def oneProcess (start stop : ℤ) : MultiQueue :=
  { start := fun q => if q = 0 then start else 0
    stop := fun q => if q = 0 then stop else 0
    proc := fun _ _ => some 5 }

/-- A queue whose first level holds three processes. -/
def threeProcesses : MultiQueue :=
  { stop := fun q => if q = 0 then 3 else 0
    proc := fun _ i => some (Fin.ofNat nproc i.val) }

/-- The process in the middle moves to the second level. -/
theorem swapque_iff_middle : threeProcesses.Swaps (fun p => p.val + 1) 0 1 2 := by
  have wf : threeProcesses.WellFormed := by
    intro q
    revert q
    decide
  refine (swapque_iff wf (by decide) _ _).2 ⟨⟨1, by decide, [some 0], [some 2], by decide, ?_, by decide⟩,
    by decide⟩
  intro x member
  exact ⟨0, List.mem_singleton.1 member, by decide⟩

/-- The process is in the last cell. -/
theorem swapque_incorrect :
    ¬∀ (queue : MultiQueue) (qindex target : Fin numpr) (pidOf : Slot → ℤ) (pid : ℤ), queue.WellFormed →
      target ≠ qindex → queue.Swaps pidOf qindex target pid := by
  intro right
  have wf : (oneProcess 64 0).WellFormed := by
    intro q
    revert q
    decide
  rcases (swapque_iff wf (by decide) _ _).1 (right (oneProcess 64 0) 0 1 (fun _ => 7) 7 wf (by decide)) with
    ⟨⟨p, -, before, after, -, -, below⟩, -⟩
  have isStop : (oneProcess 64 0).stop 0 = 0 := rfl
  rw [isStop] at below
  exact absurd below (Int.emod_nonneg _ (by decide)).not_gt

end MultiQueue

end Xv6
