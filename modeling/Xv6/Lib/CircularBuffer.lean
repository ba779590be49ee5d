import Mathlib

/-!
# Circular buffers with a spare cell

A buffer of `n` cells with a start and a stop index holds the cells from the start, going around
the end of the array, up to the cell before the stop. The two indices are equal exactly when the
buffer is empty, so it never holds more than `n - 1` items.
-/

namespace CircularBuffer

variable {α : Type*} {n : ℕ}

/-- The next index. -/
def succ (n i : ℕ) : ℕ := if i + 1 = n then 0 else i + 1

/-- The number of items between two indices. -/
def count (n start stop : ℕ) : ℕ := if start ≤ stop then stop - start else stop + n - start

/-- The items from `start` to `stop`, in order. -/
def contents [NeZero n] (cell : Fin n → α) (start stop : ℕ) : List α :=
  (List.range (count n start stop)).map fun k => cell (Fin.ofNat n (start + k))

theorem succ_lt {i : ℕ} (inside : i < n) : succ n i < n := by
  unfold succ
  split <;> omega

theorem count_lt {start stop : ℕ} (startInside : start < n) (stopInside : stop < n) :
    count n start stop < n := by
  unfold count
  split <;> omega

/-- The test for a full buffer. -/
theorem succ_eq_start_iff {start stop : ℕ} (startInside : start < n) (stopInside : stop < n) :
    succ n stop = start ↔ count n start stop = n - 1 := by
  unfold succ count
  split <;> split <;> omega

variable [NeZero n]

/-- Offsets from the start reach the end of the array at most once. -/
theorem ofNat_val {start k : ℕ} (startInside : start < n) (small : k < n) :
    (Fin.ofNat n (start + k)).val = if start + k < n then start + k else start + k - n := by
  rw [Fin.val_ofNat]
  split
  · rename_i inside
    exact Nat.mod_eq_of_lt inside
  · rename_i outside
    rw [Nat.mod_eq_sub_mod (by omega), Nat.mod_eq_of_lt (by omega)]

/-- The cells in use come before the stop cell. -/
theorem ofNat_ne_stop {start stop k : ℕ} (startInside : start < n) (stopInside : stop < n)
    (held : k < count n start stop) : (Fin.ofNat n (start + k)).val ≠ stop := by
  have small := count_lt (n := n) startInside stopInside
  have position := ofNat_val (k := k) startInside (by omega)
  grind [count]

theorem ofNat_succ {start k : ℕ} (startInside : start < n) (small : k + 1 < n) :
    (Fin.ofNat n (start + (k + 1))).val = succ n (Fin.ofNat n (start + k)).val := by
  rw [ofNat_val startInside small, ofNat_val startInside (by omega)]
  grind [succ]

@[simp]
theorem length_contents (cell : Fin n → α) (start stop : ℕ) :
    (contents cell start stop).length = count n start stop := by
  simp [contents]

theorem getElem_contents (cell : Fin n → α) (start stop k : ℕ)
    (inside : k < (contents cell start stop).length) :
    (contents cell start stop)[k] = cell (Fin.ofNat n (start + k)) := by
  simp [contents]

theorem contents_eq_nil_iff {cell : Fin n → α} {start stop : ℕ} (startInside : start < n) :
    contents cell start stop = [] ↔ start = stop := by
  rw [← List.length_eq_zero_iff, length_contents]
  unfold count
  split <;> omega

/-- Writing an item to the stop cell and moving the stop appends the item. -/
theorem contents_push {cell : Fin n → α} {start stop : ℕ} (a : α) (startInside : start < n)
    (stopInside : stop < n) (spare : succ n stop ≠ start) :
    contents (Function.update cell ⟨stop, stopInside⟩ a) start (succ n stop) =
      contents cell start stop ++ [a] := by
  have grown : count n start (succ n stop) = count n start stop + 1 := by
    grind [count, succ]
  have small := count_lt (n := n) startInside stopInside
  rw [contents, grown, List.range_succ, List.map_append, List.map_singleton]
  congr 1
  · apply List.map_congr_left
    intro k kMem
    have kLt := List.mem_range.mp kMem
    rw [Function.update_of_ne]
    intro same
    exact ofNat_ne_stop startInside stopInside kLt (congrArg Fin.val same)
  · have last : Fin.ofNat n (start + count n start stop) = ⟨stop, stopInside⟩ := by
      apply Fin.ext
      rw [ofNat_val startInside small]
      grind [count]
    rw [last, Function.update_self]

/-- The first item is the one in the start cell. -/
theorem contents_pop {cell : Fin n → α} {start stop : ℕ} (startInside : start < n)
    (stopInside : stop < n) (nonempty : start ≠ stop) :
    contents cell start stop =
      cell ⟨start, startInside⟩ :: contents cell (succ n start) stop := by
  have shrunk : count n start stop = count n (succ n start) stop + 1 := by
    grind [count, succ]
  have small := count_lt (n := n) startInside stopInside
  rw [contents, shrunk, List.range_succ_eq_map, List.map_cons, List.map_map]
  congr 1
  · congr 1
    apply Fin.ext
    rw [ofNat_val startInside (by omega)]
    simp [startInside]
  · apply List.map_congr_left
    intro k kMem
    have kLt := List.mem_range.mp kMem
    have succInside : succ n start < n := succ_lt startInside
    dsimp only [Function.comp_apply]
    congr 1
    apply Fin.ext
    rw [ofNat_val startInside (by omega), ofNat_val succInside (by omega)]
    grind [count, succ]

/-- Moving the items after the cell `i` down by one cell, where the buffer does not go around the
end of the array after `i`, and moving the stop back removes the item in `i`. -/
theorem contents_shift {cell cell' : Fin n → α} {start stop k : ℕ} (startInside : start < n)
    (stopInside : stop < n) (held : k < count n start stop)
    (unwrapped : (Fin.ofNat n (start + k)).val < stop)
    (below : ∀ j : Fin n, j < Fin.ofNat n (start + k) → cell' j = cell j)
    (moved : ∀ j : Fin n, Fin.ofNat n (start + k) ≤ j → (inside : j.val + 1 < stop) →
      cell' j = cell ⟨j + 1, inside.trans stopInside⟩)
    (above : ∀ j : Fin n, stop ≤ j → cell' j = cell j) :
    contents cell' start (stop - 1) = (contents cell start stop).eraseIdx k := by
  have small := count_lt (n := n) startInside stopInside
  have position := ofNat_val (k := k) startInside (by omega)
  have shrunk : count n start (stop - 1) = count n start stop - 1 := by
    grind [count]
  apply List.ext_getElem
  · simp [List.length_eraseIdx, held, shrunk]
  · intro j jInside jInside'
    rw [length_contents, shrunk] at jInside
    rw [getElem_contents, List.getElem_eraseIdx]
    have jPosition := ofNat_val (k := j) startInside (by omega)
    have jPosition' := ofNat_val (k := j + 1) startInside (by omega)
    split
    · rename_i before
      rw [getElem_contents]
      by_cases low : Fin.ofNat n (start + j) < Fin.ofNat n (start + k)
      · exact below _ low
      · apply above
        rw [Fin.lt_def, position, jPosition] at low
        rw [jPosition]
        grind [count]
    · rename_i notBefore
      rw [getElem_contents]
      have next : (Fin.ofNat n (start + (j + 1))).val = (Fin.ofNat n (start + j)).val + 1 ∧
          Fin.ofNat n (start + k) ≤ Fin.ofNat n (start + j) ∧
          (Fin.ofNat n (start + j)).val + 1 < stop := by
        rw [Fin.le_def, position, jPosition, jPosition']
        grind [count]
      rw [moved _ next.2.1 next.2.2]
      congr 1
      exact Fin.ext next.1.symm

end CircularBuffer
