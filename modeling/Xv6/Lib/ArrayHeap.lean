import Mathlib

/-!
# Binary heaps in arrays

The tree on the indices of an array in which `2 * i + 1` and `2 * i + 2` are the children of `i`,
and the order of a minimum heap by a key. Sifting an item up or down passes through arrays that
are ordered but for the edges at one index; `UpReady` and `DownReady` say which edges these are,
and the lemmas say what one swap does to them.
-/

namespace ArrayHeap

universe u v

variable {α : Type u} {κ : Type v} [LinearOrder κ] {key : α → κ} {a : Array α} {i p : ℕ}

/-- `j` is a child of `i`. -/
def Child (i j : ℕ) : Prop := j = 2 * i + 1 ∨ j = 2 * i + 2

theorem Child.lt {j : ℕ} (child : Child i j) : i < j := by
  unfold Child at child
  omega

theorem child_of_pos (positive : 0 < i) : Child ((i - 1) / 2) i := by
  unfold Child
  omega

/-- No item is smaller than its parent. -/
def Ordered (key : α → κ) (a : Array α) : Prop :=
  ∀ (x y : ℕ) (xInside : x < a.size) (yInside : y < a.size), Child x y → key a[x] ≤ key a[y]

/-- Ordered but for the edge that enters `i`; the children of `i` are not smaller than its
parent. -/
structure UpReady (key : α → κ) (a : Array α) (i : ℕ) : Prop where
  elsewhere : ∀ (x y : ℕ) (xInside : x < a.size) (yInside : y < a.size),
    Child x y → y ≠ i → key a[x] ≤ key a[y]
  around : ∀ (x y : ℕ) (xInside : x < a.size) (yInside : y < a.size),
    Child x i → Child i y → key a[x] ≤ key a[y]

/-- Ordered but for the edges that leave `i`; the children of `i` are not smaller than its
parent. -/
structure DownReady (key : α → κ) (a : Array α) (i : ℕ) : Prop where
  elsewhere : ∀ (x y : ℕ) (xInside : x < a.size) (yInside : y < a.size),
    Child x y → x ≠ i → key a[x] ≤ key a[y]
  around : ∀ (x y : ℕ) (xInside : x < a.size) (yInside : y < a.size),
    Child x i → Child i y → key a[x] ≤ key a[y]

/-- The root is a minimum. -/
theorem Ordered.root_le (ordered : Ordered key a) (nonempty : 0 < a.size) (j : ℕ)
    (inside : j < a.size) : key a[0] ≤ key a[j] := by
  induction j using Nat.strongRecOn with
  | ind j ih =>
      rcases Nat.eq_zero_or_pos j with rfl | positive
      · exact le_rfl
      · have child := child_of_pos positive
        exact (ih _ child.lt (Nat.lt_trans child.lt inside)).trans (ordered _ _ _ inside child)

/-- Appending an item breaks at most the edge that enters it. -/
theorem Ordered.upReady_push (ordered : Ordered key a) (x : α) :
    UpReady key (a.push x) a.size where
  elsewhere y z yInside zInside child notLast := by
    have := child.lt
    grind [Ordered]
  around y z yInside zInside _ child := by
    have := child.lt
    grind

/-- Replacing the root breaks at most the edges that leave it. -/
theorem Ordered.downReady_set (ordered : Ordered key a) (x : α) (inside : 0 < a.size) :
    DownReady key (a.set 0 x) 0 where
  elsewhere y z yInside zInside child notRoot := by
    have := child.lt
    grind [Ordered]
  around y z yInside zInside child _ := by
    have := child.lt
    omega

/-- Dropping the last item breaks no edge. -/
theorem DownReady.pop (ready : DownReady key a i) : DownReady key a.pop i where
  elsewhere y z yInside zInside child notHere := by
    have := ready.elsewhere y z
    grind
  around y z yInside zInside above below := by
    have := ready.around y z
    grind

theorem UpReady.finish (ready : UpReady key a i)
    (stop : ∀ (x : ℕ) (xInside : x < a.size) (iInside : i < a.size), Child x i →
      key a[x] ≤ key a[i]) : Ordered key a := by
  intro x y xInside yInside child
  by_cases here : y = i
  · subst here
    exact stop x xInside yInside child
  · exact ready.elsewhere x y xInside yInside child here

theorem DownReady.finish (ready : DownReady key a i)
    (stop : ∀ (y : ℕ) (iInside : i < a.size) (yInside : y < a.size), Child i y →
      key a[i] ≤ key a[y]) : Ordered key a := by
  intro x y xInside yInside child
  by_cases here : x = i
  · subst here
    exact stop y xInside yInside child
  · exact ready.elsewhere x y xInside yInside child here

theorem UpReady.swap (ready : UpReady key a i) (child : Child p i) (iInside : i < a.size)
    (pInside : p < a.size) (less : key a[i] < key a[p]) :
    UpReady key (a.swap p i) p where
  elsewhere x y xInside yInside edge notHere := by
    have xyLt := edge.lt
    have elsewhere := ready.elsewhere
    have around := ready.around
    simp only [Array.size_swap] at xInside yInside
    rw [Array.getElem_swap, Array.getElem_swap]
    unfold Child at *
    grind
  around x y xInside yInside above below := by
    have := above.lt
    have := below.lt
    have elsewhere := ready.elsewhere
    simp only [Array.size_swap] at xInside yInside
    rw [Array.getElem_swap, Array.getElem_swap]
    unfold Child at *
    grind

theorem DownReady.swap (ready : DownReady key a i) (child : Child i p) (iInside : i < a.size)
    (pInside : p < a.size) (less : key a[p] < key a[i])
    (least : ∀ (y : ℕ) (yInside : y < a.size), Child i y → key a[p] ≤ key a[y]) :
    DownReady key (a.swap p i) p where
  elsewhere x y xInside yInside edge notHere := by
    have := edge.lt
    have elsewhere := ready.elsewhere
    have around := ready.around
    simp only [Array.size_swap] at xInside yInside
    rw [Array.getElem_swap, Array.getElem_swap]
    unfold Child at *
    grind
  around x y xInside yInside above below := by
    have := above.lt
    have := below.lt
    have elsewhere := ready.elsewhere
    simp only [Array.size_swap] at xInside yInside
    rw [Array.getElem_swap, Array.getElem_swap]
    unfold Child at *
    grind

end ArrayHeap
