import Mathlib

/-!
# Terminals

What a terminal has printed is one list of cells, wrapped at the width of its screen; a cell that nothing was printed
to is `none`. The screen shows the rows from `top` on, and moves on when the cursor would leave it below. The cursor
goes back at most to the beginning of the screen.
-/

namespace Terminal

/-- The printed cells up to the cursor, and the first row on the screen -/
structure Paper (α : Type*) where
  text : List (Option α) := []
  top : ℕ := 0

variable {α : Type*} {cols rows : ℕ} {text : List (Option α)} {p : Paper α}

/-- The rest of a row -/
def pad (cols : ℕ) (text : List (Option α)) : List (Option α) :=
  text ++ List.replicate (cols - text.length % cols) none

namespace Paper

variable (cols rows p)

/-- Another text, with the screen as far down as the cursor needs it -/
def follow (text : List (Option α)) : Paper α := ⟨text, max p.top (text.length / cols + 1 - rows)⟩

def newline : Paper α := p.follow cols rows (pad cols p.text)

def type (x : α) : Paper α := p.follow cols rows (p.text ++ [some x])

def erase : Paper α := if cols * p.top < p.text.length then { p with text := p.text.dropLast } else p

/-- The cursor is on the screen. -/
structure OnScreen : Prop where
  above : cols * p.top ≤ p.text.length
  below : p.text.length < cols * (p.top + rows)

/-- The screen has its last rows only. -/
def Settled : Prop := p.top = p.text.length / cols + 1 - rows

end Paper

open Paper

/-! ## Cells -/

theorem getD_beyond {i : ℕ} (hi : text.length ≤ i) : text.getD i none = none := by
  simp [List.getD, List.getElem?_eq_none hi]

theorem getD_pad (i : ℕ) : (pad cols text).getD i none = text.getD i none := by
  unfold pad
  by_cases inside : i < text.length
  · simp [List.getElem?_append_left inside]
  · rw [getD_beyond (Nat.le_of_not_lt inside)]
    simp only [List.getD, List.getElem?_append_right (Nat.le_of_not_lt inside), List.getElem?_replicate]
    split <;> rfl

theorem getD_type (x : α) (i : ℕ) :
    (text ++ [some x]).getD i none = if i = text.length then some x else text.getD i none := by
  by_cases inside : i < text.length
  · simp [List.getElem?_append_left inside, Nat.ne_of_lt inside]
  · by_cases last : i = text.length
    · subst last
      simp
    · have beyond : text.length + 1 ≤ i := by omega
      rw [if_neg last, getD_beyond (Nat.le_of_not_lt inside), getD_beyond (by simpa using beyond)]

theorem getD_erase {i : ℕ} (hi : i ≠ text.dropLast.length) :
    text.dropLast.getD i none = text.getD i none := by
  rw [List.length_dropLast] at hi
  by_cases inside : i < text.length - 1
  · have within : i < text.length := by omega
    simp [inside, within]
  · rw [getD_beyond (by simpa using Nat.le_of_not_lt inside), getD_beyond (by omega)]

/-! ## The cursor -/

theorem length_pad (hcols : 0 < cols) (text : List (Option α)) :
    (pad cols text).length = cols * (text.length / cols + 1) := by
  have division := Nat.div_add_mod text.length cols
  have short := Nat.mod_lt text.length hcols
  rw [pad, List.length_append, List.length_replicate, Nat.mul_add]
  omega

theorem Paper.OnScreen.pad (hcols : 0 < cols) (screen : p.OnScreen cols rows) :
    p.text.length < (pad cols p.text).length ∧ (pad cols p.text).length ≤ cols * (p.top + rows) := by
  rw [length_pad hcols]
  refine ⟨Nat.lt_mul_div_succ _ hcols, ?_⟩
  apply Nat.mul_le_mul_left
  apply Nat.div_lt_of_lt_mul screen.below

/-- The screen moves on by a row at most. -/
theorem Paper.OnScreen.follow (hcols : 0 < cols) (hrows : 0 < rows) (above : cols * p.top ≤ text.length)
    (below : text.length ≤ cols * (p.top + rows)) :
    (p.follow cols rows text).top = (if text.length = cols * (p.top + rows) then p.top + 1 else p.top) ∧
      (p.follow cols rows text).OnScreen cols rows := by
  by_cases full : text.length = cols * (p.top + rows)
  · have row : text.length / cols = p.top + rows := by
      rw [full, Nat.mul_div_cancel_left _ hcols]
    have top : (p.follow cols rows text).top = p.top + 1 := by
      simp only [Paper.follow, row]
      omega
    refine ⟨by rw [top, if_pos full], ?_, ?_⟩
    · rw [top]
      simp only [Paper.follow, full]
      apply Nat.mul_le_mul_left
      omega
    · rw [top]
      simp only [Paper.follow, full]
      apply Nat.mul_lt_mul_of_pos_left _ hcols
      omega
  · have row : text.length / cols < p.top + rows := Nat.div_lt_of_lt_mul (by omega)
    have top : (p.follow cols rows text).top = p.top := by
      simp only [Paper.follow]
      omega
    refine ⟨by rw [top, if_neg full], ?_, ?_⟩
    · rw [top]
      exact above
    · rw [top]
      simp only [Paper.follow]
      omega

theorem Paper.OnScreen.erase (screen : p.OnScreen cols rows) : (p.erase cols).OnScreen cols rows := by
  unfold Paper.erase
  split
  · rename_i inside
    refine ⟨?_, ?_⟩
    · simp only [List.length_dropLast]
      omega
    · have below := screen.below
      simp only [List.length_dropLast]
      omega
  · exact screen

theorem Paper.Settled.follow (settled : p.Settled cols rows) (longer : p.text.length ≤ text.length) :
    (p.follow cols rows text).Settled cols rows := by
  have further : p.text.length / cols ≤ text.length / cols := Nat.div_le_div_right longer
  unfold Settled at settled ⊢
  simp only [Paper.follow]
  omega

end Terminal
