import Mathlib

/-!
# Lines

A text is cut at each stop into pieces that a stop ends and one more that none does.
-/

namespace Lines

variable {Letter : Type*}

/-- The letters in some lines. -/
def weight (lines : List (List Letter)) : ℕ := (lines.map List.length).sum

theorem weight_append (lines lines' : List (List Letter)) :
    weight (lines ++ lines') = weight lines + weight lines' := by
  simp [weight]

variable [DecidableEq Letter] (stop : Letter)

/-- The pieces that a stop ends, without it. -/
def ended (text : List Letter) : List (List Letter) := (text.splitOn stop).dropLast

/-- What is behind the last stop. -/
def unended (text : List Letter) : List Letter :=
  (text.splitOn stop).getLast (List.splitOn_ne_nil stop text)

/-- Induction on the lines. -/
theorem lines_induction {motive : List Letter → Prop}
    (last : ∀ text, stop ∉ text → motive text)
    (next : ∀ line rest, stop ∉ line → motive rest → motive (line ++ stop :: rest))
    (text : List Letter) : motive text := by
  induction length : text.length using Nat.strong_induction_on generalizing text with
  | _ n ih =>
      by_cases stopped : stop ∈ text
      · obtain ⟨line, rest, rfl, whole⟩ := List.eq_append_cons_of_mem stopped
        refine next line rest whole (ih rest.length ?_ rest rfl)
        rw [← length]
        simp
        omega
      · exact last text stopped

variable {stop} {line rest text : List Letter}

@[simp]
theorem ended_of_notMem (open_ : stop ∉ text) : ended stop text = [] := by
  simp [ended, List.splitOn_eq_singleton open_]

@[simp]
theorem unended_of_notMem (open_ : stop ∉ text) : unended stop text = text := by
  simp [unended, List.splitOn_eq_singleton open_]

theorem ended_append_cons (whole : stop ∉ line) :
    ended stop (line ++ stop :: rest) = line :: ended stop rest := by
  rw [ended, List.splitOn_append_cons_self, List.splitOn_eq_singleton whole, List.singleton_append,
    List.dropLast_cons_of_ne_nil (List.splitOn_ne_nil stop rest), ended]

theorem unended_append_cons : unended stop (line ++ stop :: rest) = unended stop rest := by
  simp only [unended, List.splitOn_append_cons_self]
  exact List.getLast_append_of_ne_nil _ (List.splitOn_ne_nil stop rest)

theorem notMem_unended (text : List Letter) : stop ∉ unended stop text := by
  induction text using lines_induction stop with
  | last text open_ => rwa [unended_of_notMem open_]
  | next line rest whole ih => rwa [unended_append_cons]

theorem length_unended_lt (stopped : stop ∈ text) : (unended stop text).length < text.length := by
  induction text using lines_induction stop with
  | last text open_ => exact absurd stopped open_
  | next line rest whole ih =>
      rw [unended_append_cons, List.length_append, List.length_cons]
      by_cases again : stop ∈ rest
      · have := ih again
        omega
      · rw [unended_of_notMem again]
        omega

/-- What is behind the last stop of a first part goes into the lines of the second. -/
theorem ended_append (first second : List Letter) :
    ended stop (first ++ second) =
      ended stop first ++ ended stop (unended stop first ++ second) := by
  induction first using lines_induction stop with
  | last first open_ => rw [ended_of_notMem open_, unended_of_notMem open_, List.nil_append]
  | next line rest whole ih =>
      rw [List.append_assoc, List.cons_append, ended_append_cons whole, ended_append_cons whole,
        unended_append_cons, ih, List.cons_append]

/-- Letters in front belong to the first line. -/
theorem weight_ended_append (whole : stop ∉ line) (stopped : stop ∈ text) :
    weight (ended stop (line ++ text)) = line.length + weight (ended stop text) := by
  obtain ⟨first, rest, rfl, before⟩ := List.eq_append_cons_of_mem stopped
  have joined : stop ∉ line ++ first := List.not_mem_append whole before
  rw [← List.append_assoc, ended_append_cons joined, ended_append_cons before]
  simp [weight]
  omega

theorem weight_ended_le_append (whole : stop ∉ line) :
    weight (ended stop text) ≤ weight (ended stop (line ++ text)) := by
  by_cases stopped : stop ∈ text
  · rw [weight_ended_append whole stopped]
    exact Nat.le_add_left _ _
  · rw [ended_of_notMem stopped]
    exact Nat.zero_le _

theorem unended_suffix (text : List Letter) : unended stop text <:+ text := by
  induction text using lines_induction stop with
  | last text open_ => rw [unended_of_notMem open_]
  | next line rest whole ih =>
      rw [unended_append_cons]
      exact ih.trans ⟨line ++ [stop], List.append_cons line stop rest ▸ rfl⟩

end Lines
