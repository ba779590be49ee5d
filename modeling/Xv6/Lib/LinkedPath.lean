import Mathlib

/-!
# Linked paths

A list that is threaded through a memory: each cell holds the address of the next. A path from a cell
to a terminator is a singly linked list; a path from a cell back to itself is a circular one.
-/

namespace LinkedPath

variable {α : Type*} {next next' : α → α} {a b c x y : α} {cells front back : List α}

/-- Following `next` from `a` passes the cells and arrives at `b`. -/
def Leads (next : α → α) : α → List α → α → Prop
  | a, [], b => a = b
  | a, x :: cells, b => a = x ∧ Leads next (next x) cells b

@[simp]
theorem leads_nil : Leads next a [] b ↔ a = b := Iff.rfl

@[simp]
theorem leads_cons : Leads next a (x :: cells) b ↔ a = x ∧ Leads next (next x) cells b := Iff.rfl

theorem leads_append :
    Leads next a (front ++ back) b ↔ ∃ c, Leads next a front c ∧ Leads next c back b := by
  induction front generalizing a with
  | nil => simp
  | cons x front ih => simp [ih, and_assoc]

/-- Writes to other cells do not matter. -/
theorem Leads.congr (leads : Leads next a cells b) (same : ∀ x ∈ cells, next' x = next x) :
    Leads next' a cells b := by
  induction cells generalizing a with
  | nil => exact leads
  | cons x cells ih =>
      refine ⟨leads.1, ?_⟩
      rw [same x List.mem_cons_self]
      exact ih leads.2 fun y member => same y (List.mem_cons_of_mem x member)

/-- A new cell in front. -/
theorem Leads.cons (leads : Leads next a cells b) (link : next' x = a)
    (same : ∀ y ∈ cells, next' y = next y) : Leads next' x (x :: cells) b :=
  ⟨rfl, link ▸ leads.congr same⟩

/-! ## Circles -/

/-- A circle can be entered at any of its cells. -/
theorem Leads.rotate (circle : Leads next a (front ++ x :: back) a) :
    Leads next x (x :: back ++ front) x := by
  rcases leads_append.mp circle with ⟨c, first, second⟩
  have same : c = x := second.1
  subst same
  exact leads_append.mpr ⟨a, second, first⟩

/-- The last cell of a path is linked to its end. -/
theorem Leads.last (leads : Leads next a (front ++ [x]) b) : next x = b := by
  rcases leads_append.mp leads with ⟨c, -, second⟩
  exact second.2

/-- The path with its last link changed. -/
theorem Leads.relink (leads : Leads next a (front ++ [x]) b) (link : next' x = c)
    (same : ∀ y ∈ front, next' y = next y) : Leads next' a (front ++ [x]) c := by
  rcases leads_append.mp leads with ⟨d, first, second⟩
  exact leads_append.mpr ⟨d, first.congr same, second.1, link⟩

/-- The cell after a cell on a path without repetitions. -/
theorem Leads.split_link (leads : Leads next a (front ++ x :: back) b) :
    Leads next a (front ++ [x]) (next x) ∧ Leads next (next x) back b := by
  rcases leads_append.mp leads with ⟨c, first, second⟩
  exact ⟨leads_append.mpr ⟨c, first, second.1, rfl⟩, second.2⟩

end LinkedPath
