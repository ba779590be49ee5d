import Mathlib

/-!
# Doubly linked cycles

A cycle of nodes with a head, which is written `none`. Each node refers to the next node and to the
previous one.
-/

namespace LinkedCycle

variable {α : Type*} [DecidableEq α]

structure Links (α : Type*) where
  next : Option α → Option α
  prev : Option α → Option α

namespace Links

/-- The cycle of the head alone. -/
def empty : Links α := { next := fun _ => none, prev := fun _ => none }

/-- The nodes next to `a` refer to each other. -/
def unlink (links : Links α) (a : α) : Links α :=
  let links := { links with prev := Function.update links.prev (links.next (some a)) (links.prev (some a)) }
  { links with next := Function.update links.next (links.prev (some a)) (links.next (some a)) }

/-- `a` becomes the first node after the head. -/
def insertFront (links : Links α) (a : α) : Links α :=
  let links := { links with next := Function.update links.next (some a) (links.next none) }
  let links := { links with prev := Function.update links.prev (some a) none }
  let links := { links with prev := Function.update links.prev (links.next none) (some a) }
  { links with next := Function.update links.next none (some a) }

/-- The first node from `node` on that passes a test, in the direction of `follow`. -/
def search (follow : Option α → Option α) (test : α → Bool) : ℕ → Option α → Option α
  | 0, _ => none
  | _ + 1, none => none
  | fuel + 1, some a => if test a then some a else search follow test fuel (follow (some a))

/-- From `x` the nodes of a list lead to `z`. -/
def Chain (links : Links α) : Option α → List α → Option α → Prop
  | x, [], z => links.next x = z ∧ links.prev z = x
  | x, a :: list, z => links.next x = some a ∧ links.prev (some a) = x ∧ Chain links (some a) list z

/-- The cycle has these nodes after the head. -/
def Cycle (links : Links α) (list : List α) : Prop := links.Chain none list none ∧ list.Nodup

variable {links links' : Links α} {list front rest : List α} {x z : Option α} {a b : α}

omit [DecidableEq α] in
/-- A chain depends on the nodes that it leads through. -/
theorem Chain.congr (chain : links.Chain x list z) (next : ∀ y, y = x ∨ (∃ a ∈ list, y = some a) →
    links'.next y = links.next y) (prev : ∀ y, y = z ∨ (∃ a ∈ list, y = some a) →
    links'.prev y = links.prev y) : links'.Chain x list z := by
  induction list generalizing x with
  | nil => exact ⟨(next x (.inl rfl)).trans chain.1, (prev z (.inl rfl)).trans chain.2⟩
  | cons a list ih =>
      rcases chain with ⟨isNext, isPrev, chain⟩
      refine ⟨(next x (.inl rfl)).trans isNext, ?_, ih chain (fun y place => ?_) fun y place => ?_⟩
      · exact (prev (some a) (.inr ⟨a, List.mem_cons_self .., rfl⟩)).trans isPrev
      · rcases place with rfl | ⟨b, member, rfl⟩
        · exact next _ (.inr ⟨a, List.mem_cons_self .., rfl⟩)
        · exact next _ (.inr ⟨b, List.mem_cons_of_mem _ member, rfl⟩)
      · rcases place with rfl | ⟨b, member, rfl⟩
        · exact prev _ (.inl rfl)
        · exact prev _ (.inr ⟨b, List.mem_cons_of_mem _ member, rfl⟩)

omit [DecidableEq α] in
/-- The neighbours of a node of a chain. -/
theorem Chain.neighbours (chain : links.Chain x (front ++ a :: rest) z) :
    (links.prev (some a) = x ∨ ∃ b ∈ front, links.prev (some a) = some b) ∧
    (links.next (some a) = z ∨ ∃ b ∈ rest, links.next (some a) = some b) := by
  induction front generalizing x with
  | nil =>
      rcases chain with ⟨_, isPrev, chain⟩
      refine ⟨.inl isPrev, ?_⟩
      cases rest with
      | nil => exact .inl chain.1
      | cons b rest => exact .inr ⟨b, List.mem_cons_self .., chain.1⟩
  | cons c front ih =>
      rcases ih chain.2.2 with ⟨isPrev, isNext⟩
      refine ⟨.inr ?_, isNext⟩
      rcases isPrev with isC | ⟨b, member, isB⟩
      · exact ⟨c, List.mem_cons_self .., isC⟩
      · exact ⟨b, List.mem_cons_of_mem _ member, isB⟩

theorem unlink_next (links : Links α) (a : α) (y : Option α) (apart : links.next (some a) ≠ some a) :
    (links.unlink a).next y = if y = links.prev (some a) then links.next (some a) else links.next y := by
  unfold unlink
  dsimp only
  rw [Function.update_of_ne (Ne.symm apart), Function.update_apply]

theorem unlink_prev (links : Links α) (a : α) (y : Option α) :
    (links.unlink a).prev y = if y = links.next (some a) then links.prev (some a) else links.prev y := by
  unfold unlink
  dsimp only
  rw [Function.update_apply]

/-- A node is taken out of a chain. -/
theorem Chain.unlink (chain : links.Chain x (front ++ a :: rest) z) (nodup : (front ++ a :: rest).Nodup)
    (start : ∀ b ∈ front ++ a :: rest, x ≠ some b) (stop : ∀ b ∈ front ++ a :: rest, z ≠ some b) :
    (links.unlink a).Chain x (front ++ rest) z := by
  rcases chain.neighbours with ⟨isPrev, isNext⟩
  have memA : a ∈ front ++ a :: rest := List.mem_append_right _ (List.mem_cons_self ..)
  have notRest : a ∉ rest := (List.nodup_cons.1 (List.nodup_append.1 nodup).2.1).1
  have apart : links.next (some a) ≠ some a := by
    rcases isNext with isZ | ⟨b, member, isB⟩
    · rw [isZ]
      exact stop a memA
    · rw [isB]
      rintro same
      exact notRest (Option.some.inj same ▸ member)
  have next := fun y => unlink_next links a y apart
  have prev := unlink_prev links a
  induction front generalizing x with
  | nil =>
      rcases chain with ⟨_, isX, chain⟩
      cases rest with
      | nil =>
          refine ⟨?_, ?_⟩
          · rw [next, isX, if_pos rfl]
            exact chain.1
          · rw [prev, chain.1, if_pos rfl]
            exact isX
      | cons b rest =>
          rcases chain with ⟨isB, _, chain⟩
          have notB : b ∉ rest := (List.nodup_cons.1 (List.nodup_cons.1 nodup).2).1
          refine ⟨?_, ?_, chain.congr (fun y place => ?_) fun y place => ?_⟩
          · rw [next, isX, if_pos rfl]
            exact isB
          · rw [prev, isB, if_pos rfl]
            exact isX
          · rw [next, if_neg]
            rw [isX]
            rintro rfl
            rcases place with isB' | ⟨c, member, isC⟩
            · exact start b (by simp) isB'
            · exact start c (by simp [member]) isC
          · rw [prev, if_neg]
            rw [isB]
            rintro rfl
            rcases place with isZ | ⟨c, member, isC⟩
            · exact stop b (by simp) isZ.symm
            · exact notB (Option.some.inj isC ▸ member)
  | cons c front ih =>
      rcases chain with ⟨isC, isX, chain⟩
      rw [List.cons_append, List.nodup_cons] at nodup
      rcases chain.neighbours with ⟨isPrev', isNext'⟩
      refine ⟨?_, ?_, ih chain nodup.2 (fun b member same => ?_) (fun b member => stop b
        (List.mem_cons_of_mem _ member)) isPrev' (List.mem_append_right _ (List.mem_cons_self ..))⟩
      · rw [next, if_neg]
        · exact isC
        · intro same
          rcases isPrev' with isC' | ⟨b, member, isB⟩
          · exact start c (List.mem_cons_self ..) (same.trans isC')
          · exact start b (List.mem_cons_of_mem _ (List.mem_append_left _ member)) (same.trans isB)
      · rw [prev, if_neg]
        · exact isX
        · intro same
          rcases isNext' with isZ | ⟨b, member, isB⟩
          · exact stop c (List.mem_cons_self ..) (same.trans isZ).symm
          · have isSame := Option.some.inj (same.trans isB)
            exact nodup.1 (isSame ▸ List.mem_append_right _ (List.mem_cons_of_mem _ member))
      · exact nodup.1 (Option.some.inj same ▸ member)

/-- A node is taken out of a cycle. -/
theorem Cycle.unlink (cycle : links.Cycle (front ++ a :: rest)) : (links.unlink a).Cycle (front ++ rest) := by
  refine ⟨cycle.1.unlink cycle.2 (fun b _ => (Option.some_ne_none b).symm) fun b _ => (Option.some_ne_none b).symm, ?_⟩
  exact cycle.2.sublist (List.Sublist.append_left (List.sublist_cons_self a rest) front)

/-- A node is put in front. -/
theorem Cycle.insertFront (cycle : links.Cycle list) (new : a ∉ list) : (links.insertFront a).Cycle (a :: list) := by
  have apart : (none : Option α) ≠ some a := (Option.some_ne_none a).symm
  have next : ∀ y, (links.insertFront a).next y =
      if y = none then some a else if y = some a then links.next none else links.next y := by
    intro y
    unfold Links.insertFront
    dsimp only
    rw [Function.update_apply, Function.update_apply]
  have prev : ∀ y, (links.insertFront a).prev y =
      if y = links.next none then some a else if y = some a then none else links.prev y := by
    intro y
    unfold Links.insertFront
    dsimp only
    rw [Function.update_of_ne apart, Function.update_apply, Function.update_apply]
  refine ⟨⟨?_, ?_, ?_⟩, List.nodup_cons.2 ⟨new, cycle.2⟩⟩
  · rw [next, if_pos rfl]
  · rw [prev, if_neg, if_pos rfl]
    intro isFirst
    cases list with
    | nil => exact apart (isFirst.trans cycle.1.1).symm
    | cons b list =>
        have same := Option.some.inj (isFirst.trans cycle.1.1)
        exact new (same ▸ List.mem_cons_self ..)
  · cases list with
    | nil =>
        refine ⟨?_, ?_⟩
        · rw [next, if_neg apart.symm, if_pos rfl]
          exact cycle.1.1
        · rw [prev, cycle.1.1, if_pos rfl]
    | cons b list =>
        rcases cycle with ⟨⟨isB, isHead, chain⟩, nodup⟩
        refine ⟨?_, ?_, chain.congr (fun y place => ?_) fun y place => ?_⟩
        · rw [next, if_neg apart.symm, if_pos rfl]
          exact isB
        · rw [prev, isB, if_pos rfl]
        · have member : ∃ c ∈ b :: list, y = some c := by
            rcases place with rfl | ⟨c, member, rfl⟩
            · exact ⟨b, List.mem_cons_self .., rfl⟩
            · exact ⟨c, List.mem_cons_of_mem _ member, rfl⟩
          rcases member with ⟨c, member, rfl⟩
          rw [next, if_neg (Option.some_ne_none c), if_neg]
          rintro same
          exact new (Option.some.inj same ▸ member)
        · rw [prev, isB]
          rcases place with rfl | ⟨c, member, rfl⟩
          · rw [if_neg (Option.some_ne_none b).symm, if_neg apart]
          · rw [if_neg, if_neg]
            · rintro same
              exact new (Option.some.inj same ▸ List.mem_cons_of_mem _ member)
            · rintro same
              exact (List.nodup_cons.1 nodup).1 (Option.some.inj same ▸ member)

/-- Nodes are put in front, one after the other. -/
theorem Cycle.insertAll (nodes : List α) (cycle : links.Cycle list) (nodup : (nodes.reverse ++ list).Nodup) :
    (nodes.foldl Links.insertFront links).Cycle (nodes.reverse ++ list) := by
  induction nodes generalizing links list with
  | nil => exact cycle
  | cons a nodes ih =>
      rw [List.reverse_cons, List.append_assoc] at nodup ⊢
      have tail := (List.nodup_append.1 nodup).2.1
      exact ih (cycle.insertFront (List.nodup_cons.1 tail).1) nodup

omit [DecidableEq α] in
theorem cycle_empty : (Links.empty : Links α).Cycle [] := ⟨⟨rfl, rfl⟩, List.nodup_nil⟩

omit [DecidableEq α] in
/-- The search visits the nodes in order. -/
theorem Chain.search (chain : links.Chain x list none) (test : α → Bool) (fuel : ℕ) (enough : list.length < fuel) :
    Links.search links.next test fuel (links.next x) = list.find? test := by
  induction list generalizing x fuel with
  | nil =>
      rw [chain.1]
      cases fuel with
      | zero => rfl
      | succ fuel => rfl
  | cons a list ih =>
      rcases chain with ⟨isNext, _, chain⟩
      cases fuel with
      | zero => exact absurd enough (Nat.not_lt_zero _)
      | succ fuel =>
          rw [isNext, Links.search, List.find?_cons]
          cases isTest : test a with
          | true => rfl
          | false => exact ih chain fuel (Nat.lt_of_succ_lt_succ enough)

def reverse (links : Links α) : Links α := { next := links.prev, prev := links.next }

omit [DecidableEq α] in
theorem Chain.append (first : links.Chain x front (some a)) (second : links.Chain (some a) rest z) :
    links.Chain x (front ++ a :: rest) z := by
  induction front generalizing x with
  | nil => exact ⟨first.1, first.2, second⟩
  | cons c front ih => exact ⟨first.1, first.2.1, ih first.2.2⟩

omit [DecidableEq α] in
theorem Chain.reverse (chain : links.Chain x list z) : links.reverse.Chain z list.reverse x := by
  induction list generalizing x with
  | nil => exact ⟨chain.2, chain.1⟩
  | cons a list ih =>
      rw [List.reverse_cons]
      exact (ih chain.2.2).append ⟨chain.2.1, chain.1⟩

omit [DecidableEq α] in
/-- The search from the last node on. -/
theorem Cycle.search_prev (cycle : links.Cycle list) (test : α → Bool) (fuel : ℕ) (enough : list.length < fuel) :
    Links.search links.prev test fuel (links.prev none) = list.reverse.find? test :=
  cycle.1.reverse.search test fuel (by rwa [List.length_reverse])

end Links

end LinkedCycle
