import Mathlib

/-!
# Ownership

A pool of resources each of which is free or has exactly one owner. An owner is a place that holds
at most one resource, so `own` says what is in each place. Operations on some of the places
(`focus`) do not affect the others.
-/

namespace Ownership

variable {ω ι α : Type*}

/-- Every resource of the pool is free or has exactly one owner. -/
structure Owned (free : Set α) (own : ω → Option α) (pool : Set α) : Prop where
  free_mem : ∀ x ∈ free, x ∈ pool
  own_mem : ∀ o x, own o = some x → x ∈ pool
  apart : ∀ o x, own o = some x → x ∉ free
  single : ∀ o o' x, own o = some x → own o' = some x → o = o'
  covered : ∀ x ∈ pool, x ∈ free ∨ ∃ o, own o = some x

variable {free free' pool : Set α} {own own' : ω → Option α} {x : α} {o : ω}

theorem Owned.congr (owned : Owned free own pool) (same : ∀ o, own' o = own o) :
    Owned free own' pool := by
  have eq : own' = own := funext same
  exact eq ▸ owned

/-- A free resource leaves the pool. -/
theorem Owned.take (owned : Owned free own pool) (isFree : x ∈ free) :
    Owned (free \ {x}) own (pool \ {x}) where
  free_mem := fun y member => ⟨owned.free_mem y member.1, member.2⟩
  own_mem := by
    intro o y holds
    refine ⟨owned.own_mem o y holds, ?_⟩
    rintro rfl
    exact owned.apart o y holds isFree
  apart := fun o y holds member => owned.apart o y holds member.1
  single := owned.single
  covered := by
    rintro y ⟨member, different⟩
    rcases owned.covered y member with isFree | held
    · exact .inl ⟨isFree, different⟩
    · exact .inr held

/-- A resource comes back and is free. -/
theorem Owned.give (owned : Owned free own (pool \ {x})) (member : x ∈ pool) :
    Owned (insert x free) own pool where
  free_mem := by
    rintro y (rfl | isFree)
    · exact member
    · exact (owned.free_mem y isFree).1
  own_mem := fun o y holds => (owned.own_mem o y holds).1
  apart := by
    rintro o y holds (rfl | isFree)
    · exact (owned.own_mem o y holds).2 rfl
    · exact owned.apart o y holds isFree
  single := owned.single
  covered := by
    intro y inPool
    by_cases same : y = x
    · exact .inl (.inl same)
    · exact (owned.covered y ⟨inPool, same⟩).imp_left .inr

/-- A resource that comes back gets an owner. -/
theorem Owned.gain (owned : Owned free own (pool \ {x})) (member : x ∈ pool) (empty : own o = none)
    (self : own' o = some x) (others : ∀ o' ≠ o, own' o' = own o') : Owned free own' pool where
  free_mem := fun y isFree => (owned.free_mem y isFree).1
  own_mem := by
    intro o' y holds
    by_cases same : o' = o
    · subst same
      exact Option.some.inj (self.symm.trans holds) ▸ member
    · exact (owned.own_mem o' y ((others o' same).symm.trans holds)).1
  apart := by
    intro o' y holds isFree
    by_cases same : o' = o
    · subst same
      exact (owned.free_mem y isFree).2 (Option.some.inj (holds.symm.trans self))
    · exact owned.apart o' y ((others o' same).symm.trans holds) isFree
  single := by
    intro o₁ o₂ y first second
    have notOld : ∀ o', o' ≠ o → own' o' ≠ some x := by
      intro o' different holds
      exact (owned.own_mem o' x ((others o' different).symm.trans holds)).2 rfl
    by_cases same₁ : o₁ = o
    · subst same₁
      by_contra different
      exact notOld o₂ (Ne.symm different)
        (Option.some.inj (first.symm.trans self) ▸ second)
    · by_cases same₂ : o₂ = o
      · subst same₂
        exact absurd (Option.some.inj (second.symm.trans self) ▸ first) (notOld o₁ same₁)
      · exact owned.single o₁ o₂ y ((others o₁ same₁).symm.trans first)
          ((others o₂ same₂).symm.trans second)
  covered := by
    intro y inPool
    by_cases same : y = x
    · exact .inr ⟨o, same ▸ self⟩
    · rcases owned.covered y ⟨inPool, same⟩ with isFree | ⟨o', holds⟩
      · exact .inl isFree
      · have different : o' ≠ o := by
          rintro rfl
          cases empty.symm.trans holds
        exact .inr ⟨o', (others o' different).trans holds⟩

/-- An owner gives up its resource, which leaves the pool. -/
theorem Owned.lose (owned : Owned free own pool) (holds : own o = some x) (self : own' o = none)
    (others : ∀ o' ≠ o, own' o' = own o') : Owned free own' (pool \ {x}) := by
  have before : ∀ o' y, own' o' = some y → o' ≠ o ∧ own o' = some y := by
    intro o' y holds'
    have different : o' ≠ o := by
      rintro rfl
      cases self.symm.trans holds'
    exact ⟨different, (others o' different).symm.trans holds'⟩
  refine ⟨?_, ?_, ?_, ?_, ?_⟩
  · intro y isFree
    refine ⟨owned.free_mem y isFree, ?_⟩
    rintro rfl
    exact owned.apart o y holds isFree
  · intro o' y holds'
    rcases before o' y holds' with ⟨different, held⟩
    refine ⟨owned.own_mem o' y held, ?_⟩
    rintro rfl
    exact different (owned.single o' o y held holds)
  · exact fun o' y holds' => owned.apart o' y (before o' y holds').2
  · exact fun o₁ o₂ y first second =>
      owned.single o₁ o₂ y (before o₁ y first).2 (before o₂ y second).2
  · rintro y ⟨inPool, notX⟩
    rcases owned.covered y inPool with isFree | ⟨o', held⟩
    · exact .inl isFree
    · have different : o' ≠ o := by
        rintro rfl
        exact notX (Option.some.inj (held.symm.trans holds))
      exact .inr ⟨o', (others o' different).trans held⟩

/-- What the owners hold determines what is free. -/
theorem Owned.free_eq (owned : Owned free own pool) (owned' : Owned free' own pool) :
    free = free' := by
  ext x
  constructor
  · intro isFree
    rcases owned'.covered x (owned.free_mem x isFree) with isFree' | ⟨o, holds⟩
    · exact isFree'
    · exact absurd isFree (owned.apart o x holds)
  · intro isFree'
    rcases owned.covered x (owned'.free_mem x isFree') with isFree | ⟨o, holds⟩
    · exact isFree
    · exact absurd isFree' (owned'.apart o x holds)

/-! ## Some of the owners -/

section Focus

variable {place : ι → ω} {part part' : ι → Option α}

/-- What the owners outside some places hold. -/
def rest (own : ω → Option α) (place : ι → ω) : Set α :=
  {x | ∃ o, o ∉ Set.range place ∧ own o = some x}

/-- Some places and what is free, without the resources of the others. -/
theorem Owned.focus (owned : Owned free own pool) (injective : Function.Injective place)
    (same : ∀ i, part i = own (place i)) : Owned free part (pool \ rest own place) where
  free_mem := by
    intro x isFree
    refine ⟨owned.free_mem x isFree, ?_⟩
    rintro ⟨o, -, holds⟩
    exact owned.apart o x holds isFree
  own_mem := by
    intro i x holds
    rw [same] at holds
    refine ⟨owned.own_mem _ x holds, ?_⟩
    rintro ⟨o, outside, holds'⟩
    exact outside ⟨i, owned.single _ _ x holds holds'⟩
  apart := fun i x holds => owned.apart _ x ((same i).symm.trans holds)
  single := fun i j x first second =>
    injective (owned.single _ _ x ((same i).symm.trans first) ((same j).symm.trans second))
  covered := by
    rintro x ⟨inPool, notRest⟩
    rcases owned.covered x inPool with isFree | ⟨o, holds⟩
    · exact .inl isFree
    · by_cases inside : o ∈ Set.range place
      · rcases inside with ⟨i, rfl⟩
        exact .inr ⟨i, (same i).trans holds⟩
      · exact absurd ⟨o, inside, holds⟩ notRest

/-- The other owners have kept what they held. -/
theorem Owned.unfocus (place : ι → ω) (owned : Owned free own pool)
    (local' : Owned free' part' (pool \ rest own place)) (inside : ∀ i, own' (place i) = part' i)
    (outside : ∀ o ∉ Set.range place, own' o = own o) : Owned free' own' pool := by
  have held : ∀ o x, own' o = some x → (∃ i, place i = o ∧ part' i = some x) ∨
      o ∉ Set.range place ∧ own o = some x := by
    intro o x holds
    by_cases member : o ∈ Set.range place
    · rcases member with ⟨i, rfl⟩
      exact .inl ⟨i, rfl, (inside i).symm.trans holds⟩
    · exact .inr ⟨member, (outside o member).symm.trans holds⟩
  refine ⟨fun x isFree => (local'.free_mem x isFree).1, ?_, ?_, ?_, ?_⟩
  · intro o x holds
    rcases held o x holds with ⟨i, -, holds⟩ | ⟨-, holds⟩
    · exact (local'.own_mem i x holds).1
    · exact owned.own_mem o x holds
  · intro o x holds isFree
    rcases held o x holds with ⟨i, -, holds⟩ | ⟨notIn, holds⟩
    · exact local'.apart i x holds isFree
    · exact (local'.free_mem x isFree).2 ⟨o, notIn, holds⟩
  · intro o₁ o₂ x first second
    rcases held o₁ x first with ⟨i, rfl, held₁⟩ | ⟨notIn₁, held₁⟩
    · rcases held o₂ x second with ⟨j, rfl, held₂⟩ | ⟨notIn₂, held₂⟩
      · rw [local'.single i j x held₁ held₂]
      · exact absurd ⟨o₂, notIn₂, held₂⟩ (local'.own_mem i x held₁).2
    · rcases held o₂ x second with ⟨j, rfl, held₂⟩ | ⟨notIn₂, held₂⟩
      · exact absurd ⟨o₁, notIn₁, held₁⟩ (local'.own_mem j x held₂).2
      · exact owned.single o₁ o₂ x held₁ held₂
  · intro x inPool
    by_cases others : x ∈ rest own place
    · rcases others with ⟨o, notIn, holds⟩
      exact .inr ⟨o, (outside o notIn).trans holds⟩
    · rcases local'.covered x ⟨inPool, others⟩ with isFree | ⟨i, holds⟩
      · exact .inl isFree
      · exact .inr ⟨place i, (inside i).trans holds⟩

/-- Empty places take free resources. -/
theorem Owned.extend (place : ι → ω) (owned : Owned free own pool) (taken : Owned free' part' free)
    (empty : ∀ i, own (place i) = none) (inside : ∀ i, own' (place i) = part' i)
    (outside : ∀ o ∉ Set.range place, own' o = own o) : Owned free' own' pool := by
  have noRest : pool \ rest own place = free := by
    ext x
    constructor
    · rintro ⟨inPool, notRest⟩
      rcases owned.covered x inPool with isFree | ⟨o, holds⟩
      · exact isFree
      · refine absurd ⟨o, ?_, holds⟩ notRest
        rintro ⟨i, rfl⟩
        cases (empty i).symm.trans holds
    · refine fun isFree => ⟨owned.free_mem x isFree, ?_⟩
      rintro ⟨o, -, holds⟩
      exact owned.apart o x holds isFree
  exact owned.unfocus place (noRest.symm ▸ taken) inside outside

/-- Places that are empty can be left out. -/
theorem Owned.drop (owned : Owned free own pool) (injective : Function.Injective place)
    (same : ∀ i, part i = own (place i)) (empty : ∀ o ∉ Set.range place, own o = none) :
    Owned free part pool := by
  have noRest : pool \ rest own place = pool := by
    refine sdiff_eq_left.2 (Set.disjoint_left.2 ?_)
    rintro x - ⟨o, outside, holds⟩
    cases (empty o outside).symm.trans holds
  exact noRest ▸ owned.focus injective same

end Focus

end Ownership
