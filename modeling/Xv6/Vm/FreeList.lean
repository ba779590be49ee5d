import Xv6.Lib.LinkedPath
import Xv6.Lib.Transition
import Xv6.Vm.Basic

/-!
# The free list in memory

`kalloc.c` threads the list of free pages through the pages themselves: the first word of a free page
is the address of the next. Here memory is the words at all addresses, and pages are addresses, not
page numbers. Everything else may write to memory too, but not to free pages.
-/

namespace Xv6.Kalloc

open Vm LinkedPath

/-- The first physical address after the last, `PHYSTOP`. -/
abbrev phystop : ℕ := Vm.phystop * pgsize

/-- `V2P` -/
def v2p (a : ℕ) : ℕ := (a + 2 ^ 32 - kernbase) % 2 ^ 32

/-- `kmem`, with the memory that it is linked through. -/
structure Kmem where
  /-- the word at an address -/
  word : ℕ → ℕ
  useLock : Bool := false
  freelist : ℕ := 0
  /-- `end` -/
  kernelEnd : ℕ

inductive Fault where
  /-- kfree -/
  | panic
  /-- a loop with more passes than there are pages of addresses -/
  | endless
  deriving DecidableEq, Repr

def kfree (v : ℕ) (k : Kmem) : Except Fault Kmem :=
  if v % pgsize ≠ 0 ∨ v < k.kernelEnd ∨ v2p v ≥ phystop then .error .panic
  else
    -- `memset(v, 1, PGSIZE)`
    let word := fun a => if v ≤ a ∧ a < v + pgsize then 0x01010101 else k.word a
    .ok { k with word := Function.update word v k.freelist, freelist := v }

/-- The loop of `freerange` at `p`. -/
def freerangeLoop (vend : ℕ) : ℕ → ℕ → Kmem → Except Fault Kmem
  | 0, _, _ => .error .endless
  | passes + 1, p, k =>
      if (p + pgsize) % 2 ^ 32 ≤ vend then do
        let k ← kfree p k
        freerangeLoop vend passes ((p + pgsize) % 2 ^ 32) k
      else .ok k

def freerange (vstart vend : ℕ) (k : Kmem) : Except Fault Kmem :=
  freerangeLoop vend (2 ^ 20 + 1) (pgroundup vstart) k

def kinit1 (vstart vend : ℕ) (k : Kmem) : Except Fault Kmem :=
  freerange vstart vend { k with useLock := false }

def kinit2 (vstart vend : ℕ) (k : Kmem) : Except Fault Kmem := do
  let k ← freerange vstart vend k
  return { k with useLock := true }

/-- The result is 0 if there is no page. -/
def kalloc (k : Kmem) : ℕ × Kmem :=
  let r := k.freelist
  if r ≠ 0 then (r, { k with freelist := k.word r }) else (r, k)

/-- The loop of `kmemtop` at `r`. -/
def kmemtopLoop (k : Kmem) : ℕ → ℕ → ℤ → Except Fault ℤ
  | 0, _, _ => .error .endless
  | passes + 1, r, count =>
      if r ≠ 0 then kmemtopLoop k passes (k.word r) (wrapInt (count + 1)) else .ok count

def kmemtop (k : Kmem) : Except Fault ℤ := do
  let count ← kmemtopLoop k (2 ^ 20 + 1) k.freelist 0
  return wrapInt (count * pgsize)

/-! ## The free pages -/

/-- `kfree` accepts the page. -/
structure Usable (k : Kmem) (v : ℕ) : Prop where
  aligned : v % pgsize = 0
  afterKernel : k.kernelEnd ≤ v
  physical : v2p v < phystop
  address : v < 2 ^ 32

/-- The free list passes the pages. -/
structure Free (k : Kmem) (pages : List ℕ) : Prop where
  leads : Leads k.word k.freelist pages 0
  nodup : pages.Nodup
  usable : ∀ v ∈ pages, Usable k v

variable {k k' : Kmem} {pages : List ℕ} {v w vstart vend p passes : ℕ}

theorem Usable.bounds (usable : Usable k v) : kernbase ≤ v ∧ v < kernbase + phystop := by
  have physical := usable.physical
  have address := usable.address
  unfold v2p kernbase phystop Vm.phystop pgsize at *
  omega

theorem Usable.ne_zero (usable : Usable k v) : v ≠ 0 := by
  have bounds := usable.bounds
  unfold kernbase at bounds
  omega

/-- Different pages have no address in common. -/
theorem apart (aligned : v % pgsize = 0) (aligned' : w % pgsize = 0) (different : w ≠ v) :
    ¬(v ≤ w ∧ w < v + pgsize) := by
  unfold pgsize at *
  omega

theorem kfree_ok (run : kfree v k = .ok k') (address : v < 2 ^ 32) : Usable k v ∧ k' = { k with
    word := Function.update (fun a => if v ≤ a ∧ a < v + pgsize then 0x01010101 else k.word a) v
      k.freelist
    freelist := v } := by
  unfold kfree at run
  split at run
  · cases run
  · rename_i accepted
    push Not at accepted
    exact ⟨⟨accepted.1, accepted.2.1, accepted.2.2, address⟩, (Except.ok.inj run).symm⟩

theorem Usable.kfree (usable : Usable k v) : ∃ k', kfree v k = .ok k' := by
  unfold Kalloc.kfree
  rw [if_neg]
  · exact ⟨_, rfl⟩
  · rintro (unaligned | before | beyond)
    · exact unaligned usable.aligned
    · exact absurd usable.afterKernel (by omega)
    · exact absurd usable.physical (by omega)

/-- A page that is freed comes first. -/
theorem Free.kfree (free : Free k pages) (run : kfree v k = .ok k') (address : v < 2 ^ 32)
    (notFree : v ∉ pages) : Free k' (v :: pages) := by
  rcases kfree_ok run address with ⟨usable, rfl⟩
  refine ⟨free.leads.cons (by simp) fun w member => ?_, ?_, ?_⟩
  · have different : w ≠ v := fun same => notFree (same ▸ member)
    dsimp only
    rw [Function.update_of_ne different, if_neg]
    exact apart usable.aligned (free.usable w member).aligned different
  · exact List.nodup_cons.mpr ⟨notFree, free.nodup⟩
  · intro w member
    rcases List.mem_cons.mp member with rfl | member
    · exact ⟨usable.aligned, usable.afterKernel, usable.physical, usable.address⟩
    · have usable := free.usable w member
      exact ⟨usable.aligned, usable.afterKernel, usable.physical, usable.address⟩

/-- `kalloc` takes the first page. -/
theorem Free.kalloc (free : Free k pages) :
    pages = [] ∧ kalloc k = (0, k) ∨ ∃ v rest, pages = v :: rest ∧
      kalloc k = (v, { k with freelist := k.word v }) ∧
      Free { k with freelist := k.word v } rest := by
  have leads := free.leads
  cases pages with
  | nil =>
      rw [leads_nil] at leads
      refine .inl ⟨rfl, ?_⟩
      simp [Kalloc.kalloc, leads]
  | cons v rest =>
      rcases leads with ⟨first, leads⟩
      have usable := free.usable v List.mem_cons_self
      refine .inr ⟨v, rest, rfl, ?_, leads, (List.nodup_cons.mp free.nodup).2, ?_⟩
      · simp [Kalloc.kalloc, first, usable.ne_zero]
      · intro w member
        have usable := free.usable w (List.mem_cons_of_mem v member)
        exact ⟨usable.aligned, usable.afterKernel, usable.physical, usable.address⟩

/-- There are fewer pages than fit below `PHYSTOP`. -/
theorem Free.length_le (free : Free k pages) : pages.length ≤ Vm.phystop := by
  have inside : pages.toFinset ⊆
      (Finset.range Vm.phystop).image fun i => kernbase + i * pgsize := by
    intro v member
    have usable := free.usable v (List.mem_toFinset.mp member)
    have bounds := usable.bounds
    have aligned := usable.aligned
    rw [Finset.mem_image]
    refine ⟨(v - kernbase) / pgsize, ?_, ?_⟩
    · rw [Finset.mem_range]
      unfold phystop Vm.phystop kernbase pgsize at *
      omega
    · unfold phystop Vm.phystop kernbase pgsize at *
      omega
  have few := Finset.card_le_card inside
  rw [List.toFinset_card_of_nodup free.nodup] at few
  refine few.trans (Finset.card_image_le.trans ?_)
  rw [Finset.card_range]

theorem kmemtopLoop_leads {r : ℕ} {rest : List ℕ} (leads : Leads k.word r rest 0)
    (nonzero : ∀ v ∈ rest, v ≠ 0) (enough : rest.length < passes) {count : ℕ}
    (small : count + rest.length < 2 ^ 31) :
    kmemtopLoop k passes r count = .ok ((count + rest.length : ℕ) : ℤ) := by
  induction rest generalizing r passes count with
  | nil =>
      rcases Nat.exists_eq_succ_of_ne_zero (by omega : passes ≠ 0) with ⟨passes, rfl⟩
      rw [leads_nil] at leads
      simp [kmemtopLoop, leads]
  | cons v rest ih =>
      rcases Nat.exists_eq_succ_of_ne_zero (by omega : passes ≠ 0) with ⟨passes, rfl⟩
      rcases leads with ⟨rfl, leads⟩
      rw [List.length_cons] at enough small
      have next : wrapInt ((count : ℤ) + 1) = ((count + 1 : ℕ) : ℤ) := by
        unfold wrapInt
        push_cast
        apply Int.bmod_eq_of_le <;> omega
      rw [kmemtopLoop, if_pos (nonzero r List.mem_cons_self), next,
        ih leads (fun w member => nonzero w (List.mem_cons_of_mem r member)) (by omega) (by omega),
        List.length_cons, Nat.add_assoc, Nat.add_comm 1]

/-- `kmemtop` counts the free pages. -/
theorem Free.kmemtop (free : Free k pages) :
    kmemtop k = .ok ((pages.length * pgsize : ℕ) : ℤ) ∧ pages.length * pgsize < 2 ^ 31 := by
  have few := free.length_le
  unfold Vm.phystop at few
  have count : kmemtopLoop k (2 ^ 20 + 1) k.freelist (0 : ℕ) = .ok ((0 + pages.length : ℕ) : ℤ) :=
    kmemtopLoop_leads free.leads (fun v member => (free.usable v member).ne_zero) (by omega)
      (by omega)
  have small : pages.length * pgsize < 2 ^ 31 := by
    unfold pgsize
    omega
  refine ⟨?_, small⟩
  unfold Kalloc.kmemtop
  have exact : wrapInt (((0 + pages.length : ℕ) : ℤ) * (pgsize : ℕ)) = ((pages.length * pgsize : ℕ) : ℤ) := by
    unfold wrapInt
    rw [zero_add, ← Nat.cast_mul]
    apply Int.bmod_eq_of_le <;> omega
  rw [Nat.cast_zero] at count
  rw [count, Fallible.bind_ok, exact]
  rfl

/-! ## `freerange` -/

/-- The page lies in the range. -/
def InRange (range : ℕ × ℕ) (v : ℕ) : Prop :=
  v % pgsize = 0 ∧ range.1 ≤ v ∧ v + pgsize ≤ range.2

theorem freerangeLoop_ok (run : freerangeLoop vend passes p k = .ok k') (free : Free k pages)
    (aligned : p % pgsize = 0) (address : p < 2 ^ 32) (isEnd : vend < 2 ^ 32)
    (outside : ∀ v ∈ pages, ¬InRange (p, vend) v) :
    ∃ new, Free k' (new ++ pages) ∧ (∀ v, v ∈ new ↔ InRange (p, vend) v) ∧
      k'.kernelEnd = k.kernelEnd := by
  induction passes generalizing p k pages with
  | zero => cases run
  | succ passes ih =>
      unfold freerangeLoop at run
      split at run
      · rename_i inside
        rcases Fallible.bind_eq_ok.mp run with ⟨k₁, freed, run⟩
        rcases kfree_ok freed address with ⟨usable, eq⟩
        have bounds := usable.bounds
        have noWrap : (p + pgsize) % 2 ^ 32 = p + pgsize := by
          apply Nat.mod_eq_of_lt
          unfold phystop Vm.phystop kernbase pgsize at *
          omega
        rw [noWrap] at run inside
        have notFree : p ∉ pages := fun member => outside p member ⟨aligned, le_rfl, inside⟩
        have free₁ := free.kfree freed address notFree
        have outside₁ : ∀ v ∈ p :: pages, ¬InRange (p + pgsize, vend) v := by
          intro v member inRange
          rcases List.mem_cons.mp member with rfl | member
          · have after := inRange.2.1
            unfold pgsize at after
            omega
          · apply outside v member
            unfold InRange at *
            omega
        rcases ih run free₁ (by unfold pgsize at *; omega) (by omega) outside₁ with
          ⟨new, free', member, same⟩
        refine ⟨new ++ [p], by simpa using free', fun v => ?_, by rw [same, eq]⟩
        rw [List.mem_append, member, List.mem_singleton]
        unfold InRange pgsize at *
        constructor
        · rintro (later | rfl) <;> omega
        · rintro ⟨aligned', after, before⟩
          omega
      · rename_i beyond
        rcases Except.ok.inj run with rfl
        refine ⟨[], free, fun v => ?_, rfl⟩
        unfold InRange pgsize at *
        simp only [List.not_mem_nil, false_iff]
        omega

theorem freerangeLoop_ends (aligned : p % pgsize = 0) (address : p < 2 ^ 32)
    (enough : 2 ^ 20 < passes + p / pgsize) : freerangeLoop vend passes p k ≠ .error .endless := by
  induction passes generalizing p k with
  | zero =>
      unfold pgsize at enough
      omega
  | succ passes ih =>
      unfold freerangeLoop
      split
      · cases freed : kfree p k with
        | error fault =>
            unfold kfree at freed
            split at freed
            · rcases Except.error.inj freed with rfl
              simp
            · cases freed
        | ok k' =>
            rcases kfree_ok freed address with ⟨usable, -⟩
            have bounds := usable.bounds
            have noWrap : (p + pgsize) % 2 ^ 32 = p + pgsize := by
              apply Nat.mod_eq_of_lt
              unfold phystop Vm.phystop kernbase pgsize at *
              omega
            rw [Fallible.bind_ok, noWrap]
            apply ih
            · unfold pgsize at *
              omega
            · unfold phystop Vm.phystop kernbase pgsize at *
              omega
            · unfold pgsize at *
              omega
      · simp

theorem pgroundup_spec (address : vstart < 2 ^ 32) : pgroundup vstart % pgsize = 0 ∧
    pgroundup vstart < 2 ^ 32 ∧ (vstart ≤ pgroundup vstart ∧ pgroundup vstart < vstart + pgsize ∨
      2 ^ 32 - pgsize < vstart ∧ pgroundup vstart = 0) := by
  unfold pgroundup pgsize
  omega

/-- `freerange` frees the pages of the range. -/
theorem freerange_ok (run : freerange vstart vend k = .ok k') (free : Free k pages)
    (isStart : vstart < 2 ^ 32) (isEnd : vend < 2 ^ 32)
    (outside : ∀ v ∈ pages, ¬InRange (vstart, vend) v) :
    ∃ new, Free k' (new ++ pages) ∧ (∀ v, v ∈ new ↔ InRange (vstart, vend) v) ∧
      k'.kernelEnd = k.kernelEnd := by
  rcases pgroundup_spec isStart with ⟨aligned, address, first⟩
  have same : ∀ v, InRange (vstart, vend) v → InRange (pgroundup vstart, vend) v := by
    intro v inRange
    unfold InRange pgsize at *
    omega
  have noWrap : ∀ v, InRange (pgroundup vstart, vend) v → vstart ≤ pgroundup vstart := by
    intro v inRange
    by_contra wrapped
    have zero : pgroundup vstart = 0 := by omega
    -- page 0 is not physical memory
    have inside : (pgroundup vstart + pgsize) % 2 ^ 32 ≤ vend := by
      rw [zero]
      unfold InRange pgsize at *
      omega
    have refused : ¬∃ k', kfree (pgroundup vstart) k = .ok k' := by
      rintro ⟨k', freed⟩
      exact (kfree_ok freed address).1.ne_zero zero
    unfold freerange freerangeLoop at run
    rw [if_pos inside] at run
    rcases Fallible.bind_eq_ok.mp run with ⟨k₁, freed, -⟩
    exact refused ⟨k₁, freed⟩
  have back : ∀ v, InRange (pgroundup vstart, vend) v → InRange (vstart, vend) v := by
    intro v inRange
    have before := noWrap v inRange
    unfold InRange at *
    omega
  rcases freerangeLoop_ok run free aligned address isEnd
    (fun v member inRange => outside v member (back v inRange)) with ⟨new, free', member, kernelEnd⟩
  exact ⟨new, free', fun v => (member v).trans ⟨back v, same v⟩, kernelEnd⟩

theorem freerange_ends (isStart : vstart < 2 ^ 32) : freerange vstart vend k ≠ .error .endless := by
  rcases pgroundup_spec isStart with ⟨aligned, address, -⟩
  exact freerangeLoop_ends aligned address (by unfold pgsize; omega)

theorem kinit2_ok (run : kinit2 vstart vend k = .ok k') :
    ∃ k₁, freerange vstart vend k = .ok k₁ ∧ k' = { k₁ with useLock := true } := by
  unfold kinit2 at run
  cases freed : freerange vstart vend k with
  | error fault =>
      rw [freed] at run
      cases run
  | ok k₁ =>
      rw [freed] at run
      exact ⟨k₁, rfl, (Except.ok.inj run).symm⟩

/-! ## Runs -/

/-- The allocator, the pages that `kalloc` has returned and that have not been freed, and the ranges
that have been freed at first. -/
structure World where
  kmem : Kmem
  allocated : Finset ℕ := ∅
  ranges : List (ℕ × ℕ) := []

inductive Event where
  | kinit1 (vstart vend : ℕ)
  | kinit2 (vstart vend : ℕ)
  | kalloc
  | kfree (v : ℕ)
  | kmemtop
  /-- a write by someone else -/
  | store (a value : ℕ)

/-- The page has been freed at first. -/
def World.Page (w : World) (v : ℕ) : Prop := ∃ range ∈ w.ranges, InRange range v

/-- The ranges are disjoint, only allocated pages are freed, and nobody writes to a free page. -/
def Admissible (w : World) : Event → Prop
  | .kinit1 vstart vend | .kinit2 vstart vend => vstart < 2 ^ 32 ∧ vend < 2 ^ 32 ∧
      ∀ range ∈ w.ranges, vend ≤ range.1 ∨ range.2 ≤ vstart
  | .kfree v => v ∈ w.allocated
  | .store a _ => ∀ v, w.Page v → v ∉ w.allocated → ¬(v ≤ a ∧ a < v + pgsize)
  | _ => True

def perform (w : World) : Event → Except Fault World
  | .kinit1 vstart vend => do
      let kmem ← kinit1 vstart vend w.kmem
      return { w with kmem, ranges := (vstart, vend) :: w.ranges }
  | .kinit2 vstart vend => do
      let kmem ← kinit2 vstart vend w.kmem
      return { w with kmem, ranges := (vstart, vend) :: w.ranges }
  | .kalloc =>
      let (v, kmem) := kalloc w.kmem
      .ok { w with kmem, allocated := if v = 0 then w.allocated else insert v w.allocated }
  | .kfree v => do
      let kmem ← kfree v w.kmem
      return { w with kmem, allocated := w.allocated.erase v }
  | .kmemtop => do
      let _ ← kmemtop w.kmem
      return w
  | .store a value => .ok { w with kmem := { w.kmem with word := Function.update w.kmem.word a value } }

/-- An event takes the allocator from a state to the next. -/
def Steps (w : World) (e : Event) (w' : World) : Prop := perform w e = .ok w'

/-- The states that the allocator reaches from the empty list, with `end` and the memory as given. -/
def Reach (kernelEnd : ℕ) (word : ℕ → ℕ) (w : World) : Prop :=
  Transition.Reachable Steps Admissible { kmem := { word, kernelEnd } } w

/-- The pages of the ranges are free or allocated. -/
structure WorldInv (w : World) (pages : List ℕ) : Prop where
  free : Free w.kmem pages
  listed : ∀ v, v ∈ pages ↔ w.Page v ∧ v ∉ w.allocated
  allocated : ∀ v ∈ w.allocated, w.Page v ∧ Usable w.kmem v

variable {e : Event} {u u' : World} {kernelEnd : ℕ} {word : ℕ → ℕ}

/-- The lock does not matter to the list. -/
theorem Free.setLock (free : Free k pages) (useLock : Bool) : Free { k with useLock } pages := by
  refine ⟨free.leads, free.nodup, fun v member => ?_⟩
  have usable := free.usable v member
  exact ⟨usable.aligned, usable.afterKernel, usable.physical, usable.address⟩

/-- The pages of a new range are free, and no other page changes. -/
theorem WorldInv.freerange (inv : WorldInv u pages) (isStart : vstart < 2 ^ 32)
    (isEnd : vend < 2 ^ 32) (apart : ∀ range ∈ u.ranges, vend ≤ range.1 ∨ range.2 ≤ vstart)
    (run : freerange vstart vend u.kmem = .ok k') :
    ∃ pages', WorldInv { u with kmem := k', ranges := (vstart, vend) :: u.ranges } pages' := by
  have outside : ∀ v, u.Page v → ¬InRange (vstart, vend) v := by
    rintro v ⟨range, member, inRange⟩ inNew
    have different := apart range member
    unfold InRange pgsize at *
    omega
  rcases freerange_ok run inv.free isStart isEnd
    (fun v member => outside v ((inv.listed v).mp member).1) with ⟨new, free, member, kernelEnd⟩
  have page : ∀ v, World.Page { u with kmem := k', ranges := (vstart, vend) :: u.ranges } v ↔
      InRange (vstart, vend) v ∨ u.Page v := by
    intro v
    unfold World.Page
    simp only [List.exists_mem_cons_iff]
  refine ⟨new ++ pages, free, fun v => ?_, fun v isAllocated => ?_⟩
  · rw [page, List.mem_append, member, inv.listed]
    constructor
    · rintro (inNew | ⟨isPage, notAllocated⟩)
      · refine ⟨.inl inNew, fun isAllocated => ?_⟩
        exact outside v (inv.allocated v isAllocated).1 inNew
      · exact ⟨.inr isPage, notAllocated⟩
    · rintro ⟨inNew | isPage, notAllocated⟩
      · exact .inl inNew
      · exact .inr ⟨isPage, notAllocated⟩
  · rcases inv.allocated v isAllocated with ⟨isPage, usable⟩
    refine ⟨(page v).mpr (.inr isPage), usable.aligned, ?_, usable.physical, usable.address⟩
    rw [kernelEnd]
    exact usable.afterKernel

theorem WorldInv.setLock (inv : WorldInv u pages) (useLock : Bool) :
    WorldInv { u with kmem := { u.kmem with useLock } } pages := by
  refine ⟨inv.free.setLock useLock, inv.listed, fun v isAllocated => ?_⟩
  rcases inv.allocated v isAllocated with ⟨isPage, usable⟩
  exact ⟨isPage, usable.aligned, usable.afterKernel, usable.physical, usable.address⟩

theorem WorldInv.kalloc (inv : WorldInv u pages) (step : Steps u .kalloc u') :
    ∃ pages', WorldInv u' pages' := by
  unfold Steps perform at step
  rcases inv.free.kalloc with ⟨rfl, none⟩ | ⟨v, rest, rfl, some, free⟩
  · rw [none] at step
    exact ⟨[], Except.ok.inj step ▸ inv⟩
  · have usable := inv.free.usable v List.mem_cons_self
    have first := (inv.listed v).mp List.mem_cons_self
    have notMember := (List.nodup_cons.mp inv.free.nodup).1
    rw [some] at step
    simp only [usable.ne_zero, if_false] at step
    rcases Except.ok.inj step with rfl
    refine ⟨rest, free, fun w => ?_, fun w isAllocated => ?_⟩
    · have listed := inv.listed w
      rw [List.mem_cons] at listed
      rw [Finset.mem_insert]
      constructor
      · intro member
        have isFree := listed.mp (.inr member)
        refine ⟨isFree.1, ?_⟩
        rintro (rfl | isAllocated)
        · exact notMember member
        · exact isFree.2 isAllocated
      · rintro ⟨isPage, notAllocated⟩
        push Not at notAllocated
        exact (listed.mpr ⟨isPage, notAllocated.2⟩).resolve_left notAllocated.1
    · rcases Finset.mem_insert.mp isAllocated with rfl | isAllocated
      · exact ⟨first.1, usable.aligned, usable.afterKernel, usable.physical, usable.address⟩
      · rcases inv.allocated w isAllocated with ⟨isPage, usable⟩
        exact ⟨isPage, usable.aligned, usable.afterKernel, usable.physical, usable.address⟩

theorem WorldInv.kfree (inv : WorldInv u pages) (isAllocated : v ∈ u.allocated)
    (step : Steps u (.kfree v) u') : ∃ pages', WorldInv u' pages' := by
  rcases Fallible.bind_eq_ok.mp step with ⟨k', freed, eq⟩
  rcases Except.ok.inj eq with rfl
  rcases inv.allocated v isAllocated with ⟨isPage, usable⟩
  have notFree : v ∉ pages := fun member => ((inv.listed v).mp member).2 isAllocated
  have free := inv.free.kfree freed usable.address notFree
  refine ⟨v :: pages, free, fun w => ?_, fun w member => ?_⟩
  · rw [List.mem_cons, inv.listed, Finset.mem_erase]
    constructor
    · rintro (rfl | ⟨isPage', notAllocated⟩)
      · exact ⟨isPage, fun erased => erased.1 rfl⟩
      · exact ⟨isPage', fun erased => notAllocated erased.2⟩
    · rintro ⟨isPage', notErased⟩
      by_cases same : w = v
      · exact .inl same
      · exact .inr ⟨isPage', fun isAllocated' => notErased ⟨same, isAllocated'⟩⟩
  · rcases inv.allocated w (Finset.mem_of_mem_erase member) with ⟨isPage', usable'⟩
    rcases kfree_ok freed usable.address with ⟨-, rfl⟩
    exact ⟨isPage', usable'.aligned, usable'.afterKernel, usable'.physical, usable'.address⟩

/-- A write that does not touch a free page leaves the links alone. -/
theorem WorldInv.store (inv : WorldInv u pages) {a value : ℕ}
    (admissible : Admissible u (.store a value)) :
    WorldInv { u with kmem := { u.kmem with word := Function.update u.kmem.word a value } } pages := by
  refine ⟨⟨inv.free.leads.congr fun v member => ?_, inv.free.nodup, fun v member => ?_⟩, inv.listed,
    fun v isAllocated => ?_⟩
  · have isFree := (inv.listed v).mp member
    have elsewhere := admissible v isFree.1 isFree.2
    apply Function.update_of_ne
    unfold pgsize at elsewhere
    omega
  · have usable := inv.free.usable v member
    exact ⟨usable.aligned, usable.afterKernel, usable.physical, usable.address⟩
  · rcases inv.allocated v isAllocated with ⟨isPage, usable⟩
    exact ⟨isPage, usable.aligned, usable.afterKernel, usable.physical, usable.address⟩

theorem WorldInv.step (inv : WorldInv u pages) (admissible : Admissible u e) (step : Steps u e u') :
    ∃ pages', WorldInv u' pages' := by
  cases e with
  | kinit1 vstart vend =>
      rcases Fallible.bind_eq_ok.mp step with ⟨k', run, eq⟩
      rcases Except.ok.inj eq with rfl
      rcases admissible with ⟨isStart, isEnd, apart⟩
      exact (inv.setLock false).freerange isStart isEnd apart run
  | kinit2 vstart vend =>
      simp only [Steps, perform] at step
      rcases Fallible.bind_eq_ok.mp step with ⟨k', run, eq⟩
      rcases Except.ok.inj eq with rfl
      rcases kinit2_ok run with ⟨k₁, freed, rfl⟩
      rcases admissible with ⟨isStart, isEnd, apart⟩
      rcases inv.freerange isStart isEnd apart freed with ⟨pages', inv'⟩
      exact ⟨pages', inv'.setLock true⟩
  | kalloc => exact inv.kalloc step
  | kfree v => exact inv.kfree admissible step
  | kmemtop =>
      rcases Fallible.bind_eq_ok.mp step with ⟨_, -, eq⟩
      exact ⟨pages, Except.ok.inj eq ▸ inv⟩
  | store a value => exact ⟨pages, Except.ok.inj step ▸ inv.store admissible⟩

theorem worldInv_of_reach (reach : Reach kernelEnd word u) : ∃ pages, WorldInv u pages := by
  refine reach.invariant (fun u => ∃ pages, WorldInv u pages) ⟨[], ?_⟩ ?_
  · refine ⟨⟨rfl, List.nodup_nil, ?_⟩, ?_, ?_⟩ <;> simp [World.Page]
  · rintro w e w' - ⟨pages, inv⟩ admissible step
    exact inv.step admissible step

/-- What the page allocator promises. -/
structure PageAllocator (w : World) (pages : List ℕ) : Prop where
  /-- the free list passes each of the pages once and ends -/
  list : Leads w.kmem.word w.kmem.freelist pages 0 ∧ pages.Nodup
  aligned : ∀ v ∈ pages, v % pgsize = 0
  /-- every page of the ranges is in the list or allocated, and no other page is -/
  partition : (∀ v, w.Page v ↔ v ∈ pages ∨ v ∈ w.allocated) ∧ ∀ v ∈ pages, v ∉ w.allocated
  /-- `kalloc` returns a page that is not allocated, and 0 only if there is none -/
  kalloc : ((kalloc w.kmem).1 = 0 ↔ pages = []) ∧ (kalloc w.kmem).1 ∉ w.allocated ∧
    ((kalloc w.kmem).1 ≠ 0 → (kalloc w.kmem).1 ∈ pages)
  kfree : ∀ v ∈ w.allocated, ∃ k', kfree v w.kmem = .ok k'
  kmemtop : kmemtop w.kmem = .ok ((pages.length * pgsize : ℕ) : ℤ) ∧ pages.length * pgsize < 2 ^ 31 ∧
    Steps w .kmemtop w
  freerange : ∀ vstart vend, vstart < 2 ^ 32 → freerange vstart vend w.kmem ≠ .error .endless

theorem page_allocator (reach : Reach kernelEnd word u) : ∃ pages, PageAllocator u pages := by
  rcases worldInv_of_reach reach with ⟨pages, inv⟩
  have notZero : 0 ∉ u.allocated := fun member => (inv.allocated 0 member).2.ne_zero rfl
  refine ⟨pages, ⟨inv.free.leads, inv.free.nodup⟩, fun v member => (inv.free.usable v member).aligned,
    ⟨fun v => ⟨fun isPage => ?_, ?_⟩, fun v member => ((inv.listed v).mp member).2⟩, ?_,
    fun v isAllocated => (inv.allocated v isAllocated).2.kfree, ?_,
    fun vstart vend isStart => freerange_ends isStart⟩
  · by_cases isAllocated : v ∈ u.allocated
    · exact .inr isAllocated
    · exact .inl ((inv.listed v).mpr ⟨isPage, isAllocated⟩)
  · rintro (member | isAllocated)
    · exact ((inv.listed v).mp member).1
    · exact (inv.allocated v isAllocated).1
  · rcases inv.free.kalloc with ⟨rfl, none⟩ | ⟨v, rest, rfl, some, -⟩
    · rw [none]
      exact ⟨by simp, notZero, fun nonzero => absurd rfl nonzero⟩
    · have first := (inv.listed v).mp List.mem_cons_self
      have usable := inv.free.usable v List.mem_cons_self
      rw [some]
      exact ⟨by simp [usable.ne_zero], first.2, fun _ => List.mem_cons_self⟩
  · rcases inv.free.kmemtop with ⟨count, small⟩
    refine ⟨count, small, ?_⟩
    unfold Steps perform
    rw [count, Fallible.bind_ok, Fallible.pure_eq]

/-- What `kfree` makes of an acceptable page. -/
def freed (v : ℕ) (k : Kmem) : Kmem :=
  { k with
    word := Function.update (fun a => if v ≤ a ∧ a < v + pgsize then 0x01010101 else k.word a) v k.freelist
    freelist := v }

/-- Three pages after a kernel that ends at 4 MB are freed. -/
theorem freerangeLoop_threePages (passes : ℕ) :
    freerangeLoop 0x80404FFF (passes + 1 + 1 + 1 + 1) 0x80401000
        { word := fun _ => 0, kernelEnd := 0x80400000 } =
      .ok (freed 0x80403000 (freed 0x80402000 (freed 0x80401000
        { word := fun _ => 0, kernelEnd := 0x80400000 }))) := by
  rw [freerangeLoop, if_pos (by decide)]
  refine Fallible.bind_eq_ok.mpr ⟨_, rfl, ?_⟩
  rw [freerangeLoop, if_pos (by decide)]
  refine Fallible.bind_eq_ok.mpr ⟨_, rfl, ?_⟩
  rw [freerangeLoop, if_pos (by decide)]
  refine Fallible.bind_eq_ok.mpr ⟨_, rfl, ?_⟩
  rw [freerangeLoop, if_neg (by decide)]
  rfl

/-- Two of the pages are allocated, and the first of them is freed again. -/
theorem page_allocator_threePages : ∃ w : World, w.allocated = {0x80402000} ∧
    w.kmem.freelist = 0x80403000 ∧ w.kmem.word 0x80403000 = 0x80401000 ∧ ∃ pages, PageAllocator w pages := by
  have admissible : Admissible { kmem := { word := fun _ => 0, kernelEnd := 0x80400000 } }
      (.kinit1 0x80400001 0x80404FFF) := ⟨by decide, by decide, by simp⟩
  have start : Reach 0x80400000 (fun _ => 0) _ :=
    Transition.Reachable.refl.next admissible
      (show Steps _ _ _ from congrArg (· >>= _) (freerangeLoop_threePages 1048573))
  have first : Reach 0x80400000 (fun _ => 0) _ := start.next (show Admissible _ .kalloc from trivial) rfl
  have second : Reach 0x80400000 (fun _ => 0) _ := first.next (show Admissible _ .kalloc from trivial) rfl
  have again : Reach 0x80400000 (fun _ => 0) _ :=
    second.next (show Admissible _ (.kfree 0x80403000) from
      (by decide : 0x80403000 ∈ ({0x80402000, 0x80403000} : Finset ℕ))) rfl
  exact ⟨_, by decide, rfl, rfl, page_allocator again⟩

end Xv6.Kalloc
