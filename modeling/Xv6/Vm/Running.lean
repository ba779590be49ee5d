import Xv6.Vm.Descriptors
import Xv6.Vm.Growproc

/-!
# What system calls keep

The invariant of the states between system calls, and what a system call of one process means for
the others: a process that is neither the caller nor one of its children is not affected at all.
-/

namespace Xv6.Vm

open Ownership Fallible References

variable {s s' s₁ s₂ : System} {m m' : Mem} {p q t : Slot} {touched born : Slot → Prop}
  {sound : Prop}

/-- The slot is in use. -/
def Used (s : System) (p : Slot) : Prop := (s.proc p).state ≠ .unused

theorem Active.used (active : Active s p) : Used s p := active.1

/-- The size and the pages of a process agree, except that pages below the size may be missing. -/
structure Sized (s : System) (p : Slot) : Prop where
  positive : 0 < (s.proc p).sz
  bound : (s.proc p).sz < kernbase
  above : ∀ w < userPages, pagesOf (s.proc p).sz ≤ w → image s.mem (s.proc p).pgdir w = none

/-- All pages below the size of a process are present. -/
def Filled (s : System) (p : Slot) : Prop :=
  ∀ w < pagesOf (s.proc p).sz, ∃ page, image s.mem (s.proc p).pgdir w = some page

/-- The states between system calls. -/
structure Inv (s : System) : Prop where
  consistent : Consistent s [] (pages s.mem)
  sized : ∀ p, Used s p → Sized s p
  closed : ∀ p, ¬Active s p → ∀ fd, (s.proc p).ofile fd = none
  settled : ∀ p, (s.proc p).state ≠ .embryo
  parent : ∀ p q, Used s p → (s.proc p).parent = some q → Active s q
  init : ∃ p, s.initproc = some p ∧ Active s p

/-- A process that does not notice the step. -/
structure Spares (s s' : System) (q : Slot) : Prop where
  proc : s'.proc q = s.proc q
  own : ∀ part, own s'.mem (s.proc q).pgdir part = own s.mem (s.proc q).pgdir part
  kind : ∀ fd f, (s.proc q).ofile fd = some f → kind s' f = kind s f

/-- A system call that only the processes `touched` notice, and that adds processes `born`. No pages
go missing if it is `sound`. -/
structure Did (touched : Slot → Prop) (sound : Prop) (born : Slot → Prop) (s s' : System) :
    Prop where
  inv : Inv s'
  kpgdir : s'.kpgdir = s.kpgdir
  cpuStacks : s'.cpuStacks = s.cpuStacks
  initproc : s'.initproc = s.initproc
  linked : s'.mem.linked = s.mem.linked
  kernel : ∀ part, own s'.mem s.kpgdir part = own s.mem s.kpgdir part
  spares : ∀ q, Used s q → ¬touched q → Spares s s' q
  filled : sound → (∀ q, Used s q → Filled s q) → ∀ q, Used s' q → Filled s' q
  fresh : ∀ q, Used s' q → ¬Used s q → born q

theorem Inv.did (inv : Inv s) : Did touched sound born s s :=
  ⟨inv, rfl, rfl, rfl, rfl, fun _ => rfl, fun _ _ _ => ⟨rfl, fun _ => rfl, fun _ _ _ => rfl⟩,
    fun _ filled => filled, fun _ used unused => absurd used unused⟩

theorem Spares.trans (first : Spares s s₁ q) (second : Spares s₁ s' q) : Spares s s' q := by
  refine ⟨second.proc.trans first.proc, fun part => ?_, fun fd f holds => ?_⟩
  · rw [← first.own part, ← first.proc]
    exact second.own part
  · rw [← first.kind fd f holds]
    exact second.kind fd f (first.proc ▸ holds)

theorem Did.mono {touched' born' : Slot → Prop} {sound' : Prop}
    (did : Did touched sound born s s') (more : ∀ q, touched q → touched' q)
    (less : sound' → sound) (added : ∀ q, born q → born' q) : Did touched' sound' born' s s' :=
  ⟨did.inv, did.kpgdir, did.cpuStacks, did.initproc, did.linked, did.kernel,
    fun q used notTouched => did.spares q used fun isTouched => notTouched (more q isTouched),
    fun holds => did.filled (less holds), fun q used unused => added q (did.fresh q used unused)⟩

theorem Did.trans {touched₁ touched₂ : Slot → Prop} (first : Did touched₁ sound born s s₁)
    (second : Did touched₂ sound born s₁ s')
    (covers : ∀ q, Used s q → ¬touched q → ¬touched₁ q ∧ (Spares s s₁ q → ¬touched₂ q)) :
    Did touched sound born s s' := by
  refine ⟨second.inv, second.kpgdir.trans first.kpgdir, second.cpuStacks.trans first.cpuStacks,
    second.initproc.trans first.initproc, second.linked.trans first.linked, fun part => ?_, fun q used notTouched => ?_,
    fun holds filled => second.filled holds (first.filled holds filled), fun q used unused => ?_⟩
  · rw [← first.kernel part, ← first.kpgdir]
    exact second.kernel part
  · rcases covers q used notTouched with ⟨not₁, not₂⟩
    have spares := first.spares q used not₁
    have used₁ : Used s₁ q := by
      unfold Used at used ⊢
      rwa [spares.proc]
    exact spares.trans (second.spares q used₁ (not₂ spares))
  · by_cases used₁ : Used s₁ q
    · exact first.fresh q used₁ unused
    · exact second.fresh q used used₁

theorem Keeps.sized (keeps : Keeps s s' q) (sized : Sized s q) : Sized s' q := by
  refine ⟨?_, ?_, fun w user from' => ?_⟩
  · rw [keeps.sz]
    exact sized.positive
  · rw [keeps.sz]
    exact sized.bound
  · rw [keeps.image w user]
    rw [keeps.sz] at from'
    exact sized.above w user from'

theorem Keeps.filled (keeps : Keeps s s' q) (sized : Sized s q) (filled : Filled s q) :
    Filled s' q := by
  intro w below
  rw [keeps.sz] at below
  rw [keeps.image w (below.trans_le (pagesOf_le sized.bound.le))]
  exact filled w below

theorem Active.congr (same : (s'.proc q).state = (s.proc q).state) : Active s' q ↔ Active s q := by
  unfold Active
  rw [same]

/-! ## Calls on descriptors -/

theorem Handles.keeps (handles : Handles s s') (used : Used s q) : Keeps s s' q := by
  refine ⟨by rw [handles.proc q], fun v user => ?_⟩
  have pgdir : (s'.proc q).pgdir = (s.proc q).pgdir := by rw [handles.proc q]
  rw [pgdir]
  exact handles.image q used v user

theorem Handles.state (handles : Handles s s') (q : Slot) :
    (s'.proc q).state = (s.proc q).state := by rw [handles.proc q]

theorem Inv.uses (inv : Inv s) (active : Active s p) (uses : Uses p (pages s.mem) s s') :
    Did (· = p) sound born s s' := by
  have handles := uses.handles
  have state := handles.state
  have same : pages s'.mem = pages s.mem := by
    unfold pages
    rw [handles.linked]
  refine ⟨⟨same ▸ uses.consistent, fun q used => ?_, fun q inactive fd => ?_, fun q => ?_,
    fun q parent used isParent => ?_, ?_⟩, handles.kpgdir, handles.cpuStacks,
    handles.initproc, handles.linked, handles.kernel,
    fun q used different => ⟨?_, handles.own q used, ?_⟩, fun _ filled q used => ?_,
    fun q used unused => ?_⟩
  · unfold Used at used
    rw [state] at used
    exact (handles.keeps used).sized (inv.sized q used)
  · have inactive' : ¬Active s q := fun active' => inactive ((Active.congr (state q)).2 active')
    have different : q ≠ p := by
      rintro rfl
      exact inactive' active
    rw [uses.elsewhere.ofile q different]
    exact inv.closed q inactive' fd
  · rw [state]
    exact inv.settled q
  · unfold Used at used
    rw [state] at used
    have parent' : (s.proc q).parent = some parent := by
      rw [← isParent, handles.proc q]
    exact (Active.congr (state parent)).2 (inv.parent q parent used parent')
  · rcases inv.init with ⟨i, isInit, active'⟩
    exact ⟨i, handles.initproc.trans isInit, (Active.congr (state i)).2 active'⟩
  · rw [handles.proc q, uses.elsewhere.ofile q different]
  · exact fun fd f holds => uses.elsewhere.kind q different fd f holds
  · unfold Used at used
    rw [state] at used
    exact (handles.keeps used).filled (inv.sized q used) (filled q used)
  · unfold Used at used unused
    rw [state] at used
    exact absurd used unused

/-! ## One slot of the process table -/

/-- Only the process in the slot `t` changes. -/
structure Changes (t : Slot) (s s' : System) : Prop where
  consistent : Consistent s' [] (pages s.mem)
  kpgdir : s'.kpgdir = s.kpgdir
  cpuStacks : s'.cpuStacks = s.cpuStacks
  initproc : s'.initproc = s.initproc
  linked : s'.mem.linked = s.mem.linked
  kernel : ∀ part, own s'.mem s.kpgdir part = own s.mem s.kpgdir part
  proc : ∀ q ≠ t, s'.proc q = s.proc q
  own : ∀ q ≠ t, Used s q →
    ∀ part, own s'.mem (s.proc q).pgdir part = own s.mem (s.proc q).pgdir part
  image : ∀ q ≠ t, Used s q →
    ∀ v < userPages, image s'.mem (s.proc q).pgdir v = image s.mem (s.proc q).pgdir v
  kind : ∀ q ≠ t, ∀ fd f, (s.proc q).ofile fd = some f → kind s' f = kind s f

/-- What the changed slot has to satisfy. -/
structure Fits (t : Slot) (s : System) : Prop where
  sized : Used s t → Sized s t
  closed : ¬Active s t → ∀ fd, (s.proc t).ofile fd = none
  settled : (s.proc t).state ≠ .embryo
  parent : ∀ r, Used s t → (s.proc t).parent = some r → Active s r

theorem Changes.keeps (changes : Changes t s s') (different : q ≠ t) (used : Used s q) :
    Keeps s s' q := by
  have same := changes.proc q different
  refine ⟨by rw [same], fun v user => ?_⟩
  rw [same]
  exact changes.image q different used v user

theorem Inv.changes (inv : Inv s) (changes : Changes t s s') (fits : Fits t s')
    (stays : Active s t → Active s' t)
    (mine : Used s t → touched t)
    (filled : sound → (∀ q, Used s q → Filled s q) → Used s' t → Filled s' t)
    (fresh : Used s' t → ¬Used s t → born t) : Did touched sound born s s' := by
  have same : pages s'.mem = pages s.mem := by
    unfold pages
    rw [changes.linked]
  have used' : ∀ q ≠ t, Used s' q → Used s q := by
    intro q different used
    unfold Used at used
    rwa [changes.proc q different] at used
  have active' : ∀ q, Active s q → Active s' q := by
    intro q active
    by_cases isT : q = t
    · subst isT
      exact stays active
    · unfold Active at active ⊢
      rwa [changes.proc q isT]
  refine ⟨⟨same ▸ changes.consistent, fun q used => ?_, fun q inactive fd => ?_, fun q => ?_,
    fun q r used isParent => ?_, ?_⟩, changes.kpgdir, changes.cpuStacks,
    changes.initproc, changes.linked, changes.kernel, fun q used notTouched => ?_, fun holds all q used => ?_,
    fun q used unused => ?_⟩
  · by_cases isT : q = t
    · subst isT
      exact fits.sized used
    · exact (changes.keeps isT (used' q isT used)).sized (inv.sized q (used' q isT used))
  · by_cases isT : q = t
    · subst isT
      exact fits.closed inactive fd
    · rw [changes.proc q isT]
      exact inv.closed q (fun active => inactive (active' q active)) fd
  · by_cases isT : q = t
    · subst isT
      exact fits.settled
    · rw [changes.proc q isT]
      exact inv.settled q
  · by_cases isT : q = t
    · subst isT
      exact fits.parent r used isParent
    · rw [changes.proc q isT] at isParent
      exact active' r (inv.parent q r (used' q isT used) isParent)
  · rcases inv.init with ⟨i, isInit, active⟩
    exact ⟨i, changes.initproc.trans isInit, active' i active⟩
  · have different : q ≠ t := by
      rintro rfl
      exact notTouched (mine used)
    exact ⟨changes.proc q different, changes.own q different used, changes.kind q different⟩
  · by_cases isT : q = t
    · subst isT
      exact filled holds all used
    · have used := used' q isT used
      exact (changes.keeps isT used).filled (inv.sized q used) (all q used)
  · by_cases isT : q = t
    · subst isT
      exact fresh used unused
    · exact absurd (used' q isT used) unused

end Xv6.Vm
