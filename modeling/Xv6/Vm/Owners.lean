import Xv6.Lib.References
import Xv6.Vm.Atomic
import Xv6.Vm.Calls

/-!
# Who owns a page

The owners of pages in a state between system calls, and what a change of memory in one address
space means for the others.
-/

namespace Xv6.Vm

open Ownership Fallible

variable {s s' : System} {m m' : Mem} {pool part : Set Page} {p q : Slot} {x : Page}

/-- Who may hold a page. -/
inductive Owner where
  | kpgdir (part : Part)
  | cpuStack (i : ℕ)
  | kstack (p : Slot)
  | space (p : Slot) (part : Part)
  | pipe (page : Page)
  deriving DecidableEq

def owns (s : System) : Owner → Option Page
  | .kpgdir part => own s.mem s.kpgdir part
  | .cpuStack i => s.cpuStacks[i]?
  | .kstack p => if (s.proc p).state = .unused then none else some (s.proc p).kstack
  | .space p part =>
      if (s.proc p).state = .unused then none else own s.mem (s.proc p).pgdir part
  | .pipe page => if (s.pipe page).readopen || (s.pipe page).writeopen then some page else none

/-- The pages that have been handed to the allocator. -/
def pages (m : Mem) : Set Page := {page | m.linked.kernelEnd ≤ page ∧ page < phystop}

/-- What the process `q` sees of its memory has not changed. -/
structure Keeps (s s' : System) (q : Slot) : Prop where
  sz : (s'.proc q).sz = (s.proc q).sz
  image : ∀ v < userPages, image s'.mem (s'.proc q).pgdir v = image s.mem (s.proc q).pgdir v

theorem Keeps.refl : Keeps s s q := ⟨rfl, fun _ _ => rfl⟩

theorem Keeps.trans {s₁ : System} (first : Keeps s s₁ q) (second : Keeps s₁ s' q) :
    Keeps s s' q :=
  ⟨second.sz.trans first.sz, fun v user => (second.image v user).trans (first.image v user)⟩

/-! ## Frames -/

theorem space_frame (used : (s.proc q).state ≠ .unused)
    (apart : ∀ part' x, owns s (.space q part') = some x → x ∉ part) (after : After part s.mem m') :
    (∀ part', own m' (s.proc q).pgdir part' = own s.mem (s.proc q).pgdir part') ∧
      ∀ v < userPages, image m' (s.proc q).pgdir v = image s.mem (s.proc q).pgdir v := by
  have apart' : Apart s.mem (s.proc q).pgdir part := by
    intro part' x holds
    refine apart part' x ?_
    simp only [owns]
    rwa [if_neg used]
  have framed := frame (s.proc q).pgdir apart' after
  exact ⟨framed.2.2.1, framed.2.2.2⟩

/-- Memory changes in a part of the pool in which all owners have nothing, those in `skip` apart. -/
theorem owns_frame (skip : Slot → Prop)
    (apart : ∀ o x, (∀ p part', skip p → o ≠ .space p part') → owns s o = some x → x ∉ part)
    (after : After part s.mem m') (o : Owner) (kept : ∀ p part', skip p → o ≠ .space p part') :
    owns { s with mem := m' } o = owns s o := by
  cases o with
  | kpgdir part' =>
      have apart' : Apart s.mem s.kpgdir part :=
        fun part' x holds => apart (.kpgdir part') x (by simp) holds
      exact (frame s.kpgdir apart' after).2.2.1 part'
  | cpuStack i => rfl
  | kstack p => rfl
  | pipe page => rfl
  | space q part' =>
      have notSkipped : ¬skip q := fun skipped => kept q part' skipped rfl
      simp only [owns]
      by_cases used : (s.proc q).state = .unused
      · rw [if_pos used, if_pos used]
      · rw [if_neg used, if_neg used]
        refine (space_frame used (fun part'' x holds => ?_) after).1 part'
        refine apart (.space q part'') x (fun p part₁ skipped same => ?_) holds
        cases same
        exact notSkipped skipped

theorem space_injective (p : Slot) : Function.Injective (Owner.space p) := by
  intro part' part'' same
  cases same
  rfl

/-- The address space of a process, with what is free. -/
theorem Partition.space (partition : Partition s.mem (owns s) pool)
    (used : (s.proc p).state ≠ .unused) :
    Space s.mem (s.proc p).pgdir (pool \ rest (owns s) (Owner.space p)) := by
  refine ⟨partition.nodup, partition.owned.focus (space_injective p) fun part' => ?_,
    fun page member => partition.valid page member.1⟩
  simp only [owns]
  rw [if_neg used]

/-- The others hold nothing of what the address space of a process and the free pages are. -/
theorem others_apart {o : Owner}
    (other : ∀ part', o ≠ .space p part') (holds : owns s o = some x) :
    x ∉ pool \ rest (owns s) (Owner.space p) := by
  rintro ⟨-, notRest⟩
  refine notRest ⟨o, ?_, holds⟩
  rintro ⟨part', same⟩
  exact other part' same.symm

/-- An operation on the address space of a process. -/
theorem Partition.swap {own' : Owner → Option Page} {mine : Part → Option Page}
    (partition : Partition s.mem (owns s) pool)
    (after : After (pool \ rest (owns s) (Owner.space p)) s.mem m')
    (mine' : Partition m' mine (pool \ rest (owns s) (Owner.space p)))
    (inside : ∀ part', own' (.space p part') = mine part')
    (outside : ∀ o, (∀ part', o ≠ .space p part') → own' o = owns { s with mem := m' } o) :
    Partition m' own' pool := by
  refine ⟨mine'.nodup, partition.owned.unfocus _ mine'.owned inside fun o other => ?_, ?_⟩
  · have other' : ∀ part', o ≠ .space p part' := fun part' same => other ⟨part', same.symm⟩
    rw [outside o other']
    refine owns_frame (· = p) (fun o' x kept holds => ?_) after o ?_
    · exact others_apart (fun part' => kept p part' rfl) holds
    · rintro _ part' rfl
      exact other' part'
  · intro page member
    rw [after.linked]
    exact partition.valid page member

/-- The other processes do not see an operation on the address space of a process. -/
theorem keeps_others
    (after : After (pool \ rest (owns s) (Owner.space p)) s.mem m')
    (used : (s.proc q).state ≠ .unused) (different : q ≠ p) :
    ∀ v < userPages, image m' (s.proc q).pgdir v = image s.mem (s.proc q).pgdir v := by
  refine (space_frame used (fun part' x holds => ?_) after).2
  refine others_apart (fun part'' same => ?_) holds
  cases same
  exact different rfl

end Xv6.Vm
