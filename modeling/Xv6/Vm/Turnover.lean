import Xv6.Vm.Running

/-!
# Calls that take and give pages

`sbrk`, `exec`, `fork`, `exit` and `wait` keep the invariant, whatever calls of `kalloc` fail.
-/

namespace Xv6.Vm

open Ownership Fallible References

variable {s s' : System} {m m' : Mem} {pool : Set Page} {p q t : Slot} {build : Build} {x : Page}
  {proc : Proc}

@[simp]
theorem setProc_self (s : System) (p : Slot) (proc : Proc) : (s.setProc p proc).proc p = proc :=
  Function.update_self _ _ _

theorem setProc_other (s : System) (proc : Proc) (different : q ≠ p) :
    (s.setProc p proc).proc q = s.proc q :=
  Function.update_of_ne different _ _

theorem space_ne_kstack {part : Part} : Owner.space q part ≠ .kstack p := by
  intro same
  cases same

/-- Owners that are not about a slot do not depend on it. -/
theorem owns_setProc (s : System) (proc : Proc) {o : Owner} (notStack : o ≠ .kstack p)
    (notSpace : ∀ part, o ≠ .space p part) : owns (s.setProc p proc) o = owns s o := by
  cases o with
  | kpgdir part => rfl
  | cpuStack i => rfl
  | pipe page => rfl
  | kstack q =>
      have different : q ≠ p := by
        rintro rfl
        exact notStack rfl
      simp only [owns]
      rw [setProc_other s proc different]
  | space q part =>
      have different : q ≠ p := by
        rintro rfl
        exact notSpace part rfl
      simp only [owns]
      rw [setProc_other s proc different]
      rfl

/-! ## `sbrk` and `exec` -/

/-- The pages that a process may work with: its address space and what is free. -/
def within (s : System) (p : Slot) : Set Page := pages s.mem \ rest (owns s) (Owner.space p)

theorem Inv.space (inv : Inv s) (active : Active s p) :
    Space s.mem (s.proc p).pgdir (within s p) :=
  inv.consistent.partition.space active.used

/-- A process replaces or changes its address space. -/
theorem Inv.swap (inv : Inv s) (active : Active s p) {sound : Prop} {born : Slot → Prop}
    (after : After (within s p) s.mem m') (space : Space m' proc.pgdir (within s p))
    (others : { proc with
      pgdir := (s.proc p).pgdir, sz := (s.proc p).sz, eip := (s.proc p).eip
      esp := (s.proc p).esp, name := (s.proc p).name, priority := (s.proc p).priority } =
        s.proc p)
    (sized : Sized ({ s with mem := m' }.setProc p proc) p)
    (filled : sound → Filled s p → Filled ({ s with mem := m' }.setProc p proc) p) :
    Did (· = p) sound born s ({ s with mem := m' }.setProc p proc) := by
  have state : proc.state = (s.proc p).state := (congrArg Proc.state others :)
  have kstack : proc.kstack = (s.proc p).kstack := (congrArg Proc.kstack others :)
  have ofile : proc.ofile = (s.proc p).ofile := (congrArg Proc.ofile others :)
  have parent : proc.parent = (s.proc p).parent := (congrArg Proc.parent others :)
  have isActive : Active ({ s with mem := m' }.setProc p proc) p := by
    unfold Active at active ⊢
    rwa [setProc_self, state]
  have same : ∀ q, (({ s with mem := m' }.setProc p proc).proc q).ofile = (s.proc q).ofile := by
    intro q
    by_cases isP : q = p
    · subst isP
      rw [setProc_self, ofile]
    · rw [setProc_other _ _ isP]
  have files := inv.consistent.files
  have partition : Partition m' (owns ({ s with mem := m' }.setProc p proc)) (pages s.mem) := by
    refine inv.consistent.partition.swap after space (fun part => ?_) fun o other => ?_
    · simp only [owns]
      rw [setProc_self, state, if_neg active.used]
      rfl
    · by_cases isStack : o = .kstack p
      · subst isStack
        simp only [owns]
        rw [setProc_self, state, kstack]
      · exact owns_setProc _ _ isStack other
  refine inv.changes (t := p) ⟨⟨⟨?_, files.unused, files.opened, files.single⟩, partition⟩, rfl, rfl,
    rfl, after.linked, fun part => ?_, fun q different => setProc_other _ _ different,
    fun q different used => ?_, fun q different used => ?_, fun _ _ _ _ _ => rfl⟩
    ⟨fun _ => sized, fun inactive => absurd isActive inactive, ?_, ?_⟩ (fun _ => isActive)
    (fun _ => rfl) (fun holds all _ => filled holds (all p active.used))
    fun _ unused => absurd active.used unused
  · have table : descriptors ({ s with mem := m' }.setProc p proc) = descriptors s := by
      funext slot
      exact congrFun (same slot.1) slot.2
    rw [table]
    exact files.refs
  · have kept := owns_frame (· = p) (fun o x kept holds =>
      others_apart (fun part same => kept p part rfl same) holds) after (.kpgdir part)
      fun _ _ _ isSpace => by cases isSpace
    exact kept
  · refine (space_frame used (fun part' x holds => ?_) after).1
    refine others_apart (fun part same => ?_) holds
    cases same
    exact different rfl
  · exact keeps_others after used different
  · rw [setProc_self, state]
    exact inv.settled p
  · intro r _ isParent
    rw [setProc_self, parent] at isParent
    have activeR := inv.parent p r active.used isParent
    by_cases isP : r = p
    · subst isP
      exact isActive
    · unfold Active at activeR ⊢
      rwa [setProc_other _ _ isP]

/-- The size of a process and its pages change. -/
theorem Inv.resize (inv : Inv s) (active : Active s p) {sound : Prop} {born : Slot → Prop} {sz : ℕ}
    {img : ℕ → Option UserPage} (becomes : Becomes (s.proc p).pgdir (within s p) s.mem m' img)
    (positive : 0 < sz) (bound : sz < kernbase)
    (above : ∀ w < userPages, pagesOf sz ≤ w → img w = none)
    (filled : sound → Filled s p → ∀ w < pagesOf sz, ∃ page, img w = some page) :
    Did (· = p) sound born s ({ s with mem := m' }.setProc p { s.proc p with sz }) := by
  refine inv.swap active becomes.after becomes.space rfl ⟨?_, ?_, fun w user from' => ?_⟩
    fun holds all w below => ?_
  · rwa [setProc_self]
  · rwa [setProc_self]
  · rw [setProc_self] at from' ⊢
    exact (becomes.image w user).trans (above w user from')
  · rw [setProc_self] at below ⊢
    rcases filled holds all w below with ⟨page, present⟩
    exact ⟨page, (becomes.image w (below.trans_le (pagesOf_le bound.le))).trans present⟩

theorem Inv.same (inv : Inv s) (active : Active s p) {born : Slot → Prop}
    (becomes : Becomes (s.proc p).pgdir (within s p) s.mem m' (image s.mem (s.proc p).pgdir)) :
    Did (· = p) True born s ({ s with mem := m' }.setProc p (s.proc p)) := by
  have sized := inv.sized p active.used
  exact inv.resize active becomes sized.positive sized.bound sized.above fun _ filled => filled

/-- `sbrk` -/
theorem Inv.sbrk (inv : Inv s) (build : Build) (active : Active s p) (n : BitVec 32) :
    ∃ s', perform build p s (.sbrk n) = .ok s' ∧
      Did (· = p) (0 < ((s.proc p).sz : ℤ) + n.toInt) (fun _ => False) s s' := by
  have sized := inv.sized p active.used
  have space := inv.space active
  have cases := growproc_cases (n := n) space sized.positive sized.bound sized.above
  dsimp only [perform]
  rcases cases with
    ⟨-, m', ran, becomes⟩ | ⟨more, bound, m', ran, becomes⟩ |
    ⟨negative, more, sz, m', value, ran, becomes⟩ | ⟨-, empty, m', ran, becomes⟩ |
    ⟨-, -, ran⟩ | ⟨-, ran⟩
  · rw [ran]
    exact ⟨_, rfl, inv.resize active becomes sized.positive sized.bound sized.above
      fun _ filled => filled⟩
  · rw [ran]
    have grown := pagesOf_mono (Nat.le_add_right (s.proc p).sz n.toNat)
    refine ⟨_, rfl, inv.resize active becomes (Nat.add_pos_left sized.positive _) bound
      (fun w user from' => ?_)
      fun _ filled w below => ?_⟩
    · rw [if_neg (by omega)]
      exact sized.above w user (grown.trans from')
    · by_cases added : pagesOf (s.proc p).sz ≤ w
      · exact ⟨zeroPage, if_pos ⟨added, below⟩⟩
      · rw [if_neg fun both => added both.1]
        exact filled w (Nat.not_le.1 added)
  · rw [ran]
    have shrunk : pagesOf sz ≤ pagesOf (s.proc p).sz := pagesOf_mono (by omega)
    have bound := sized.bound
    refine ⟨_, rfl, inv.resize active becomes (by omega) (by omega) (fun w user from' => ?_)
      fun _ filled w below => ?_⟩
    · by_cases given : w < pagesOf (s.proc p).sz
      · exact if_pos ⟨from', given⟩
      · rw [if_neg fun both => given both.2]
        exact sized.above w user (Nat.not_lt.1 given)
    · rw [if_neg fun both => Nat.not_lt.2 both.1 below]
      exact filled w (below.trans_le shrunk)
  · rw [ran]
    refine ⟨_, rfl, inv.resize active becomes sized.positive sized.bound (fun w user from' => ?_)
      fun positive => absurd empty positive.ne'⟩
    rw [if_neg (Nat.not_lt.2 from')]
    exact sized.above w user from'
  · rw [ran]
    exact ⟨_, rfl, inv.resize active (.refl space) sized.positive sized.bound sized.above
      fun _ filled => filled⟩
  · rw [ran]
    exact ⟨_, rfl, inv.resize active (.refl space) sized.positive sized.bound sized.above
      fun _ filled => filled⟩

/-- What was free is free again. -/
theorem Partition.idle {ω : Type*} {own : ω → Option Page} (partition : Partition m own pool)
    (idle : Idle m' m.free) (linked : m'.linked = m.linked) : Partition m' own pool := by
  refine ⟨idle.nodup, ?_, ?_⟩
  · rw [idle.free]
    exact partition.owned
  · rw [linked]
    exact partition.valid

theorem Unchanged.becomes {e e' : Exec} (unchanged : Unchanged e e')
    (space : Space e.mem e.proc.pgdir pool) :
    Becomes e.proc.pgdir pool e.mem e'.mem (image e.mem e.proc.pgdir) := by
  have subset : e.mem.free ⊆ pool := space.owned.free_mem
  have framed := frame e.proc.pgdir (fun part x holds => space.owned.apart part x holds)
    unchanged.after
  exact ⟨(Partition.idle space unchanged.idle unchanged.after.linked).congr framed.2.2.1,
    unchanged.after.mono subset, framed.2.2.2,
    fun guarded => guarded.congr fun v _ bound => framed.2.1 v bound⟩

/-- `sys_exec` -/
theorem Inv.exec (inv : Inv s) (build : Build) (active : Active s p) (namei : List (BitVec 8) → Option Inode)
    (user : ℕ → BitVec 8) :
    ∃ s', perform build p s (.exec namei user) = .ok s' ∧
      Did (· = p) True (fun _ => False) s s' := by
  have sized := inv.sized p active.used
  have space := inv.space active
  have early : ∃ s', (Except.ok (false, { mem := s.mem, proc := s.proc p }) >>=
      fun result : Bool × Exec => Except.ok (({ s with mem := result.2.mem }).setProc p
        result.2.proc)) = (Except.ok s' : Except Fault System) ∧
        Did (· = p) True (fun _ => False) s s' :=
    ⟨_, rfl, inv.same active (.refl space)⟩
  dsimp only [perform, sys_exec]
  split
  · split
    · exact early
    · rename_i path uargv _ _ _ argv fetched
      rcases fetchArguments_short maxarg fetched with ⟨few, short⟩
      have space' : Space ({ mem := s.mem, proc := s.proc p } : Exec).mem
          ({ mem := s.mem, proc := s.proc p } : Exec).proc.pgdir (within s p) := space
      have result : ∃ ok e', Vm.exec build path (namei path) argv { mem := s.mem, proc := s.proc p } =
          .ok (ok, e') ∧ e'.trace = [] ++ fileActions (namei path) ∧
          (ok = false → Unchanged { mem := s.mem, proc := s.proc p } e') ∧
          (ok = true → Replaced build path argv (within s p) { mem := s.mem, proc := s.proc p } e' ∧
            Enters (namei path) { mem := s.mem, proc := s.proc p } e') :=
        exec_ok space' few fun arg member => (short arg member).trans sized.bound
      rcases result with ⟨ok, e', ran, -, failed, succeeded⟩
      rw [ran]
      refine ⟨_, rfl, ?_⟩
      cases ok with
      | false =>
          have unchanged := failed rfl
          have same : e'.proc = s.proc p := unchanged.proc
          dsimp only
          rw [same]
          exact inv.same active (unchanged.becomes space')
      | true =>
          have replaced := (succeeded rfl).1
          have present := replaced.image.pages
          refine inv.swap active replaced.after replaced.space replaced.others
            ⟨?_, ?_, fun w user from' => ?_⟩ fun _ _ w below => ?_
          · rw [setProc_self]
            exact (show 0 < 2 * pgsize by decide).trans_le replaced.image.two
          · rw [setProc_self]
            exact replaced.image.bound
          · rw [setProc_self] at from' ⊢
            by_contra some
            rcases Option.ne_none_iff_exists'.1 some with ⟨page, present'⟩
            exact Nat.not_lt.2 from' (lt_pagesOf.2 ((present w user).1 ⟨page, present'⟩))
          · rw [setProc_self] at below ⊢
            exact (present w (below.trans_le (pagesOf_le replaced.image.bound.le))).2
              (lt_pagesOf.1 below)
  · exact early

/-! ## `fork` -/

/-- Free pages do not matter to the owners. -/
theorem Consistent.owns_after (consistent : Consistent s [] pool) (after : After s.mem.free s.mem m') (o : Owner) :
    owns { s with mem := m' } o = owns s o :=
  owns_frame (fun _ => False) (fun o' x _ holds => consistent.partition.owned.apart o' x holds)
    after o fun _ _ impossible => impossible.elim

theorem Consistent.frame (consistent : Consistent s [] pool) (after : After s.mem.free s.mem m') (used : Used s q) :
    (∀ part, own m' (s.proc q).pgdir part = own s.mem (s.proc q).pgdir part) ∧
      ∀ v < userPages, image m' (s.proc q).pgdir v = image s.mem (s.proc q).pgdir v :=
  space_frame used (fun _ x holds => consistent.partition.owned.apart _ x holds) after

theorem owns_unused (unused : ¬Used s t) :
    owns s (.kstack t) = none ∧ ∀ part, owns s (.space t part) = none :=
  ⟨if_pos (not_not.1 unused), fun _ => if_pos (not_not.1 unused)⟩

theorem descriptors_setProc (same : proc.ofile = (s.proc t).ofile) :
    descriptors (s.setProc t proc) = descriptors s := by
  funext ⟨q, fd⟩
  unfold descriptors
  by_cases isT : q = t
  · subst isT
    rw [setProc_self, same]
  · rw [setProc_other s proc isT]

/-- An unused slot stays unused, and pages may have been taken and given back. -/
theorem Inv.vacant (inv : Inv s) (unused : ¬Used s t) (proc : Proc)
    (partition : Partition m' (owns s) (pages s.mem)) (after : After s.mem.free s.mem m')
    (state : proc.state = .unused) (ofile : proc.ofile = (s.proc t).ofile) {touched born : Slot → Prop}
    {sound : Prop} : Did touched sound born s ({ s with mem := m' }.setProc t proc) := by
  have unused' : ¬Used ({ s with mem := m' }.setProc t proc) t := by
    unfold Used
    rw [setProc_self, state]
    exact fun different => different rfl
  have same : ∀ o, owns ({ s with mem := m' }.setProc t proc) o = owns s o := by
    intro o
    by_cases isStack : o = .kstack t
    · rw [isStack, (owns_unused unused).1, (owns_unused unused').1]
    · by_cases isSpace : ∃ part, o = .space t part
      · rcases isSpace with ⟨part, rfl⟩
        rw [(owns_unused unused).2, (owns_unused unused').2]
      · rw [owns_setProc _ _ isStack fun part is => isSpace ⟨part, is⟩]
        exact inv.consistent.owns_after after o
  have files := inv.consistent.files
  refine inv.changes (t := t) ⟨⟨⟨?_, files.unused, files.opened, files.single⟩,
    partition.congr same⟩, rfl, rfl, rfl, after.linked,
    fun part => inv.consistent.owns_after after (.kpgdir part), fun q different => setProc_other _ _ different,
    fun q _ used => (inv.consistent.frame after used).1, fun q _ used => (inv.consistent.frame after used).2,
    fun _ _ _ _ _ => rfl⟩ ⟨fun used => absurd used unused', fun _ fd => ?_, ?_,
      fun _ used => absurd used unused'⟩ (fun active => absurd active.used unused)
    (fun used => absurd used unused) (fun _ _ used => absurd used unused')
    fun used => absurd used unused'
  · have table : descriptors ({ s with mem := m' }.setProc t proc) = descriptors s :=
      descriptors_setProc ofile
    rw [table]
    exact files.refs
  · rw [setProc_self, ofile]
    exact inv.closed t (fun active => unused active.used) fd
  · rw [setProc_self, state]
    nofun

/-- `allocproc` fails, or takes an unused slot and a page for the kernel stack. -/
theorem Consistent.allocproc (consistent : Consistent s [] (pages s.mem)) :
    (Vm.allocproc s = (none, s) ∧ ∀ t, Used s t) ∨
    (∃ t, ¬Used s t ∧ Refused s.mem ∧ Vm.allocproc s =
      (none, { s with mem := { s.mem with calls := s.mem.calls + 1 } }.setProc t
        { s.proc t with kstack := 0, state := .unused })) ∨
    ∃ np x m', ¬Used s np ∧ x ∈ s.mem.free ∧
      Vm.allocproc s = (some np, { s with mem := m' }.setProc np
        { s.proc np with kstack := x, state := .embryo }) ∧
      Partition m' (Function.update (owns s) (.kstack np) (some x)) (pages s.mem) ∧
      m'.free ⊆ s.mem.free ∧ After s.mem.free s.mem m' ∧
      s.mem.freelist.length = m'.freelist.length + 1 := by
  unfold Vm.allocproc
  cases found : (List.finRange nproc).find? fun p => (s.proc p).state = .unused with
  | none =>
      rw [List.find?_eq_none] at found
      exact .inl ⟨rfl, fun t => by simpa [Used] using found t (List.mem_finRange t)⟩
  | some np =>
      have unused : ¬Used s np := by
        have isUnused : (s.proc np).state = .unused := by simpa using List.find?_some found
        exact fun used => used isUnused
      have partition := consistent.partition
      dsimp only
      rcases kalloc_cases s.mem with failed | ⟨x, freelist, list, allocated⟩
      · have refused := kalloc_refused (congrArg Prod.fst failed)
        rw [failed] at refused ⊢
        exact .inr (.inl ⟨np, unused, refused, rfl⟩)
      · rw [allocated]
        have isFree : x ∈ s.mem.free := by simp [Mem.free, list]
        rcases partition.take list with ⟨taken, inPool⟩
        refine .inr (.inr ⟨np, x, _, unused, isFree, rfl, ?_, fun y member => ?_,
          ⟨rfl, rfl, fun _ _ => rfl⟩, by rw [list, List.length_cons]⟩)
        · refine taken.gain inPool (partition.valid x inPool) (owns_unused unused).1
            (Function.update_self _ _ _) fun o different => Function.update_of_ne different _ _
        · have member : y ∈ freelist := member
          simp [Mem.free, list, member]

/-- Fields of processes change that no page and no file depends on. -/
theorem Consistent.procs {held : List (Fin nfile)} (consistent : Consistent s held pool)
    (procs : Slot → Proc) (state : ∀ q, (procs q).state = .unused ↔ (s.proc q).state = .unused)
    (kstack : ∀ q, (procs q).kstack = (s.proc q).kstack)
    (pgdir : ∀ q, (procs q).pgdir = (s.proc q).pgdir)
    (ofile : ∀ q, (procs q).ofile = (s.proc q).ofile) :
    Consistent { s with proc := procs } held pool := by
  have files := consistent.files
  refine consistent.congr ⟨?_, files.unused, files.opened, files.single⟩
    (owns_congr s { s with proc := procs } rfl rfl rfl rfl state kstack pgdir) rfl
  have table : descriptors { s with proc := procs } = descriptors s := by
    funext ⟨q, fd⟩
    exact congrFun (ofile q) fd
  rw [table]
  exact files.refs

theorem Consistent.setProc {held : List (Fin nfile)} (consistent : Consistent s held pool)
    (state : proc.state = .unused ↔ (s.proc t).state = .unused)
    (kstack : proc.kstack = (s.proc t).kstack) (pgdir : proc.pgdir = (s.proc t).pgdir)
    (ofile : proc.ofile = (s.proc t).ofile) : Consistent (s.setProc t proc) held pool := by
  refine consistent.procs (Function.update s.proc t proc) ?_ ?_ ?_ ?_
  all_goals
    intro q
    by_cases isT : q = t
    · subst isT
      rwa [Function.update_self]
    · rw [Function.update_of_ne isT]

/-- A child that has its kernel stack and its address space, but no descriptors yet. -/
theorem Consistent.embryo (consistent : Consistent s [] (pages s.mem)) (unused : ¬Used s t) {m₁ m₂ : Mem} {img : ℕ → Option UserPage}
    (partition : Partition m₁ (Function.update (owns s) (.kstack t) (some x)) (pages s.mem))
    (free : m₁.free ⊆ s.mem.free) (after : After s.mem.free s.mem m₁)
    (made : Made proc.pgdir m₁.free m₁ m₂ img) (kstack : proc.kstack = x)
    (state : proc.state = .embryo) (ofile : proc.ofile = (s.proc t).ofile) :
    Consistent ({ s with mem := m₂ }.setProc t proc) [] (pages s.mem) := by
  have used : proc.state ≠ .unused := by
    rw [state]
    nofun
  have after₂ : After s.mem.free s.mem m₂ := after.trans (made.after.mono free)
  have files := consistent.files
  refine ⟨⟨?_, files.unused, files.opened, files.single⟩, made.space.nodup, ?_, fun page member => ?_⟩
  · have table : descriptors ({ s with mem := m₂ }.setProc t proc) = descriptors s :=
      descriptors_setProc ofile
    rw [table]
    exact files.refs
  · refine partition.owned.extend (Owner.space t) made.space.owned (fun part => ?_) (fun part => ?_)
      fun o outside => ?_
    · rw [Function.update_of_ne space_ne_kstack, (owns_unused unused).2]
    · simp only [owns]
      rw [setProc_self, if_neg used]
      rfl
    · by_cases isStack : o = .kstack t
      · rw [isStack, Function.update_self]
        simp only [owns]
        rw [setProc_self, if_neg used, kstack]
      · rw [Function.update_of_ne isStack,
          owns_setProc _ _ isStack fun part is => outside ⟨part, is.symm⟩]
        exact consistent.owns_after after₂ o
  · change m₂.linked.kernelEnd ≤ page ∧ page < phystop
    rw [after₂.linked]
    exact member

/-- A child whose descriptors have been copied becomes a process. -/
theorem Inv.child (inv : Inv s) (active : Active s p) (unused : ¬Used s t) {s' : System}
    (name : List (BitVec 8)) (after : After s.mem.free s.mem m')
    (uses : Uses t (pages s.mem) ({ s with mem := m' }.setProc t proc) s')
    (img : ∀ w < userPages, image m' proc.pgdir w =
      if w < pagesOf proc.sz then image s.mem (s.proc p).pgdir w else none)
    (sz : proc.sz = (s.proc p).sz) (parent : proc.parent = some p) (state : proc.state = .embryo) :
    Did (fun _ => False) True (· = t) s (s'.setProc t { s'.proc t with name, state := .runnable }) := by
  have handles := uses.handles
  have sized := inv.sized p active.used
  have different : p ≠ t := by
    rintro rfl
    exact unused active.used
  have self : s'.proc t = { proc with ofile := (s'.proc t).ofile } := by
    have same := handles.proc t
    rwa [setProc_self] at same
  have others : ∀ q ≠ t, s'.proc q = s.proc q := by
    intro q notT
    have same := handles.proc q
    rw [uses.elsewhere.ofile q notT] at same
    rwa [setProc_other _ _ notT] at same
  have used₂ : (({ s with mem := m' }.setProc t proc).proc t).state ≠ .unused := by
    rw [setProc_self, state]
    nofun
  have images : ∀ v < userPages, image s'.mem proc.pgdir v =
      if v < pagesOf proc.sz then image s.mem (s.proc p).pgdir v else none := by
    intro v user
    rw [← img v user]
    have same := handles.image t used₂ v user
    rwa [setProc_self] at same
  have isActive : Active (s'.setProc t { s'.proc t with name, state := .runnable }) t := by
    unfold Active
    rw [setProc_self]
    exact ⟨nofun, nofun, nofun⟩
  have framed : ∀ q ≠ t, Used s q →
      (∀ part, own s'.mem (s.proc q).pgdir part = own s.mem (s.proc q).pgdir part) ∧
        ∀ v < userPages, image s'.mem (s.proc q).pgdir v = image s.mem (s.proc q).pgdir v := by
    intro q notT used
    have used' : (({ s with mem := m' }.setProc t proc).proc q).state ≠ .unused := by
      rwa [setProc_other _ _ notT]
    have own' := handles.own q used'
    have image' := handles.image q used'
    rw [setProc_other _ _ notT] at own' image'
    have before := inv.consistent.frame after used
    exact ⟨fun part => (own' part).trans (before.1 part),
      fun v user => (image' v user).trans (before.2 v user)⟩
  have size : proc.sz < kernbase := by
    rw [sz]
    exact sized.bound
  refine inv.changes (t := t) ⟨?_, handles.kpgdir, handles.cpuStacks, handles.initproc,
    handles.linked.trans after.linked, fun part => ?_, fun q notT => (setProc_other _ _ notT).trans (others q notT),
    fun q notT used => (framed q notT used).1, fun q notT used => (framed q notT used).2,
    fun q notT fd f holds => ?_⟩ ⟨fun _ => ⟨?_, ?_, fun w user from' => ?_⟩,
      fun inactive => absurd isActive inactive, ?_, fun r _ isParent => ?_⟩
    (fun _ => isActive) (fun used => absurd used unused) (fun _ filled _ w below => ?_)
    fun _ _ => rfl
  · refine uses.consistent.setProc ?_ rfl rfl rfl
    rw [self, state]
    exact ⟨nofun, nofun⟩
  · exact (handles.kernel part).trans (inv.consistent.owns_after after (.kpgdir part))
  · have holds' : (({ s with mem := m' }.setProc t proc).proc q).ofile fd = some f := by
      rwa [setProc_other _ _ notT]
    exact uses.elsewhere.kind q notT fd f holds'
  · rw [setProc_self, self]
    exact sz ▸ sized.positive
  · rw [setProc_self, self]
    exact size
  · rw [setProc_self, self] at from' ⊢
    exact (images w user).trans (if_neg (Nat.not_lt.2 from'))
  · rw [setProc_self]
    nofun
  · rw [setProc_self, self] at isParent
    cases parent.symm.trans isParent
    unfold Active at active ⊢
    rw [setProc_other _ _ different, others p different]
    exact active
  · rw [setProc_self, self] at below ⊢
    have user := below.trans_le (pagesOf_le size.le)
    rw [sz] at below
    rcases filled p active.used w below with ⟨page, present⟩
    refine ⟨page, (images w user).trans ?_⟩
    rw [sz, if_pos below]
    exact present

/-- `fork` panics if a page of the caller is missing. -/
theorem Inv.fork (inv : Inv s) (build : Build) (active : Active s p) :
    (∃ fault ≠ .file, Vm.fork build p s = .error fault ∧ ¬Filled s p) ∨
    ∃ child s', Vm.fork build p s = .ok (child, s') ∧
      Did (fun _ => False) True (child = some ·) s s' ∧
      (∀ c, child = some c → ¬Used s c ∧ (s'.proc c).parent = some p ∧ Active s' c) ∧
      (child = none → (∀ t, Used s t) ∨
        s.mem.freelist.length ≤ 1027 + pagesOf (s.proc p).sz ∨ ∃ call, s.mem.fails call = true) := by
  unfold Vm.fork
  have sized := inv.sized p active.used
  rcases inv.consistent.allocproc with ⟨failed, all⟩ | ⟨t, unused, refused, failed⟩ |
    ⟨np, x, m₁, unused, isFree, allocated, partition, free, after, length⟩
  · rw [failed]
    exact .inr ⟨none, s, rfl, inv.did, by simp, fun _ => .inl all⟩
  · rw [failed]
    have partition := inv.consistent.partition
    have same : Partition { s.mem with calls := s.mem.calls + 1 } (owns s) (pages s.mem) :=
      ⟨partition.nodup, partition.owned, partition.valid⟩
    refine .inr ⟨none, _, rfl, inv.vacant unused { s.proc t with kstack := 0, state := .unused } same
      ⟨rfl, rfl, fun _ _ => rfl⟩ rfl rfl, by simp, fun _ => .inr (refused.imp_left fun empty => ?_)⟩
    rw [empty]
    exact Nat.zero_le _
  rw [allocated]
  dsimp only
  have different : p ≠ np := by
    rintro rfl
    exact unused active.used
  rw [setProc_other _ _ different]
  have idle : Idle m₁ m₁.free := ⟨partition.nodup, rfl, fun page member =>
    partition.valid page (partition.owned.free_mem page member)⟩
  have apart : Apart m₁ (s.proc p).pgdir m₁.free := by
    intro part page holds
    have holds' : owns s (.space p part) = some page := by
      simp only [owns]
      rw [if_neg active.used, ← (inv.consistent.frame after active.used).1]
      exact holds
    exact fun member => inv.consistent.partition.owned.apart _ page holds' (free member)
  have images := (inv.consistent.frame after active.used).2
  have copied := idle.copyuvm apart sized.bound.le
  dsimp only [System.setProc] at copied ⊢
  rcases copied with ⟨fault, other, ran, w, below, missing⟩ | ⟨m₂, ran, idle₂, after₂, tight⟩ |
    ⟨d, m₂, ran, made⟩
  · left
    rw [ran]
    refine ⟨fault, other, rfl, fun filled => ?_⟩
    rcases filled w below with ⟨page, present⟩
    rw [images w (below.trans_le (pagesOf_le sized.bound.le))] at missing
    cases missing.symm.trans present
  · -- the kernel stack is given back
    right
    rw [ran]
    have partition₂ := Partition.idle partition idle₂ after₂.linked
    rcases partition₂.release (Function.update_self _ _ _) (owns_unused unused).1
      (fun o notStack => (Function.update_of_ne notStack _ _).symm) with
      ⟨m₃, freed, partition₃, after₃⟩
    have after' : After s.mem.free s.mem m₃ := (after.trans (after₂.mono free)).trans
      (after₃.mono (Set.singleton_subset_iff.2 isFree))
    refine ⟨none, _, ?_, inv.vacant unused { s.proc np with kstack := 0, state := .unused }
      partition₃ after' rfl rfl, by simp, fun _ => .inr (tight.imp (fun few => ?_) fun fails => ?_)⟩
    · simp only [bind_ok, Function.update_self, Function.update_idem, freed]
      rfl
    · have count := ncard_free partition.nodup
      omega
    · rwa [after.fails] at fails
  · right
    rw [ran]
    have empty : ∀ fd, (s.proc np).ofile fd = none :=
      inv.closed np fun isActive => unused isActive.used
    simp only [bind_ok, Function.update_self, Function.update_idem]
    generalize (if build = .mlq ∨ build = .dmlq then (s.proc p).priority
      else (s.proc np).priority) = priority
    let proc := { s.proc np with
      kstack := x, state := .embryo, pgdir := d, sz := (s.proc p).sz, parent := some p, priority
      eip := (s.proc p).eip, esp := (s.proc p).esp }
    have consistent : Consistent ({ s with mem := m₂ }.setProc np proc) [] (pages s.mem) :=
      inv.consistent.embryo unused partition free after made rfl rfl rfl
    rcases consistent.dupFiles (p := p) (List.finRange nofile) (List.nodup_finRange _)
      (fun fd _ => (congrFun (congrArg Proc.ofile (setProc_self _ _ _)) fd).trans (empty fd)) with
      ⟨s', duped, uses⟩
    have did := inv.child active unused (s.proc p).name
      (after.trans (made.after.mono free)) uses (fun w user => ?_) rfl rfl rfl
    · refine ⟨some np, _, ?_, did.mono (fun _ => id) id fun q is => congrArg some is.symm,
        fun c isChild => ?_, by simp⟩
      · change dupFiles p np _ ({ s with mem := m₂ }.setProc np proc) >>= _ = _
        rw [duped]
        rfl
      · cases isChild
        have self := uses.handles.proc np
        rw [setProc_self] at self
        unfold Active
        rw [setProc_self, self]
        exact ⟨unused, rfl, by simp, by simp, by simp⟩
    · change image m₂ d w = if w < pagesOf (s.proc p).sz then image s.mem (s.proc p).pgdir w else none
      rw [made.image w user, images w user]

/-! ## `exit` and `wait` -/

/-- A process without descriptors leaves, and its children go to `initproc`. -/
theorem Inv.leave (inv : Inv s) (active : Active s p) (notInit : s.initproc ≠ some p)
    (empty : ∀ fd, (s.proc p).ofile fd = none) :
    Did (fun q => q = p ∨ (s.proc q).parent = some p) True (fun _ => False) s
      ((abandon p s).setProc p { (abandon p s).proc p with state := .zombie }) := by
  generalize left : (abandon p s).setProc p { (abandon p s).proc p with state := .zombie } = s'
  have mem : s'.mem = s.mem := by rw [← left]; rfl
  have proc : ∀ q, s'.proc q = { s.proc q with
      parent := if (s.proc q).parent = some p then s.initproc else (s.proc q).parent
      state := if q = p then .zombie else (s.proc q).state } := by
    intro q
    rw [← left]
    have abandoned : (abandon p s).proc q = { s.proc q with
        parent := if (s.proc q).parent = some p then s.initproc else (s.proc q).parent } := by
      dsimp only [abandon]
      split <;> rfl
    by_cases isP : q = p
    · subst isP
      rw [setProc_self, abandoned, if_pos rfl]
    · rw [setProc_other _ _ isP, abandoned, if_neg isP]
  have kept : s' = { s with proc := s'.proc } := by rw [← left]; rfl
  have state : ∀ q, (s'.proc q).state = if q = p then .zombie else (s.proc q).state := by
    intro q
    rw [proc q]
  have unused : ∀ q, (s'.proc q).state = .unused ↔ (s.proc q).state = .unused := by
    intro q
    rw [state]
    by_cases isP : q = p
    · rw [if_pos isP, isP]
      exact ⟨nofun, fun is => absurd is active.used⟩
    · rw [if_neg isP]
  have stays : ∀ q ≠ p, Active s' q ↔ Active s q := by
    intro q isP
    unfold Active
    rw [state, if_neg isP]
  have keeps : ∀ q, Keeps s s' q := fun q => ⟨by rw [proc q], fun v _ => by rw [proc q, mem]⟩
  have consistent : Consistent { s with proc := s'.proc } [] (pages s.mem) :=
    inv.consistent.procs s'.proc unused (fun q => by rw [proc q]) (fun q => by rw [proc q])
      fun q => by rw [proc q]
  rw [← kept] at consistent
  refine ⟨⟨mem.symm ▸ consistent, fun q used => ?_, fun q inactive fd => ?_, fun q => ?_,
    fun q r used isParent => ?_, ?_⟩, by rw [kept], by rw [kept], by rw [kept], by rw [mem],
    fun _ => by rw [mem],
    fun q _ notTouched => ?_, fun _ filled q used => ?_,
    fun q used unused' => unused' fun is => used ((unused q).2 is)⟩
  · have used' : Used s q := fun is => used ((unused q).2 is)
    exact (keeps q).sized (inv.sized q used')
  · rw [proc q]
    by_cases isP : q = p
    · subst isP
      exact empty fd
    · exact inv.closed q (fun isActive => inactive ((stays q isP).2 isActive)) fd
  · rw [state]
    split
    · nofun
    · exact inv.settled q
  · have used' : Used s q := fun is => used ((unused q).2 is)
    rw [proc q] at isParent
    rcases inv.init with ⟨i, isInit, activeI⟩
    have notI : i ≠ p := by
      rintro rfl
      exact notInit isInit
    by_cases child : (s.proc q).parent = some p
    · simp only [if_pos child] at isParent
      cases isInit.symm.trans isParent
      exact (stays r notI).2 activeI
    · simp only [if_neg child] at isParent
      refine (stays r ?_).2 (inv.parent q r used' isParent)
      rintro rfl
      exact child isParent
  · rcases inv.init with ⟨i, isInit, activeI⟩
    have notI : i ≠ p := by
      rintro rfl
      exact notInit isInit
    exact ⟨i, by rw [kept]; exact isInit, (stays i notI).2 activeI⟩
  · have notP : q ≠ p := fun isP => notTouched (.inl isP)
    have notChild : (s.proc q).parent ≠ some p := fun child => notTouched (.inr child)
    refine ⟨?_, fun part => by rw [mem], fun fd f _ => by rw [kept]; rfl⟩
    rw [proc q, if_neg notChild, if_neg notP]
  · have used' : Used s q := fun is => used ((unused q).2 is)
    exact (keeps q).filled (inv.sized q used') (filled q used')

/-- `exit` panics if it is called by `initproc`. -/
theorem Inv.exit (inv : Inv s) (build : Build) (active : Active s p) :
    (s.initproc = some p ∧ perform build p s .exit = .error .initExiting) ∨
    ∃ s', perform build p s .exit = .ok s' ∧
      Did (fun q => q = p ∨ (s.proc q).parent = some p) True (fun _ => False) s s' ∧
      (s'.proc p).state = .zombie ∧
      ((s.proc p).parent ≠ some p → (s'.proc p).parent = (s.proc p).parent) := by
  dsimp only [perform, Vm.exit]
  by_cases isInit : s.initproc = some p
  · exact .inl ⟨isInit, if_pos isInit⟩
  · rw [if_neg isInit]
    right
    rcases inv.consistent.exitFiles (p := p) (List.finRange nofile) with ⟨s₁, ran, uses, closed⟩
    have did : Did (· = p) True (fun _ => False) s s₁ := inv.uses active uses
    have active₁ : Active s₁ p := (Active.congr (uses.handles.state p)).2 active
    have notInit : s₁.initproc ≠ some p := by
      rw [uses.handles.initproc]
      exact isInit
    have empty : ∀ fd, (s₁.proc p).ofile fd = none := fun fd => by
      rw [closed, if_pos (List.mem_finRange fd)]
    have left := did.inv.leave active₁ notInit empty
    rw [ran]
    refine ⟨_, rfl, did.trans left fun q _ notTouched =>
      ⟨fun isP => notTouched (.inl isP), fun spares touched => notTouched ?_⟩, ?_, fun notOwn => ?_⟩
    · rw [spares.proc] at touched
      exact touched
    · rw [setProc_self]
    · have same : (s₁.proc p).parent = (s.proc p).parent := by rw [uses.handles.proc p]
      rw [setProc_self]
      dsimp only [abandon]
      rw [if_neg (same ▸ notOwn)]
      exact same

/-- `wait` sleeps, fails, or frees what a child that is a zombie has. -/
theorem Inv.wait (inv : Inv s) (p : Slot) (killed : Bool) :
    (∃ r, wait p killed s = .ok (r, s) ∧ (∀ t, r ≠ .reaped t) ∧
      ∀ t, (s.proc t).parent = some p → (s.proc t).state ≠ .zombie) ∨
    ∃ t s', ((s.proc t).parent = some p ∧ (s.proc t).state = .zombie) ∧
      wait p killed s = .ok (.reaped t, s') ∧
      Did (· = t) True (fun _ => False) s s' ∧ ¬Used s' t := by
  unfold Vm.wait
  dsimp only
  cases found : (List.finRange nproc).find? fun t =>
      (s.proc t).parent = some p ∧ (s.proc t).state = .zombie with
  | none =>
      rw [List.find?_eq_none] at found
      refine .inl ⟨_, rfl, fun t => ?_, fun t => by simpa using found t (List.mem_finRange t)⟩
      split <;> nofun
  | some t =>
      have isZombie : (s.proc t).parent = some p ∧ (s.proc t).state = .zombie := by
        simpa using List.find?_some found
      have used : Used s t := by
        unfold Used
        rw [isZombie.2]
        nofun
      have partition := inv.consistent.partition
      have holds : owns s (.kstack t) = some (s.proc t).kstack := if_neg used
      rcases partition.release holds (Function.update_self _ _ _)
        (fun o different => Function.update_of_ne different none (owns s)) with
        ⟨m₁, freed₁, partition₁, after₁⟩
      have same : ∀ part, own m₁ (s.proc t).pgdir part =
          Function.update (owns s) (.kstack t) none (.space t part) := by
        intro part
        rw [Function.update_of_ne space_ne_kstack]
        refine ((space_frame used (fun part' x holds' member => ?_) after₁).1 part).trans
          (if_neg used).symm
        cases partition.owned.single _ _ x holds' (member ▸ holds)
      let gone := { s.proc t with kstack := 0, parent := none, name := [], state := .unused }
      have unused : ¬Used (s.setProc t gone) t := by
        unfold Used
        rw [setProc_self]
        exact fun different => different rfl
      have stack : ∀ o, (∀ part, o ≠ .space t part) →
          owns (s.setProc t gone) o = Function.update (owns s) (.kstack t) none o := by
        intro o notSpace
        by_cases isStack : o = .kstack t
        · rw [isStack, Function.update_self, (owns_unused unused).1]
        · rw [Function.update_of_ne isStack, owns_setProc _ _ isStack notSpace]
      rcases partition₁.freevm (Owner.space t) (space_injective t) same
        (fun part => (owns_unused unused).2 part)
        (fun o outside => stack o fun part is => outside ⟨part, is.symm⟩) with
        ⟨m₂, freed₂, partition₂, after₂⟩
      have afterAll : After ({(s.proc t).kstack} ∪ (pages s.mem \
          rest (Function.update (owns s) (.kstack t) none) (Owner.space t))) s.mem m₂ :=
        (after₁.mono Set.subset_union_left).trans (after₂.mono Set.subset_union_right)
      -- nothing that is left is among what was freed
      have apart : ∀ o x, owns (s.setProc t gone) o = some x →
          x ∉ {(s.proc t).kstack} ∪ (pages s.mem \
            rest (Function.update (owns s) (.kstack t) none) (Owner.space t)) := by
        intro o x holds'
        have notSpace : ∀ part, o ≠ .space t part := by
          rintro part rfl
          cases ((owns_unused unused).2 part).symm.trans holds'
        have held := (stack o notSpace).symm.trans holds'
        rintro (isStack | ⟨-, notRest⟩)
        · have different : o ≠ .kstack t := by
            rintro rfl
            rw [Function.update_self] at held
            cases held
          rw [Function.update_of_ne different] at held
          exact different (partition.owned.single _ _ x held (isStack ▸ holds))
        · refine notRest ⟨o, ?_, held⟩
          rintro ⟨part, is⟩
          exact notSpace part is.symm
      have framed : ∀ o, owns ({ s with mem := m₂ }.setProc t gone) o =
          owns (s.setProc t gone) o := fun o =>
        owns_frame (s := s.setProc t gone) (fun _ => False) (fun o x _ => apart o x) afterAll o
          fun _ _ impossible => impossible.elim
      have frames : ∀ q ≠ t, Used s q →
          (∀ part, own m₂ (s.proc q).pgdir part = own s.mem (s.proc q).pgdir part) ∧
            ∀ v < userPages, image m₂ (s.proc q).pgdir v = image s.mem (s.proc q).pgdir v := by
        intro q notT usedQ
        refine space_frame usedQ (fun part x holds' => apart (.space q part) x ?_) afterAll
        rw [owns_setProc s gone space_ne_kstack fun part' is => notT (Owner.space.inj is).1]
        exact holds'
      have files := inv.consistent.files
      refine .inr ⟨t, { s with mem := m₂ }.setProc t gone, isZombie, ?_, inv.changes (t := t)
        ⟨⟨⟨?_, files.unused, files.opened, files.single⟩, partition₂.congr framed⟩, rfl, rfl, rfl,
          afterAll.linked, fun part => ?_,
          fun q notT => setProc_other _ _ notT, fun q notT usedQ => (frames q notT usedQ).1,
          fun q notT usedQ => (frames q notT usedQ).2, fun _ _ _ _ _ => rfl⟩
        ⟨fun usedT => absurd usedT unused, fun _ fd => ?_, ?_, fun _ usedT => absurd usedT unused⟩
        (fun active => absurd isZombie.2 active.2.2) (fun _ => rfl)
        (fun _ _ usedT => absurd usedT unused) fun usedT => absurd usedT unused, unused⟩
      · dsimp only
        rw [freed₁]
        simp only [bind_ok]
        rw [freed₂]
        rfl
      · have table : descriptors ({ s with mem := m₂ }.setProc t gone) = descriptors s :=
          descriptors_setProc rfl
        rw [table]
        exact files.refs
      · exact framed (.kpgdir part)
      · rw [setProc_self]
        exact inv.closed t (fun active => active.2.2 isZombie.2) fd
      · rw [setProc_self]
        nofun

/-! ## All calls -/

/-- The processes that may notice a system call of `p`. -/
def Touched (s : System) (p q : Slot) : Prop := q = p ∨ (s.proc q).parent = some p

/-- `sbrk` keeps its promise. -/
def Sound (s : System) (p : Slot) : Call → Prop
  | .sbrk n => 0 < ((s.proc p).sz : ℤ) + n.toInt
  | _ => True

/-- The calls that can panic. -/
def Panics (s : System) (p : Slot) (call : Call) : Prop :=
  (call = .fork ∧ ¬Filled s p) ∨ (call = .exit ∧ s.initproc = some p)

theorem Inv.perform (inv : Inv s) (build : Build) (active : Active s p) (call : Call) :
    (∃ s', Vm.perform build p s call = .ok s' ∧
      Did (Touched s p) (Sound s p call) (fun _ => call = .fork) s s') ∨
    ∃ fault ≠ .file, Vm.perform build p s call = .error fault ∧ Panics s p call := by
  have own : ∀ q, q = p → Touched s p q := fun q => .inl
  have consistent := inv.consistent
  -- calls on descriptors
  have uses : ∀ {s' : System} {call : Call}, Uses p (pages s.mem) s s' →
      Did (Touched s p) (Sound s p call) (fun _ => call = .fork) s s' :=
    fun uses => (inv.uses active uses).mono own id fun _ => id
  have waits : ∀ killed, ∃ s', Prod.snd <$> Vm.wait p killed s = .ok s' ∧
      Did (Touched s p) True (fun _ => False) s s' := by
    intro killed
    rcases inv.wait p killed with ⟨r, ran, -⟩ | ⟨t, s', isChild, ran, did, -⟩
    · rw [ran]
      exact ⟨s, rfl, inv.did⟩
    · rw [ran]
      refine ⟨s', rfl, did.mono ?_ id fun _ => id⟩
      rintro q rfl
      exact .inr isChild.1
  cases call with
  | fork =>
      rcases inv.fork build active with ⟨fault, other, ran, missing⟩ |
        ⟨child, s', ran, did, -⟩
      · exact .inr ⟨fault, other, by simp only [Vm.perform, ran, map_error], .inl ⟨rfl, missing⟩⟩
      · exact .inl ⟨s', by simp only [Vm.perform, ran, map_ok],
          did.mono (fun _ => False.elim) id fun _ _ => rfl⟩
  | exec namei user =>
      rcases inv.exec build active namei user with ⟨s', ran, did⟩
      exact .inl ⟨s', ran, did.mono own id fun _ => False.elim⟩
  | exit =>
      rcases inv.exit build active with ⟨isInit, ran⟩ | ⟨s', ran, did, -⟩
      · exact .inr ⟨.initExiting, nofun, ran, .inr ⟨rfl, isInit⟩⟩
      · exact .inl ⟨s', ran, did.mono (fun _ => id) id fun _ => False.elim⟩
  | wait killed =>
      rcases waits killed with ⟨s', ran, did⟩
      exact .inl ⟨s', ran, did.mono (fun _ => id) id fun _ => False.elim⟩
  | waitnstats killed =>
      rcases waits killed with ⟨s', ran, did⟩
      exact .inl ⟨s', ran, did.mono (fun _ => id) id fun _ => False.elim⟩
  | sbrk n =>
      rcases inv.sbrk build active n with ⟨s', ran, did⟩
      exact .inl ⟨s', ran, did.mono own id fun _ => False.elim⟩
  | pipe fd =>
      rcases consistent.sys_pipe p fd with ⟨ok, s', ran, used⟩
      exact .inl ⟨s', by simp only [Vm.perform, ran, map_ok], uses used⟩
  | dup fd =>
      rcases consistent.sys_dup p fd with ⟨ok, s', ran, used⟩
      exact .inl ⟨s', by simp only [Vm.perform, ran, map_ok], uses used⟩
  | close fd =>
      rcases consistent.sys_close p fd with ⟨ok, s', ran, used⟩
      exact .inl ⟨s', by simp only [Vm.perform, ran, map_ok], uses used⟩
  | openInode readable writable =>
      rcases consistent.sys_open p readable writable with ⟨ok, s', ran, used⟩
      exact .inl ⟨s', by simp only [Vm.perform, ran, map_ok], uses used⟩

/-- A step between the states in which no call runs. -/
theorem Inv.step (inv : Inv s) (build : Build) (active : Active s p) {call : Call}
    (ran : Vm.perform build p s call = .ok s') :
    Did (Touched s p) (Sound s p call) (fun _ => call = .fork) s s' := by
  rcases inv.perform build active call with ⟨s₁, ran₁, did⟩ | ⟨fault, -, failed, -⟩
  · cases ran.symm.trans ran₁
    exact did
  · cases ran.symm.trans failed

end Xv6.Vm
