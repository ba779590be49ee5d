import Xv6.Vm.Boot

/-!
# Conservation of pages

In every run of system calls from boot, whatever calls of `kalloc` fail, every page that has been
handed to the allocator is free or has exactly one owner; and if no process gives all its memory back,
no page of a live process is ever missing.
-/

namespace Xv6.Vm

open Ownership Fallible References Relation

variable {s s' s₁ s₂ : System} {build : Build} {p c q : Slot} {linked : Linked} {ncpu : ℕ}
  {init : List (BitVec 8)} {fails : ℕ → Bool}

/-- From now on, the calls of `kalloc` fail that `fails` says. -/
def failing (s : System) (fails : ℕ → Bool) : System := { s with mem := { s.mem with fails } }

/-- The states between system calls. -/
def Reach (build : Build) (linked : Linked) (ncpu : ℕ) (init : List (BitVec 8)) (fails : ℕ → Bool)
    (s : System) : Prop :=
  ∃ s₀, boot linked ncpu init = .ok (some s₀) ∧ ReflTransGen (Step build) (failing s₀ fails) s

theorem boot_short (booted : boot linked ncpu init = .ok (some s)) : init.length < pgsize := by
  by_contra long
  unfold boot at booted
  rcases bind_eq_ok.1 booted with ⟨m, -, booted⟩
  rcases bind_eq_ok.1 booted with ⟨⟨dir, m₁⟩, -, booted⟩
  cases dir with
  | none => cases booted
  | some dir =>
      dsimp only at booted
      split at booted
      · cases booted
      · rcases bind_eq_ok.1 booted with ⟨m₂, -, booted⟩
        unfold userinit at booted
        split at booted
        · cases booted
        · rcases bind_eq_ok.1 booted with ⟨⟨dir', m₃⟩, -, booted⟩
          cases dir' with
          | none => cases booted
          | some dir' =>
              dsimp only at booted
              unfold inituvm at booted
              rw [if_pos (Nat.not_lt.1 long)] at booted
              cases booted

theorem Ready.failing (ready : Ready s) (fails : ℕ → Bool) : Ready (failing s fails) := by
  have inv := ready.inv
  have sized := inv.sized
  have partition := inv.consistent.partition
  have same : ∀ o, owns (Vm.failing s fails) o = owns s o := fun o => by cases o <;> rfl
  have files := inv.consistent.files
  refine ⟨⟨⟨⟨files.refs, files.unused, files.opened, files.single⟩, partition.nodup,
    partition.owned.congr same, partition.valid⟩, fun q used => ?_, inv.closed, inv.settled, inv.parent,
    inv.init⟩, ready.filled⟩
  exact ⟨(sized q used).positive, (sized q used).bound, (sized q used).above⟩

theorem boot_ready (booted : boot linked ncpu init = .ok (some s)) : Ready s := by
  rcases boot_ok linked ncpu (boot_short booted) with ⟨failed, -⟩ | ⟨s', booted', ready, -⟩
  · cases failed.symm.trans booted
  · cases booted.symm.trans booted'
    exact ready

theorem inv_of_reach (reach : Reach build linked ncpu init fails s) : Inv s := by
  rcases reach with ⟨s₀, booted, run⟩
  induction run with
  | refl => exact ((boot_ready booted).failing fails).inv
  | tail _ step ih =>
      rcases step with ⟨p, call, active, ran⟩
      exact (ih.step build active ran).inv

theorem Reach.step {call : Call}
    (reach : Reach build linked ncpu init fails s) (active : Active s p)
    (ran : perform build p s call = .ok s') : Reach build linked ncpu init fails s' := by
  rcases reach with ⟨s₀, booted, run⟩
  exact ⟨s₀, booted, run.tail ⟨p, call, active, ran⟩⟩

/-- The first process can always make system calls. -/
theorem Inv.first (inv : Inv s) (isInit : s.initproc = some p) : Active s p := by
  rcases inv.init with ⟨i, isInit', active⟩
  cases isInit.symm.trans isInit'
  exact active

/-! ## A child that comes and goes -/

/-- What is owned is determined by the processes. -/
theorem Inv.owns_eq (inv : Inv s) (did : Did (fun _ => False) False (fun _ => True) s s')
    (gone : ∀ q, Used s' q → Used s q) (o : Owner) : owns s' o = owns s o := by
  have spares : ∀ q, Used s q → Spares s s' q := fun q used => did.spares q used id
  have unused : ∀ q, (s'.proc q).state = .unused ↔ (s.proc q).state = .unused := by
    intro q
    constructor
    · intro is
      by_contra used
      rw [(spares q used).proc] at is
      exact used is
    · intro is
      by_contra used
      exact gone q used is
  cases o with
  | kpgdir part =>
      simp only [owns]
      rw [did.kpgdir]
      exact did.kernel part
  | cpuStack i => simp only [owns, did.cpuStacks]
  | kstack p =>
      simp only [owns, unused]
      split
      · rfl
      · rename_i used
        rw [(spares p used).proc]
  | space p part =>
      simp only [owns, unused]
      split
      · rfl
      · rename_i used
        rw [(spares p used).proc, (spares p used).own]
  | pipe page =>
      have files := inv.consistent.files
      have files' := did.inv.consistent.files
      -- an end of a pipe is open as long as a process holds a descriptor for it
      have held : ∀ {s : System} {writable f}, Inv s → End s page writable f →
          ∃ q fd, Used s q ∧ (s.proc q).ofile fd = some f := by
        intro s writable f inv isEnd
        have refs := inv.consistent.files.refs f
        have used : (s.file f).ref ≠ 0 := fun none => inv.consistent.files.unused_other none isEnd.1
        have some : count (descriptors s) f ≠ 0 := by
          rw [List.count_nil] at refs
          omega
        rw [Ne, count_eq_zero] at some
        push Not at some
        rcases some with ⟨⟨q, fd⟩, holds⟩
        refine ⟨q, fd, ?_, holds⟩
        by_contra unused
        cases (inv.closed q (fun active => unused active.used) fd).symm.trans holds
      have ends : ∀ writable f, End s' page writable f ↔ End s page writable f := by
        intro writable f
        have same : ∀ {q fd}, Used s q → (s.proc q).ofile fd = some f →
            (End s' page writable f ↔ End s page writable f) := by
          intro q fd used holds
          have kinds := (spares q used).kind fd f holds
          unfold kind at kinds
          rcases Prod.mk.inj kinds with ⟨type, rest⟩
          rcases Prod.mk.inj rest with ⟨pipe, writes⟩
          unfold End
          rw [type, pipe, writes]
        constructor
        · intro isEnd
          rcases held did.inv isEnd with ⟨q, fd, used, holds⟩
          rw [(spares q (gone q used)).proc] at holds
          exact (same (gone q used) holds).1 isEnd
        · intro isEnd
          rcases held inv isEnd with ⟨q, fd, used, holds⟩
          exact (same used holds).2 isEnd
      have isOpen : (∃ writable, (s'.pipe page).isOpen writable = true) ↔
          ∃ writable, (s.pipe page).isOpen writable = true := by
        refine exists_congr fun writable => ?_
        rw [files'.opened, files.opened]
        exact exists_congr (ends writable)
      rw [owns_pipe, owns_pipe]
      simp only [isOpen]

theorem Inv.kmemtop_eq (inv : Inv s) (did : Did (fun _ => False) False (fun _ => True) s s')
    (gone : ∀ q, Used s' q → Used s q) : kmemtop s'.mem = kmemtop s.mem := by
  have partition := inv.consistent.partition
  have partition' := did.inv.consistent.partition
  have same : pages s'.mem = pages s.mem := by
    unfold pages
    rw [did.linked]
  have owned' : Owned s'.mem.free (owns s) (pages s.mem) := by
    have owned := partition'.owned
    rw [same, funext (inv.owns_eq did gone)] at owned
    exact owned
  have free := partition.owned.free_eq owned'
  unfold kmemtop
  rw [← ncard_free partition.nodup, ← ncard_free partition'.nodup, free]

/-- Some system calls of some processes. -/
def StepOf (build : Build) (allowed : Slot → Call → Prop) (s s' : System) : Prop :=
  ∃ p call, allowed p call ∧ Active s p ∧ perform build p s call = .ok s'

theorem StepOf.mono {allowed allowed' : Slot → Call → Prop}
    (run : ReflTransGen (StepOf build allowed) s s')
    (more : ∀ q call, allowed q call → allowed' q call) :
    ReflTransGen (StepOf build allowed') s s' := by
  induction run with
  | refl => exact .refl
  | tail _ step ih =>
      rcases step with ⟨q, call, may, active, ran⟩
      exact ih.tail ⟨q, call, more q call may, active, ran⟩

/-- What processes do that are not there in `s` is not noticed by those that are. -/
theorem Inv.others (inv : Inv s) (did : Did (fun _ => False) False (fun _ => True) s s₁)
    (run : ReflTransGen (StepOf build fun q _ => ¬Used s q) s₁ s₂) :
    Did (fun _ => False) False (fun _ => True) s s₂ := by
  induction run with
  | refl => exact did
  | tail _ step ih =>
      rcases step with ⟨p, call, new, active, ran⟩
      have next := (ih.inv.step build active ran).mono (fun _ => id) False.elim fun _ _ => trivial
      refine ih.trans next fun q used _ => ⟨id, fun spares touched => ?_⟩
      rcases touched with rfl | child
      · exact new used
      · rw [spares.proc] at child
        exact new (inv.parent q p used child).used

/-- A process appears only if there is a `fork`. -/
theorem Inv.unborn {allowed : Slot → Call → Prop} (inv : Inv s)
    (run : ReflTransGen (StepOf build allowed) s s') (noFork : ∀ q, ¬allowed q .fork) :
    ∀ q, Used s' q → Used s q := by
  have both : Inv s' ∧ ∀ q, Used s' q → Used s q := by
    induction run with
    | refl => exact ⟨inv, fun _ => id⟩
    | tail _ step ih =>
        rcases step with ⟨p, call, may, active, ran⟩
        have did := ih.1.step build active ran
        refine ⟨did.inv, fun q used => ih.2 q ?_⟩
        by_contra unused
        have isFork := did.fresh q used unused
        subst isFork
        exact noFork p may
  exact both.2

/-! ## The first two processes -/

/-- `fork` makes a child if there are a slot and enough pages for it. -/
theorem Ready.forks (ready : Ready s) (build : Build) (active : Active s p) (slot : ∃ t, ¬Used s t)
    (many : 1027 + pagesOf (s.proc p).sz < s.mem.freelist.length)
    (reliable : ∀ call, s.mem.fails call = false) :
    ∃ c s', fork build p s = .ok (some c, s') ∧ Did (fun _ => False) True (some c = some ·) s s' ∧
      ¬Used s c ∧ (s'.proc c).parent = some p ∧ Active s' c := by
  rcases ready.inv.fork build active with ⟨fault, -, -, missing⟩ | ⟨child, s', ran, did, isChild, failed⟩
  · exact absurd (ready.filled p active.used) missing
  · cases child with
    | some c =>
        rcases isChild c rfl with ⟨unused, parent, active'⟩
        exact ⟨c, s', ran, did, unused, parent, active'⟩
    | none =>
        exfalso
        rcases failed rfl with all | few | ⟨call, fails⟩
        · rcases slot with ⟨t, unused⟩
          exact unused (all t)
        · exact absurd few (Nat.not_le.2 many)
        · rw [reliable] at fails
          cases fails

/-- A process that has exited is reaped by its parent. -/
theorem Inv.reaps (inv : Inv s) (killed : Bool) (parent : (s.proc c).parent = some p)
    (zombie : (s.proc c).state = .zombie)
    (only : ∀ q, (s.proc q).parent = some p → (s.proc q).state = .zombie → q = c) :
    ∃ s', Vm.wait p killed s = .ok (.reaped c, s') := by
  rcases inv.wait p killed with ⟨r, -, -, notZombie⟩ | ⟨t, s', isZombie, ran, -⟩
  · exact absurd zombie (notZombie c parent)
  · cases only t isZombie.1 isZombie.2
    exact ⟨s', ran⟩

/-- A `fork` whose first call of `kalloc` fails. -/
theorem fork_refused (build : Build) (p : Slot) (fails : s.mem.fails s.mem.calls = true) : ∃ s', fork build p s = .ok (none, s') := by
  have refused : kalloc s.mem = (none, { s.mem with calls := s.mem.calls + 1 }) := by
    unfold kalloc
    rw [fails]
    rfl
  unfold fork allocproc
  cases (List.finRange nproc).find? fun p => (s.proc p).state = .unused with
  | none => exact ⟨_, rfl⟩
  | some np =>
      dsimp only
      rw [refused]
      exact ⟨_, rfl⟩

/-- `growproc` changes only the size of the process. -/
theorem growproc_same {n : BitVec 32} {proc proc' : Proc} {m m' : Mem} {ok : Bool}
    (ran : growproc n proc m = .ok (ok, proc', m')) : { proc' with sz := proc.sz } = proc := by
  unfold growproc at ran
  dsimp only at ran
  split at ran
  · rcases bind_eq_ok.1 ran with ⟨⟨sz, m₁⟩, -, rest⟩
    dsimp only at rest
    split at rest <;> cases rest <;> rfl
  · split at ran
    · rcases bind_eq_ok.1 ran with ⟨⟨sz, m₁⟩, -, rest⟩
      dsimp only at rest
      split at rest <;> cases rest <;> rfl
    · cases ran
      rfl

theorem sbrk_same {n : BitVec 32} (ran : perform build p s (.sbrk n) = .ok s') :
    (s'.proc p).state = (s.proc p).state ∧ (s'.proc p).parent = (s.proc p).parent := by
  rcases bind_eq_ok.1 ran with ⟨⟨ok, proc, m⟩, grown, done⟩
  have same := growproc_same grown
  cases done
  rw [setProc_self, ← same]
  exact ⟨rfl, rfl⟩

/-- The first two entries of the file table are the ends of the pipe `x`. -/
def pipeFiles (x : Page) : Fin nfile → File :=
  Function.update (Function.update (fun _ => {}) 0
    { type := .pipe, ref := 1, readable := true, pipe := x }) 1
    { type := .pipe, ref := 1, writable := true, pipe := x }

/-- The first two descriptors of a process. -/
def pipeEnds : Fin nofile → Option (Fin nfile) :=
  Function.update (Function.update (fun _ => none) 0 (some 0)) 1 (some 1)

/-- The first process has opened a pipe. -/
structure Piped (s s' : System) (p : Slot) (x : Page) : Prop where
  mem : s'.mem = { s.mem with calls := s.mem.calls + 1, freelist := s.mem.freelist.tail }
  file : s'.file = pipeFiles x
  isOpen : s'.pipe x = { readopen := true, writeopen := true }
  proc : s'.proc = Function.update s.proc p { s.proc p with ofile := pipeEnds }
  initproc : s'.initproc = s.initproc

theorem sys_pipe_first {x : Page} {freelist : List Page} (file : s.file = fun _ => {})
    (closed : (s.proc p).ofile = fun _ => none) (size : (s.proc p).sz = pgsize)
    (list : s.mem.freelist = x :: freelist) (reliable : s.mem.fails s.mem.calls = false) :
    ∃ s', sys_pipe p 0 s = .ok (true, s') ∧ Piped s s' p x := by
  have allocated : kalloc s.mem = (some x, { s.mem with calls := s.mem.calls + 1, freelist }) := by
    unfold kalloc
    rw [reliable, list]
    rfl
  have first : filealloc s = (some 0, s.setFile 0 { ref := 1 }) := by
    unfold filealloc
    simp only [file]
    rfl
  have second : filealloc (s.setFile 0 { ref := 1 }) =
      (some 1, (s.setFile 0 { ref := 1 }).setFile 1 { ref := 1 }) := by
    unfold filealloc System.setFile
    simp only [file]
    rfl
  have pipe : pipealloc s = .ok (some (0, 1), { s with
      mem := { s.mem with calls := s.mem.calls + 1, freelist }
      file := pipeFiles x
      pipe := Function.update s.pipe x { readopen := true, writeopen := true } }) := by
    unfold pipealloc
    rw [first]
    dsimp only
    rw [second]
    dsimp only
    have same : ((s.setFile 0 { ref := 1 }).setFile 1 { ref := 1 }).mem = s.mem := rfl
    rw [same, allocated]
    simp only [System.setFile, System.setPipe, file]
    refine congrArg Except.ok (congrArg (Prod.mk _) ?_)
    congr 1
    funext f
    by_cases isSecond : f = 1
    · simp [pipeFiles, isSecond]
    · by_cases isFirst : f = 0
      · simp [pipeFiles, isFirst]
      · simp [pipeFiles, isFirst, isSecond]
  unfold sys_pipe
  rw [size, if_neg (by decide)]
  rw [pipe]
  simp only [bind_ok]
  generalize made : ({ s with
      mem := { s.mem with calls := s.mem.calls + 1, freelist }
      file := pipeFiles x
      pipe := Function.update s.pipe x { readopen := true, writeopen := true } } : System) = t
  have proc : t.proc = s.proc := by rw [← made]
  have place : fdalloc p 0 t = (some 0, t.setOfile p 0 (some 0)) := by
    unfold fdalloc
    simp only [proc, closed]
    rfl
  have next : fdalloc p 1 (t.setOfile p 0 (some 0)) =
      (some 1, (t.setOfile p 0 (some 0)).setOfile p 1 (some 1)) := by
    unfold fdalloc
    simp only [System.setOfile, System.setProc, Function.update_self, proc, closed]
    rfl
  rw [place]
  dsimp only
  rw [next]
  refine ⟨_, rfl, ?_, ?_, ?_, ?_, ?_⟩
  · rw [list, ← made]
    rfl
  · rw [← made]
    rfl
  · rw [← made]
    exact Function.update_self _ _ _
  · simp only [System.setOfile, System.setProc, Function.update_self, Function.update_idem, proc, closed]
    rfl
  · rw [← made]
    rfl

/-- The addresses of a small kernel. -/
def smallKernel : Linked := manyPages.linked

/-- The first process has opened a pipe and forked. -/
structure Forked (build : Build) (s s₁ s₂ : System) (p c : Slot) (x : Page) : Prop where
  pipe : sys_pipe p 0 s = .ok (true, s₁)
  piped : Piped s s₁ p x
  fork : fork build p s₁ = .ok (some c, s₂)
  before : Active s p
  active : Active s₁ p
  child : Active s₂ c
  parent : (s₂.proc c).parent = some p
  different : p ≠ c
  first : s₂.initproc = some p
  same : s₂.proc p = s₁.proc p
  used : ∀ q, Used s₂ q → q = p ∨ q = c
  inv : Inv s₂

theorem Forked.calls {x : Page} (run : Forked build s s₁ s₂ p c x) :
    perform build p s (.pipe 0) = .ok s₁ ∧ perform build p s₁ .fork = .ok s₂ := by
  constructor
  · rw [perform, run.pipe]
    rfl
  · rw [perform, run.fork]
    rfl

theorem smallKernel_forks (build : Build) :
    ∃ s s₁ s₂ p c x, boot smallKernel 2 [] = .ok (some s) ∧
      Forked build (failing s fun _ => false) s₁ s₂ p c x := by
  rcases boot_ok smallKernel 2 (show ([] : List (BitVec 8)).length < pgsize by decide) with
    ⟨-, large | many⟩ | ⟨s, booted, ready, started, many⟩
  · exact absurd large (by decide)
  · exact absurd many (by decide)
  rcases started.first with ⟨p, isInit, size, noParent, only⟩
  have ready₀ := ready.failing fun _ => false
  have active : Active (failing s fun _ => false) p := ready₀.inv.first isInit
  have list : ∃ x freelist, (failing s fun _ => false).mem.freelist = x :: freelist := by
    apply List.exists_cons_of_ne_nil
    intro empty
    have none : s.mem.freelist = [] := empty
    rw [none] at many
    exact absurd many (by decide)
  rcases list with ⟨x, freelist, list⟩
  have reliable₀ : (failing s fun _ => false).mem.fails (failing s fun _ => false).mem.calls = false := rfl
  rcases sys_pipe_first (s := failing s fun _ => false) started.file (started.closed p) size list
    reliable₀ with ⟨s₁, called, piped⟩
  have called' : perform build p (failing s fun _ => false) (.pipe 0) = .ok s₁ := by
    rw [perform, called]
    rfl
  have did := ready₀.inv.step build active called'
  have ready₁ : Ready s₁ := ⟨did.inv, did.filled trivial ready₀.filled⟩
  have proc : ∀ q, (s₁.proc q).state = (s.proc q).state ∧ (s₁.proc q).sz = (s.proc q).sz := by
    intro q
    rw [piped.proc]
    by_cases isP : q = p
    · subst isP
      rw [Function.update_self]
      exact ⟨rfl, rfl⟩
    · rw [Function.update_of_ne isP]
      exact ⟨rfl, rfl⟩
  have active₁ : Active s₁ p := (Active.congr (proc p).1).2 active
  have only₁ : ∀ q, Used s₁ q → q = p := fun q used =>
    only q fun unused => used ((proc q).1.trans unused)
  have slot : ∃ t, ¬Used s₁ t := by
    by_contra all
    push Not at all
    have zero := only₁ 0 (all 0)
    have one := only₁ 1 (all 1)
    exact absurd (zero.trans one.symm) (by decide)
  have enough : 1027 + pagesOf (s₁.proc p).sz < s₁.mem.freelist.length := by
    have left : s₁.mem.freelist.length = s.mem.freelist.length - 1 := by
      rw [piped.mem]
      exact List.length_tail
    rw [(proc p).2, size, pagesOf_pgsize, left]
    omega
  have reliable : ∀ call, s₁.mem.fails call = false := by
    rw [piped.mem]
    exact fun _ => rfl
  rcases ready₁.forks build active₁ slot enough reliable with
    ⟨c, s₂, forked, did₂, unused, parent, child⟩
  refine ⟨s, s₁, s₂, p, c, x, booted, called, piped, forked, active, active₁, child, parent, ?_, ?_, ?_,
    fun q used => ?_, did₂.inv⟩
  · rintro rfl
    exact unused active₁.used
  · rw [did₂.initproc, piped.initproc]
    exact isInit
  · exact (did₂.spares p active₁.used id).proc
  · by_cases used₁ : Used s₁ q
    · exact .inl (only₁ q used₁)
    · exact .inr (Option.some.inj (did₂.fresh q used used₁)).symm

/-! ## Ownership -/

/-- In every state between system calls, every page that has been handed to the allocator is free,
once, or has exactly one owner, and the only panics are those of `fork` with a missing page and of
`initproc` exiting. As much memory is free as before when a child that has been forked has exited
and been waited for, if nothing is left of what it has forked; there is nothing to be left if it does
not call `fork`. -/
theorem page_ownership (build : Build) (linked : Linked) (ncpu : ℕ) (init : List (BitVec 8))
    (fails : ℕ → Bool) (s : System) (reach : Reach build linked ncpu init fails s) :
    Partition s.mem (owns s) (pages s.mem) ∧
    (∀ p call, Active s p →
      (∃ s', perform build p s call = .ok s') ∨
      ∃ fault, perform build p s call = .error fault ∧ Panics s p call) ∧
    ∀ p c s₁ s₂ s₃ killed, Active s p → fork build p s = .ok (some c, s₁) →
      wait p killed s₂ = .ok (.reaped c, s₃) →
      (ReflTransGen (StepOf build fun q _ => ¬Used s q) s₁ s₂ → (∀ q, Used s₃ q → Used s q) →
        kmemtop s₃.mem = kmemtop s.mem) ∧
      (ReflTransGen (StepOf build fun q call => q = c ∧ call ≠ .fork) s₁ s₂ →
        kmemtop s₃.mem = kmemtop s.mem) := by
  have inv := inv_of_reach reach
  refine ⟨inv.consistent.partition, fun p call active => ?_, ?_⟩
  · rcases inv.perform build active call with ⟨s', ran, -⟩ | ⟨fault, -, failed⟩
    · exact .inl ⟨s', ran⟩
    · exact .inr ⟨fault, failed⟩
  · intro p c s₁ s₂ s₃ killed active forked waited
    rcases inv.fork build active with ⟨fault, -, failed, -⟩ | ⟨child, s', ran, did, fresh, -⟩
    · cases forked.symm.trans failed
    cases forked.symm.trans ran
    have general : ReflTransGen (StepOf build fun q _ => ¬Used s q) s₁ s₂ →
        (∀ q, Used s₃ q → Used s q) → kmemtop s₃.mem = kmemtop s.mem := by
      intro run gone
      have did₂ := inv.others (did.mono (fun _ => id) False.elim fun _ _ => trivial) run
      rcases did₂.inv.wait p killed with ⟨r, ran, notReaped, -⟩ | ⟨t, s', -, ran, reaped, -⟩
      · cases waited.symm.trans ran
        exact absurd rfl (notReaped c)
      · cases waited.symm.trans ran
        refine inv.kmemtop_eq (did₂.trans (reaped.mono (fun _ => id) False.elim fun _ => False.elim)
          fun q used _ => ⟨id, fun _ isChild => ?_⟩) gone
        subst isChild
        exact (fresh q rfl).1 used
    refine ⟨general, fun run => ?_⟩
    have news : ReflTransGen (StepOf build fun q _ => ¬Used s q) s₁ s₂ := by
      refine StepOf.mono run ?_
      rintro q call ⟨rfl, -⟩
      exact (fresh q rfl).1
    refine general news fun q used => ?_
    · have before := did.inv.unborn run fun _ both => both.2 rfl
      have inv₂ : Inv s₂ :=
        (inv.others (did.mono (fun _ => id) False.elim fun _ _ => trivial) news).inv
      rcases inv₂.wait p killed with ⟨r, ran, notReaped, -⟩ | ⟨t, s', -, ran, reaped, unused⟩
      · cases waited.symm.trans ran
        exact absurd rfl (notReaped c)
      · cases waited.symm.trans ran
        by_contra new
        have used₂ : Used s₂ q := not_not.1 fun unused₂ => reaped.fresh q used unused₂
        have isChild := Option.some.inj (did.fresh q (before q used₂) new)
        exact unused (isChild ▸ used)

/-- The first process opens a pipe and forks, the child asks for memory and exits, and the first
process waits for it. Where no call of `kalloc` succeeds, the process does not get a child. -/
theorem page_ownership_childGone :
    ∃ s s₁ s₂ s₃ s₄ s₅ p c, boot smallKernel 2 [] = .ok (some s) ∧
      sys_pipe p 0 (failing s fun _ => false) = .ok (true, s₁) ∧
      fork .dmlq p s₁ = .ok (some c, s₂) ∧ perform .dmlq c s₂ (.sbrk 4096) = .ok s₃ ∧
      perform .dmlq c s₃ .exit = .ok s₄ ∧ wait p false s₄ = .ok (.reaped c, s₅) ∧
      Partition s₅.mem (owns s₅) (pages s₅.mem) ∧ kmemtop s₅.mem = kmemtop s₁.mem ∧
      ∃ s', fork .dmlq p (failing s fun _ => true) = .ok (none, s') ∧
        Partition s'.mem (owns s') (pages s'.mem) := by
  rcases smallKernel_forks .dmlq with ⟨s, s₁, s₂, p, c, x, booted, run⟩
  rcases run.inv.sbrk .dmlq run.child 4096 with ⟨s₃, grown, did₃⟩
  have same := sbrk_same grown
  have child₃ : Active s₃ c := (Active.congr same.1).2 run.child
  have first₃ : s₃.initproc = some p := did₃.initproc.trans run.first
  have notInit : s₃.initproc ≠ some c := by
    rw [first₃]
    exact fun is => run.different (Option.some.inj is)
  rcases did₃.inv.exit .dmlq child₃ with ⟨isInit, -⟩ | ⟨s₄, exited, did₄, zombie, parent⟩
  · exact absurd isInit notInit
  have parent₃ : (s₃.proc c).parent = some p := same.2.trans run.parent
  have first₄ : s₄.initproc = some p := did₄.initproc.trans first₃
  have active₄ : Active s₄ p := did₄.inv.first first₄
  have parent₄ : (s₄.proc c).parent = some p := by
    rw [parent, parent₃]
    rw [parent₃]
    exact fun is => run.different (Option.some.inj is)
  have only : ∀ q, (s₄.proc q).parent = some p → (s₄.proc q).state = .zombie → q = c := by
    intro q _ isZombie
    have used₄ : Used s₄ q := fun unused => by cases isZombie.symm.trans unused
    have used₃ : Used s₃ q := not_not.1 fun unused => did₄.fresh q used₄ unused
    have used₂ : Used s₂ q := not_not.1 fun unused => did₃.fresh q used₃ unused
    refine (run.used q used₂).resolve_left ?_
    rintro rfl
    exact active₄.2.2 isZombie
  rcases did₄.inv.reaps false parent₄ zombie only with ⟨s₅, waited⟩
  have reach₁ : Reach .dmlq smallKernel 2 [] (fun _ => false) s₁ :=
    ⟨s, booted, .single ⟨p, .pipe 0, run.before, run.calls.1⟩⟩
  have called₅ : perform .dmlq p s₄ (.wait false) = .ok s₅ := by
    rw [perform, waited]
    rfl
  have reach₄ := ((reach₁.step run.active run.calls.2).step run.child grown).step child₃ exited
  have life : ReflTransGen (StepOf .dmlq fun q call => q = c ∧ call ≠ .fork) s₂ s₄ :=
    .tail (.single ⟨c, .sbrk 4096, ⟨rfl, by simp⟩, run.child, grown⟩)
      ⟨c, .exit, ⟨rfl, by simp⟩, child₃, exited⟩
  rcases fork_refused (s := failing s fun _ => true) .dmlq p rfl with ⟨s', refused⟩
  have reach' : Reach .dmlq smallKernel 2 [] (fun _ => true) s' := by
    refine ⟨s, booted, .single ⟨p, .fork, run.before, ?_⟩⟩
    rw [perform, refused]
    rfl
  exact ⟨s, s₁, s₂, s₃, s₄, s₅, p, c, booted, run.pipe, run.fork, grown, exited, waited,
    (page_ownership .dmlq smallKernel 2 [] (fun _ => false) s₅
      (reach₄.step active₄ called₅)).1,
    ((page_ownership .dmlq smallKernel 2 [] (fun _ => false) s₁ reach₁).2.2 p c s₂ s₄ s₅ false
      run.active run.fork waited).2 life, s', refused,
    (page_ownership .dmlq smallKernel 2 [] (fun _ => true) s' reach').1⟩

/-! ## The promise of `growproc` -/

/-- The states between system calls when `sbrk` never asks for a size that is not positive. -/
def SoundReach (build : Build) (linked : Linked) (ncpu : ℕ) (init : List (BitVec 8))
    (fails : ℕ → Bool) (s : System) : Prop :=
  ∃ s₀, boot linked ncpu init = .ok (some s₀) ∧ ReflTransGen (fun s s' =>
    ∃ p call, Active s p ∧ Sound s p call ∧ perform build p s call = .ok s') (failing s₀ fails) s

theorem ready_of_soundReach (reach : SoundReach build linked ncpu init fails s) : Ready s := by
  rcases reach with ⟨s₀, booted, run⟩
  induction run with
  | refl => exact (boot_ready booted).failing fails
  | tail _ step ih =>
      rcases step with ⟨p, call, active, sound, ran⟩
      have did := ih.inv.step build active ran
      exact ⟨did.inv, did.filled sound ih.filled⟩

theorem Ready.exact (ready : Ready s) (used : Used s p) : Exact (s.proc p) s.mem := by
  intro w user
  constructor
  · rintro ⟨page, present⟩
    by_contra above
    cases ((ready.inv.sized p used).above w user (Nat.not_lt.1 above)).symm.trans present
  · exact ready.filled p used w

/-- `growproc` keeps its promise exactly if the new size is positive. In runs in which every `sbrk`
asks for a positive size, exactly the pages below the size of a process are present in every state
between system calls, and `fork` does not panic. -/
theorem growproc_promise (m : Mem) (p : Proc) (pool : Set Page) (n : BitVec 32) :
    (Space m p.pgdir pool → 0 < p.sz → p.sz < kernbase → Exact p m →
      ((∃ result, growproc n p m = .ok result ∧ Grown p n m result) ↔
        0 < (p.sz : ℤ) + n.toInt)) ∧
    ∀ build linked ncpu init fails s, SoundReach build linked ncpu init fails s →
      ∀ p, Active s p → 0 < (s.proc p).sz ∧ (s.proc p).sz < kernbase ∧ Exact (s.proc p) s.mem ∧
        ∀ fault, perform build p s .fork ≠ .error fault := by
  refine ⟨fun space positive size exact => growproc_iff space positive size exact, ?_⟩
  intro build linked ncpu init fails s reach p active
  have ready := ready_of_soundReach reach
  have sized := ready.inv.sized p active.used
  refine ⟨sized.positive, sized.bound, ready.exact active.used, fun fault failed => ?_⟩
  rcases ready.inv.fork build active with ⟨fault', -, -, missing⟩ | ⟨child, s', ran, -⟩
  · exact missing (ready.filled p active.used)
  · rw [perform, ran] at failed
    cases failed

/-- A process with one page. -/
def onePage : Mem :=
  match mappages 0x1000 0 pgsize 0x1001 writableUser
    ({ soleProcess.mem with calls := 2, freelist := List.range' 0x1002 1998 }.zero 0x1001) with
  | .ok (_, m) => m
  | .error _ => manyPages

theorem onePage_exact : Space onePage 0x1000 manyPages.free ∧ Exact soleProcess.proc onePage := by
  rcases manyPages_idle.directory rfl with ⟨space, -, -, empty⟩
  have space : Space soleProcess.mem 0x1000 manyPages.free := space
  have list : soleProcess.mem.freelist = 0x1001 :: List.range' 0x1002 1998 := rfl
  rcases space.takePage list zeroed with ⟨space₁, -, inPool, images, -⟩
  have absent : ∀ v < userPages, image soleProcess.mem 0x1000 v = none := by
    intro v user
    rw [image_eq_none]
    exact congrArg Pte.present (empty v)
  have first : 0 < userPages := by decide
  let taken := { soleProcess.mem with calls := 2, freelist := List.range' 0x1002 1998 }.zero 0x1001
  have enough : (mappages 0x1000 0 pgsize 0x1001 writableUser taken).map Prod.fst = .ok true := rfl
  rcases space₁.mapPage writableUser inPool (space.valid _ inPool) first
    ((images 0 first).trans (absent 0 first)) with ⟨m', failed, -⟩ | ⟨m', mapped, becomes⟩
  · have failed' : mappages 0x1000 0 pgsize 0x1001 writableUser taken = .ok (false, m') := failed
    rw [failed'] at enough
    cases enough
  · have mapped' : mappages 0x1000 0 pgsize 0x1001 writableUser taken = .ok (true, m') := mapped
    have isOne : onePage = m' := by
      unfold onePage
      change (match mappages 0x1000 0 pgsize 0x1001 writableUser taken with
        | .ok (_, m) => m
        | .error _ => manyPages) = m'
      rw [mapped']
    rw [isOne]
    refine ⟨becomes.space, fun w user => ?_⟩
    have size : pagesOf soleProcess.proc.sz = 1 := rfl
    change (∃ page, image m' 0x1000 w = some page) ↔ w < pagesOf soleProcess.proc.sz
    rw [becomes.image w user, size]
    by_cases isFirst : w = 0
    · rw [isFirst, Function.update_self]
      exact ⟨fun _ => Nat.one_pos, fun _ => ⟨_, rfl⟩⟩
    · rw [Function.update_of_ne isFirst, images w user, absent w user]
      exact ⟨nofun, fun below => absurd (Nat.lt_one_iff.1 below) isFirst⟩

/-- The process grows, and after the boot the first process opens a pipe and forks, and its child
grows. -/
theorem growproc_promise_kept :
    (∃ result, growproc 4096 soleProcess.proc onePage = .ok result ∧
      Grown soleProcess.proc 4096 onePage result) ∧
    ∃ s s₁ s₂ s₃ p c, boot smallKernel 2 [] = .ok (some s) ∧
      sys_pipe p 0 (failing s fun _ => false) = .ok (true, s₁) ∧
      fork .dmlq p s₁ = .ok (some c, s₂) ∧ perform .dmlq c s₂ (.sbrk 4096) = .ok s₃ ∧
      Exact (s₃.proc c) s₃.mem ∧ ∀ fault, perform .dmlq c s₃ .fork ≠ .error fault := by
  have promise := growproc_promise onePage soleProcess.proc manyPages.free 4096
  refine ⟨(promise.1 onePage_exact.1 (by decide) (by decide) onePage_exact.2).2 (by decide), ?_⟩
  rcases smallKernel_forks .dmlq with ⟨s, s₁, s₂, p, c, x, booted, run⟩
  rcases run.inv.sbrk .dmlq run.child 4096 with ⟨s₃, grown, -⟩
  have child₃ : Active s₃ c := (Active.congr (sbrk_same grown).1).2 run.child
  have sound : Sound s₂ c (.sbrk 4096) := by
    have isSize : (4096 : BitVec 32).toInt = 4096 := by decide
    unfold Sound
    omega
  have reach : SoundReach .dmlq smallKernel 2 [] (fun _ => false) s₃ :=
    ⟨s, booted, .tail (.tail (.single ⟨p, .pipe 0, run.before, trivial, run.calls.1⟩)
      ⟨p, .fork, run.active, trivial, run.calls.2⟩) ⟨c, .sbrk 4096, run.child, sound, grown⟩⟩
  have kept := promise.2 .dmlq smallKernel 2 [] (fun _ => false) s₃ reach c child₃
  exact ⟨s, s₁, s₂, s₃, p, c, booted, run.pipe, run.fork, grown, kept.2.2.1, kept.2.2.2⟩

/-- A process that gives all its memory back is told that nothing has happened. -/
theorem growproc_incorrect :
    ¬∀ (m : Mem) (p : Proc) (pool : Set Page) (n : BitVec 32), Space m p.pgdir pool → 0 < p.sz →
      p.sz < kernbase → Exact p m → ∃ result, growproc n p m = .ok result ∧ Grown p n m result := by
  intro promise
  have kept := promise onePage soleProcess.proc manyPages.free (-4096) onePage_exact.1
    (by decide) (by decide) onePage_exact.2
  have positive := (growproc_iff onePage_exact.1 (by decide) (by decide) onePage_exact.2).1 kept
  exact absurd positive (by decide)

end Xv6.Vm
