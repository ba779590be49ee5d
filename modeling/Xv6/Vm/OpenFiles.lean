import Xv6.Vm.Conservation

/-!
# The open-file table

References, descriptors and the ends of pipes agree in every state between system calls, and the
page of a pipe is freed by the call that closes its last end.
-/

namespace Xv6.Vm

open Ownership Fallible References Relation

variable {s s' : System} {build : Build} {p c np : Slot} {page : Page} {call : Call}
  {held : List (Fin nfile)} {pool : Set Page} {fd : Fin nofile} {f : Fin nfile}

/-- A pipe has its page as long as one of its ends is open. -/
def Pipe.Allocated (pipe : Pipe) : Prop := ∃ writable, pipe.isOpen writable = true

theorem owns_allocated (allocated : (s.pipe page).Allocated) : owns s (.pipe page) = some page := by
  rw [owns_pipe]
  exact if_pos allocated

/-- Calls on descriptors change the owners of the pages of pipes only. -/
theorem Handles.owns (handles : Handles s s') {o : Owner} (other : ∀ page, o ≠ .pipe page) :
    owns s' o = owns s o := by
  cases o with
  | kpgdir part =>
      simp only [Vm.owns]
      rw [handles.kpgdir]
      exact handles.kernel part
  | cpuStack i => simp only [Vm.owns, handles.cpuStacks]
  | kstack q =>
      have kstack : (s'.proc q).kstack = (s.proc q).kstack := by rw [handles.proc q]
      simp only [Vm.owns]
      rw [handles.state q, kstack]
  | space q part =>
      simp only [Vm.owns]
      rw [handles.state q]
      split
      · rfl
      · rename_i used
        rw [handles.proc q]
        exact handles.own q used part
  | pipe page => exact absurd rfl (other page)

/-- A page that nobody else has taken is free when its pipe is gone. -/
theorem Inv.freed (inv : Inv s) (inv' : Inv s') (linked : s'.mem.linked = s.mem.linked)
    (others : ∀ o, (∀ page, o ≠ .pipe page) → owns s' o = owns s o)
    (before : (s.pipe page).Allocated) (after : ¬(s'.pipe page).Allocated) : page ∈ s'.mem.free := by
  have partition := inv.consistent.partition
  have partition' := inv'.consistent.partition
  have holds := owns_allocated before
  have inPool : page ∈ pages s'.mem := by
    have member := partition.owned.own_mem _ _ holds
    unfold pages at member ⊢
    rw [linked]
    exact member
  rcases partition'.owned.covered page inPool with isFree | ⟨o, holds'⟩
  · exact isFree
  · exfalso
    by_cases isPipe : ∃ page', o = .pipe page'
    · rcases isPipe with ⟨page', rfl⟩
      rw [owns_pipe] at holds'
      split at holds'
      · rename_i allocated
        cases holds'
        exact after allocated
      · cases holds'
    · push Not at isPipe
      rw [others o isPipe] at holds'
      exact isPipe page (partition.owned.single _ _ page holds' holds)

/-! ## Calls that leave the pipes alone -/

theorem filedup_pipe {f : Fin nfile} (ran : filedup f s = .ok s') : s'.pipe = s.pipe := by
  unfold filedup at ran
  split at ran
  · cases ran
  · cases ran
    rfl

theorem dupFiles_pipe {np : Slot} (fds : List (Fin nofile)) :
    ∀ {s}, dupFiles p np fds s = .ok s' → s'.pipe = s.pipe := by
  induction fds with
  | nil =>
      intro s ran
      cases ran
      rfl
  | cons fd fds ih =>
      intro s ran
      unfold dupFiles at ran
      split at ran
      · exact ih ran
      · rcases bind_eq_ok.1 ran with ⟨s₁, dup, rest⟩
        have before : s₁.pipe = s.pipe := filedup_pipe dup
        exact (ih rest).trans before

theorem allocproc_pipe (s : System) : (allocproc s).2.pipe = s.pipe := by
  unfold allocproc
  split
  · rfl
  · split <;> rfl

theorem fork_pipe {child : Option Slot} (ran : fork build p s = .ok (child, s')) : s'.pipe = s.pipe := by
  have allocated := allocproc_pipe s
  unfold fork at ran
  split at ran
  · rename_i s₁ eq
    rw [eq] at allocated
    cases ran
    exact allocated
  · rename_i np s₁ eq
    rw [eq] at allocated
    rcases bind_eq_ok.1 ran with ⟨⟨pgdir, m⟩, -, rest⟩
    cases pgdir with
    | none =>
        rcases bind_eq_ok.1 rest with ⟨m', -, done⟩
        cases done
        exact allocated
    | some pgdir =>
        rcases bind_eq_ok.1 rest with ⟨s₂, dup, done⟩
        cases done
        exact (dupFiles_pipe _ dup).trans allocated

theorem wait_pipe {killed : Bool} {r : Waited} (ran : wait p killed s = .ok (r, s')) :
    s'.pipe = s.pipe := by
  unfold wait at ran
  dsimp only at ran
  split at ran
  · rcases bind_eq_ok.1 ran with ⟨m, -, rest⟩
    rcases bind_eq_ok.1 rest with ⟨m', -, done⟩
    cases done
    rfl
  · cases ran
    rfl

/-! ## What a call does to pipes -/

theorem snd_eq_ok {α β : Type} {x : Except Fault (α × β)} {b : β} (ran : Prod.snd <$> x = .ok b) :
    ∃ a, x = .ok (a, b) := by
  cases x with
  | error fault => cases ran
  | ok value =>
      cases ran
      exact ⟨value.1, rfl⟩

/-- What `exit` does apart from closing files leaves all owners as they are. -/
theorem exit_owns (ran : exit p s = .ok s') (used : Used s p) :
    ∃ s₁, exitFiles p (List.finRange nofile) s = .ok s₁ ∧
      (Handles s s₁ → ∀ o, owns s' o = owns s₁ o) := by
  unfold exit at ran
  split at ran
  · cases ran
  · rcases bind_eq_ok.1 ran with ⟨s₁, closed, done⟩
    cases done
    refine ⟨s₁, closed, fun handles o => ?_⟩
    have usedP : (s₁.proc p).state ≠ .unused := fun is => used ((handles.state p).symm.trans is)
    have abandoned : ∀ q, ((abandon p s₁).proc q).state = (s₁.proc q).state ∧
        ((abandon p s₁).proc q).kstack = (s₁.proc q).kstack ∧
        ((abandon p s₁).proc q).pgdir = (s₁.proc q).pgdir := by
      intro q
      dsimp only [abandon]
      split <;> exact ⟨rfl, rfl, rfl⟩
    let final := (abandon p s₁).setProc p { (abandon p s₁).proc p with state := .zombie }
    have same : ∀ q, ((final.proc q).state = .unused ↔ (s₁.proc q).state = .unused) ∧
        (final.proc q).kstack = (s₁.proc q).kstack ∧ (final.proc q).pgdir = (s₁.proc q).pgdir := by
      intro q
      by_cases isP : q = p
      · subst isP
        simp only [final]
        rw [setProc_self]
        exact ⟨⟨nofun, fun is => absurd is usedP⟩, (abandoned q).2⟩
      · simp only [final]
        rw [setProc_other _ _ isP, (abandoned q).1]
        exact ⟨.rfl, (abandoned q).2⟩
    exact owns_congr s₁ final rfl rfl rfl rfl (fun q => (same q).1) (fun q => (same q).2.1)
      (fun q => (same q).2.2) o

/-- A call leaves the pipes alone, or all owners of pages but the pipes. -/
theorem Inv.pipes_or_owners (inv : Inv s) (active : Active s p)
    (ran : Vm.perform build p s call = .ok s') :
    s'.pipe = s.pipe ∨ ∀ o, (∀ page, o ≠ .pipe page) → owns s' o = owns s o := by
  have consistent := inv.consistent
  cases call with
  | fork =>
      rcases snd_eq_ok ran with ⟨child, forked⟩
      exact .inl (fork_pipe forked)
  | exec namei user =>
      rcases bind_eq_ok.1 ran with ⟨result, -, done⟩
      cases done
      exact .inl rfl
  | exit =>
      rcases exit_owns ran active.used with ⟨s₁, closed, same⟩
      rcases consistent.exitFiles (p := p) (List.finRange nofile) with ⟨s₂, closed', uses, -⟩
      cases closed.symm.trans closed'
      exact .inr fun o other => (same uses.handles o).trans (uses.handles.owns other)
  | wait killed =>
      rcases snd_eq_ok ran with ⟨r, waited⟩
      exact .inl (wait_pipe waited)
  | waitnstats killed =>
      rcases snd_eq_ok ran with ⟨r, waited⟩
      exact .inl (wait_pipe waited)
  | sbrk n =>
      rcases bind_eq_ok.1 ran with ⟨result, -, done⟩
      cases done
      exact .inl rfl
  | pipe fd =>
      rcases snd_eq_ok ran with ⟨ok, called⟩
      rcases consistent.sys_pipe p fd with ⟨ok', s₁, called', uses⟩
      cases called.symm.trans called'
      exact .inr fun o => uses.handles.owns
  | dup fd =>
      rcases snd_eq_ok ran with ⟨ok, called⟩
      rcases consistent.sys_dup p fd with ⟨ok', s₁, called', uses⟩
      cases called.symm.trans called'
      exact .inr fun o => uses.handles.owns
  | close fd =>
      rcases snd_eq_ok ran with ⟨ok, called⟩
      rcases consistent.sys_close p fd with ⟨ok', s₁, called', uses⟩
      cases called.symm.trans called'
      exact .inr fun o => uses.handles.owns
  | openInode readable writable =>
      rcases snd_eq_ok ran with ⟨ok, called⟩
      rcases consistent.sys_open p readable writable with ⟨ok', s₁, called', uses⟩
      cases called.symm.trans called'
      exact .inr fun o => uses.handles.owns

theorem Inv.closes (inv : Inv s) (active : Active s p) (ran : Vm.perform build p s call = .ok s')
    (before : (s.pipe page).Allocated) (after : ¬(s'.pipe page).Allocated) :
    page ∈ s'.mem.free := by
  have did := inv.step build active ran
  rcases inv.pipes_or_owners active ran with same | owners
  · rw [same] at after
    exact absurd before after
  · exact inv.freed did.inv did.linked owners before after

/-! ## What calls do to the file table -/

theorem setFile_file (s : System) (f : Fin nfile) (file : File) : (s.setFile f file).file f = file :=
  Function.update_self _ _ _

/-- Every descriptor that `fork` copies is one more reference. -/
theorem dupFiles_ref (different : p ≠ np) (fds : List (Fin nofile)) (f : Fin nfile) :
    ∀ {s}, dupFiles p np fds s = .ok s' →
      (s'.file f).ref = (s.file f).ref + fds.countP fun fd => (s.proc p).ofile fd = some f := by
  induction fds with
  | nil =>
      intro s ran
      cases ran
      simp
  | cons fd fds ih =>
      intro s ran
      unfold dupFiles at ran
      cases holds : (s.proc p).ofile fd with
      | none =>
          rw [holds] at ran
          rw [ih ran, List.countP_cons_of_neg (by simp [holds])]
      | some g =>
          rw [holds] at ran
          rcases bind_eq_ok.1 ran with ⟨s₁, dup, rest⟩
          have dup' : s₁ = s.setFile g { s.file g with ref := (s.file g).ref + 1 } := by
            unfold filedup at dup
            split at dup
            · cases dup
            · exact (Except.ok.inj dup).symm
          have proc : ((s₁.setOfile np fd (some g)).proc p).ofile = (s.proc p).ofile := by
            rw [dup', System.setOfile, setProc_other _ _ different]
            rfl
          have ref : ((s₁.setOfile np fd (some g)).file f).ref =
              (s.file f).ref + if g = f then 1 else 0 := by
            rw [dup']
            change (Function.update s.file g _ f).ref = _
            by_cases isG : f = g
            · subst isG
              simp
            · simp [Function.update_of_ne isG, Ne.symm isG]
          rw [ih rest, proc, ref, List.countP_cons, holds]
          simp
          omega

theorem fork_ref (inv : Inv s) (active : Active s p) (forked : fork build p s = .ok (some c, s')) (f : Fin nfile) :
    (s'.file f).ref =
      (s.file f).ref + (List.finRange nofile).countP fun fd => (s.proc p).ofile fd = some f := by
  unfold fork at forked
  rcases inv.consistent.allocproc with ⟨failed, -⟩ | ⟨t, -, -, failed⟩ |
    ⟨np, x, m₁, unused, -, allocated, -⟩
  · rw [failed] at forked
    cases forked
  · rw [failed] at forked
    cases forked
  · have different : p ≠ np := by
      rintro rfl
      exact unused active.used
    rw [allocated] at forked
    rcases bind_eq_ok.1 forked with ⟨⟨pgdir, m⟩, -, rest⟩
    cases pgdir with
    | none =>
        rcases bind_eq_ok.1 rest with ⟨m', -, done⟩
        cases done
    | some pgdir =>
        rcases bind_eq_ok.1 rest with ⟨s₂, dup, done⟩
        cases done
        have refs := dupFiles_ref different _ f dup
        simp only [System.setProc, Function.update_of_ne different] at refs
        exact refs

theorem pipeclose_pipe {writable : Bool} (ran : pipeclose page writable s = .ok s') :
    s'.file = s.file ∧ s'.proc = s.proc ∧ s'.pipe = Function.update s.pipe page
      (if writable then { s.pipe page with writeopen := false }
        else { s.pipe page with readopen := false }) := by
  unfold pipeclose at ran
  generalize (if writable then ({ s.pipe page with writeopen := false } : Pipe)
    else { s.pipe page with readopen := false }) = pipe at ran ⊢
  dsimp only at ran
  split at ran
  · rcases bind_eq_ok.1 ran with ⟨m, -, done⟩
    cases done
    exact ⟨rfl, rfl, rfl⟩
  · cases ran
    exact ⟨rfl, rfl, rfl⟩

/-- The last descriptor of an end of a pipe closes the end. -/
theorem sys_close_end {ok : Bool} (holds : (s.proc p).ofile fd = some f) (isPipe : (s.file f).type = .pipe)
    (last : (s.file f).ref = 1) (ran : sys_close p fd s = .ok (ok, s')) :
    ok = true ∧ s'.file = Function.update s.file f { s.file f with ref := 0, type := .none } ∧
    s'.proc = (s.setOfile p fd none).proc ∧
    s'.pipe = Function.update s.pipe (s.file f).pipe
      (if (s.file f).writable then { s.pipe (s.file f).pipe with writeopen := false }
        else { s.pipe (s.file f).pipe with readopen := false }) := by
  unfold sys_close at ran
  rw [holds] at ran
  rcases bind_eq_ok.1 ran with ⟨s₁, closed, done⟩
  cases done
  unfold fileclose at closed
  have files : (s.setOfile p fd none).file = s.file := rfl
  rw [files, last, if_neg (by decide), if_neg (by decide)] at closed
  dsimp only at closed
  rw [if_pos isPipe] at closed
  exact ⟨rfl, pipeclose_pipe closed⟩

/-! ## The open-file table -/

/-- In every state between system calls, a file counts the descriptors that refer to it, and is of no
type if there are none; `filedup` and `fileclose` do not panic in any call; an end of a pipe is open
exactly if a file that is referred to is that end. The page of a pipe belongs to the pipe alone as
long as an end is open, and is on the free list, once, after the call that closes the last one. -/
theorem open_file_table (build : Build) (linked : Linked) (ncpu : ℕ) (init : List (BitVec 8))
    (fails : ℕ → Bool) (s : System) (reach : Reach build linked ncpu init fails s) :
    (∀ f, (s.file f).ref = count (descriptors s) f) ∧
    (∀ f, (s.file f).ref = 0 → (s.file f).type = .none) ∧
    (∀ p call, Active s p → perform build p s call ≠ .error .file) ∧
    (∀ page writable, (s.pipe page).isOpen writable = true ↔
      ∃ f, 0 < (s.file f).ref ∧ End s page writable f) ∧
    (∀ page, (s.pipe page).Allocated →
      page ∉ s.mem.freelist ∧ ∀ o, owns s o = some page ↔ o = .pipe page) ∧
    ∀ p call s', Active s p → perform build p s call = .ok s' → ∀ page, (s.pipe page).Allocated →
      ¬(s'.pipe page).Allocated → s'.mem.freelist.count page = 1 := by
  have inv := inv_of_reach reach
  have files := inv.consistent.files
  have partition := inv.consistent.partition
  refine ⟨fun f => by rw [files.refs f, List.count_nil, Nat.add_zero], files.unused, fun p call active failed => ?_,
    fun page writable => ?_, fun page allocated => ⟨fun listed => ?_, fun o => ⟨fun holds => ?_, ?_⟩⟩,
    fun p call s' active ran page before after => ?_⟩
  · rcases inv.perform build active call with ⟨s', ran, -⟩ | ⟨fault, other, failed', -⟩
    · cases failed.symm.trans ran
    · cases failed.symm.trans failed'
      exact other rfl
  · refine (files.opened page writable).trans ⟨?_, ?_⟩
    · rintro ⟨f, isEnd⟩
      refine ⟨f, Nat.pos_of_ne_zero fun zero => ?_, isEnd⟩
      exact files.unused_other zero isEnd.1
    · rintro ⟨f, -, isEnd⟩
      exact ⟨f, isEnd⟩
  · exact partition.owned.apart _ page (owns_allocated allocated) listed
  · exact partition.owned.single _ _ page holds (owns_allocated allocated)
  · rintro rfl
    exact owns_allocated allocated
  · have did := inv.step build active ran
    have listed : page ∈ s'.mem.freelist := inv.closes active ran before after
    exact List.count_eq_one_of_mem did.inv.consistent.partition.nodup listed

/-- The first process opens a pipe and forks, and duplicates and closes a descriptor. The pipe is gone
when, before the fork, it closes both descriptors. -/
theorem open_file_table_pipe :
    ∃ s s₁ s₂ s₃ s₄ t t' p c x, boot smallKernel 2 [] = .ok (some s) ∧
      sys_pipe p 0 (failing s fun _ => false) = .ok (true, s₁) ∧
      fork .dmlq p s₁ = .ok (some c, s₂) ∧ sys_dup p 0 s₂ = .ok (true, s₃) ∧
      sys_close p 0 s₃ = .ok (true, s₄) ∧
      (s₃.file 0).ref = 3 ∧ count (descriptors s₃) 0 = 3 ∧
      (s₄.file 0).ref = 2 ∧ count (descriptors s₄) 0 = 2 ∧ x ∉ s₄.mem.freelist ∧
      sys_close p 1 s₁ = .ok (true, t) ∧ sys_close p 0 t = .ok (true, t') ∧
      t'.mem.freelist.count x = 1 := by
  rcases smallKernel_forks .dmlq with ⟨s, s₁, s₂, p, c, x, booted, run⟩
  have ofile₁ : (s₁.proc p).ofile = pipeEnds := by
    rw [run.piped.proc, Function.update_self]
  have ofile₂ : (s₂.proc p).ofile = pipeEnds := by
    rw [run.same]
    exact ofile₁
  have calls := run.calls
  have reach₁ : Reach .dmlq smallKernel 2 [] (fun _ => false) s₁ :=
    ⟨s, booted, .single ⟨p, .pipe 0, run.before, calls.1⟩⟩
  have inv₁ : Inv s₁ := inv_of_reach reach₁
  have ref₂ : (s₂.file 0).ref = 2 := by
    rw [fork_ref inv₁ run.active run.fork 0, ofile₁, run.piped.file]
    rfl
  have placed : fdalloc p 0 s₂ = (some 2, s₂.setOfile p 2 (some 0)) := by
    unfold fdalloc
    simp only [ofile₂]
    rfl
  have dup : ∃ s₃, sys_dup p 0 s₂ = .ok (true, s₃) ∧ (s₃.file 0).ref = 3 ∧
      (s₃.proc p).ofile 0 = some 0 ∧ s₃.pipe = s₂.pipe := by
    have holds : (s₂.proc p).ofile 0 = some 0 := by
      rw [ofile₂]
      rfl
    have ref : ((s₂.setOfile p 2 (some 0)).file 0).ref = 2 := ref₂
    refine ⟨(s₂.setOfile p 2 (some 0)).setFile 0 { s₂.file 0 with ref := 3 }, ?_, ?_, ?_, rfl⟩
    · unfold sys_dup
      rw [holds]
      dsimp only
      rw [placed]
      dsimp only
      unfold filedup
      rw [ref]
      rfl
    · rw [setFile_file]
    · refine (setOfile_ofile s₂ p 2 (some 0) 0).trans ?_
      rw [if_neg (by decide)]
      exact holds
  rcases dup with ⟨s₃, duped, ref₃, holds₃, pipe₃⟩
  have close : ∃ s₄, sys_close p 0 s₃ = .ok (true, s₄) ∧ (s₄.file 0).ref = 2 ∧ s₄.pipe = s₃.pipe := by
    have ref : ((s₃.setOfile p 0 none).file 0).ref = 3 := ref₃
    refine ⟨(s₃.setOfile p 0 none).setFile 0 { s₃.file 0 with ref := 2 }, ?_, ?_, rfl⟩
    · unfold sys_close
      rw [holds₃]
      dsimp only
      unfold fileclose
      rw [ref]
      rfl
    · rw [setFile_file]
  rcases close with ⟨s₄, closed, ref₄, pipe₄⟩
  have called₃ : perform .dmlq p s₂ (.dup 0) = .ok s₃ := by
    rw [perform, duped]
    rfl
  have called₄ : perform .dmlq p s₃ (.close 0) = .ok s₄ := by
    rw [perform, closed]
    rfl
  have active₂ : Active s₂ p := run.inv.first run.first
  have did₃ := run.inv.step .dmlq active₂ called₃
  have active₃ : Active s₃ p := did₃.inv.first (did₃.initproc.trans run.first)
  have reach₂ := reach₁.step run.active calls.2
  have reach₃ := reach₂.step active₂ called₃
  have reach₄ := reach₃.step active₃ called₄
  have isOpen₄ : (s₄.pipe x).Allocated := by
    rw [pipe₄, pipe₃, fork_pipe run.fork, Pipe.Allocated, run.piped.isOpen]
    exact ⟨false, rfl⟩
  -- the pipe is gone when the process closes both ends before it forks
  have file₁ := run.piped.file
  rcases inv₁.consistent.sys_close p 1 with ⟨ok, t, closed₁, -⟩
  have end₁ := sys_close_end (by rw [ofile₁]; rfl) (by rw [file₁]; rfl) (by rw [file₁]; rfl) closed₁
  rcases end₁ with ⟨rfl, fileT, procT, pipeT⟩
  have calledT : perform .dmlq p s₁ (.close 1) = .ok t := by
    rw [perform, closed₁]
    rfl
  have reachT := reach₁.step run.active calledT
  have ofileT : (t.proc p).ofile = Function.update pipeEnds 1 none := by
    rw [procT, System.setOfile, setProc_self, ofile₁]
  rcases (inv_of_reach reachT).consistent.sys_close p 0 with ⟨ok, t', closed₂, -⟩
  have end₂ := sys_close_end (by rw [ofileT]; rfl) (by rw [fileT, file₁]; rfl) (by rw [fileT, file₁]; rfl)
    closed₂
  rcases end₂ with ⟨rfl, -, -, pipeT'⟩
  have calledT' : perform .dmlq p t (.close 0) = .ok t' := by
    rw [perform, closed₂]
    rfl
  have activeT : Active t p := by
    rw [Active, procT, System.setOfile, setProc_self]
    exact run.active
  have isT : t.pipe x = { readopen := true } := by
    rw [pipeT, file₁]
    change Function.update s₁.pipe x { s₁.pipe x with writeopen := false } x = _
    rw [Function.update_self, run.piped.isOpen]
  have isT' : t'.pipe x = {} := by
    rw [pipeT', fileT, file₁]
    change Function.update t.pipe x { t.pipe x with readopen := false } x = _
    rw [Function.update_self, isT]
  have before : (t.pipe x).Allocated := by
    rw [isT]
    exact ⟨false, rfl⟩
  have after : ¬(t'.pipe x).Allocated := by
    rw [isT']
    rintro ⟨writable, isOpen⟩
    cases writable <;> cases isOpen
  exact ⟨s, s₁, s₂, s₃, s₄, t, t', p, c, x, booted, run.pipe, run.fork, duped, closed, ref₃,
    ((open_file_table .dmlq smallKernel 2 [] (fun _ => false) s₃ reach₃).1 0).symm.trans ref₃, ref₄,
    ((open_file_table .dmlq smallKernel 2 [] (fun _ => false) s₄ reach₄).1 0).symm.trans ref₄,
    ((open_file_table .dmlq smallKernel 2 [] (fun _ => false) s₄ reach₄).2.2.2.2.1 x isOpen₄).1,
    closed₁, closed₂, (open_file_table .dmlq smallKernel 2 [] (fun _ => false) t reachT).2.2.2.2.2
      p (.close 0) t' activeT calledT' x before after⟩

end Xv6.Vm
