import Xv6.Vm.Files

/-!
# System calls on file descriptors

Each of them ends without a panic, and leaves the file table and the pages consistent: on every
path the references that it has taken are in descriptors or have been given back.
-/

namespace Xv6.Vm

open Ownership Fallible References

variable {s s' s₁ s₂ : System} {pool : Set Page} {p q : Slot} {f : Fin nfile} {fd : Fin nofile}
  {held : List (Fin nfile)}

/-- What a system call on descriptors of `p` does. -/
structure Uses (p : Slot) (pool : Set Page) (s s' : System) : Prop where
  consistent : Consistent s' [] pool
  handles : Handles s s'
  elsewhere : Elsewhere p s s'

theorem Consistent.refl_uses (consistent : Consistent s [] pool) : Uses p pool s s :=
  ⟨consistent, .refl, .refl⟩

/-- `pipealloc` returns two files that the call holds, or gives everything back. -/
theorem Consistent.pipealloc (consistent : Consistent s [] pool) :
    (∃ s', pipealloc s = .ok (none, s') ∧ Consistent s' [] pool ∧ Handles s s' ∧
      ∀ p, Elsewhere p s s') ∨
    ∃ rf wf s', pipealloc s = .ok (some (rf, wf), s') ∧ Consistent s' [wf, rf] pool ∧
      Handles s s' ∧ s'.proc = s.proc ∧ ∀ p, Elsewhere p s s' := by
  unfold Vm.pipealloc
  rcases consistent.filealloc with failed | ⟨f0, unused0, allocated0, consistent₀⟩
  · rw [failed]
    exact .inl ⟨s, rfl, consistent, .refl, fun _ => .refl⟩
  rw [allocated0]
  have handles₀ := Handles.setFile s f0 { s.file f0 with ref := 1 }
  have others₀ : ∀ p, Elsewhere p s (s.setFile f0 { s.file f0 with ref := 1 }) :=
    fun p => .setFile (.inl ⟨rfl, rfl, rfl⟩)
  have other0 := consistent.files.unused_other unused0
  dsimp only
  generalize made₀ : s.setFile f0 { s.file f0 with ref := 1 } = s₀ at *
  have proc₀ : s₀.proc = s.proc := by rw [← made₀]; rfl
  have file0 : s₀.file f0 = { s.file f0 with ref := 1 } := by
    rw [← made₀]
    exact Function.update_self _ _ _
  rcases consistent₀.filealloc with failed | ⟨f1, unused1, allocated1, consistent₁⟩
  · left
    rw [failed]
    rcases consistent₀.closeFiles [f0] with ⟨s', closed, consistent', handles', -, others'⟩
    dsimp only
    rw [closed]
    exact ⟨s', rfl, consistent', handles₀.trans handles', fun p => (others₀ p).trans (others' p)⟩
  rw [allocated1]
  have handles₁ := handles₀.trans (Handles.setFile s₀ f1 { s₀.file f1 with ref := 1 })
  have others₁ : ∀ p, Elsewhere p s (s₀.setFile f1 { s₀.file f1 with ref := 1 }) :=
    fun p => (others₀ p).trans (.setFile (.inl ⟨rfl, rfl, rfl⟩))
  have other1 := consistent₀.files.unused_other unused1
  have different : f0 ≠ f1 := by
    rintro rfl
    rw [file0] at unused1
    cases unused1
  dsimp only
  generalize made₁ : s₀.setFile f1 { s₀.file f1 with ref := 1 } = s₁ at *
  have proc₁ : s₁.proc = s.proc := by rw [← made₁, ← proc₀]; rfl
  have file₁ : ∀ f, s₁.file f = if f = f1 then { s₀.file f1 with ref := 1 } else s₀.file f := by
    intro f
    rw [← made₁]
    exact Function.update_apply _ _ _ _
  rcases kalloc_cases s₁.mem with failed | ⟨page, freelist, list, allocated⟩
  · left
    rw [failed]
    have calls := (consistent₁.calls (s₁.mem.calls + 1)).perm (.swap f0 f1 [])
    have handles₂ : Handles s₁ { s₁ with mem := { s₁.mem with calls := s₁.mem.calls + 1 } } :=
      .mem rfl rfl
    rcases Consistent.closeFiles [f0, f1] calls with
      ⟨s', closed, consistent', handles', -, others'⟩
    dsimp only
    rw [closed]
    refine ⟨s', rfl, consistent', (handles₁.trans handles₂).trans handles', fun p =>
      ((others₁ p).trans ?_).trans (others' p)⟩
    exact ⟨fun _ _ => rfl, fun _ _ _ _ _ => rfl⟩
  · right
    rw [allocated]
    have file0₁ : s₁.file f0 = { s.file f0 with ref := 1 } := by
      rw [file₁, if_neg different, file0]
    have file1₁ : s₁.file f1 = { s₀.file f1 with ref := 1 } := by rw [file₁, if_pos rfl]
    have used0 : 0 < (s₁.file f0).ref := by
      rw [file0₁]
      exact Nat.one_pos
    have used1 : 0 < (s₁.file f1).ref := by
      rw [file1₁]
      exact Nat.one_pos
    have notPipe0 : (s₁.file f0).type ≠ .pipe := by
      rw [file0₁]
      exact other0
    have notPipe1 : (s₁.file f1).type ≠ .pipe := by
      rw [file1₁]
      exact other1
    have unseen : ∀ f ∈ [f1, f0], count (descriptors s₁) f = 0 := by
      intro f member
      have refs := consistent₁.files.refs f
      have one : (s₁.file f).ref = 1 := by
        rcases List.mem_pair.1 member with rfl | rfl
        · rw [file1₁]
        · rw [file0₁]
      have held : 0 < [f1, f0].count f := List.count_pos_iff.2 member
      omega
    let m := { s₁.mem with calls := s₁.mem.calls + 1, freelist }
    let file0' := { s₁.file f0 with
      type := FileType.pipe, readable := true, writable := false, pipe := page }
    let file1' := { s₁.file f1 with
      type := FileType.pipe, readable := false, writable := true, pipe := page }
    let file := Function.update (Function.update s₁.file f0 file0') f1 file1'
    let pipe := Function.update s₁.pipe page { readopen := true, writeopen := true }
    have at0 : file f0 = file0' := by
      simp only [file]
      rw [Function.update_of_ne different, Function.update_self]
    have at1 : file f1 = file1' := Function.update_self _ _ _
    have others : ∀ f, f ≠ f0 → f ≠ f1 → file f = s₁.file f := by
      intro f not0 not1
      simp only [file]
      rw [Function.update_of_ne not1, Function.update_of_ne not0]
    have connected : Connected s₁ page f0 f1 file :=
      ⟨different, used0, used1, notPipe0, notPipe1, at0, at1, others⟩
    have opened := consistent₁.openPipe list connected
    have fresh : ∀ p, Elsewhere p s₁ { s₁ with mem := m, file, pipe } := by
      refine fun p => ⟨fun _ _ => rfl, fun q _ fd f holds => ?_⟩
      have not0 : f ≠ f0 := by
        rintro rfl
        exact count_eq_zero.1 (unseen f (by simp)) (q, fd) holds
      have not1 : f ≠ f1 := by
        rintro rfl
        exact count_eq_zero.1 (unseen f (by simp)) (q, fd) holds
      unfold kind
      dsimp only
      rw [others f not0 not1]
    have handles₂ : Handles s₁ { s₁ with mem := m, file, pipe } :=
      ⟨rfl, rfl, rfl, rfl, (space_content rfl).1, fun _ => rfl, fun q _ => (space_content rfl).1,
        fun q _ v _ => (space_content rfl).2 v⟩
    have self1 : Function.update s₁.file f0 file0' f1 = s₁.file f1 :=
      Function.update_of_ne different.symm _ _
    refine ⟨f0, f1, { s₁ with mem := m, file, pipe }, ?_, opened, handles₁.trans handles₂, proc₁,
      fun p => (others₁ p).trans (fresh p)⟩
    dsimp only [System.setFile, System.setPipe]
    rw [self1]

theorem setOfile_ofile (s : System) (p : Slot) (fd : Fin nofile) (value : Option (Fin nfile))
    (fd' : Fin nofile) : ((s.setOfile p fd value).proc p).ofile fd' =
      if fd' = fd then value else (s.proc p).ofile fd' := by
  unfold System.setOfile System.setProc
  by_cases same : fd' = fd
  · simp [same]
  · simp [same]

theorem Consistent.sys_pipe (consistent : Consistent s [] pool) (p : Slot) (fd : ℕ) :
    ∃ ok s', sys_pipe p fd s = .ok (ok, s') ∧ Uses p pool s s' := by
  unfold Vm.sys_pipe
  dsimp only
  split
  · exact ⟨false, s, rfl, consistent.refl_uses⟩
  rcases consistent.pipealloc with
    ⟨s', failed, consistent', handles', others'⟩ |
    ⟨rf, wf, s₁, allocated, consistent₁, handles₁, proc₁, others₁⟩
  · rw [failed]
    exact ⟨false, s', rfl, consistent', handles', others' p⟩
  rw [allocated]
  simp only [bind_ok]
  -- giving both files back, from a state in which the call holds them
  have close : ∀ s₂, Consistent s₂ [rf, wf] pool → Handles s s₂ → Elsewhere p s s₂ →
      ∃ ok s', (Vm.closeFiles [rf, wf] s₂ >>= fun s => pure (false, s)) =
        (Except.ok (ok, s') : Except Fault (Bool × System)) ∧ Uses p pool s s' := by
    intro s₂ consistent₂ handles₂ others₂
    rcases Consistent.closeFiles [rf, wf] consistent₂ with
      ⟨s', closed, consistent', handles', -, others'⟩
    rw [closed]
    exact ⟨false, s', rfl, consistent', handles₂.trans handles', others₂.trans (others' p)⟩
  rcases fdalloc_cases p rf s₁ with full | ⟨fd0, empty0, stored⟩
  · rw [full]
    exact close s₁ (consistent₁.perm (.swap rf wf [])) handles₁ (others₁ p)
  rw [stored]
  have consistent₂ := (consistent₁.perm (.swap rf wf [])).store empty0
  have handles₂ := handles₁.trans (Handles.setOfile s₁ p fd0 (some rf))
  have others₂ := (others₁ p).trans (Elsewhere.setOfile s₁ p fd0 (some rf))
  rcases fdalloc_cases p wf (s₁.setOfile p fd0 (some rf)) with full | ⟨fd1, empty1, stored'⟩
  · dsimp only
    rw [full]
    have holds : ((s₁.setOfile p fd0 (some rf)).proc p).ofile fd0 = some rf := by
      rw [setOfile_ofile, if_pos rfl]
    exact close _ (consistent₂.take holds) (handles₂.trans (Handles.setOfile _ p fd0 none))
      (others₂.trans (Elsewhere.setOfile _ p fd0 none))
  · dsimp only
    rw [stored']
    exact ⟨true, _, rfl, consistent₂.store empty1, handles₂.trans (Handles.setOfile _ p fd1 (some wf)),
      others₂.trans (Elsewhere.setOfile _ p fd1 (some wf))⟩

theorem Consistent.sys_dup (consistent : Consistent s [] pool) (p : Slot) (fd : Fin nofile) :
    ∃ ok s', sys_dup p fd s = .ok (ok, s') ∧ Uses p pool s s' := by
  unfold Vm.sys_dup
  cases holds : (s.proc p).ofile fd with
  | none => exact ⟨false, s, rfl, consistent.refl_uses⟩
  | some f =>
      have used := consistent.used holds
      rcases fdalloc_cases p f s with full | ⟨fd', empty, stored⟩
      · dsimp only
        rw [full]
        exact ⟨false, s, rfl, consistent.refl_uses⟩
      · dsimp only
        rw [stored]
        -- `filedup` comes after `fdalloc`, which does not matter to the state
        rcases consistent.filedup used with ⟨-, consistent₁⟩
        have dup : Vm.filedup f (s.setOfile p fd' (some f)) =
            .ok ((s.setFile f { s.file f with ref := (s.file f).ref + 1 }).setOfile p fd'
              (some f)) := by
          unfold Vm.filedup
          rw [if_neg]
          · rfl
          · exact Nat.not_lt.2 used
        have others₁ : Elsewhere p s (s.setFile f { s.file f with ref := (s.file f).ref + 1 }) :=
          .setFile (.inl ⟨rfl, rfl, rfl⟩)
        dsimp only
        rw [dup]
        exact ⟨true, _, rfl, consistent₁.store empty,
          (Handles.setFile s f _).trans (Handles.setOfile _ p fd' (some f)),
          others₁.trans (Elsewhere.setOfile _ p fd' (some f))⟩

theorem Consistent.sys_close (consistent : Consistent s [] pool) (p : Slot) (fd : Fin nofile) :
    ∃ ok s', sys_close p fd s = .ok (ok, s') ∧ Uses p pool s s' := by
  unfold Vm.sys_close
  cases holds : (s.proc p).ofile fd with
  | none => exact ⟨false, s, rfl, consistent.refl_uses⟩
  | some f =>
      rcases (consistent.take holds).fileclose with
        ⟨s', closed, consistent', handles', -, others'⟩
      dsimp only
      rw [closed]
      exact ⟨true, s', rfl, consistent', (Handles.setOfile s p fd none).trans handles',
        (Elsewhere.setOfile s p fd none).trans (others' p)⟩

theorem Consistent.sys_open (consistent : Consistent s [] pool) (p : Slot)
    (readable writable : Bool) :
    ∃ ok s', sys_open p readable writable s = .ok (ok, s') ∧ Uses p pool s s' := by
  unfold Vm.sys_open
  rcases consistent.filealloc with failed | ⟨f, unused, allocated, consistent₁⟩
  · rw [failed]
    exact ⟨false, s, rfl, consistent.refl_uses⟩
  rw [allocated]
  have handles₁ := Handles.setFile s f { s.file f with ref := 1 }
  have others₁ : Elsewhere p s (s.setFile f { s.file f with ref := 1 }) :=
    .setFile (.inl ⟨rfl, rfl, rfl⟩)
  have notPipe := consistent.files.unused_other unused
  have refs := consistent₁.files.refs f
  dsimp only
  generalize made : s.setFile f { s.file f with ref := 1 } = s₁ at *
  have file : s₁.file f = { s.file f with ref := 1 } := by
    rw [← made]
    exact Function.update_self _ _ _
  rcases fdalloc_cases p f s₁ with full | ⟨fd, empty, stored⟩
  · rw [full]
    rcases Consistent.closeFiles [f] consistent₁ with
      ⟨s', closed, consistent', handles', -, others'⟩
    dsimp only
    rw [closed]
    exact ⟨false, s', rfl, consistent', handles₁.trans handles', others₁.trans (others' p)⟩
  · rw [stored]
    -- the type is set after the descriptor, which does not matter to the state
    have type₁ : (s₁.file f).type ≠ .pipe := by
      rw [file]
      exact notPipe
    have consistent₂ : Consistent (s₁.setFile f { s₁.file f with
        type := .inode, readable, writable }) [f] pool := by
      have used : (s₁.file f).ref ≠ 0 := by
        rw [file]
        exact Nat.one_ne_zero
      refine consistent₁.setFile rfl (fun _ _ => rfl) (absurd · used) fun isPipe => ?_
      rcases isPipe with isPipe | isPipe
      · cases isPipe
      · exact absurd isPipe type₁
    have unseen : count (descriptors s₁) f = 0 := by
      have one : (s₁.file f).ref = 1 := by rw [file]
      rw [one, List.count_singleton_self] at refs
      omega
    have handles₂ := handles₁.trans (Handles.setFile s₁ f { s₁.file f with
      type := .inode, readable, writable })
    exact ⟨true, _, rfl, consistent₂.store empty,
      handles₂.trans (Handles.setOfile _ p fd (some f)),
      (others₁.trans (.setFile (.inr unseen))).trans (Elsewhere.setOfile _ p fd (some f))⟩

/-! ## The files of `exit` and `fork` -/

theorem Uses.trans (first : Uses p pool s s₁) (second : Uses p pool s₁ s₂) : Uses p pool s s₂ :=
  ⟨second.consistent, first.handles.trans second.handles,
    first.elsewhere.trans second.elsewhere⟩

theorem pipeclose_setOfile (s : System) (page : Page) (writable : Bool)
    (value : Option (Fin nfile)) :
    pipeclose page writable (s.setOfile p fd value) =
      (pipeclose page writable s).map (·.setOfile p fd value) := by
  have pipes : (s.setOfile p fd value).pipe = s.pipe := rfl
  unfold pipeclose
  rw [pipes]
  dsimp only
  generalize (if writable then ({ s.pipe page with writeopen := false } : Pipe)
    else { s.pipe page with readopen := false }) = pipe
  split
  · change (Vm.kfree page s.mem >>= _) = (Vm.kfree page s.mem >>= _ : Except Fault System).map _
    cases Vm.kfree page s.mem with
    | error fault => rfl
    | ok m => rfl
  · rfl

/-- `fileclose` does not look at descriptors. -/
theorem fileclose_setOfile (value : Option (Fin nfile)) :
    fileclose f (s.setOfile p fd value) = (fileclose f s).map (·.setOfile p fd value) := by
  have files : (s.setOfile p fd value).file = s.file := rfl
  unfold fileclose
  rw [files]
  split
  · rfl
  · split
    · rfl
    · dsimp only
      split
      · exact pipeclose_setOfile (s.setFile f { s.file f with ref := 0, type := .none }) _ _ value
      · rfl

/-- The loop of `exit` closes the descriptors that it passes. -/
theorem Consistent.exitFiles (fds : List (Fin nofile)) :
    ∀ {s}, Consistent s [] pool →
      ∃ s', exitFiles p fds s = .ok s' ∧ Uses p pool s s' ∧
        ∀ fd, (s'.proc p).ofile fd = if fd ∈ fds then none else (s.proc p).ofile fd := by
  induction fds with
  | nil => exact fun consistent => ⟨_, rfl, consistent.refl_uses, fun fd => by simp⟩
  | cons fd fds ih =>
      intro s consistent
      unfold Vm.exitFiles
      cases holds : (s.proc p).ofile fd with
      | none =>
          rcases ih consistent with ⟨s', ran, uses, closed⟩
          refine ⟨s', ran, uses, fun fd' => ?_⟩
          rw [closed]
          by_cases same : fd' = fd
          · subst same
            simp [holds]
          · simp [same]
      | some f =>
          rcases (consistent.take holds).fileclose with
            ⟨s₁, closed, consistent₁, handles₁, proc₁, others₁⟩
          rw [fileclose_setOfile] at closed
          dsimp only
          cases direct : Vm.fileclose f s with
          | error fault =>
              rw [direct] at closed
              cases closed
          | ok s₀ =>
              rw [direct] at closed
              have same : s₀.setOfile p fd none = s₁ := Except.ok.inj closed
              rcases ih consistent₁ with ⟨s', ran, uses, closed'⟩
              refine ⟨s', ?_, ⟨uses.consistent, ((Handles.setOfile s p fd none).trans handles₁).trans
                uses.handles, ((Elsewhere.setOfile s p fd none).trans (others₁ p)).trans
                  uses.elsewhere⟩, fun fd' => ?_⟩
              · simp only [bind_ok]
                rw [same]
                exact ran
              · rw [closed', proc₁, setOfile_ofile]
                by_cases same : fd' = fd
                · simp [same]
                · simp [same]

/-- The loop of `fork` copies the descriptors that it passes. -/
theorem Consistent.dupFiles {np : Slot} (fds : List (Fin nofile)) :
    ∀ {s}, Consistent s [] pool → fds.Nodup → (∀ fd ∈ fds, (s.proc np).ofile fd = none) →
      ∃ s', dupFiles p np fds s = .ok s' ∧ Uses np pool s s' := by
  induction fds with
  | nil => exact fun consistent _ _ => ⟨_, rfl, consistent.refl_uses⟩
  | cons fd fds ih =>
      intro s consistent nodup empty
      rw [List.nodup_cons] at nodup
      unfold Vm.dupFiles
      cases holds : (s.proc p).ofile fd with
      | none => exact ih consistent nodup.2 fun fd' member => empty fd' (List.mem_cons_of_mem _ member)
      | some f =>
          rcases consistent.filedup (consistent.used holds) with ⟨dup, consistent₁⟩
          have consistent₂ := consistent₁.store (p := np) (empty fd (by simp))
          have others₁ : Elsewhere np s (s.setFile f { s.file f with
              ref := (s.file f).ref + 1 }) := .setFile (.inl ⟨rfl, rfl, rfl⟩)
          have uses₁ : Uses np pool s ((s.setFile f { s.file f with
              ref := (s.file f).ref + 1 }).setOfile np fd (some f)) :=
            ⟨consistent₂, (Handles.setFile s f _).trans (Handles.setOfile _ np fd (some f)),
              others₁.trans (Elsewhere.setOfile _ np fd (some f))⟩
          dsimp only
          rw [dup]
          simp only [bind_ok]
          have empty' : ∀ fd' ∈ fds, (((s.setFile f { s.file f with
              ref := (s.file f).ref + 1 }).setOfile np fd (some f)).proc np).ofile fd' = none := by
            intro fd' member
            rw [setOfile_ofile, if_neg]
            · exact empty fd' (List.mem_cons_of_mem _ member)
            · rintro rfl
              exact nodup.1 member
          rcases ih consistent₂ nodup.2 empty' with ⟨s', ran, uses⟩
          exact ⟨s', ran, uses₁.trans uses⟩

end Xv6.Vm
