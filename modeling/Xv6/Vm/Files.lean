import Xv6.Vm.Owners

/-!
# The file table and the pipes

Every entry of the file table counts the descriptors that refer to it, and the references that a
running system call has not yet put into a descriptor (`held`). An end of a pipe is open as long as
a file refers to it, so the page of a pipe is freed with its last file.
-/

namespace Xv6.Vm

open Ownership Fallible References

variable {s s' s₁ s₂ : System} {pool : Set Page} {p q : Slot} {f : Fin nfile} {fd : Fin nofile}
  {held : List (Fin nfile)} {page : Page} {writable : Bool}

/-- The open files of all processes. -/
def descriptors (s : System) (x : Slot × Fin nofile) : Option (Fin nfile) :=
  (s.proc x.1).ofile x.2

/-- The file is the writing or the reading end of a pipe. -/
def End (s : System) (page : Page) (writable : Bool) (f : Fin nfile) : Prop :=
  (s.file f).type = .pipe ∧ (s.file f).pipe = page ∧ (s.file f).writable = writable

/-- Whether an end of a pipe is open. -/
def Pipe.isOpen (pipe : Pipe) (writable : Bool) : Bool :=
  if writable then pipe.writeopen else pipe.readopen

structure Files (s : System) (held : List (Fin nfile)) : Prop where
  refs : ∀ f, (s.file f).ref = count (descriptors s) f + held.count f
  unused : ∀ f, (s.file f).ref = 0 → (s.file f).type = .none
  opened : ∀ page writable, (s.pipe page).isOpen writable = true ↔ ∃ f, End s page writable f
  single : ∀ page writable f f', End s page writable f → End s page writable f' → f = f'

theorem Files.unused_other (files : Files s held) (unused : (s.file f).ref = 0) :
    (s.file f).type ≠ .pipe := by
  rw [files.unused f unused]
  nofun

/-- File operations change descriptors, files and pipes; a process sees nothing of it in its
memory. -/
structure Handles (s s' : System) : Prop where
  kpgdir : s'.kpgdir = s.kpgdir
  cpuStacks : s'.cpuStacks = s.cpuStacks
  initproc : s'.initproc = s.initproc
  linked : s'.mem.linked = s.mem.linked
  kernel : ∀ part, own s'.mem s.kpgdir part = own s.mem s.kpgdir part
  proc : ∀ q, s'.proc q = { s.proc q with ofile := (s'.proc q).ofile }
  own : ∀ q, (s.proc q).state ≠ .unused →
    ∀ part, own s'.mem (s.proc q).pgdir part = own s.mem (s.proc q).pgdir part
  image : ∀ q, (s.proc q).state ≠ .unused →
    ∀ v < userPages, image s'.mem (s.proc q).pgdir v = image s.mem (s.proc q).pgdir v

theorem Handles.refl : Handles s s :=
  ⟨rfl, rfl, rfl, rfl, fun _ => rfl, fun _ => rfl, fun _ _ _ => rfl, fun _ _ _ _ => rfl⟩

theorem Handles.trans (first : Handles s s₁) (second : Handles s₁ s₂) : Handles s s₂ := by
  have state : ∀ q, (s₁.proc q).state = (s.proc q).state := fun q => by rw [first.proc q]
  have pgdir : ∀ q, (s₁.proc q).pgdir = (s.proc q).pgdir := fun q => by rw [first.proc q]
  refine ⟨second.kpgdir.trans first.kpgdir, second.cpuStacks.trans first.cpuStacks,
    second.initproc.trans first.initproc, second.linked.trans first.linked, fun part => ?_,
    fun q => ?_, fun q used part => ?_, fun q used v user => ?_⟩
  · rw [← first.kernel part, ← first.kpgdir]
    exact second.kernel part
  · rw [second.proc q, first.proc q]
  · rw [← first.own q used part, ← pgdir]
    exact second.own q (state q ▸ used) part
  · rw [← first.image q used v user, ← pgdir]
    exact second.image q (state q ▸ used) v user

/-- What a descriptor is good for. -/
def kind (s : System) (f : Fin nfile) : FileType × Page × Bool :=
  ((s.file f).type, (s.file f).pipe, (s.file f).writable)

/-- The descriptors of processes other than `p` stay as they are. -/
structure Elsewhere (p : Slot) (s s' : System) : Prop where
  ofile : ∀ q ≠ p, (s'.proc q).ofile = (s.proc q).ofile
  kind : ∀ q ≠ p, ∀ fd f, (s.proc q).ofile fd = some f → kind s' f = kind s f

theorem Elsewhere.refl : Elsewhere p s s := ⟨fun _ _ => rfl, fun _ _ _ _ _ => rfl⟩

theorem Elsewhere.trans (first : Elsewhere p s s₁) (second : Elsewhere p s₁ s₂) :
    Elsewhere p s s₂ := by
  refine ⟨fun q different => (second.ofile q different).trans (first.ofile q different),
    fun q different fd f holds => ?_⟩
  rw [← first.kind q different fd f holds]
  exact second.kind q different fd f ((congrFun (first.ofile q different) fd).trans holds)

theorem Elsewhere.setOfile (s : System) (p : Slot) (fd : Fin nofile) (value : Option (Fin nfile)) :
    Elsewhere p s (s.setOfile p fd value) := by
  refine ⟨fun q different => ?_, fun _ _ _ _ _ => rfl⟩
  unfold System.setOfile System.setProc
  simp [different]

/-- A file is changed to which no descriptor refers, or which keeps its kind. -/
theorem Elsewhere.setFile {file : File}
    (unseen : (file.type = (s.file f).type ∧ file.pipe = (s.file f).pipe ∧
      file.writable = (s.file f).writable) ∨ count (descriptors s) f = 0) :
    Elsewhere p s (s.setFile f file) := by
  refine ⟨fun _ _ => rfl, fun q _ fd f' holds => ?_⟩
  unfold Vm.kind System.setFile
  by_cases same : f' = f
  · subst same
    rcases unseen with ⟨type, pipe, writable⟩ | zero
    · simp [type, pipe, writable]
    · exact absurd holds (count_eq_zero.1 zero (q, fd))
  · simp [same]

/-- The file table and the pages are consistent. -/
structure Consistent (s : System) (held : List (Fin nfile)) (pool : Set Page) : Prop where
  files : Files s held
  partition : Partition s.mem (owns s) pool

/-- What owns pages does not depend on the file table. -/
theorem owns_congr (s s' : System) (content : s'.mem.content = s.mem.content) (kpgdir : s'.kpgdir = s.kpgdir)
    (cpuStacks : s'.cpuStacks = s.cpuStacks) (pipe : s'.pipe = s.pipe)
    (state : ∀ q, (s'.proc q).state = .unused ↔ (s.proc q).state = .unused)
    (kstack : ∀ q, (s'.proc q).kstack = (s.proc q).kstack)
    (pgdir : ∀ q, (s'.proc q).pgdir = (s.proc q).pgdir) (o : Owner) : owns s' o = owns s o := by
  cases o with
  | kpgdir part =>
      simp only [owns, kpgdir]
      exact (space_content content).1 part
  | cpuStack i => simp only [owns, cpuStacks]
  | kstack p => simp only [owns, state, kstack]
  | space p part => simp only [owns, state, pgdir, (space_content content).1]
  | pipe page => simp only [owns, pipe]

theorem Consistent.congr {held' : List (Fin nfile)} (consistent : Consistent s held pool)
    (files : Files s' held') (same : ∀ o, owns s' o = owns s o) (mem : s'.mem = s.mem) :
    Consistent s' held' pool := by
  refine ⟨files, ?_⟩
  rw [mem]
  exact consistent.partition.congr same

/-! ## Descriptors -/

/-- A descriptor is written. -/
theorem Handles.setOfile (s : System) (p : Slot) (fd : Fin nofile) (value : Option (Fin nfile)) :
    Handles s (s.setOfile p fd value) := by
  refine ⟨rfl, rfl, rfl, rfl, fun _ => rfl, fun q => ?_, fun _ _ _ => rfl, fun _ _ _ _ => rfl⟩
  unfold System.setOfile System.setProc
  by_cases same : q = p
  · subst same
    simp
  · simp [same]

theorem owns_setOfile (value : Option (Fin nfile)) (o : Owner) :
    owns (s.setOfile p fd value) o = owns s o := by
  have proc := (Handles.setOfile s p fd value).proc
  exact owns_congr s (s.setOfile p fd value) rfl rfl rfl rfl (fun q => by rw [proc q])
    (fun q => by rw [proc q]) (fun q => by rw [proc q]) o

theorem descriptors_setOfile (value : Option (Fin nfile)) :
    descriptors (s.setOfile p fd value) = Function.update (descriptors s) (p, fd) value := by
  funext ⟨q, fd'⟩
  unfold descriptors System.setOfile System.setProc
  by_cases same : q = p
  · subst same
    by_cases same' : fd' = fd
    · simp [same']
    · simp [same']
  · simp [same]

/-- A reference that the call holds goes into a descriptor. -/
theorem Consistent.store (consistent : Consistent s (f :: held) pool)
    (empty : (s.proc p).ofile fd = none) :
    Consistent (s.setOfile p fd (some f)) held pool := by
  refine consistent.congr ⟨fun f' => ?_, consistent.files.unused, consistent.files.opened,
    consistent.files.single⟩ (owns_setOfile _) rfl
  have refs := consistent.files.refs f'
  have added := count_add (k := (p, fd)) (descriptors s) f' f empty
  rw [descriptors_setOfile, added]
  rw [List.count_cons] at refs
  change (s.file f').ref = _
  rw [refs]
  by_cases same : f = f'
  · simp [same]
    omega
  · simp [same]

/-- A reference is taken out of a descriptor. -/
theorem Consistent.take (consistent : Consistent s held pool)
    (holds : (s.proc p).ofile fd = some f) :
    Consistent (s.setOfile p fd none) (f :: held) pool := by
  refine consistent.congr ⟨fun f' => ?_, consistent.files.unused, consistent.files.opened,
    consistent.files.single⟩ (owns_setOfile _) rfl
  have refs := consistent.files.refs f'
  have removed := count_remove (k := (p, fd)) (descriptors s) f' f holds
  rw [descriptors_setOfile, List.count_cons]
  change (s.file f').ref = _
  rw [refs, ← removed]
  by_cases same : f = f'
  · simp [same]
    omega
  · simp [same]

theorem fdalloc_cases (p : Slot) (f : Fin nfile) (s : System) :
    fdalloc p f s = (none, s) ∨
    ∃ fd, (s.proc p).ofile fd = none ∧ fdalloc p f s = (some fd, s.setOfile p fd (some f)) := by
  unfold Vm.fdalloc
  cases found : (List.finRange nofile).find? fun fd => ((s.proc p).ofile fd).isNone with
  | none => exact .inl rfl
  | some fd =>
      have empty : (s.proc p).ofile fd = none := by simpa using List.find?_some found
      exact .inr ⟨fd, empty, rfl⟩

/-! ## Files -/

theorem Handles.setFile (s : System) (f : Fin nfile) (file : File) : Handles s (s.setFile f file) :=
  ⟨rfl, rfl, rfl, rfl, fun _ => rfl, fun _ => rfl, fun _ _ _ => rfl, fun _ _ _ _ => rfl⟩

theorem owns_setFile (file : File) (o : Owner) : owns (s.setFile f file) o = owns s o :=
  owns_congr s (s.setFile f file) rfl rfl rfl rfl (fun _ => .rfl) (fun _ => rfl) (fun _ => rfl) o

theorem end_setFile (file : File) (f' : Fin nfile) :
    End (s.setFile f file) page writable f' ↔
      if f' = f then file.type = .pipe ∧ file.pipe = page ∧ file.writable = writable
      else End s page writable f' := by
  unfold End System.setFile
  by_cases same : f' = f
  · subst same
    simp
  · simp [same]

/-- A file changes, together with the references that the call holds; its part in pipes stays. -/
theorem Consistent.setFile {held' : List (Fin nfile)} {file : File}
    (consistent : Consistent s held pool)
    (self : file.ref + held.count f = (s.file f).ref + held'.count f)
    (others : ∀ f' ≠ f, held'.count f' = held.count f') (unused : file.ref = 0 → file.type = .none)
    (same : file.type = .pipe ∨ (s.file f).type = .pipe →
      file.type = (s.file f).type ∧ file.pipe = (s.file f).pipe ∧
        file.writable = (s.file f).writable) :
    Consistent (s.setFile f file) held' pool := by
  have ends : ∀ page writable f', End (s.setFile f file) page writable f' ↔
      End s page writable f' := by
    intro page writable f'
    rw [end_setFile]
    split
    · rename_i isF
      subst isF
      constructor
      · rintro ⟨type, pipe, end'⟩
        rcases same (.inl type) with ⟨type', pipe', writable'⟩
        exact ⟨type' ▸ type, pipe' ▸ pipe, writable' ▸ end'⟩
      · rintro ⟨type, pipe, end'⟩
        rcases same (.inr type) with ⟨type', pipe', writable'⟩
        exact ⟨type'.trans type, pipe'.trans pipe, writable'.trans end'⟩
    · rfl
  refine consistent.congr ⟨fun f' => ?_, fun f' => ?_, fun page writable => ?_,
    fun page writable f₁ f₂ first second => ?_⟩ (owns_setFile _) rfl
  · have refs := consistent.files.refs f'
    change (Function.update s.file f _ f').ref = count (descriptors s) f' + _
    by_cases isF : f' = f
    · subst isF
      rw [Function.update_self]
      omega
    · rw [Function.update_of_ne isF, refs, others f' isF]
  · change (Function.update s.file f _ f').ref = 0 → (Function.update s.file f _ f').type = .none
    by_cases isF : f' = f
    · subst isF
      rw [Function.update_self]
      exact unused
    · rw [Function.update_of_ne isF]
      exact consistent.files.unused f'
  · have opened := consistent.files.opened page writable
    simp only [ends]
    exact opened
  · exact consistent.files.single page writable f₁ f₂ ((ends _ _ _).1 first) ((ends _ _ _).1 second)

theorem Consistent.setRef {held' : List (Fin nfile)} {ref : ℕ} (consistent : Consistent s held pool)
    (self : ref + held.count f = (s.file f).ref + held'.count f)
    (others : ∀ f' ≠ f, held'.count f' = held.count f')
    (unused : ref = 0 → (s.file f).type = .none) :
    Consistent (s.setFile f { s.file f with ref }) held' pool :=
  consistent.setFile self others unused fun _ => ⟨rfl, rfl, rfl⟩

/-- `filealloc` -/
theorem Consistent.filealloc (consistent : Consistent s held pool) :
    filealloc s = (none, s) ∨
    ∃ f, (s.file f).ref = 0 ∧ filealloc s = (some f, s.setFile f { s.file f with ref := 1 }) ∧
      Consistent (s.setFile f { s.file f with ref := 1 }) (f :: held) pool := by
  unfold Vm.filealloc
  cases found : (List.finRange nfile).find? fun f => (s.file f).ref = 0 with
  | none => exact .inl rfl
  | some f =>
      have unused : (s.file f).ref = 0 := by simpa using List.find?_some found
      refine .inr ⟨f, unused, rfl, consistent.setRef ?_ ?_ nofun⟩
      · rw [List.count_cons_self, unused]
        omega
      · intro f' different
        rw [List.count_cons_of_ne different.symm]

/-- `filedup` of a file that is referred to. -/
theorem Consistent.filedup (consistent : Consistent s held pool) (used : 0 < (s.file f).ref) :
    filedup f s = .ok (s.setFile f { s.file f with ref := (s.file f).ref + 1 }) ∧
    Consistent (s.setFile f { s.file f with ref := (s.file f).ref + 1 }) (f :: held) pool := by
  constructor
  · unfold Vm.filedup
    rw [if_neg (by omega)]
  · refine consistent.setRef ?_ ?_ nofun
    · rw [List.count_cons_self]
      omega
    · intro f' different
      rw [List.count_cons_of_ne different.symm]

theorem Consistent.used (consistent : Consistent s held pool)
    (holds : (s.proc p).ofile fd = some f) : 0 < (s.file f).ref := by
  have refs := consistent.files.refs f
  have some : 0 < count (descriptors s) f := count_pos (k := (p, fd)) holds
  omega

/-! ## Closing -/

/-- The pipe after one of its ends has been closed. -/
def Pipe.close (pipe : Pipe) (writable : Bool) : Pipe :=
  if writable then { pipe with writeopen := false } else { pipe with readopen := false }

theorem close_isOpen (pipe : Pipe) (writable writable' : Bool) :
    (pipe.close writable).isOpen writable' =
      (pipe.isOpen writable' && decide (writable' ≠ writable)) := by
  unfold Pipe.close Pipe.isOpen
  cases writable <;> cases writable' <;> simp

theorem owns_pipe (s : System) (page : Page) :
    owns s (.pipe page) =
      if ∃ writable, (s.pipe page).isOpen writable = true then some page else none := by
  simp [owns, Pipe.isOpen, Bool.or_eq_true]

/-- The last reference to a file that is not a pipe. -/
theorem Files.closeLast (files : Files s (f :: held)) (last : (s.file f).ref = 1) :
    (∀ f', (s.setFile f { s.file f with ref := 0, type := .none }).file f' =
        if f' = f then { s.file f with ref := 0, type := .none } else s.file f') ∧
    (∀ f', ((s.setFile f { s.file f with ref := 0, type := .none }).file f').ref =
        count (descriptors s) f' + held.count f') ∧
    ∀ page writable f', End (s.setFile f { s.file f with ref := 0, type := .none }) page writable f' ↔
        f' ≠ f ∧ End s page writable f' := by
  have file : ∀ f', (s.setFile f { s.file f with ref := 0, type := .none }).file f' =
      if f' = f then { s.file f with ref := 0, type := .none } else s.file f' := by
    intro f'
    unfold System.setFile
    by_cases same : f' = f
    · subst same
      simp
    · simp [same]
  refine ⟨file, fun f' => ?_, fun page writable f' => ?_⟩
  · have refs := files.refs f'
    rw [file f']
    by_cases same : f' = f
    · subst same
      rw [List.count_cons_self] at refs
      rw [if_pos rfl]
      dsimp only
      omega
    · rw [List.count_cons_of_ne (Ne.symm same)] at refs
      rw [if_neg same, refs]
  · rw [end_setFile]
    by_cases same : f' = f
    · simp [same]
    · simp [same]

theorem Consistent.closeFile (consistent : Consistent s (f :: held) pool)
    (last : (s.file f).ref = 1) (other : (s.file f).type ≠ .pipe) :
    Consistent (s.setFile f { s.file f with ref := 0, type := .none }) held pool := by
  refine consistent.setFile ?_ (fun f' different => ?_) (fun _ => rfl) fun isPipe => ?_
  · rw [List.count_cons_self, last]
    dsimp only
    omega
  · rw [List.count_cons_of_ne different.symm]
  · rcases isPipe with isPipe | isPipe
    · cases isPipe
    · exact absurd isPipe other

theorem setPipe_pipe (s : System) (page page' : Page) (pipe : Pipe) :
    (s.setPipe page pipe).pipe page' = if page' = page then pipe else s.pipe page' := by
  unfold System.setPipe
  by_cases same : page' = page
  · simp [same]
  · simp [same]

/-- The last reference to an end of a pipe is given up, and the end is closed. -/
theorem Files.closeEnd (files : Files s (f :: held)) (last : (s.file f).ref = 1) (isEnd : End s page writable f) :
    Files ((s.setFile f { s.file f with ref := 0, type := .none }).setPipe page ((s.pipe page).close writable))
      held := by
  rcases files.closeLast last with ⟨file, refs, ends⟩
  refine ⟨refs, fun f' unused => ?_, fun page' writable' => ?_, fun page' writable' f₁ f₂ first second => ?_⟩
  · change ((s.setFile f { s.file f with ref := 0, type := .none }).file f').ref = 0 at unused
    change ((s.setFile f { s.file f with ref := 0, type := .none }).file f').type = .none
    rw [file] at unused ⊢
    split at unused
    · rename_i same
      rw [if_pos same]
    · rename_i different
      rw [if_neg different]
      exact files.unused f' unused
  · have opened := files.opened page' writable'
    change _ ↔ ∃ f', End (s.setFile f { s.file f with ref := 0, type := .none }) page' writable' f'
    simp only [ends]
    rw [setPipe_pipe]
    change (if page' = page then (s.pipe page).close writable else s.pipe page').isOpen writable' = true ↔ _
    by_cases this : page' = page ∧ writable' = writable
    · rcases this with ⟨rfl, rfl⟩
      rw [if_pos rfl, close_isOpen]
      simp only [ne_eq, not_true_eq_false, decide_false, Bool.and_false, Bool.false_eq_true,
        false_iff, not_exists, not_and]
      exact fun f' different isEnd' => different (files.single _ _ f' f isEnd' isEnd)
    · have others : ∀ f', End s page' writable' f' → f' ≠ f := by
        rintro f' isEnd' rfl
        exact this ⟨isEnd'.2.1.symm.trans isEnd.2.1, isEnd'.2.2.symm.trans isEnd.2.2⟩
      have same : (if page' = page then (s.pipe page).close writable
          else s.pipe page').isOpen writable' = (s.pipe page').isOpen writable' := by
        split
        · rename_i same
          subst same
          have different : writable' ≠ writable := fun same' => this ⟨rfl, same'⟩
          rw [close_isOpen, decide_eq_true different, Bool.and_true]
        · rfl
      rw [same, opened]
      exact ⟨fun ⟨f', isEnd'⟩ => ⟨f', others f' isEnd', isEnd'⟩,
        fun ⟨f', _, isEnd'⟩ => ⟨f', isEnd'⟩⟩
  · exact files.single page' writable' f₁ f₂ ((ends _ _ _).1 first).2 ((ends _ _ _).1 second).2

/-- The page of a pipe without ends is freed. -/
theorem Consistent.freePipe {s' : System} {held' : List (Fin nfile)} (consistent : Consistent s held' pool)
    (files : Files s' held) (mem : s'.mem = s.mem) (was : owns s (.pipe page) = some page)
    (gone : owns s' (.pipe page) = none) (others : ∀ o ≠ .pipe page, owns s' o = owns s o) :
    ∃ m, Vm.kfree page s'.mem = .ok m ∧ Consistent { s' with mem := m } held pool ∧
      Handles s' { s' with mem := m } := by
  rcases consistent.partition.release was gone others with ⟨m, freed, partition, after⟩
  have apart : ∀ o x, (∀ p part', False → o ≠ .space p part') → owns s' o = some x →
      x ∉ ({page} : Set Page) := by
    rintro o x - holds rfl
    have different : o ≠ .pipe x := by
      rintro rfl
      cases gone.symm.trans holds
    rw [others o different] at holds
    exact different (consistent.partition.owned.single _ _ x holds was)
  rw [← mem] at after
  have framed : ∀ o, owns { s' with mem := m } o = owns s' o := fun o =>
    owns_frame (fun _ => False) apart after o fun _ _ never => never.elim
  have frames := fun q used => space_frame (q := q) used
    (fun part' x holds => apart (.space q part') x (fun _ _ never => never.elim) holds) after
  rw [mem]
  refine ⟨m, freed, ⟨⟨files.refs, files.unused, files.opened, files.single⟩, partition.congr framed⟩, ?_⟩
  exact ⟨rfl, rfl, rfl, after.linked, fun part => framed (.kpgdir part), fun _ => rfl,
    fun q used => (frames q used).1, fun q used => (frames q used).2⟩

/-- The last reference to an end of a pipe: the page of the pipe is freed with its last end. -/
theorem Consistent.closePipe (consistent : Consistent s (f :: held) pool)
    (last : (s.file f).ref = 1) (isPipe : (s.file f).type = .pipe) :
    ∃ s', pipeclose (s.file f).pipe (s.file f).writable
        (s.setFile f { s.file f with ref := 0, type := .none }) = .ok s' ∧
      Consistent s' held pool ∧ Handles s s' ∧
      s'.proc = s.proc ∧ s'.file = (s.setFile f { s.file f with ref := 0, type := .none }).file := by
  generalize pageOf : (s.file f).pipe = page
  generalize endOf : (s.file f).writable = writable
  have isEnd : End s page writable f := ⟨isPipe, pageOf, endOf⟩
  have wasOpen : (s.pipe page).isOpen writable = true :=
    (consistent.files.opened page writable).2 ⟨f, isEnd⟩
  have files₂ := consistent.files.closeEnd last isEnd
  have owns₁ : ∀ o, owns (s.setFile f { s.file f with ref := 0, type := .none }) o = owns s o := owns_setFile _
  generalize closed : s.setFile f { s.file f with ref := 0, type := .none } = s₁ at *
  have pipe₁ : s₁.pipe = s.pipe := by rw [← closed]; rfl
  have pipe₂ := fun page' => setPipe_pipe s₁ page page' ((s.pipe page).close writable)
  rw [pipe₁] at pipe₂
  generalize closed₂ : s₁.setPipe page ((s.pipe page).close writable) = s₂ at *
  have file₂ : s₂.file = s₁.file := by rw [← closed₂]; rfl
  have proc₂ : s₂.proc = s.proc := by
    rw [← closed₂, ← closed]
    rfl
  have mem₂ : s₂.mem = s.mem := by
    rw [← closed₂, ← closed]
    rfl
  have handles₂ : Handles s s₂ := by
    refine ⟨?_, ?_, ?_, by rw [mem₂], fun part => by rw [mem₂], fun q => by rw [proc₂],
      fun q used part => by rw [mem₂], fun q used v user => by rw [mem₂]⟩
    · rw [← closed₂, ← closed]
      rfl
    · rw [← closed₂, ← closed]
      rfl
    · rw [← closed₂, ← closed]
      rfl
  have owns₂ : ∀ o ≠ .pipe page, owns s₂ o = owns s o := by
    intro o different
    rw [← owns₁]
    cases o with
    | kpgdir part => rw [← closed₂]; rfl
    | cpuStack i => rw [← closed₂]; rfl
    | kstack p => rw [← closed₂]; rfl
    | space p part => rw [← closed₂]; rfl
    | pipe page' =>
        have other : page' ≠ page := fun same => different (congrArg Owner.pipe same)
        rw [owns_pipe, owns_pipe, pipe₂, if_neg other, pipe₁]
  have ownsPipe : owns s (.pipe page) = some page := by
    rw [owns_pipe, if_pos ⟨writable, wasOpen⟩]
  have closing : pipeclose page writable s₁ =
      if !((s.pipe page).close writable).readopen && !((s.pipe page).close writable).writeopen
      then (do
        let m ← Vm.kfree page s₂.mem
        return { s₂ with mem := m })
      else .ok s₂ := by
    rw [← closed₂]
    unfold pipeclose
    rw [pipe₁]
    rfl
  rw [closing]
  by_cases all : ∃ writable', ((s.pipe page).close writable).isOpen writable' = true
  · -- the other end is still open
    have notAll : ¬(!((s.pipe page).close writable).readopen &&
        !((s.pipe page).close writable).writeopen) = true := by
      rcases all with ⟨writable', isOpen⟩
      unfold Pipe.isOpen at isOpen
      cases writable' <;> simp_all
    rw [if_neg notAll]
    refine ⟨s₂, rfl, consistent.congr files₂ (fun o => ?_) mem₂, handles₂, proc₂, file₂⟩
    by_cases this : o = .pipe page
    · subst this
      rw [ownsPipe, owns_pipe, pipe₂, if_pos rfl, if_pos all]
    · exact owns₂ o this
  · have isAll : (!((s.pipe page).close writable).readopen &&
        !((s.pipe page).close writable).writeopen) = true := by
      have reading : ¬((s.pipe page).close writable).isOpen false = true := fun isOpen =>
        all ⟨false, isOpen⟩
      have writing : ¬((s.pipe page).close writable).isOpen true = true := fun isOpen =>
        all ⟨true, isOpen⟩
      unfold Pipe.isOpen at reading writing
      simp_all
    have ownsNone : owns s₂ (.pipe page) = none := by
      rw [owns_pipe, pipe₂, if_pos rfl, if_neg all]
    rcases consistent.freePipe files₂ mem₂ ownsPipe ownsNone owns₂ with ⟨m, freed, consistent', handles⟩
    rw [if_pos isAll, freed]
    exact ⟨{ s₂ with mem := m }, rfl, consistent', handles₂.trans handles, proc₂, file₂⟩

/-- `fileclose` of a file to which the call holds a reference. -/
theorem Consistent.fileclose (consistent : Consistent s (f :: held) pool) :
    ∃ s', fileclose f s = .ok s' ∧ Consistent s' held pool ∧ Handles s s' ∧ s'.proc = s.proc ∧
      ∀ p, Elsewhere p s s' := by
  have refs := consistent.files.refs f
  rw [List.count_cons_self] at refs
  unfold Vm.fileclose
  rw [if_neg (by omega)]
  by_cases more : (s.file f).ref - 1 > 0
  · rw [if_pos more]
    refine ⟨_, rfl, consistent.setRef ?_ ?_ (by omega), Handles.setFile s f _, rfl,
      fun p => .setFile (.inl ⟨rfl, rfl, rfl⟩)⟩
    · rw [List.count_cons_self]
      omega
    · intro f' different
      rw [List.count_cons_of_ne different.symm]
  · have last : (s.file f).ref = 1 := by omega
    have unseen : ∀ p, Elsewhere p s (s.setFile f { s.file f with ref := 0, type := .none }) :=
      fun p => .setFile (.inr (by omega))
    rw [if_neg more]
    dsimp only
    by_cases isPipe : (s.file f).type = .pipe
    · rw [if_pos isPipe]
      rcases consistent.closePipe last isPipe with ⟨s', closed, consistent', handles, proc, file⟩
      refine ⟨s', closed, consistent', handles, proc, fun p => ⟨fun q _ => by rw [proc],
        fun q different fd f' holds => ?_⟩⟩
      rw [← (unseen p).kind q different fd f' holds]
      unfold kind
      rw [file]
    · rw [if_neg isPipe]
      exact ⟨_, rfl, consistent.closeFile last isPipe, Handles.setFile s f _, rfl, unseen⟩

theorem Consistent.closeFiles (files : List (Fin nfile)) :
    ∀ {s}, Consistent s (files ++ held) pool →
      ∃ s', closeFiles files s = .ok s' ∧ Consistent s' held pool ∧ Handles s s' ∧
        s'.proc = s.proc ∧ ∀ p, Elsewhere p s s' := by
  induction files with
  | nil => exact fun consistent => ⟨_, rfl, consistent, .refl, rfl, fun _ => .refl⟩
  | cons f files ih =>
      intro s consistent
      rcases Consistent.fileclose consistent with ⟨s₁, closed, consistent₁, handles₁, proc₁, others₁⟩
      rcases ih consistent₁ with ⟨s', ran, consistent', handles', proc', others'⟩
      refine ⟨s', ?_, consistent', handles₁.trans handles', proc'.trans proc₁,
        fun p => (others₁ p).trans (others' p)⟩
      unfold Vm.closeFiles
      rw [closed]
      exact ran

theorem Consistent.calls (consistent : Consistent s held pool) (calls : ℕ) :
    Consistent { s with mem := { s.mem with calls } } held pool := by
  have partition := consistent.partition
  have owned := partition.owned.congr (owns_congr s { s with mem := { s.mem with calls } } rfl rfl
    rfl rfl (fun _ => .rfl) (fun _ => rfl) fun _ => rfl)
  exact ⟨⟨consistent.files.refs, consistent.files.unused, consistent.files.opened,
    consistent.files.single⟩, partition.nodup, owned, partition.valid⟩

theorem Consistent.perm {held' : List (Fin nfile)} (consistent : Consistent s held pool)
    (perm : held.Perm held') : Consistent s held' pool :=
  ⟨⟨fun f => (perm.count_eq f) ▸ consistent.files.refs f, consistent.files.unused,
    consistent.files.opened, consistent.files.single⟩, consistent.partition⟩

/-! ## Pipes -/

/-- `kalloc` does not touch what a process sees. -/
theorem Handles.mem {m : Mem} (linked : m.linked = s.mem.linked) (content : m.content = s.mem.content) :
    Handles s { s with mem := m } := by
  exact ⟨rfl, rfl, rfl, linked, (space_content content).1, fun _ => rfl,
    fun q _ => (space_content content).1, fun q _ v _ => (space_content content).2 v⟩

/-- Two files become the ends of a pipe on this page. -/
structure Connected (s : System) (page : Page) (f0 f1 : Fin nfile) (file : Fin nfile → File) :
    Prop where
  different : f0 ≠ f1
  used0 : 0 < (s.file f0).ref
  used1 : 0 < (s.file f1).ref
  other0 : (s.file f0).type ≠ .pipe
  other1 : (s.file f1).type ≠ .pipe
  file0 : file f0 = { s.file f0 with
    type := .pipe, readable := true, writable := false, pipe := page }
  file1 : file f1 = { s.file f1 with
    type := .pipe, readable := false, writable := true, pipe := page }
  others : ∀ f, f ≠ f0 → f ≠ f1 → file f = s.file f

section

variable {f0 f1 : Fin nfile} {file : Fin nfile → File} {m : Mem}

theorem Connected.ref (connected : Connected s page f0 f1 file) (f : Fin nfile) :
    (file f).ref = (s.file f).ref := by
  by_cases is0 : f = f0
  · rw [is0, connected.file0]
  · by_cases is1 : f = f1
    · rw [is1, connected.file1]
    · rw [connected.others f is0 is1]

theorem Connected.ends (connected : Connected s page f0 f1 file) (pipe : Page → Pipe)
    (page' : Page) (writable : Bool) (f : Fin nfile) :
    End { s with mem := m, file, pipe } page' writable f ↔
      page' = page ∧ f = (if writable then f1 else f0) ∨ End s page' writable f := by
  change (file f).type = .pipe ∧ (file f).pipe = page' ∧ (file f).writable = writable ↔ _
  have different := connected.different
  by_cases is0 : f = f0
  · subst is0
    have not : ¬End s page' writable f := fun isEnd => connected.other0 isEnd.1
    rw [connected.file0]
    cases writable
    · simp [not, eq_comm]
    · simp [not, different]
  · by_cases is1 : f = f1
    · subst is1
      have not : ¬End s page' writable f := fun isEnd => connected.other1 isEnd.1
      rw [connected.file1]
      cases writable
      · simp [not, different.symm]
      · simp [not, eq_comm]
    · have not : ¬f = if writable then f1 else f0 := by
        cases writable
        · simpa using is0
        · simpa using is1
      rw [connected.others f is0 is1]
      simp only [not, and_false, false_or]
      rfl

/-- Both ends of a new pipe are open. -/
theorem isOpen_update (pipe : Page → Pipe) (page page' : Page) (writable : Bool) :
    (Function.update pipe page { readopen := true, writeopen := true } page').isOpen writable =
      if page' = page then true else (pipe page').isOpen writable := by
  by_cases same : page' = page
  · subst same
    rw [Function.update_self, if_pos rfl]
    unfold Pipe.isOpen
    cases writable <;> rfl
  · rw [Function.update_of_ne same, if_neg same]

theorem Files.connect (files : Files s held) (connected : Connected s page f0 f1 file)
    (closed : ∀ writable, ¬(s.pipe page).isOpen writable = true) :
    let pipe := Function.update s.pipe page { readopen := true, writeopen := true }
    Files { s with mem := m, file, pipe } held := by
  intro pipe
  have ends := connected.ends (m := m) pipe
  have notEnd : ∀ writable f, ¬End s page writable f := fun writable f isEnd =>
    closed writable ((files.opened page writable).2 ⟨f, isEnd⟩)
  refine ⟨fun f => ?_, fun f unused => ?_, fun page' writable => ?_,
    fun page' writable f f' first second => ?_⟩
  · exact (connected.ref f).trans (files.refs f)
  · have unused : (s.file f).ref = 0 := (connected.ref f).symm.trans unused
    have not0 : f ≠ f0 := by
      rintro rfl
      exact connected.used0.ne' unused
    have not1 : f ≠ f1 := by
      rintro rfl
      exact connected.used1.ne' unused
    change (file f).type = .none
    rw [connected.others f not0 not1]
    exact files.unused f unused
  · simp only [ends]
    change (Function.update s.pipe page _ page').isOpen writable = true ↔ _
    rw [isOpen_update]
    by_cases same : page' = page
    · simp [same]
    · simpa [same] using files.opened page' writable
  · rcases (ends page' writable f).1 first with ⟨same, isF⟩ | before
    · rcases (ends page' writable f').1 second with ⟨-, isF'⟩ | before'
      · rw [isF, isF']
      · exact absurd (same ▸ before') (notEnd _ _)
    · rcases (ends page' writable f').1 second with ⟨same, -⟩ | before'
      · exact absurd (same ▸ before) (notEnd _ _)
      · exact files.single page' writable f f' before before'

/-- The page of a new pipe is the pipe's, and all others are whose they were. -/
theorem owns_newPipe (page : Page) (content : m.content = s.mem.content) (file : Fin nfile → File) :
    let pipe := Function.update s.pipe page { readopen := true, writeopen := true }
    owns { s with mem := m, file, pipe } (.pipe page) = some page ∧
      ∀ o ≠ .pipe page, owns { s with mem := m, file, pipe } o = owns s o := by
  intro pipe
  constructor
  · rw [owns_pipe, if_pos]
    exact ⟨true, by rw [isOpen_update, if_pos rfl]⟩
  · intro o other
    cases o with
    | kpgdir part => exact (space_content content).1 part
    | cpuStack i => rfl
    | kstack p => rfl
    | space p part =>
        simp only [owns]
        rw [(space_content content).1 part]
    | pipe page' =>
        have different : page' ≠ page := fun same => other (congrArg Owner.pipe same)
        rw [owns_pipe, owns_pipe]
        simp only [pipe, isOpen_update, if_neg different]

/-- A page becomes a pipe with two ends. -/
theorem Consistent.openPipe {freelist : List Page} (consistent : Consistent s held pool)
    (list : s.mem.freelist = page :: freelist) (connected : Connected s page f0 f1 file) :
    let m := { s.mem with calls := s.mem.calls + 1, freelist }
    let pipe := Function.update s.pipe page { readopen := true, writeopen := true }
    Consistent { s with mem := m, file, pipe } held pool := by
  intro m pipe
  have isFree : page ∈ s.mem.free := by simp [Mem.free, list]
  rcases consistent.partition.take list with ⟨partition, inPool⟩
  have valid := consistent.partition.valid page inPool
  have notOwned : ∀ o, owns s o ≠ some page := fun o holds =>
    consistent.partition.owned.apart o page holds isFree
  have closed : ∀ writable, ¬(s.pipe page).isOpen writable = true := by
    intro writable isOpen
    refine notOwned (.pipe page) ?_
    rw [owns_pipe, if_pos ⟨writable, isOpen⟩]
  have unowned : owns s (.pipe page) = none := by
    rw [owns_pipe, if_neg]
    rintro ⟨writable, isOpen⟩
    exact closed writable isOpen
  have content : m.content = s.mem.content := rfl
  obtain ⟨self, others⟩ := owns_newPipe page content file
  exact ⟨consistent.files.connect connected closed,
    partition.gain inPool valid unowned self others⟩

end

end Xv6.Vm
