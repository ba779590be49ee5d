import Xv6.Vm.Exec

/-!
# The system calls that take and give pages

`fork`, `exit`, `wait`, `waitnstats` and `growproc` of `proc.c`, the file table of `file.c`, `pipe.c`,
the system calls on file descriptors of `sysfile.c`, and the boot sequence of `main.c` as far as it
allocates pages. A system call runs to its end here, with any of its calls of `kalloc` failing; in
`wait` that is the pass over the table that returns. Inodes are left out: a file of type `FD_INODE`
is only its entry in the file table.

`cpuStacks` holds the pages that `startothers` has given to the other CPUs.
-/

namespace Xv6.Vm

inductive FileType where
  | none
  | pipe
  | inode
  deriving DecidableEq, Repr

/-- `struct file` -/
structure File where
  type : FileType := .none
  ref : ℕ := 0
  readable : Bool := false
  writable : Bool := false
  pipe : Page := 0

/-- `struct pipe`, without its data. -/
structure Pipe where
  readopen : Bool := false
  writeopen : Bool := false

structure System where
  mem : Mem
  kpgdir : Page
  cpuStacks : List Page
  proc : Slot → Proc := fun _ => {}
  initproc : Option Slot := none
  file : Fin nfile → File := fun _ => {}
  pipe : Page → Pipe := fun _ => {}

namespace System

def setProc (s : System) (p : Slot) (proc : Proc) : System :=
  { s with proc := Function.update s.proc p proc }

def setFile (s : System) (f : Fin nfile) (file : File) : System :=
  { s with file := Function.update s.file f file }

def setPipe (s : System) (p : Page) (pipe : Pipe) : System :=
  { s with pipe := Function.update s.pipe p pipe }

/-- `p->ofile[fd] = f` -/
def setOfile (s : System) (p : Slot) (fd : Fin nofile) (f : Option (Fin nfile)) : System :=
  s.setProc p { s.proc p with ofile := Function.update (s.proc p).ofile fd f }

end System

/-! ## Files and pipes -/

/-- `pipeclose` -/
def pipeclose (p : Page) (writable : Bool) (s : System) : Except Fault System :=
  let pipe := if writable then { s.pipe p with writeopen := false }
    else { s.pipe p with readopen := false }
  let s := s.setPipe p pipe
  if !pipe.readopen && !pipe.writeopen then do
    let m ← kfree p s.mem
    return { s with mem := m }
  else return s

/-- `filealloc` -/
def filealloc (s : System) : Option (Fin nfile) × System :=
  match (List.finRange nfile).find? fun f => (s.file f).ref = 0 with
  | none => (none, s)
  | some f => (some f, s.setFile f { s.file f with ref := 1 })

/-- `filedup` -/
def filedup (f : Fin nfile) (s : System) : Except Fault System :=
  if (s.file f).ref < 1 then .error .file
  else .ok (s.setFile f { s.file f with ref := (s.file f).ref + 1 })

/-- `fileclose` -/
def fileclose (f : Fin nfile) (s : System) : Except Fault System :=
  if (s.file f).ref < 1 then .error .file
  else if (s.file f).ref - 1 > 0 then
    .ok (s.setFile f { s.file f with ref := (s.file f).ref - 1 })
  else
    let ff := s.file f
    let s := s.setFile f { s.file f with ref := 0, type := .none }
    if ff.type = .pipe then pipeclose ff.pipe ff.writable s
    else .ok s

/-- `fdalloc` -/
def fdalloc (curproc : Slot) (f : Fin nfile) (s : System) : Option (Fin nofile) × System :=
  match (List.finRange nofile).find? fun fd => ((s.proc curproc).ofile fd).isNone with
  | none => (none, s)
  | some fd => (some fd, s.setOfile curproc fd (some f))

/-- `fileclose` of the files that there are. -/
def closeFiles : List (Fin nfile) → System → Except Fault System
  | [], s => .ok s
  | f :: files, s => do
      let s ← fileclose f s
      closeFiles files s

/-- `pipealloc` -/
def pipealloc (s : System) : Except Fault (Option (Fin nfile × Fin nfile) × System) :=
  match filealloc s with
  | (none, s) => .ok (none, s)
  | (some f0, s) =>
      match filealloc s with
      | (none, s) => do
          let s ← closeFiles [f0] s
          return (none, s)
      | (some f1, s) =>
          match kalloc s.mem with
          | (none, m) => do
              let s ← closeFiles [f0, f1] { s with mem := m }
              return (none, s)
          | (some p, m) =>
              let s := { s with mem := m }.setPipe p { readopen := true, writeopen := true }
              let s := s.setFile f0 { s.file f0 with
                type := .pipe, readable := true, writable := false, pipe := p }
              let s := s.setFile f1 { s.file f1 with
                type := .pipe, readable := false, writable := true, pipe := p }
              .ok (some (f0, f1), s)

/-- `sys_pipe`; `fd` is the address for the two descriptors. The result is `true` for 0. -/
def sys_pipe (curproc : Slot) (fd : ℕ) (s : System) : Except Fault (Bool × System) :=
  let sz := (s.proc curproc).sz
  if fd ≥ sz ∨ (fd + 8) % 2 ^ 32 > sz then .ok (false, s)
  else do
    match ← pipealloc s with
    | (none, s) => return (false, s)
    | (some (rf, wf), s) =>
        match fdalloc curproc rf s with
        | (none, s) =>
            let s ← closeFiles [rf, wf] s
            return (false, s)
        | (some fd0, s) =>
            match fdalloc curproc wf s with
            | (none, s) =>
                let s ← closeFiles [rf, wf] (s.setOfile curproc fd0 none)
                return (false, s)
            | (some _, s) => return (true, s)

/-- `sys_open` from the point where the inode has been found. -/
def sys_open (curproc : Slot) (readable writable : Bool) (s : System) :
    Except Fault (Bool × System) :=
  match filealloc s with
  | (none, s) => .ok (false, s)
  | (some f, s) =>
      match fdalloc curproc f s with
      | (none, s) => do
          let s ← closeFiles [f] s
          return (false, s)
      | (some _, s) =>
          .ok (true, s.setFile f { s.file f with type := .inode, readable, writable })

/-- `sys_dup` -/
def sys_dup (curproc : Slot) (fd : Fin nofile) (s : System) : Except Fault (Bool × System) :=
  match (s.proc curproc).ofile fd with
  | none => .ok (false, s)
  | some f =>
      match fdalloc curproc f s with
      | (none, s) => .ok (false, s)
      | (some _, s) => do
          let s ← filedup f s
          return (true, s)

/-- `sys_close` -/
def sys_close (curproc : Slot) (fd : Fin nofile) (s : System) : Except Fault (Bool × System) :=
  match (s.proc curproc).ofile fd with
  | none => .ok (false, s)
  | some f => do
      let s ← fileclose f (s.setOfile curproc fd none)
      return (true, s)

/-! ## Processes -/

/-- `allocproc` -/
def allocproc (s : System) : Option Slot × System :=
  match (List.finRange nproc).find? fun p => (s.proc p).state = .unused with
  | none => (none, s)
  | some p =>
      match kalloc s.mem with
      | (none, m) =>
          (none, { s with mem := m }.setProc p { s.proc p with kstack := 0, state := .unused })
      | (some kstack, m) =>
          (some p, { s with mem := m }.setProc p { s.proc p with kstack, state := .embryo })

/-- The loop of `fork` over the open files. -/
def dupFiles (curproc np : Slot) : List (Fin nofile) → System → Except Fault System
  | [], s => .ok s
  | fd :: fds, s =>
      match (s.proc curproc).ofile fd with
      | none => dupFiles curproc np fds s
      | some f => do
          let s ← filedup f s
          dupFiles curproc np fds (s.setOfile np fd (some f))

/-- `fork`; the result is the child. -/
def fork (build : Build) (curproc : Slot) (s : System) : Except Fault (Option Slot × System) :=
  match allocproc s with
  | (none, s) => .ok (none, s)
  | (some np, s) => do
      match ← copyuvm (s.proc curproc).pgdir (s.proc curproc).sz s.mem with
      | (none, m) =>
          let m ← kfree (s.proc np).kstack m
          return (none,
            { s with mem := m }.setProc np { s.proc np with kstack := 0, state := .unused })
      | (some pgdir, m) =>
          let p := s.proc curproc
          let priority := if build = .mlq ∨ build = .dmlq then p.priority
            else (s.proc np).priority
          let s := { s with mem := m }.setProc np { s.proc np with
            pgdir, sz := p.sz, parent := some curproc, priority, eip := p.eip, esp := p.esp }
          let s ← dupFiles curproc np (List.finRange nofile) s
          return (some np, s.setProc np { s.proc np with name := p.name, state := .runnable })

/-- The loop of `exit` over the open files. -/
def exitFiles (curproc : Slot) : List (Fin nofile) → System → Except Fault System
  | [], s => .ok s
  | fd :: fds, s =>
      match (s.proc curproc).ofile fd with
      | none => exitFiles curproc fds s
      | some f => do
          let s ← fileclose f s
          exitFiles curproc fds (s.setOfile curproc fd none)

/-- The abandoned children of a process are passed to `initproc`. -/
def abandon (curproc : Slot) (s : System) : System :=
  { s with proc := fun p =>
      if (s.proc p).parent = some curproc then { s.proc p with parent := s.initproc }
      else s.proc p }

/-- `exit` -/
def exit (curproc : Slot) (s : System) : Except Fault System :=
  if s.initproc = some curproc then .error .initExiting
  else do
    let s ← exitFiles curproc (List.finRange nofile) s
    let s := abandon curproc s
    return s.setProc curproc { s.proc curproc with state := .zombie }

/-- How a call of `wait` ends, or that it sleeps. -/
inductive Waited where
  | reaped (p : Slot)
  | failed
  | sleeps
  deriving DecidableEq, Repr

/-- `wait` and `waitnstats`; `killed` is `curproc->killed`. -/
def wait (curproc : Slot) (killed : Bool) (s : System) : Except Fault (Waited × System) :=
  let child := fun p => (s.proc p).parent = some curproc
  match (List.finRange nproc).find? fun p => child p ∧ (s.proc p).state = .zombie with
  | some p => do
      let m ← kfree (s.proc p).kstack s.mem
      let m ← freevm (s.proc p).pgdir m
      return (.reaped p, { s with mem := m }.setProc p { s.proc p with
        kstack := 0, parent := none, name := [], state := .unused })
  | none =>
      let havekids := (List.finRange nproc).any fun p => child p
      .ok (if !havekids || killed then .failed else .sleeps, s)

/-- `growproc`; the result is `true` for 0. -/
def growproc (n : BitVec 32) (p : Proc) (m : Mem) : Except Fault (Bool × Proc × Mem) :=
  let newsz := (p.sz + n.toNat) % 2 ^ 32
  if n.toInt > 0 then do
    let (sz, m) ← allocuvm p.pgdir p.sz newsz m
    if sz = 0 then return (false, p, m) else return (true, { p with sz }, m)
  else if n.toInt < 0 then do
    let (sz, m) ← deallocuvm p.pgdir p.sz newsz m
    if sz = 0 then return (false, p, m) else return (true, { p with sz }, m)
  else return (true, p, m)

/-! ## The system -/

inductive Call where
  | fork
  /-- `namei` says what is found at a path, and the function what the user memory holds. -/
  | exec (namei : List (BitVec 8) → Option Inode) (user : ℕ → BitVec 8)
  | exit
  | wait (killed : Bool)
  | waitnstats (killed : Bool)
  | sbrk (n : BitVec 32)
  | pipe (fd : ℕ)
  | dup (fd : Fin nofile)
  | close (fd : Fin nofile)
  | openInode (readable writable : Bool)

/-- A system call of a process. -/
def perform (build : Build) (curproc : Slot) (s : System) : Call → Except Fault System
  | .fork => Prod.snd <$> fork build curproc s
  | .exec namei user => do
      let (_, e) ← sys_exec build namei user { mem := s.mem, proc := s.proc curproc }
      return { s with mem := e.mem }.setProc curproc e.proc
  | .exit => exit curproc s
  | .wait killed => Prod.snd <$> wait curproc killed s
  | .waitnstats killed => Prod.snd <$> wait curproc killed s
  | .sbrk n => do
      let (_, p, m) ← growproc n (s.proc curproc) s.mem
      return { s with mem := m }.setProc curproc p
  | .pipe fd => Prod.snd <$> sys_pipe curproc fd s
  | .dup fd => Prod.snd <$> sys_dup curproc fd s
  | .close fd => Prod.snd <$> sys_close curproc fd s
  | .openInode readable writable => Prod.snd <$> sys_open curproc readable writable s

/-- A process that can make system calls. -/
def Active (s : System) (p : Slot) : Prop :=
  (s.proc p).state ≠ .unused ∧ (s.proc p).state ≠ .embryo ∧ (s.proc p).state ≠ .zombie

/-- A system call from one state between system calls to the next. A call runs as a whole: the calls of
several processes that overlap in time are not modelled. -/
def Step (build : Build) (s s' : System) : Prop :=
  ∃ p call, Active s p ∧ perform build p s call = .ok s'

/-! ## Boot -/

/-- `freerange`, on page numbers -/
def freerange (vstart vend : Page) (m : Mem) : Except Fault Mem :=
  (List.range' vstart (vend - vstart)).foldlM (fun m page => kfree page m) m

/-- `kalloc` of the cpuStacks of the other CPUs, if there is a page for each. -/
def startothers : ℕ → List Page → Mem → Option (List Page) × Mem
  | 0, cpuStacks, m => (some cpuStacks, m)
  | left + 1, cpuStacks, m =>
      match kalloc m with
      | (none, m) => (none, m)
      | (some stack, m) => startothers left (cpuStacks ++ [stack]) m

/-- `inituvm`, if there are pages for it. -/
def inituvm (pgdir : Page) (init : List (BitVec 8)) (m : Mem) : Except Fault (Option Mem) :=
  if init.length ≥ pgsize then .error .inituvm
  else
    match kalloc m with
    | (none, _) => .ok none
    | (some mem, m) => do
        let (mapped, m) ← mappages pgdir 0 pgsize mem writableUser (m.zero mem)
        return if mapped then some (m.write mem 0 init) else none

/-- `userinit`, if there are pages for it. -/
def userinit (init : List (BitVec 8)) (s : System) : Except Fault (Option System) :=
  match allocproc s with
  | (none, _) => .ok none
  | (some p, s) => do
      match ← setupkvm s.mem with
      | (none, _) => return none
      | (some pgdir, m) =>
          match ← inituvm pgdir init m with
          | none => return none
          | some m =>
              return some ({ s with mem := m, initproc := some p }.setProc p { s.proc p with
                pgdir, sz := pgsize, esp := pgsize, eip := 0, priority := mdpr
                state := .runnable })

/-- The boot sequence of `main`. The result is `none` if the memory does not suffice. -/
def boot (linked : Linked) (ncpu : ℕ) (init : List (BitVec 8)) : Except Fault (Option System) := do
  let m ← freerange linked.kernelEnd 1024 { linked, content := fun _ => zeroed, freelist := [] }
  match ← setupkvm m with
  | (none, _) => return none
  | (some kpgdir, m) =>
      match startothers (ncpu - 1) [] m with
      | (none, _) => return none
      | (some cpuStacks, m) =>
          let m ← freerange 1024 phystop m
          userinit init { mem := m, kpgdir, cpuStacks }

end Xv6.Vm
