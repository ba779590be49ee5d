import Xv6.Vm.Basic

/-!
# `exec`

`exec` of `exec.c` and `sys_exec` of `sysfile.c`, with the parts of `vm.c` and `syscall.c` that
they use. What `exec` does to the file system is an entry of a trace; the file is what `readi`
returns of it, and the path has been looked up already. User memory is read through a function
from addresses to bytes.
-/

namespace Xv6.Vm

/-- `MAXARG` -/
abbrev maxarg : ℕ := 32

/-- `NFILE` -/
abbrev nfile : ℕ := 100

/-- `NOFILE` -/
abbrev nofile : ℕ := 16

/-- `ELF_MAGIC` -/
abbrev elfMagic : ℕ := 0x464C457F

/-- `struct proc`. A pointer to a page is a page number; no page 0 is ever allocated. -/
structure Proc where
  sz : ℕ := 0
  pgdir : Page := 0
  kstack : Page := 0
  state : ProcState := .unused
  parent : Option Slot := none
  ofile : Fin nofile → Option (Fin nfile) := fun _ => none
  /-- `tf->eip` -/
  eip : ℕ := 0
  /-- `tf->esp` -/
  esp : ℕ := 0
  name : List (BitVec 8) := []
  priority : ℤ := 0

/-- What `exec` does to the file system. -/
inductive Action where
  | beginOp
  /-- `namei` has found the inode and returns a reference -/
  | namei
  | ilock
  | iunlockput
  | endOp
  deriving DecidableEq, Repr

/-- An inode as `readi` sees it. A device is what its driver returns, one call after the other. -/
structure Inode where
  content : List (BitVec 8)
  device : Option (ℕ → Option (List (BitVec 8))) := none

/-- The state that `exec` works on: memory, `curproc`, the number of reads and the trace. -/
structure Exec where
  mem : Mem
  proc : Proc
  reads : ℕ := 0
  trace : List Action := []

def Exec.act (s : Exec) (action : Action) : Exec := { s with trace := s.trace ++ [action] }

/-- `readi`; `none` is -1. -/
def readi (ip : Inode) (off n : ℕ) (s : Exec) : Option (List (BitVec 8)) × Exec :=
  match ip.device with
  | some read => ((read s.reads).map (·.take n), { s with reads := s.reads + 1 })
  | none =>
      if off > ip.content.length ∨ (off + n) % 2 ^ 32 < off then (none, s)
      else
        let n := if off + n > ip.content.length then ip.content.length - off else n
        (some ((ip.content.drop off).take n), s)

/-- A little-endian field of a header. -/
def field (header : List (BitVec 8)) (offset : ℕ) : ℕ → ℕ
  | 0 => 0
  | size + 1 => (header.getD offset 0).toNat + 256 * field header (offset + 1) size

/-- The loop of `loaduvm` at `i`; the number bounds its passes. -/
def loaduvmLoop (pgdir : Page) (addr : ℕ) (ip : Inode) (offset sz : ℕ) :
    ℕ → ℕ → Exec → Except Fault (Bool × Exec)
  | 0, _, s => .ok (true, s)
  | passes + 1, i, s =>
      if i < sz then
        match walkpgdir pgdir (addr + i) false s.mem with
        | (none, _) => .error .loaduvmExists
        | (some (table, j), m) =>
            let pa := (m.pte table j).page
            let n := if sz - i < pgsize then sz - i else pgsize
            match readi ip ((offset + i) % 2 ^ 32) n s with
            | (none, s) => .ok (false, s)
            | (some data, s) =>
                let s := { s with mem := s.mem.write pa 0 data }
                if data.length = n then loaduvmLoop pgdir addr ip offset sz passes (i + pgsize) s
                else .ok (false, s)
      else .ok (true, s)

def loaduvm (pgdir : Page) (addr : ℕ) (ip : Inode) (offset sz : ℕ) (s : Exec) :
    Except Fault (Bool × Exec) :=
  if addr % pgsize ≠ 0 then .error .loaduvmAligned
  else loaduvmLoop pgdir addr ip offset sz (sz / pgsize + 1) 0 s

/-- The loop over the program headers; `none` is a jump to `bad`. -/
def loadSegments (pgdir : Page) (ip : Inode) : ℕ → ℕ → ℕ → Exec →
    Except Fault (Option ℕ × Exec)
  | 0, _, sz, s => .ok (some sz, s)
  | left + 1, off, sz, s =>
      match readi ip off 32 s with
      | (none, s) => .ok (none, s)
      | (some ph, s) =>
          if ph.length ≠ 32 then .ok (none, s)
          else
            let next := (off + 32) % 2 ^ 32
            let vaddr := field ph 8 4
            let filesz := field ph 16 4
            let memsz := field ph 20 4
            if field ph 0 4 ≠ 1 then loadSegments pgdir ip left next sz s
            else if memsz < filesz then .ok (none, s)
            else if (vaddr + memsz) % 2 ^ 32 < vaddr then .ok (none, s)
            else do
              let (sz, m) ← allocuvm pgdir sz ((vaddr + memsz) % 2 ^ 32) s.mem
              let s := { s with mem := m }
              if sz = 0 then return (none, s)
              else if vaddr % pgsize ≠ 0 then return (none, s)
              else
                let (loaded, s) ← loaduvm pgdir vaddr ip (field ph 4 4) filesz s
                if loaded then loadSegments pgdir ip left next sz s
                else return (none, s)

/-- `x & ~3` -/
def alignDown (x : ℕ) : ℕ := x / 4 * 4

/-- Difference of two `uint`s. -/
def usub (a b : ℕ) : ℕ := (a + 2 ^ 32 - b % 2 ^ 32) % 2 ^ 32

/-- The loop over the argument strings; `pushed` holds the addresses of those before.
`none` is a jump to `bad`. -/
def pushStrings (pgdir : Page) : List (List (BitVec 8)) → List ℕ → ℕ → Mem →
    Option (List ℕ × ℕ) × Mem
  | [], pushed, sp, m => (some (pushed, sp), m)
  | arg :: args, pushed, sp, m =>
      if pushed.length ≥ maxarg then (none, m)
      else
        let sp := alignDown (usub sp (arg.length + 1))
        match copyout pgdir sp (arg ++ [0]) m with
        | (false, m) => (none, m)
        | (true, m) => pushStrings pgdir args (pushed ++ [sp]) sp m

/-- The bytes of a `uint`. -/
def uintBytes (value : ℕ) : List (BitVec 8) :=
  [.ofNat 8 value, .ofNat 8 (value / 2 ^ 8), .ofNat 8 (value / 2 ^ 16), .ofNat 8 (value / 2 ^ 24)]

/-- The user stack of the new image: the result is the stack pointer. -/
def pushArguments (pgdir : Page) (argv : List (List (BitVec 8))) (sz : ℕ) (m : Mem) :
    Option ℕ × Mem :=
  match pushStrings pgdir argv [] sz m with
  | (none, m) => (none, m)
  | (some (pushed, sp), m) =>
      let argc := pushed.length
      let ustack := [0xffffffff, argc, usub sp ((argc + 1) * 4)] ++ pushed ++ [0]
      let sp := usub sp ((3 + argc + 1) * 4)
      match copyout pgdir sp (ustack.flatMap uintBytes) m with
      | (false, m) => (none, m)
      | (true, m) => (some sp, m)

/-- `safestrcpy(curproc->name, last, sizeof(curproc->name))` -/
def programName (path : List (BitVec 8)) : List (BitVec 8) :=
  ((path.reverse.takeWhile (· ≠ 0x2f)).reverse).take 15

/-- The label `bad` of `exec`. -/
def execBad (pgdir : Option Page) (locked : Bool) (s : Exec) : Except Fault (Bool × Exec) := do
  let m ← pgdir.elim (.ok s.mem) (freevm · s.mem)
  let s := { s with mem := m }
  if locked then return (false, (s.act .iunlockput).act .endOp)
  else return (false, s)

/-- `exec` from the point where the file has been loaded. -/
def execStack (build : Build) (path : List (BitVec 8)) (argv : List (List (BitVec 8)))
    (pgdir : Page) (entry sz : ℕ) (s : Exec) : Except Fault (Bool × Exec) := do
  let (sz, m) ← allocuvm pgdir (pgroundup sz) (pgroundup sz + 2 * pgsize) s.mem
  let s := { s with mem := m }
  if sz = 0 then execBad (some pgdir) false s
  else
    let m ← clearpteu pgdir (sz - 2 * pgsize) s.mem
    match pushArguments pgdir argv sz m with
    | (none, m) => execBad (some pgdir) false { s with mem := m }
    | (some sp, m) =>
        let priority := if build = .dmlq then mdpr else s.proc.priority
        let oldpgdir := s.proc.pgdir
        let proc := { s.proc with
          name := programName path, priority, pgdir, sz, eip := entry, esp := sp }
        let m ← freevm oldpgdir m
        return (true, { s with mem := m, proc })

/-- `exec`; the result is `true` for 0. `ip` is what `namei` has found. -/
def exec (build : Build) (path : List (BitVec 8)) (ip : Option Inode)
    (argv : List (List (BitVec 8))) (s : Exec) : Except Fault (Bool × Exec) :=
  let s := s.act .beginOp
  match ip with
  | none => .ok (false, s.act .endOp)
  | some ip =>
      let s := (s.act .namei).act .ilock
      match readi ip 0 52 s with
      | (none, s) => execBad none true s
      | (some elf, s) =>
          if elf.length ≠ 52 then execBad none true s
          else if field elf 0 4 ≠ elfMagic then execBad none true s
          else do
            match ← setupkvm s.mem with
            | (none, m) => execBad none true { s with mem := m }
            | (some pgdir, m) =>
                match ← loadSegments pgdir ip (field elf 44 2) (field elf 28 4) 0
                  { s with mem := m } with
                | (none, s) => execBad (some pgdir) true s
                | (some sz, s) =>
                    let s := (s.act .iunlockput).act .endOp
                    execStack build path argv pgdir (field elf 24 4) sz s

/-! ## `sys_exec` -/

/-- `fetchint` -/
def fetchint (user : ℕ → BitVec 8) (sz addr : ℕ) : Option ℕ :=
  if addr ≥ sz ∨ (addr + 4) % 2 ^ 32 > sz then none
  else some (field ((List.range 4).map fun i => user (addr + i)) 0 4)

/-- `fetchstr`; the result is the string without its NUL. -/
def fetchstr (user : ℕ → BitVec 8) (sz addr : ℕ) : Option (List (BitVec 8)) :=
  if addr ≥ sz then none
  else
    let bytes := (List.range (sz - addr)).map fun i => user (addr + i)
    let string := bytes.takeWhile (· ≠ 0)
    if string.length < sz - addr then some string else none

/-- The loop of `sys_exec` at `i`, with the number of entries of `argv` that are left. -/
def fetchArguments (user : ℕ → BitVec 8) (sz uargv : ℕ) : ℕ → ℕ → Option (List (List (BitVec 8)))
  | 0, _ => none
  | left + 1, i =>
      match fetchint user sz ((uargv + 4 * i) % 2 ^ 32) with
      | none => none
      | some uarg =>
          if uarg = 0 then some []
          else
            match fetchstr user sz uarg with
            | none => none
            | some arg => (fetchArguments user sz uargv left (i + 1)).map (arg :: ·)

/-- `argint` -/
def argint (user : ℕ → BitVec 8) (p : Proc) (n : ℕ) : Option ℕ :=
  fetchint user p.sz ((p.esp + 4 + 4 * n) % 2 ^ 32)

/-- `argstr` -/
def argstr (user : ℕ → BitVec 8) (p : Proc) (n : ℕ) : Option (List (BitVec 8)) :=
  match argint user p n with
  | none => none
  | some addr => fetchstr user p.sz addr

/-- `sys_exec`. `namei` says what is found at a path. -/
def sys_exec (build : Build) (namei : List (BitVec 8) → Option Inode) (user : ℕ → BitVec 8)
    (s : Exec) : Except Fault (Bool × Exec) :=
  match argstr user s.proc 0, argint user s.proc 1 with
  | some path, some uargv =>
      match fetchArguments user s.proc.sz uargv maxarg 0 with
      | none => .ok (false, s)
      | some argv => exec build path (namei path) argv s
  | _, _ => .ok (false, s)

end Xv6.Vm
