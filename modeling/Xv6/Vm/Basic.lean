import Xv6.Lib.Fallible
import Xv6.Proc.Basic

/-!
# Physical pages and page tables

The functions of `kalloc.c` and `vm.c` on page tables. A physical address is a page number with an
offset, and a page is seen in two ways: as 1024 entries, if it is a page directory or a page table,
and as bytes, if it is user memory. No page is ever used in both ways. The free list is the list of
its pages. `kalloc` fails if the list is empty, and also whenever `fails` says so: other processes
may have taken all pages at that time and given them back later.

Virtual addresses and sizes are numbers below 2 ^ 32; the sums that can wrap say so.
-/

namespace Xv6.Vm

/-- `PGSIZE` -/
abbrev pgsize : ℕ := 4096

/-- `KERNBASE` -/
abbrev kernbase : ℕ := 0x80000000

/-- The number of user pages, `KERNBASE / PGSIZE`. -/
abbrev userPages : ℕ := 0x80000

/-- `PHYSTOP`, as a page number. -/
abbrev phystop : ℕ := 0xE000

/-- `DEVSPACE`, as a page number. -/
abbrev devspace : ℕ := 0xFE000

/-- `PGROUNDUP` -/
def pgroundup (size : ℕ) : ℕ := (size + (pgsize - 1)) % 2 ^ 32 / pgsize * pgsize

/-- `PGROUNDDOWN` -/
def pgrounddown (a : ℕ) : ℕ := a / pgsize * pgsize

/-- `PDX` -/
def pdx (va : ℕ) : ℕ := va / 2 ^ 22 % 1024

/-- `PTX` -/
def ptx (va : ℕ) : ℕ := va / 2 ^ 12 % 1024

/-- `PGADDR(d, 0, 0)` -/
def pgaddr (d : ℕ) : ℕ := d * 2 ^ 22 % 2 ^ 32

/-- An entry of a page directory or a page table. Its default is a zero word. -/
structure Pte where
  /-- `PTE_ADDR`, as a page number -/
  page : Page := 0
  /-- `PTE_P` -/
  present : Bool := false
  /-- `PTE_W` -/
  writable : Bool := false
  /-- `PTE_U` -/
  user : Bool := false
  deriving DecidableEq, Repr

/-- The content of a page. -/
structure Contents where
  ptes : ℕ → Pte
  bytes : ℕ → BitVec 8

/-- A page after `memset(v, 0, PGSIZE)`. -/
def zeroed : Contents := { ptes := fun _ => {}, bytes := fun _ => 0 }

/-- A page after `memset(v, 1, PGSIZE)`. -/
def junk : Contents :=
  { ptes := fun _ => { page := 0x1010, present := true }, bytes := fun _ => 1 }

/-- The addresses that the linker sets, as physical page numbers. -/
structure Linked where
  data : ℕ
  /-- the first page after the kernel, `PGROUNDUP(end)` -/
  kernelEnd : ℕ
  text : 0x100 < data
  inside : data ≤ kernelEnd
  room : kernelEnd < phystop

structure Mem where
  linked : Linked
  content : Page → Contents
  /-- `kmem.freelist` -/
  freelist : List Page
  /-- the number of calls of `kalloc` so far -/
  calls : ℕ := 0
  /-- the calls of `kalloc` that find no free page -/
  fails : ℕ → Bool := fun _ => false

/-- The panics of `kalloc.c` and `vm.c` and the use of a null pointer. -/
inductive Fault where
  /-- kfree -/
  | kfree
  /-- remap -/
  | remap
  /-- loaduvm: addr must be page aligned -/
  | loaduvmAligned
  /-- loaduvm: address should exist -/
  | loaduvmExists
  /-- freevm: no pgdir -/
  | freevm
  /-- copyuvm: pte should exist -/
  | copyuvmExists
  /-- copyuvm: page not present -/
  | copyuvmPresent
  /-- clearpteu -/
  | clearpteu
  /-- inituvm: more than a page -/
  | inituvm
  /-- init exiting -/
  | initExiting
  /-- filedup, fileclose -/
  | file
  deriving DecidableEq, Repr

/-! ## `kalloc.c` -/

def kalloc (m : Mem) : Option Page × Mem :=
  let failing := m.fails m.calls
  let m := { m with calls := m.calls + 1 }
  if failing then (none, m)
  else
    match m.freelist with
    | [] => (none, m)
    | page :: freelist => (some page, { m with freelist })

def kfree (page : Page) (m : Mem) : Except Fault Mem :=
  if page < m.linked.kernelEnd ∨ phystop ≤ page then .error .kfree
  else .ok { m with
    content := Function.update m.content page junk, freelist := page :: m.freelist }

def kmemtop (m : Mem) : ℕ := m.freelist.length * pgsize

/-! ## `vm.c` -/

/-- `memset(page, 0, PGSIZE)` -/
def Mem.zero (m : Mem) (page : Page) : Mem :=
  { m with content := Function.update m.content page zeroed }

def Mem.pte (m : Mem) (table : Page) (i : ℕ) : Pte := (m.content table).ptes i

def Mem.setPte (m : Mem) (table : Page) (i : ℕ) (pte : Pte) : Mem :=
  let page := { m.content table with ptes := Function.update (m.content table).ptes i pte }
  { m with content := Function.update m.content table page }

def Mem.setBytes (m : Mem) (page : Page) (bytes : ℕ → BitVec 8) : Mem :=
  let page' := { m.content page with bytes }
  { m with content := Function.update m.content page page' }

/-- The page table of the entry for `va` and the index of the entry, if there is one. -/
def walkpgdir (pgdir : Page) (va : ℕ) (alloc : Bool) (m : Mem) : Option (Page × ℕ) × Mem :=
  let pde := m.pte pgdir (pdx va)
  if pde.present then (some (pde.page, ptx va), m)
  else if !alloc then (none, m)
  else
    match kalloc m with
    | (none, m) => (none, m)
    | (some pgtab, m) =>
        let m := m.zero pgtab
        let pde := { page := pgtab, present := true, writable := true, user := true }
        (some (pgtab, ptx va), m.setPte pgdir (pdx va) pde)

/-- The loop of `mappages` at `a`, with the number of pages after this one. -/
def mappagesLoop (pgdir : Page) (flags : Pte) : ℕ → ℕ → Page → Mem → Except Fault (Bool × Mem)
  | left, a, pa, m =>
      match walkpgdir pgdir a true m with
      | (none, m) => .ok (false, m)
      | (some (table, i), m) =>
          if (m.pte table i).present then .error .remap
          else
            let m := m.setPte table i { flags with page := pa, present := true }
            match left with
            | 0 => .ok (true, m)
            | left + 1 => mappagesLoop pgdir flags left (a + pgsize) (pa + 1) m

/-- `mappages`; the result is `true` for 0. The flags are those of an entry. -/
def mappages (pgdir : Page) (va size : ℕ) (pa : Page) (flags : Pte) (m : Mem) :
    Except Fault (Bool × Mem) :=
  let a := pgrounddown va
  let last := pgrounddown ((va + size - 1) % 2 ^ 32)
  mappagesLoop pgdir flags ((last + 2 ^ 32 - a) % 2 ^ 32 / pgsize) a pa m

/-- A line of the table `kmap`; the addresses are page numbers. -/
structure Kmap where
  virt : ℕ
  physStart : Page
  size : ℕ
  writable : Bool

/-- `kmap` -/
def kmap (linked : Linked) : List Kmap :=
  [{ virt := userPages, physStart := 0, size := 0x100, writable := true },
   { virt := userPages + 0x100, physStart := 0x100, size := linked.data - 0x100, writable := false },
   { virt := userPages + linked.data, physStart := linked.data, size := phystop - linked.data,
     writable := true },
   { virt := devspace, physStart := devspace, size := 0x100000 - devspace, writable := true }]

/-- The loop of `deallocuvm` at `a`; the number bounds its passes. -/
def deallocuvmLoop (pgdir : Page) (oldsz : ℕ) : ℕ → ℕ → Mem → Except Fault Mem
  | 0, _, m => .ok m
  | passes + 1, a, m =>
      if a < oldsz then
        match walkpgdir pgdir a false m with
        | (none, m) =>
            let a := pgaddr (pdx a + 1) - pgsize
            deallocuvmLoop pgdir oldsz passes (a + pgsize) m
        | (some (table, i), m) =>
            let pte := m.pte table i
            if pte.present then
              if pte.page = 0 then .error .kfree
              else do
                let m ← kfree pte.page m
                let m := m.setPte table i {}
                deallocuvmLoop pgdir oldsz passes (a + pgsize) m
            else deallocuvmLoop pgdir oldsz passes (a + pgsize) m
      else .ok m

def deallocuvm (pgdir : Page) (oldsz newsz : ℕ) (m : Mem) : Except Fault (ℕ × Mem) :=
  if newsz ≥ oldsz then .ok (oldsz, m)
  else do
    let m ← deallocuvmLoop pgdir oldsz (oldsz / pgsize + 1) (pgroundup newsz) m
    return (newsz, m)

/-- `kfree` of the page tables from index `i` on. -/
def freeTables (pgdir : Page) : List ℕ → Mem → Except Fault Mem
  | [], m => .ok m
  | i :: indices, m =>
      if (m.pte pgdir i).present then do
        let m ← kfree (m.pte pgdir i).page m
        freeTables pgdir indices m
      else freeTables pgdir indices m

def freevm (pgdir : Page) (m : Mem) : Except Fault Mem :=
  if pgdir = 0 then .error .freevm
  else do
    let (_, m) ← deallocuvm pgdir kernbase 0 m
    let m ← freeTables pgdir (List.range 1024) m
    kfree pgdir m

/-- The loop of `setupkvm`; the result is whether all of `kmap` has been mapped. -/
def setupkvmLoop (pgdir : Page) : List Kmap → Mem → Except Fault (Bool × Mem)
  | [], m => .ok (true, m)
  | k :: rest, m => do
      let (mapped, m) ← mappages pgdir (k.virt * pgsize) (k.size * pgsize) k.physStart
        { writable := k.writable } m
      if mapped then setupkvmLoop pgdir rest m
      else return (false, m)

def setupkvm (m : Mem) : Except Fault (Option Page × Mem) :=
  match kalloc m with
  | (none, m) => .ok (none, m)
  | (some pgdir, m) => do
      let m := m.zero pgdir
      let (mapped, m) ← setupkvmLoop pgdir (kmap m.linked) m
      if mapped then return (some pgdir, m)
      else
        let m ← freevm pgdir m
        return (none, m)

/-- The flags `PTE_W|PTE_U`. -/
def writableUser : Pte := { writable := true, user := true }

/-- The loop of `allocuvm` at `a`; the number bounds its passes. -/
def allocuvmLoop (pgdir : Page) (oldsz newsz : ℕ) : ℕ → ℕ → Mem → Except Fault (ℕ × Mem)
  | 0, _, m => .ok (newsz, m)
  | passes + 1, a, m =>
      if a < newsz then
        match kalloc m with
        | (none, m) => do
            let (_, m) ← deallocuvm pgdir newsz oldsz m
            return (0, m)
        | (some mem, m) => do
            let (mapped, m) ← mappages pgdir a pgsize mem writableUser (m.zero mem)
            if mapped then allocuvmLoop pgdir oldsz newsz passes (a + pgsize) m
            else
              let (_, m) ← deallocuvm pgdir newsz oldsz m
              let m ← kfree mem m
              return (0, m)
      else .ok (newsz, m)

def allocuvm (pgdir : Page) (oldsz newsz : ℕ) (m : Mem) : Except Fault (ℕ × Mem) :=
  if newsz ≥ kernbase then .ok (0, m)
  else if newsz < oldsz then .ok (oldsz, m)
  else allocuvmLoop pgdir oldsz newsz (newsz / pgsize + 1) (pgroundup oldsz) m

def clearpteu (pgdir : Page) (uva : ℕ) (m : Mem) : Except Fault Mem :=
  match walkpgdir pgdir uva false m with
  | (none, _) => .error .clearpteu
  | (some (table, i), m) => .ok (m.setPte table i { m.pte table i with user := false })

/-- The loop of `copyuvm` at `i`; the number bounds its passes. The result is whether all pages
have been copied. -/
def copyuvmLoop (pgdir d : Page) (size : ℕ) : ℕ → ℕ → Mem → Except Fault (Bool × Mem)
  | 0, _, m => .ok (true, m)
  | passes + 1, i, m =>
      if i < size then
        match walkpgdir pgdir i false m with
        | (none, _) => .error .copyuvmExists
        | (some (table, j), m) =>
            let pte := m.pte table j
            if pte.present then
              match kalloc m with
              | (none, m) => .ok (false, m)
              | (some mem, m) => do
                  let m := { m with content := Function.update m.content mem (m.content pte.page) }
                  let (mapped, m) ← mappages d i pgsize mem pte m
                  if mapped then copyuvmLoop pgdir d size passes (i + pgsize) m
                  else
                    let m ← kfree mem m
                    return (false, m)
            else .error .copyuvmPresent
      else .ok (true, m)

def copyuvm (pgdir : Page) (size : ℕ) (m : Mem) : Except Fault (Option Page × Mem) := do
  match ← setupkvm m with
  | (none, m) => return (none, m)
  | (some d, m) =>
      let (copied, m) ← copyuvmLoop pgdir d size (size / pgsize + 1) 0 m
      if copied then return (some d, m)
      else
        let m ← freevm d m
        return (none, m)

/-- The bytes of a page with some of them replaced. -/
def splice (bytes : ℕ → BitVec 8) (offset : ℕ) (data : List (BitVec 8)) (i : ℕ) : BitVec 8 :=
  if offset ≤ i ∧ i < offset + data.length then data.getD (i - offset) 0 else bytes i

/-- `memmove` to a page -/
def Mem.write (m : Mem) (page : Page) (offset : ℕ) (data : List (BitVec 8)) : Mem :=
  m.setBytes page (splice (m.content page).bytes offset data)

/-- `uva2ka`. Where there is no page table, the source looks at an entry at address 0; here the
result is null. -/
def uva2ka (pgdir : Page) (uva : ℕ) (m : Mem) : Option Page :=
  match walkpgdir pgdir uva false m with
  | (none, _) => none
  | (some (table, i), m) =>
      let pte := m.pte table i
      if !pte.present then none
      else if !pte.user then none
      else some pte.page

/-- The loop of `copyout`; the number bounds its passes. The result is whether all has been
copied. -/
def copyoutLoop (pgdir : Page) : ℕ → ℕ → List (BitVec 8) → Mem → Bool × Mem
  | 0, _, _, m => (true, m)
  | passes + 1, va, buf, m =>
      if buf.length > 0 then
        let va0 := pgrounddown va
        match uva2ka pgdir va0 m with
        | none => (false, m)
        | some pa0 =>
            let n := min (pgsize - (va - va0)) buf.length
            copyoutLoop pgdir passes ((va0 + pgsize) % 2 ^ 32) (buf.drop n)
              (m.write pa0 (va - va0) (buf.take n))
      else (true, m)

def copyout (pgdir : Page) (va : ℕ) (buf : List (BitVec 8)) (m : Mem) : Bool × Mem :=
  copyoutLoop pgdir buf.length va buf m

end Xv6.Vm
