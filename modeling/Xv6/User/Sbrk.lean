import Xv6.User.Program
import Xv6.Vm.Conservation

/-!
# The sizes of malloc

`malloc` with the `sbrk` of the kernel. `nunits` and the product that `morecore` hands to `sbrk` are
`uint`s, and `sbrk` takes an `int`. The requests of `morecore` are recorded with what was received.
-/

namespace Xv6

open Fallible

/-- `sys_sbrk`; the result is `none` for -1. -/
def Vm.sys_sbrk (n : BitVec 32) (p : Vm.Proc) (m : Vm.Mem) :
    Except Vm.Fault (Option ℕ × Vm.Proc × Vm.Mem) := do
  let addr := p.sz
  let (ok, p, m) ← Vm.growproc n p m
  if ok then return (some addr, p, m) else return (none, p, m)

namespace Vm

variable {p : Proc} {m : Mem} {pool : Set Page} {n : BitVec 32}

/-- A positive amount is added to the process, or nothing changes. -/
theorem sys_sbrk_positive (space : Space m p.pgdir pool) (some : 0 < p.sz) (size : p.sz < kernbase)
    (exact : Exact p m) (positive : 0 < n.toInt) :
    ∃ answer p' m', sys_sbrk n p m = .ok (answer, p', m') ∧ Space m' p'.pgdir pool ∧ Exact p' m' ∧
      (answer = none ∧ p' = p ∨
        answer = .some p.sz ∧ p' = { p with sz := p.sz + n.toNat } ∧ p.sz + n.toNat < kernbase) := by
  obtain ⟨result, ran, grown⟩ := (growproc_iff (n := n) space some size exact).mpr (by omega)
  rcases growproc_cases (n := n) space some size exact.above with
    ⟨-, m', ran', becomes⟩ | ⟨-, bound, m', ran', becomes⟩ | ⟨negative, -⟩ | ⟨negative, -⟩ |
    ⟨negative, -⟩ | ⟨zero, -⟩
  · cases ran.symm.trans ran'
    refine ⟨none, p, m', ?_, becomes.space, fun w user => ?_, .inl ⟨rfl, rfl⟩⟩
    · rw [sys_sbrk, ran]
      rfl
    · rw [becomes.image w user]
      exact exact w user
  · cases ran.symm.trans ran'
    refine ⟨_, { p with sz := p.sz + n.toNat }, m', ?_, becomes.space, grown.2,
      .inr ⟨rfl, rfl, bound⟩⟩
    rw [sys_sbrk, ran]
    rfl
  · omega
  · omega
  · omega
  · omega

end Vm

namespace User

open LinkedPath

/-- A call of `sbrk` in `morecore`. -/
structure Request where
  amount : BitVec 32
  /-- from the old size of the process to the new one, if the call succeeds -/
  received : Option (ℕ × ℕ)
  /-- the number of headers, which is written to `hp->s.size` -/
  nu : ℕ
  deriving DecidableEq, Repr

/-- A process: the program's heap, the blocks it holds, the kernel's `struct proc` and memory, and
the requests so far. -/
structure Process where
  heap : Heap
  live : List ℕ := []
  proc : Vm.Proc
  mem : Vm.Mem
  requests : List Request := []

inductive Crash where
  | user (fault : Fault)
  | kernel (fault : Vm.Fault)

def Process.morecore (nu : ℕ) (s : Process) : Except Crash (Option ℕ × Process) := do
  let nu := if nu < 4096 then 4096 else nu
  let amount := BitVec.ofNat 32 (nu * header)
  match ← (Vm.sys_sbrk amount s.proc s.mem).mapError Crash.kernel with
  | (none, proc, mem) =>
      let requests := s.requests ++ [⟨amount, none, nu⟩]
      return (none, { s with proc, mem, requests })
  | (some p, proc, mem) =>
      let requests := s.requests ++ [⟨amount, some (p, proc.sz), nu⟩]
      let heap := { s.heap with regions := s.heap.regions ++ [(p, proc.sz)] }
      let heap ← (free (p + header) (heap.setSize p nu)).mapError Crash.user
      return (some heap.freep, { s with heap, proc, mem, requests })

/-- The loop of `malloc` at `p`. -/
def Process.mallocLoop (nunits : ℕ) : ℕ → ℕ → ℕ → Process → Except Crash (ℕ × Process)
  | 0, _, _, _ => .error (.user .endless)
  | passes + 1, prevp, p, s =>
      if s.heap.size p ≥ nunits then
        let (ap, heap) := take nunits prevp p s.heap
        .ok (ap, { s with heap })
      else if p = s.heap.freep then do
        match ← s.morecore nunits with
        | (none, s) => return (0, s)
        | (some p, s) => Process.mallocLoop nunits passes p (s.heap.ptr p) s
      else Process.mallocLoop nunits passes p (s.heap.ptr p) s

def Process.malloc (nbytes : BitVec 32) (s : Process) : Except Crash (ℕ × Process) :=
  let s := { s with heap := start s.heap }
  Process.mallocLoop (units nbytes.toNat) (2 * maxPasses) s.heap.freep (s.heap.ptr s.heap.freep) s

/-- The program holds what `malloc` has returned. -/
def Process.given (ap : ℕ) (s : Process) : Process :=
  { s with live := if ap = 0 then s.live else (ap - header) :: s.live }

inductive Action where
  | malloc (nbytes : BitVec 32)
  /-- `free` of a block -/
  | free (p : ℕ)
  /-- the program writes to memory -/
  | store (ptr size : ℕ → ℕ)
  /-- other processes run -/
  | other (mem : Vm.Mem)

def Process.perform (s : Process) : Action → Except Crash Process
  | .malloc nbytes => do
      let (ap, s) ← s.malloc nbytes
      return s.given ap
  | .free p => do
      let heap ← (User.free (p + header) s.heap).mapError Crash.user
      return { s with heap, live := s.live.erase p }
  | .store ptr size => .ok { s with heap := { s.heap with ptr, size } }
  | .other mem => .ok { s with mem }

/-! ## What the sizes should be -/

/-- The bytes and the header, in whole headers, are an `int`. -/
def Representable (nbytes : ℕ) : Prop :=
  header * ((nbytes + header - 1) / header + 1) < 2 ^ 31

/-- The amount is what is meant, and enough for the bytes, and no more is recorded than is
received. -/
structure Exact (nbytes : ℕ) (request : Request) : Prop where
  positive : 0 < request.amount.toInt
  amount : request.amount.toInt = (header * request.nu : ℕ)
  enough : nbytes + header ≤ header * request.nu
  received : ∀ r, request.received = some r → r.1 + header * request.nu ≤ r.2

/-- What `malloc` should do. -/
structure Sized (s : Process) (nbytes : ℕ) (ap : ℕ) (s' : Process) : Prop where
  looksFor : nbytes + header ≤ header * units nbytes
  requests : ∃ new, s'.requests = s.requests ++ new ∧ ∀ request ∈ new, Exact nbytes request
  usable : ap ≠ 0 → NewBlock s.heap s'.heap s.live nbytes (ap - header) ∧
    ∀ a, Covers s'.heap (ap - header) a → a < s'.proc.sz
  failed : ap = 0 → s'.heap = start s.heap ∧ s'.proc = s.proc
  refused : ¬ Representable nbytes → ap = 0

/-- `malloc` returns and does what it should. -/
def Sound (s : Process) (nbytes : BitVec 32) : Prop :=
  ∃ ap s', s.malloc nbytes = .ok (ap, s') ∧ Sized s nbytes.toNat ap s'

/-- The largest request for which `malloc` computes the sizes as they are. -/
abbrev mallocMax : ℕ := 2 ^ 31 - 16

variable {h h' : Heap} {s s' t : Process} {cells live : List ℕ} {p q z ap nbytes nunits passes : ℕ}

/-! ## Arithmetic -/

theorem units_eq (bound : nbytes + header ≤ 2 ^ 32) :
    units nbytes = (nbytes + header - 1) / header + 1 := by
  unfold units
  rw [Nat.mod_eq_of_lt (by unfold header at *; omega)]

theorem units_wraps (bound : nbytes < 2 ^ 32) (large : 2 ^ 32 < nbytes + header) :
    units nbytes = 1 := by
  unfold units header at *
  omega

/-- Up to this bound the sizes are right. -/
theorem units_sound (bound : nbytes ≤ mallocMax) :
    0 < units nbytes ∧ nbytes + header ≤ header * units nbytes ∧
      header * asked (units nbytes) < 2 ^ 31 ∧ Representable nbytes := by
  rw [units_eq (by unfold mallocMax header at *; omega)]
  unfold Representable asked mallocMax header at *
  omega

/-- Above it the size is larger than any block and not a positive `int`, or it is too small. -/
theorem units_unsound (bound : nbytes < 2 ^ 32) (large : mallocMax < nbytes) :
    header * units nbytes < nbytes + header ∨
      2 ^ 28 ≤ units nbytes ∧ header * units nbytes ≤ 2 ^ 32 := by
  by_cases fits : nbytes + header ≤ 2 ^ 32
  · right
    rw [units_eq fits]
    unfold mallocMax header at *
    omega
  · left
    rw [units_wraps bound (by omega)]
    unfold mallocMax header at *
    omega

theorem isAsked (nu : ℕ) : (if nu < 4096 then 4096 else nu) = asked nu := by
  unfold asked
  split <;> omega

theorem toInt_amount {k : ℕ} (bound : k < 2 ^ 31) : (BitVec.ofNat 32 k).toInt = k := by
  rw [BitVec.toInt_eq_toNat_cond, BitVec.toNat_ofNat, Nat.mod_eq_of_lt (by omega)]
  split <;> omega

theorem toInt_amount_le {k : ℕ} (large : 2 ^ 31 ≤ k) (bound : k ≤ 2 ^ 32) :
    (BitVec.ofNat 32 k).toInt ≤ 0 := by
  rw [BitVec.toInt_eq_toNat_cond, BitVec.toNat_ofNat]
  split <;> omega

/-! ## The search -/

/-- Where `sbrk` is not asked, the search is that in the heap alone. -/
theorem mallocLoop_lift (s : Process) (answers : h.answers = []) : ∀ (passes : ℕ) {z p : ℕ},
    User.mallocLoop nunits passes z p h = .ok (ap, h') →
    Process.mallocLoop nunits passes z p { s with heap := h } = .ok (ap, { s with heap := h' }) := by
  intro passes
  induction passes with
  | zero => exact nofun
  | succ passes ih =>
      intro z p run
      rw [User.mallocLoop] at run
      rw [Process.mallocLoop]
      by_cases large : h.size p ≥ nunits
      · rw [if_pos large] at run
        rw [if_pos large]
        have taken := Except.ok.inj run
        simp only [taken]
      · rw [if_neg large] at run
        rw [if_neg large]
        by_cases here : p = h.freep
        · rw [if_pos here] at run
          simp only [User.morecore, sbrk, answers, bind_error] at run
          cases run
        · rw [if_neg here] at run
          rw [if_neg here]
          exact ih run

theorem Process.mallocLoop_next (small : s.heap.size p < nunits) (notFreep : p ≠ s.heap.freep) :
    Process.mallocLoop nunits (passes + 1) z p s =
      Process.mallocLoop nunits passes p (s.heap.ptr p) s := by
  conv_lhs => unfold Process.mallocLoop
  rw [if_neg (by omega), if_neg notFreep]

theorem Process.mallocLoop_freep (small : s.heap.size s.heap.freep < nunits) :
    Process.mallocLoop nunits (passes + 1) z s.heap.freep s = (do
      match ← s.morecore nunits with
      | (none, s) => return (0, s)
      | (some p, s) => Process.mallocLoop nunits passes p (s.heap.ptr p) s) := by
  conv_lhs => unfold Process.mallocLoop
  have notLarge : ¬ s.heap.size s.heap.freep ≥ nunits := by omega
  exact (if_neg notLarge).trans (if_pos rfl)

/-- If every block is too small, the search arrives at `freep`. -/
theorem Process.mallocLoop_arrives (path : Leads s.heap.ptr p (cells ++ [s.heap.freep]) q)
    (notFreep : s.heap.freep ∉ cells) (small : ∀ y ∈ cells, s.heap.size y < nunits) (passes : ℕ) :
    ∃ x, Process.mallocLoop nunits (cells.length + passes) z p s =
      Process.mallocLoop nunits passes x s.heap.freep s := by
  induction cells generalizing z p with
  | nil =>
      have isFreep : p = s.heap.freep := path.1
      exact ⟨z, by rw [List.length_nil, Nat.zero_add, isFreep]⟩
  | cons x cells ih =>
      rcases path with ⟨rfl, path⟩
      rw [List.mem_cons, not_or] at notFreep
      rcases ih path notFreep.2 (fun y member => small y (List.mem_cons_of_mem _ member)) with
        ⟨x, arrives⟩
      refine ⟨x, ?_⟩
      rw [List.length_cons, Nat.add_right_comm,
        Process.mallocLoop_next (small p List.mem_cons_self) (Ne.symm notFreep.1)]
      exact arrives

/-- If no block is large enough, `morecore` is asked. -/
theorem HeapInv.asks (inv : HeapInv s.heap cells live) (small : ∀ y ∈ cells, s.heap.size y < nunits) :
    ∃ passes, maxPasses ≤ passes ∧
      Process.mallocLoop nunits (2 * maxPasses) s.heap.freep (s.heap.ptr s.heap.freep) s = (do
        match ← s.morecore nunits with
        | (none, s) => return (0, s)
        | (some p, s) => Process.mallocLoop nunits passes p (s.heap.ptr p) s) := by
  have few := inv.length_le
  rcases inv.circle.path with ⟨todo, path, notFreep, same, length⟩
  have small' : ∀ y ∈ todo, s.heap.size y < nunits := fun y member =>
    small y ((same y).mp (List.mem_append_left _ member))
  obtain ⟨passes, split⟩ : ∃ passes, 2 * maxPasses = todo.length + (passes + 1) :=
    ⟨2 * maxPasses - cells.length, by omega⟩
  rcases Process.mallocLoop_arrives (z := s.heap.freep) path notFreep small' (passes + 1) with
    ⟨x, arrives⟩
  refine ⟨passes, by omega, ?_⟩
  rw [split, arrives, Process.mallocLoop_freep (small _ inv.circle.freep)]

/-! ## Requests are only added -/

theorem Process.morecore_requests {result : Option ℕ × Process}
    (run : s.morecore nunits = .ok result) :
    ∃ received, result.2.requests = s.requests ++
      [⟨BitVec.ofNat 32 (header * asked nunits), received, asked nunits⟩] := by
  unfold Process.morecore at run
  dsimp only at run
  rw [isAsked, Nat.mul_comm] at run
  obtain ⟨⟨answer, proc, mem⟩, _, run⟩ := bind_eq_ok.mp run
  cases answer with
  | none =>
      cases run
      exact ⟨none, rfl⟩
  | some p =>
      obtain ⟨heap, _, run⟩ := bind_eq_ok.mp run
      cases run
      exact ⟨some (p, proc.sz), rfl⟩

theorem Process.mallocLoop_requests : ∀ (passes : ℕ) {z p : ℕ} {s : Process} {result : ℕ × Process},
    Process.mallocLoop nunits passes z p s = .ok result →
    ∃ new, result.2.requests = s.requests ++ new := by
  intro passes
  induction passes with
  | zero => exact nofun
  | succ passes ih =>
      intro z p s result run
      rw [Process.mallocLoop] at run
      split at run
      · cases run
        exact ⟨[], (List.append_nil _).symm⟩
      · split at run
        · obtain ⟨⟨answer, t⟩, more, run⟩ := bind_eq_ok.mp run
          obtain ⟨received, first⟩ := Process.morecore_requests more
          cases answer with
          | none =>
              cases run
              exact ⟨_, first⟩
          | some p =>
              obtain ⟨new, rest⟩ := ih run
              exact ⟨_, by rw [rest, first, List.append_assoc]⟩
        · exact ih run

/-! ## A process between its calls -/

/-- The heap lies in the memory of the process, all of which is present. -/
structure Backed (s : Process) : Prop where
  answers : s.heap.answers = []
  base : 0 < s.heap.base
  above : s.heap.base + header < s.proc.sz
  regions : ∀ r ∈ s.heap.regions, r.2 ≤ s.proc.sz
  bound : s.proc.sz < kernbase
  space : ∃ pool, Vm.Space s.mem s.proc.pgdir pool
  exact : Vm.Exact s.proc s.mem

structure ProcessInv (s : Process) : Prop where
  backed : Backed s
  program : ProgramInv ⟨s.heap, s.live⟩

/-- The blocks that the program holds do not matter, nor do the links and sizes. -/
theorem Backed.setHeap (backed : Backed s) (isAnswers : h.answers = s.heap.answers)
    (isBase : h.base = s.heap.base) (isRegions : h.regions = s.heap.regions) (live : List ℕ) :
    Backed { s with heap := h, live } :=
  ⟨isAnswers.trans backed.answers, isBase.symm ▸ backed.base, isBase.symm ▸ backed.above,
    isRegions.symm ▸ backed.regions, backed.bound, backed.space, backed.exact⟩

/-- Memory that is taken from the kernel is fresh. -/
theorem Backed.fresh {n : ℕ} (backed : Backed s) (bound : s.proc.sz + n < kernbase) :
    Fresh s.heap n s.proc.sz :=
  ⟨backed.above, backed.regions, bound.le⟩

/-- What `morecore` does: the request is as it should be, and either nothing changes, or there is
room in the heap. -/
structure Requested (s : Process) (nu : ℕ) (s' : Process) : Prop where
  backed : Backed s'
  live : s'.live = s.live
  base : s'.heap.base = s.heap.base
  request : ∃ request : Request, s'.requests = s.requests ++ [request] ∧ request.nu = asked nu ∧
    request.amount.toInt = (header * request.nu : ℕ) ∧
    ∀ r, request.received = some r → r.1 + header * request.nu ≤ r.2

theorem Process.morecore_spec (backed : Backed s) (inv : HeapInv s.heap cells s.live)
    (fits : header * asked nunits < 2 ^ 31) :
    ∃ s', Requested s nunits s' ∧
      (s.morecore nunits = .ok (none, s') ∧ s'.heap = s.heap ∧ s'.proc = s.proc ∨
        s.morecore nunits = .ok (some s'.heap.freep, s') ∧
          ∃ cells', HeapInv s'.heap cells' s.live ∧
            (∀ p ∈ s.live, s'.heap.size p = s.heap.size p) ∧ ∃ p ∈ cells', nunits ≤ s'.heap.size p) := by
  obtain ⟨pool, space⟩ := backed.space
  have positive : 0 < asked nunits := by
    unfold asked
    omega
  have amount := toInt_amount fits
  have value : (BitVec.ofNat 32 (header * asked nunits)).toNat = header * asked nunits := by
    rw [BitVec.toNat_ofNat, Nat.mod_eq_of_lt (by omega)]
  obtain ⟨answer, proc, mem, ran, space', exact', outcome⟩ := Vm.sys_sbrk_positive
    (n := BitVec.ofNat 32 (header * asked nunits)) space (Nat.zero_lt_of_lt backed.above)
    backed.bound backed.exact (by rw [amount]; unfold header; omega)
  rcases outcome with ⟨rfl, rfl⟩ | ⟨rfl, rfl, bound⟩
  · refine ⟨{ s with mem, requests := s.requests ++
      [⟨BitVec.ofNat 32 (header * asked nunits), none, asked nunits⟩] }, ⟨?_, rfl, rfl, ?_⟩, .inl ?_⟩
    · exact ⟨backed.answers, backed.base, backed.above, backed.regions, backed.bound,
        ⟨pool, space'⟩, exact'⟩
    · exact ⟨_, rfl, rfl, amount, nofun⟩
    · refine ⟨?_, rfl, rfl⟩
      unfold Process.morecore
      dsimp only
      rw [isAsked, Nat.mul_comm, ran]
      rfl
  · rw [value] at bound
    have fresh := backed.fresh bound
    have added := inv.grown fresh positive []
    rcases added.free with ⟨h', cells', freed, inv', rest, sizes, p, member, -, large⟩
    have own : (User.grown s.heap s.proc.sz (asked nunits) []).size s.proc.sz = asked nunits :=
      Function.update_self ..
    have whole : { s.heap with regions := s.heap.regions ++
        [(s.proc.sz, s.proc.sz + header * asked nunits)] }.setSize s.proc.sz (asked nunits) =
          User.grown s.heap s.proc.sz (asked nunits) [] := by
      unfold User.grown
      rw [← backed.answers]
    have isRegions : h'.regions =
        s.heap.regions ++ [(s.proc.sz, s.proc.sz + header * asked nunits)] := by
      rw [rest]
      rfl
    have sameBase : h'.base = s.heap.base := by
      rw [rest]
      rfl
    refine ⟨{ s with
      heap := h'
      proc := { s.proc with sz := s.proc.sz + header * asked nunits }
      mem := mem
      requests := s.requests ++ [⟨BitVec.ofNat 32 (header * asked nunits),
        some (s.proc.sz, s.proc.sz + header * asked nunits), asked nunits⟩] },
      ⟨?_, rfl, sameBase, ?_⟩, .inr ⟨?_, cells', inv', fun p member => ?_, p, member, ?_⟩⟩
    · refine ⟨?_, sameBase ▸ backed.base, ?_, fun r member => ?_, bound, ⟨pool, space'⟩, ?_⟩
      · rw [rest]
        rfl
      · rw [sameBase]
        exact backed.above.trans_le (Nat.le_add_right _ _)
      · rw [isRegions] at member
        rcases List.mem_append.mp member with old | new
        · exact (backed.regions r old).trans (Nat.le_add_right _ _)
        · rw [List.mem_singleton.mp new]
      · rw [value] at exact'
        exact exact'
    · refine ⟨_, rfl, rfl, amount, fun r received => ?_⟩
      cases received
      exact le_rfl
    · unfold Process.morecore
      dsimp only
      rw [isAsked, Nat.mul_comm, ran]
      simp only [Except.mapError, bind_ok, value, whole, freed]
      rfl
    · rw [sizes p member]
      exact Function.update_of_ne
        (inv.below_fresh fresh (List.mem_append_right cells member)).2.ne _ _
    · have room : nunits ≤ h'.size p := by
        rw [own] at large
        unfold asked at large
        omega
      exact room

/-! ## `malloc` -/

theorem start_rest (h : Heap) :
    (start h).answers = h.answers ∧ (start h).base = h.base ∧ (start h).regions = h.regions := by
  unfold start
  split
  · exact ⟨rfl, rfl, rfl⟩
  · exact ⟨rfl, rfl, rfl⟩

/-- The first lines of `malloc` organize the heap. -/
theorem ProcessInv.started (inv : ProcessInv s) :
    Backed { s with heap := start s.heap } ∧ (∃ cells, HeapInv (start s.heap) cells s.live) ∧
      ∀ p ∈ s.live, (start s.heap).size p = s.heap.size p := by
  obtain ⟨backed, program⟩ := inv
  obtain ⟨isAnswers, isBase, isRegions⟩ := start_rest s.heap
  have place : s.heap.base + header ≤ kernbase := (backed.above.trans backed.bound).le
  obtain ⟨⟨cells, organized⟩, sizes⟩ := program.started backed.base place none
  have same : ∀ p, (start s.heap).ptr p = ((⟨s.heap, s.live⟩ : Program).started none).ptr p ∧
      (start s.heap).size p = ((⟨s.heap, s.live⟩ : Program).started none).size p ∧
      (start s.heap).freep = ((⟨s.heap, s.live⟩ : Program).started none).freep := by
    intro p
    unfold Program.started start
    dsimp only
    split
    · exact ⟨rfl, rfl, rfl⟩
    · exact ⟨rfl, rfl, rfl⟩
  obtain ⟨isBase', isRegions', -⟩ := started_rest ⟨s.heap, s.live⟩ none
  refine ⟨?_, ⟨cells, ?_⟩, fun p member => (same p).2.1.trans (sizes p member)⟩
  · exact backed.setHeap isAnswers isBase isRegions s.live
  · exact organized.congr (fun p _ => (same p).1) (fun p _ => (same p).2.1) (isBase.trans isBase'.symm)
      (same 0).2.2 (isRegions.trans isRegions'.symm)

/-- The search has found a block. -/
structure Found (s : Process) (nunits : ℕ) (p : ℕ) (s' : Process) : Prop where
  inv : ProcessInv { s' with live := p :: s.live }
  live : s'.live = s.live
  requests : s'.requests = s.requests
  apart : ∀ q ∈ s.live, Apart s'.heap p q
  size : s'.heap.size p = nunits
  obtained : ∀ a, Covers s'.heap p a → InRegions s'.heap a
  sizes : ∀ q ∈ s.live, s'.heap.size q = s.heap.size q

theorem Backed.found (backed : Backed s) (inv : HeapInv s.heap cells s.live) (positive : 0 < nunits)
    (room : ∃ p ∈ cells, nunits ≤ s.heap.size p) (enough : cells.length ≤ passes) :
    ∃ p s', Process.mallocLoop nunits passes s.heap.freep (s.heap.ptr s.heap.freep) s =
      .ok (p + header, s') ∧ Found s nunits p s' := by
  rcases inv.search positive room enough with ⟨⟨ap, h'⟩, p, cells', run, taken⟩
  obtain ⟨inv', rfl, size, rest, sizes⟩ := taken
  dsimp only at *
  refine ⟨p, { s with heap := h' }, mallocLoop_lift s backed.answers passes run, ?_, rfl, rfl, ?_, size,
    fun a covers => (inv'.cover a).mpr (.inr ⟨p, List.mem_cons_self, covers⟩), sizes⟩
  · exact ⟨backed.setHeap (by rw [rest]) (by rw [rest]) (by rw [rest]) _, .used cells' inv'⟩
  · exact (List.pairwise_cons.mp inv'.liveApart).1

/-- The block that is found is what was asked for. -/
theorem Found.usable (found : Found t nunits p s') (live : t.live = s.live)
    (sizes : ∀ q ∈ s.live, t.heap.size q = s.heap.size q) (enough : nbytes + header ≤ header * nunits) :
    NewBlock s.heap s'.heap s.live nbytes p ∧ ∀ a, Covers s'.heap p a → a < s'.proc.sz := by
  refine ⟨⟨live ▸ found.apart, found.size.symm ▸ enough, found.obtained, fun q member => ?_⟩,
    fun a covers => ?_⟩
  · exact (found.sizes q (live ▸ member)).trans (sizes q member)
  · obtain ⟨r, isRegion, _, inside⟩ := found.obtained a covers
    exact inside.trans_le (found.inv.backed.regions r isRegion)

/-- Up to the bound `malloc` does what it should. -/
theorem ProcessInv.malloc (inv : ProcessInv s) {nbytes : BitVec 32} (bound : nbytes.toNat ≤ mallocMax) :
    ∃ ap s', s.malloc nbytes = .ok (ap, s') ∧ Sized s nbytes.toNat ap s' ∧
      ProcessInv (s'.given ap) := by
  obtain ⟨positive, enough, fits, representable⟩ := units_sound bound
  obtain ⟨backed, ⟨cells, organized⟩, sizes⟩ := inv.started
  have few := organized.length_le
  have notNull (p : ℕ) : p + header ≠ 0 := by
    unfold header
    omega
  unfold Process.malloc
  dsimp only
  by_cases room : ∃ p ∈ cells, units nbytes.toNat ≤ (start s.heap).size p
  · have enoughPasses : cells.length ≤ 2 * maxPasses := by omega
    obtain ⟨p, s', run, found⟩ := backed.found (s := { s with heap := start s.heap }) organized
      positive room enoughPasses
    refine ⟨p + header, s', run, ⟨enough, ⟨[], ?_, nofun⟩, fun _ => ?_,
      fun isNull => absurd isNull (notNull p), fun not => absurd representable not⟩, ?_⟩
    · rw [found.requests, List.append_nil]
    · rw [Nat.add_sub_cancel]
      exact found.usable rfl sizes enough
    · rw [Process.given, if_neg (notNull p), Nat.add_sub_cancel, found.live]
      exact found.inv
  · push Not at room
    obtain ⟨passes, left, run⟩ := organized.asks (s := { s with heap := start s.heap }) room
    obtain ⟨t, asked, outcome⟩ := Process.morecore_spec backed organized fits
    obtain ⟨request, added, isNu, amount, received⟩ := asked.request
    have exact : Exact nbytes.toNat request := by
      have atLeast : units nbytes.toNat ≤ request.nu := by
        rw [isNu]
        exact le_max_left _ _
      refine ⟨?_, amount, ?_, received⟩
      · rw [amount]
        unfold header
        omega
      · exact enough.trans (Nat.mul_le_mul_left header atLeast)
    rw [run]
    rcases outcome with ⟨more, same, sameProc⟩ | ⟨more, cells', organized', sizes', room'⟩
    · rw [more]
      refine ⟨0, t, rfl, ⟨enough, ⟨[request], added, ?_⟩, fun some => absurd rfl some,
        fun _ => ⟨same, sameProc⟩, fun not => absurd representable not⟩, ?_⟩
      · exact List.forall_mem_singleton.mpr exact
      · rw [Process.given, if_pos rfl]
        refine ⟨asked.backed, .used cells ?_⟩
        rw [same, asked.live]
        exact organized
    · rw [more]
      have few' := organized'.length_le
      have organized' : HeapInv t.heap cells' t.live := asked.live.symm ▸ organized'
      obtain ⟨p, s', run, found⟩ :=
        asked.backed.found organized' positive room' (few'.trans left)
      refine ⟨p + header, s', run, ⟨enough, ⟨[request], ?_, ?_⟩, fun _ => ?_,
        fun isNull => absurd isNull (notNull p), fun not => absurd representable not⟩, ?_⟩
      · rw [found.requests, added]
      · exact List.forall_mem_singleton.mpr exact
      · rw [Nat.add_sub_cancel]
        exact found.usable asked.live (fun q member => (sizes' q member).trans (sizes q member)) enough
      · rw [Process.given, if_neg (notNull p), Nat.add_sub_cancel, found.live]
        exact found.inv

/-- A larger request is too large for every block, so that `sbrk` is asked for what is not
positive, or `nunits` has wrapped. -/
theorem ProcessInv.not_sound (inv : ProcessInv s) {nbytes : BitVec 32}
    (large : mallocMax < nbytes.toNat) : ¬ Sound s nbytes := by
  rintro ⟨ap, s', run, sized⟩
  have looksFor := sized.looksFor
  rcases units_unsound nbytes.isLt large with wraps | ⟨huge, bound⟩
  · omega
  · obtain ⟨-, ⟨cells, organized⟩, -⟩ := inv.started
    have small : ∀ p ∈ cells, (start s.heap).size p < units nbytes.toNat := by
      intro p member
      by_cases empty : (start s.heap).size p = 0
      · omega
      · have bounds := organized.bounds (List.mem_append_left s.live member) (Nat.pos_of_ne_zero empty)
        unfold header kernbase at bounds
        omega
    obtain ⟨passes, -, asks⟩ := organized.asks (s := { s with heap := start s.heap }) small
    unfold Process.malloc at run
    dsimp only at run
    rw [asks] at run
    obtain ⟨⟨answer, t⟩, more, rest⟩ := bind_eq_ok.mp run
    obtain ⟨received, first⟩ := Process.morecore_requests more
    obtain ⟨later, all⟩ : ∃ later, s'.requests = t.requests ++ later := by
      cases answer with
      | none =>
          cases rest
          exact ⟨[], (List.append_nil _).symm⟩
      | some p => exact Process.mallocLoop_requests passes rest
    obtain ⟨new, added, exact⟩ := sized.requests
    rw [all, first, List.append_assoc, List.append_cancel_left_eq] at added
    have isAsked : asked (units nbytes.toNat) = units nbytes.toNat := by
      unfold asked
      omega
    have member : (⟨BitVec.ofNat 32 (header * asked (units nbytes.toNat)), received,
        asked (units nbytes.toNat)⟩ : Request) ∈ new := by
      rw [← added]
      exact List.mem_cons_self
    have amount := (exact _ member).positive
    have notPositive := toInt_amount_le (k := header * asked (units nbytes.toNat))
      (by rw [isAsked]; unfold header at *; omega) (by rw [isAsked]; exact bound)
    dsimp only at amount
    omega

/-! ## Runs -/

/-- The program frees only what it holds and writes only to that, and asks for no more than the
bound. Other processes leave its memory alone. -/
def Allowed (s : Process) : Action → Prop
  | .malloc nbytes => nbytes.toNat ≤ mallocMax
  | .free p => Admissible ⟨s.heap, s.live⟩ (.free p)
  | .store ptr size => Admissible ⟨s.heap, s.live⟩ (.store ptr size)
  | .other mem => (∃ pool, Vm.Space mem s.proc.pgdir pool) ∧
      ∀ w < Vm.userPages, Vm.image mem s.proc.pgdir w = Vm.image s.mem s.proc.pgdir w

/-- The process before its first call. -/
structure Started (s : Process) : Prop where
  backed : Backed s
  freep : s.heap.freep = 0
  regions : s.heap.regions = []
  live : s.live = []

/-- The runs of the process. -/
def Process.Reach (s₀ : Process) : Process → Prop :=
  Transition.Reachable (fun s action s' => s.perform action = .ok s') Allowed s₀

theorem ProcessInv.step {action : Action} (inv : ProcessInv s) (allowed : Allowed s action)
    (step : s.perform action = .ok s') : ProcessInv s' := by
  cases action with
  | malloc nbytes =>
      obtain ⟨ap, t, run, -, inv'⟩ := inv.malloc allowed
      rw [Process.perform, run, bind_ok] at step
      cases step
      exact inv'
  | free p =>
      obtain ⟨backed, program⟩ := inv
      cases program with
      | unused freep regions noLive =>
          have isLive : p ∈ s.live := allowed
          have noLive : s.live = [] := noLive
          rw [noLive] at isLive
          exact absurd isLive List.not_mem_nil
      | used cells organized =>
          rcases (organized.perm (List.perm_cons_erase allowed)).free with
            ⟨h', cells', run, organized', rest, -, -⟩
          have freed : User.free (p + header) s.heap = .ok h' := run
          have kept : Backed { s with heap := h', live := s.live.erase p } :=
            backed.setHeap (by rw [rest]) (by rw [rest]) (by rw [rest]) _
          rw [Process.perform, freed] at step
          cases step
          exact ⟨kept, .used cells' organized'⟩
  | store ptr size =>
      cases step
      exact ⟨inv.backed.setHeap (h := { s.heap with ptr, size }) rfl rfl rfl s.live,
        inv.program.store allowed⟩
  | other mem =>
      cases step
      obtain ⟨space, same⟩ := allowed
      obtain ⟨backed, program⟩ := inv
      refine ⟨⟨backed.answers, backed.base, backed.above, backed.regions, backed.bound, space,
        fun w user => ?_⟩, program⟩
      rw [same w user]
      exact backed.exact w user

/-- In every run that keeps to it, `malloc` does what it should exactly up to the bound. -/
theorem malloc_sound_iff {s₀ : Process} (started : Started s₀) (reach : Process.Reach s₀ s)
    (nbytes : BitVec 32) : Sound s nbytes ↔ nbytes.toNat ≤ mallocMax := by
  have inv : ProcessInv s := by
    refine reach.invariant ProcessInv ⟨started.backed, ?_⟩ fun _ inv allowed step =>
      inv.step allowed step
    exact .unused started.freep started.regions started.live
  constructor
  · intro sound
    by_contra large
    exact inv.not_sound (Nat.lt_of_not_le large) sound
  · intro bound
    obtain ⟨ap, s', run, sized, -⟩ := inv.malloc bound
    exact ⟨ap, s', run, sized⟩

/-- A process with one page, and `base` in it. -/
def onePage : Process :=
  { heap := { ptr := fun _ => 7, size := fun _ => 7, base := 16 }
    proc := Vm.soleProcess.proc
    mem := Vm.onePage }

theorem onePage_started : Started onePage := by
  refine ⟨⟨rfl, ?_, ?_, nofun, ?_, ⟨_, Vm.onePage_exact.1⟩, Vm.onePage_exact.2⟩, rfl, rfl, rfl⟩
  · decide
  · decide
  · decide

/-- The kernel has the pages that `morecore` asks for. -/
theorem onePage_answers : (match onePage.malloc 100 with
    | .ok (ap, _) => ap
    | .error _ => 0) ≠ 0 := by decide +kernel

theorem malloc_sound_hundred : ∃ ap s', onePage.malloc 100 = .ok (ap, s') ∧ ap ≠ 0 ∧
    Sized onePage 100 ap s' := by
  rcases (malloc_sound_iff onePage_started Transition.Reachable.refl 100).mpr (by decide) with
    ⟨ap, s', run, sized⟩
  have answers := onePage_answers
  rw [run] at answers
  exact ⟨ap, s', run, answers, sized⟩

/-- `sbrk` is asked for -8 bytes. -/
theorem malloc_not_sound :
    ¬ ∀ s₀ s : Process, Started s₀ → Process.Reach s₀ s → ∀ nbytes, Sound s nbytes := by
  intro all
  have sound := all onePage onePage onePage_started Transition.Reachable.refl 0xFFFFFFF0
  have inv : ProcessInv onePage :=
    ⟨onePage_started.backed, .unused rfl rfl rfl⟩
  exact inv.not_sound (by decide) sound

end User

end Xv6
