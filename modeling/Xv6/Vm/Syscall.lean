import Xv6.Vm.Exec

/-!
# The arguments of system calls

`syscall.c`, and how `sys_exec` uses it. The kernel reads user memory at the addresses that the process
gives; the addresses of all bytes that are read are kept beside the result. Words have 32 bits.
-/

namespace Xv6.Syscall

/-- `uint`, and also `int` -/
abbrev Word := BitVec 32

/-- What the functions see of `myproc()`: its size, `tf->esp` and its memory. -/
structure Caller where
  sz : Word
  esp : Word
  user : Word → BitVec 8

/-- What a function returns (nothing for -1) and the addresses it has read. -/
structure Fetch (α : Type) where
  result : Option α
  reads : List Word

namespace Fetch

variable {α β : Type}

/-- `return -1` -/
def fail : Fetch α := { result := none, reads := [] }

/-- The caller goes on, or returns -1 too. -/
def bind (x : Fetch α) (f : α → Fetch β) : Fetch β :=
  match x.result with
  | none => { result := none, reads := x.reads }
  | some a => { result := (f a).result, reads := x.reads ++ (f a).reads }

instance : Monad Fetch where
  pure a := { result := some a, reads := [] }
  bind := bind

end Fetch

variable (c : Caller)

/-- `*(int*)(addr)` -/
def Caller.intAt (addr : Word) : Word :=
  c.user (addr + 3) ++ c.user (addr + 2) ++ c.user (addr + 1) ++ c.user addr

def fetchint (addr : Word) : Fetch Word :=
  if c.sz ≤ addr ∨ c.sz < addr + 4 then .fail
  else { result := some (c.intAt addr), reads := [addr, addr + 1, addr + 2, addr + 3] }

/-- The loop of `fetchstr` at `s`; the number bounds its passes. The result is the last `s`. -/
def fetchstrLoop : ℕ → Word → Fetch Word
  | 0, _ => .fail
  | passes + 1, s =>
      if s < c.sz then
        if c.user s = 0 then { result := some s, reads := [s] }
        else
          let rest := fetchstrLoop passes (s + 1)
          { rest with reads := s :: rest.reads }
      else .fail

/-- `fetchstr`; the result is `*pp` and the length. -/
def fetchstr (addr : Word) : Fetch (Word × Word) :=
  if c.sz ≤ addr then .fail
  else do
    let s ← fetchstrLoop c c.sz.toNat addr
    return (addr, s - addr)

def argint (n : Word) : Fetch Word := fetchint c (c.esp + 4 + 4 * n)

/-- `argptr`; the result is `*pp`. -/
def argptr (n size : Word) : Fetch Word := do
  let i ← argint c n
  if size.toInt < 0 ∨ c.sz ≤ i ∨ c.sz < i + size then .fail
  else return i

def argstr (n : Word) : Fetch (Word × Word) := do
  let addr ← argint c n
  fetchstr c addr

/-- `MAXARG` -/
abbrev maxarg : ℕ := Vm.maxarg

/-- The loop of `sys_exec` at `i`, with the number of entries of `argv` that are left. -/
def argvLoop (uargv : Word) : ℕ → ℕ → (Fin maxarg → Word) → Fetch (Fin maxarg → Word)
  | 0, _, _ => .fail
  | left + 1, i, argv => do
      let uarg ← fetchint c (uargv + 4 * BitVec.ofNat 32 i)
      if uarg = 0 then return Function.update argv (Fin.ofNat maxarg i) 0
      else
        let (pp, _) ← fetchstr c uarg
        argvLoop uargv left (i + 1) (Function.update argv (Fin.ofNat maxarg i) pp)

/-- `sys_exec`; the result is what it calls `exec` with. -/
def sys_exec : Fetch (Word × (Fin maxarg → Word)) := do
  let (path, _) ← argstr c 0
  let uargv ← argint c 1
  let argv ← argvLoop c uargv maxarg 0 fun _ => 0
  return (path, argv)

/-! ## What the checks promise -/

/-- The bytes from `addr` on are memory of the process, and the range does not wrap. -/
def Inside (addr : Word) (len : ℕ) : Prop := addr.toNat + len ≤ c.sz.toNat

/-- A string of this length and its NUL are memory of the process. -/
structure StringAt (addr : Word) (len : ℕ) : Prop where
  inside : Inside c addr (len + 1)
  nul : c.user (addr + BitVec.ofNat 32 len) = 0
  before : ∀ i < len, c.user (addr + BitVec.ofNat 32 i) ≠ 0

/-- Only memory of the process is read. -/
def ReadsInside {α : Type} (x : Fetch α) : Prop := ∀ addr ∈ x.reads, addr.toNat < c.sz.toNat

variable {c} {α β : Type} {x : Fetch α} {f : α → Fetch β} {addr s : Word}

theorem bind_result {b : β} : (x >>= f).result = some b ↔ ∃ a, x.result = some a ∧ (f a).result = some b := by
  change (x.bind f).result = some b ↔ _
  unfold Fetch.bind
  cases x.result with
  | none => simp
  | some a => simp

theorem pure_result {a b : α} : (pure a : Fetch α).result = some b ↔ a = b := Option.some_inj

theorem readsInside_fail : ReadsInside c (Fetch.fail : Fetch α) := nofun

theorem readsInside_pure (a : α) : ReadsInside c (pure a) := nofun

theorem ReadsInside.bind (first : ReadsInside c x) (rest : ∀ a, x.result = some a → ReadsInside c (f a)) :
    ReadsInside c (x >>= f) := by
  change ReadsInside c (x.bind f)
  unfold Fetch.bind
  cases isResult : x.result with
  | none => exact first
  | some a =>
      intro addr member
      rcases List.mem_append.1 member with member | member
      · exact first addr member
      · exact rest a isResult addr member

theorem toNat_add_ofNat {i : ℕ} (bound : addr.toNat + i < 2 ^ 32) :
    (addr + BitVec.ofNat 32 i).toNat = addr.toNat + i := by
  rw [BitVec.toNat_add, BitVec.toNat_ofNat, Nat.add_mod_mod, Nat.mod_eq_of_lt bound]

theorem add_ofNat_zero (addr : Word) : addr + BitVec.ofNat 32 0 = addr := BitVec.add_zero addr

theorem add_ofNat_succ (addr : Word) (i : ℕ) :
    addr + BitVec.ofNat 32 (i + 1) = addr + 1 + BitVec.ofNat 32 i := by
  rw [BitVec.add_assoc, Nat.add_comm i 1, BitVec.ofNat_add]
  rfl

section

variable (size : c.sz.toNat < Vm.kernbase)
include size

/-- The test of `fetchint`. -/
theorem not_inside_iff : c.sz ≤ addr ∨ c.sz < addr + 4 ↔ ¬Inside c addr 4 := by
  unfold Inside
  rw [BitVec.le_def, BitVec.lt_def, BitVec.toNat_add]
  have isFour : (4 : Word).toNat = 4 := rfl
  have bound := addr.isLt
  rw [isFour]
  unfold Vm.kernbase at size
  omega

theorem fetchint_result {v : Word} : (fetchint c addr).result = some v ↔ Inside c addr 4 ∧ v = c.intAt addr := by
  unfold fetchint
  by_cases inside : Inside c addr 4
  · rw [if_neg (fun outside => (not_inside_iff size).1 outside inside), Option.some_inj]
    exact ⟨fun same => ⟨inside, same.symm⟩, fun both => both.2.symm⟩
  · rw [if_pos ((not_inside_iff size).2 inside)]
    exact ⟨nofun, fun both => absurd both.1 inside⟩

theorem fetchint_reads (addr : Word) : ReadsInside c (fetchint c addr) := by
  unfold fetchint
  split
  · exact readsInside_fail
  · rename_i outside
    have inside : Inside c addr 4 := not_not.1 fun notInside => outside ((not_inside_iff size).2 notInside)
    unfold Inside at inside
    unfold Vm.kernbase at size
    intro other member
    have cases : ∃ i < 4, other = addr + BitVec.ofNat 32 i := by
      rcases List.mem_cons.1 member with rfl | member
      · exact ⟨0, by decide, by simp⟩
      · rcases List.mem_cons.1 member with rfl | member
        · exact ⟨1, by decide, rfl⟩
        · rcases List.mem_cons.1 member with rfl | member
          · exact ⟨2, by decide, rfl⟩
          · exact ⟨3, by decide, List.mem_singleton.1 member⟩
    rcases cases with ⟨i, few, rfl⟩
    rw [toNat_add_ofNat (by omega)]
    omega

theorem toNat_next (less : addr < c.sz) : (addr + 1).toNat = addr.toNat + 1 := by
  rw [BitVec.lt_def] at less
  unfold Vm.kernbase at size
  have bound : addr.toNat + 1 < 2 ^ 32 := by omega
  exact toNat_add_ofNat bound

/-- A string that does not begin with its NUL. -/
theorem stringAt_next {len : ℕ} (less : addr < c.sz) :
    StringAt c addr (len + 1) ↔ c.user addr ≠ 0 ∧ StringAt c (addr + 1) len := by
  have isNext := toNat_next size less
  have shift := add_ofNat_succ addr
  constructor
  · rintro ⟨inside, nul, before⟩
    refine ⟨?_, ?_, ?_, fun i less' => ?_⟩
    · have first := before 0 (Nat.succ_pos len)
      rwa [add_ofNat_zero] at first
    · unfold Inside at inside ⊢
      omega
    · rwa [← shift]
    · rw [← shift]
      exact before (i + 1) (Nat.succ_lt_succ less')
  · rintro ⟨first, inside, nul, before⟩
    refine ⟨?_, ?_, fun i less' => ?_⟩
    · unfold Inside at inside ⊢
      omega
    · rwa [shift]
    · cases i with
      | zero => rwa [add_ofNat_zero]
      | succ i =>
          rw [shift]
          exact before i (Nat.lt_of_succ_lt_succ less')

omit size in
theorem stringAt_nul {len : ℕ} (isNul : c.user addr = 0) (less : addr < c.sz) :
    StringAt c addr len ↔ len = 0 := by
  constructor
  · intro string
    by_contra some
    have first := string.before 0 (Nat.pos_of_ne_zero some)
    rw [add_ofNat_zero] at first
    exact first isNul
  · rintro rfl
    refine ⟨less, ?_, fun i none => absurd none (Nat.not_lt_zero i)⟩
    rwa [add_ofNat_zero]

/-- The loop of `fetchstr` stops at the NUL. -/
theorem fetchstrLoop_result (passes : ℕ) : ∀ {s e : Word}, c.sz.toNat ≤ s.toNat + passes →
    ((fetchstrLoop c passes s).result = some e ↔ ∃ len, StringAt c s len ∧ e = s + BitVec.ofNat 32 len) := by
  induction passes with
  | zero =>
      intro s e enough
      refine iff_of_false nofun ?_
      rintro ⟨len, string, -⟩
      have inside := string.inside
      unfold Inside at inside
      omega
  | succ passes ih =>
      intro s e enough
      rw [fetchstrLoop]
      by_cases less : s < c.sz
      · rw [if_pos less]
        by_cases isNul : c.user s = 0
        · rw [if_pos isNul, Option.some_inj]
          constructor
          · rintro rfl
            exact ⟨0, (stringAt_nul isNul less).2 rfl, (BitVec.add_zero s).symm⟩
          · rintro ⟨len, string, isEnd⟩
            rw [(stringAt_nul isNul less).1 string] at isEnd
            rw [isEnd]
            exact (BitVec.add_zero s).symm
        · have isNext := toNat_next size less
          have shift := add_ofNat_succ s
          rw [if_neg isNul]
          have enough' : c.sz.toNat ≤ (s + 1).toNat + passes := by
            rw [isNext]
            omega
          refine (ih enough').trans ⟨?_, ?_⟩
          · rintro ⟨len, string, isEnd⟩
            exact ⟨len + 1, (stringAt_next size less).2 ⟨isNul, string⟩, isEnd.trans (shift len).symm⟩
          · rintro ⟨len, string, isEnd⟩
            cases len with
            | zero => exact absurd string.nul (by rwa [add_ofNat_zero])
            | succ len => exact ⟨len, ((stringAt_next size less).1 string).2, isEnd.trans (shift len)⟩
      · rw [if_neg less]
        refine iff_of_false nofun ?_
        rintro ⟨len, string, -⟩
        have inside := string.inside
        unfold Inside at inside
        rw [BitVec.lt_def] at less
        omega

omit size in
theorem fetchstrLoop_reads (passes : ℕ) : ∀ s, ReadsInside c (fetchstrLoop c passes s) := by
  induction passes with
  | zero => exact fun s => readsInside_fail
  | succ passes ih =>
      intro s
      rw [fetchstrLoop]
      split
      · rename_i less
        split
        · intro addr member
          rw [List.mem_singleton.1 member]
          exact less
        · intro addr member
          rcases List.mem_cons.1 member with rfl | member
          · exact less
          · exact ih (s + 1) addr member
      · exact readsInside_fail

theorem fetchstr_result {p len : Word} : (fetchstr c addr).result = some (p, len) ↔
    p = addr ∧ StringAt c addr len.toNat := by
  unfold fetchstr
  by_cases outside : c.sz ≤ addr
  · rw [if_pos outside]
    refine iff_of_false nofun ?_
    rintro ⟨-, string⟩
    have inside := string.inside
    unfold Inside at inside
    rw [BitVec.le_def] at outside
    omega
  · rw [if_neg outside, bind_result]
    have loop := fun e => fetchstrLoop_result (e := e) size c.sz.toNat (Nat.le_add_left _ addr.toNat)
    constructor
    · rintro ⟨e, isEnd, isPair⟩
      rw [pure_result, Prod.mk.injEq] at isPair
      rcases isPair with ⟨rfl, rfl⟩
      rcases (loop e).1 isEnd with ⟨len, string, rfl⟩
      have inside := string.inside
      unfold Inside at inside
      unfold Vm.kernbase at size
      have isLen : (addr + BitVec.ofNat 32 len - addr).toNat = len := by
        rw [BitVec.add_comm, BitVec.add_sub_cancel, BitVec.toNat_ofNat, Nat.mod_eq_of_lt (by omega)]
      rw [isLen]
      exact ⟨rfl, string⟩
    · rintro ⟨rfl, string⟩
      refine ⟨p + len, (loop _).2 ⟨len.toNat, string, ?_⟩, ?_⟩
      · rw [BitVec.ofNat_toNat, BitVec.setWidth_eq]
      · rw [pure_result, BitVec.add_comm, BitVec.add_sub_cancel]

omit size in
theorem fetchstr_reads (addr : Word) : ReadsInside c (fetchstr c addr) := by
  unfold fetchstr
  split
  · exact readsInside_fail
  · exact (fetchstrLoop_reads _ addr).bind fun _ _ => readsInside_pure _

theorem argptr_result {n len p : Word} : (argptr c n len).result = some p ↔
    (argint c n).result = some p ∧ 0 ≤ len.toInt ∧ p < c.sz ∧ Inside c p len.toNat := by
  unfold argptr
  rw [bind_result]
  have test : ∀ i : Word, ¬(len.toInt < 0 ∨ c.sz ≤ i ∨ c.sz < i + len) ↔
      0 ≤ len.toInt ∧ i < c.sz ∧ Inside c i len.toNat := by
    intro i
    rw [not_or, not_or, not_lt, BitVec.not_le, BitVec.not_lt]
    refine and_congr_right fun positive => and_congr_right fun less => ?_
    -- neither the address nor the size has its highest bit set
    have small : 2 * len.toNat < 2 ^ 32 := by
      by_contra large
      rw [BitVec.toInt_eq_toNat_cond, if_neg large] at positive
      have bound := len.isLt
      omega
    unfold Inside
    rw [BitVec.lt_def] at less
    unfold Vm.kernbase at size
    rw [BitVec.le_def, BitVec.toNat_add, Nat.mod_eq_of_lt (by omega)]
  constructor
  · rintro ⟨i, isArg, rest⟩
    split at rest
    · cases rest
    · rename_i passes
      rw [pure_result] at rest
      subst rest
      exact ⟨isArg, (test i).1 passes⟩
  · rintro ⟨isArg, inside⟩
    refine ⟨p, isArg, ?_⟩
    rw [if_neg ((test p).2 inside)]
    rfl

theorem argptr_reads (n len : Word) : ReadsInside c (argptr c n len) := by
  refine (fetchint_reads size _).bind fun i _ => ?_
  split
  · exact readsInside_fail
  · exact readsInside_pure i

theorem argstr_result {n p len : Word} : (argstr c n).result = some (p, len) ↔
    (argint c n).result = some p ∧ StringAt c p len.toNat := by
  unfold argstr
  rw [bind_result]
  constructor
  · rintro ⟨addr, isArg, string⟩
    rcases (fetchstr_result size).1 string with ⟨rfl, string⟩
    exact ⟨isArg, string⟩
  · rintro ⟨isArg, string⟩
    exact ⟨p, isArg, (fetchstr_result size).2 ⟨rfl, string⟩⟩

theorem argstr_reads (n : Word) : ReadsInside c (argstr c n) :=
  (fetchint_reads size _).bind fun addr _ => fetchstr_reads addr

/-- Up to `i`, the entries of `argv` are words of user memory that point to strings. -/
def ArgumentsAt (c : Caller) (uargv : Word) (i : ℕ) (argv : Fin maxarg → Word) : Prop :=
  ∀ j : Fin maxarg, j.val < i → Inside c (uargv + 4 * BitVec.ofNat 32 j) 4 ∧
    argv j = c.intAt (uargv + 4 * BitVec.ofNat 32 j) ∧ argv j ≠ 0 ∧ ∃ len, StringAt c (argv j) len

theorem argvLoop_result {uargv : Word} (left : ℕ) : ∀ {i argv argv'}, i + left = maxarg →
    ArgumentsAt c uargv i argv → (∀ j : Fin maxarg, i ≤ j.val → argv j = 0) →
    (argvLoop c uargv left i argv).result = some argv' →
    ∃ count < maxarg, ArgumentsAt c uargv count argv' ∧ (∀ j : Fin maxarg, count ≤ j.val → argv' j = 0) ∧
      Inside c (uargv + 4 * BitVec.ofNat 32 count) 4 ∧ c.intAt (uargv + 4 * BitVec.ofNat 32 count) = 0 := by
  induction left with
  | zero => exact nofun
  | succ left ih =>
      intro i argv argv' isLeft arguments zeroes isResult
      rw [argvLoop, bind_result] at isResult
      rcases isResult with ⟨uarg, isWord, rest⟩
      rcases (fetchint_result size).1 isWord with ⟨inside, isUarg⟩
      have isIndex : (Fin.ofNat maxarg i).val = i := Nat.mod_eq_of_lt (by omega)
      split at rest
      · rename_i isZero
        rw [pure_result] at rest
        have same : argv' = argv := by
          rw [← rest]
          exact Function.update_eq_self_iff.2 (zeroes _ isIndex.ge).symm
        subst same
        exact ⟨i, by omega, arguments, zeroes, inside, isUarg.symm.trans isZero⟩
      · rename_i notZero
        rw [bind_result] at rest
        rcases rest with ⟨⟨pp, len⟩, isString, rest⟩
        rcases (fetchstr_result size).1 isString with ⟨rfl, string⟩
        refine ih (by omega) (fun j less => ?_) (fun j more => ?_) rest
        · by_cases same : j = Fin.ofNat maxarg i
          · subst same
            rw [Function.update_self, isIndex]
            exact ⟨inside, isUarg, notZero, len.toNat, string⟩
          · rw [Function.update_of_ne same]
            have different : j.val ≠ i := fun isI => same (Fin.ext (isI.trans isIndex.symm))
            exact arguments j (by omega)
        · have different : j ≠ Fin.ofNat maxarg i := by
            rintro rfl
            omega
          rw [Function.update_of_ne different]
          exact zeroes j (by omega)

theorem argvLoop_reads (uargv : Word) (left : ℕ) : ∀ i argv, ReadsInside c (argvLoop c uargv left i argv) := by
  induction left with
  | zero => exact fun i argv => readsInside_fail
  | succ left ih =>
      intro i argv
      refine (fetchint_reads size _).bind fun uarg _ => ?_
      split
      · exact readsInside_pure _
      · exact (fetchstr_reads uarg).bind fun pair _ => ih _ _

theorem fetchint_fails (failed : (fetchint c addr).result = none) : ¬Inside c addr 4 := by
  intro inside
  cases failed.symm.trans ((fetchint_result size).2 ⟨inside, rfl⟩)

theorem fetchstr_fails (failed : (fetchstr c addr).result = none) (len : ℕ) : ¬StringAt c addr len := by
  intro string
  have inside := string.inside
  unfold Inside at inside
  have isLen : (BitVec.ofNat 32 len).toNat = len := by
    rw [BitVec.toNat_ofNat]
    exact Nat.mod_eq_of_lt (by omega)
  cases failed.symm.trans ((fetchstr_result size).2 ⟨rfl, isLen.symm ▸ string⟩)

end

/-- What the kernel relies on when it uses the arguments of a system call. -/
structure ArgumentsChecked (c : Caller) : Prop where
  fetchint : ∀ addr v, (fetchint c addr).result = some v → Inside c addr 4 ∧ v = c.intAt addr
  fetchint_fails : ∀ addr, (Syscall.fetchint c addr).result = none → ¬Inside c addr 4
  argint : ∀ n, argint c n = Syscall.fetchint c (c.esp + 4 + 4 * n)
  argptr : ∀ n len p, (argptr c n len).result = some p →
    (Syscall.argint c n).result = some p ∧ 0 ≤ len.toInt ∧ Inside c p len.toNat
  argptr_fails : ∀ n len, 0 < len.toInt → (Syscall.argptr c n len).result = none →
    ∀ p, (Syscall.argint c n).result = some p → ¬Inside c p len.toNat
  fetchstr : ∀ addr p len, (fetchstr c addr).result = some (p, len) → p = addr ∧ StringAt c addr len.toNat
  fetchstr_fails : ∀ addr, (Syscall.fetchstr c addr).result = none → ∀ len, ¬StringAt c addr len
  argstr : ∀ n p len, (argstr c n).result = some (p, len) →
    (Syscall.argint c n).result = some p ∧ StringAt c p len.toNat
  argstr_fails : ∀ n, (Syscall.argstr c n).result = none →
    ∀ p, (Syscall.argint c n).result = some p → ∀ len, ¬StringAt c p len
  exec : ∀ path argv, (sys_exec c).result = some (path, argv) → (∃ len, StringAt c path len) ∧
    ∃ uargv count, (Syscall.argint c 1).result = some uargv ∧ count < maxarg ∧ ArgumentsAt c uargv count argv ∧
      (∀ j : Fin maxarg, count ≤ j.val → argv j = 0) ∧
      Inside c (uargv + 4 * BitVec.ofNat 32 count) 4 ∧ c.intAt (uargv + 4 * BitVec.ofNat 32 count) = 0
  reads : (∀ addr, ReadsInside c (Syscall.fetchint c addr) ∧ ReadsInside c (Syscall.fetchstr c addr)) ∧
    (∀ n, ReadsInside c (Syscall.argint c n) ∧ ReadsInside c (Syscall.argstr c n)) ∧
    (∀ n len, ReadsInside c (Syscall.argptr c n len)) ∧ ReadsInside c (sys_exec c)

/-- The checks accept exactly what lies in the memory of the process, and only that memory is read. -/
theorem syscall_arguments (c : Caller) (size : c.sz.toNat < Vm.kernbase) : ArgumentsChecked c := by
  refine ⟨fun addr v => (fetchint_result size).1, fun addr => fetchint_fails size, fun n => rfl,
    fun n len p isPtr => ?_, fun n len positive failed p isArg inside => ?_,
    fun addr p len => (fetchstr_result size).1, fun addr => fetchstr_fails size,
    fun n p len => (argstr_result size).1, fun n failed p isArg => fetchstr_fails size ?_,
    fun path argv isExec => ?_, fun addr => ⟨fetchint_reads size addr, fetchstr_reads addr⟩,
    fun n => ⟨fetchint_reads size _, argstr_reads size n⟩, argptr_reads size, ?_⟩
  · rcases (argptr_result size).1 isPtr with ⟨isArg, positive, -, inside⟩
    exact ⟨isArg, positive, inside⟩
  · have some : 0 < len.toNat := by
      by_contra zero
      rw [BitVec.eq_of_toNat_eq (x := len) (y := 0) (Nat.eq_zero_of_not_pos zero)] at positive
      exact lt_irrefl _ positive
    have less : p < c.sz := by
      rw [BitVec.lt_def]
      unfold Inside at inside
      omega
    cases failed.symm.trans ((argptr_result size).2 ⟨isArg, positive.le, less, inside⟩)
  · by_contra found
    rcases Option.ne_none_iff_exists'.1 found with ⟨string, isString⟩
    cases failed.symm.trans (bind_result.2 ⟨p, isArg, isString⟩)
  · unfold sys_exec at isExec
    rcases bind_result.1 isExec with ⟨⟨p, len⟩, isPath, rest⟩
    rcases bind_result.1 rest with ⟨uargv, isUargv, rest⟩
    rcases bind_result.1 rest with ⟨argv', isArgv, isPair⟩
    rw [pure_result, Prod.mk.injEq] at isPair
    rcases isPair with ⟨rfl, rfl⟩
    rcases argvLoop_result size maxarg (Nat.zero_add _) (fun j none => absurd none (Nat.not_lt_zero _))
      (fun j _ => rfl) isArgv with ⟨count, few, rest⟩
    exact ⟨⟨_, ((argstr_result size).1 isPath).2⟩, uargv, count, isUargv, few, rest⟩
  · refine (argstr_reads size 0).bind fun path _ => ?_
    exact (fetchint_reads size _).bind fun uargv _ => (argvLoop_reads size uargv _ _ _).bind fun _ _ =>
      readsInside_pure _

/-- A process with a page of zeroes. -/
def zeroCaller : Caller := { sz := 4096, esp := 4080, user := fun _ => 0 }

theorem syscall_arguments_zeroCaller : ArgumentsChecked zeroCaller ∧ (argptr zeroCaller 0 4096).result = some 0 ∧
    (argptr zeroCaller 2 4097).result = none :=
  ⟨syscall_arguments zeroCaller (by decide), by decide, by decide⟩

end Xv6.Syscall
