import Xv6.Lib.Monitor
import Xv6.Lib.Ring

/-!
# Pipes

`pipewrite`, `piperead` and `pipeclose` of `pipe.c` on one pipe. What a call does between two points
at which the lock of the pipe is free is one step; `sleep` and `wakeup` are atomic with respect to it.
The counters of the source are 32 bits wide and are never reduced.

The pipe also records what has been stored, and the calls of `pipewrite` and `piperead` that have
returned.
-/

namespace Xv6.Sync

open Monitor Transition Ring

abbrev Byte := BitVec 8

/-- `PIPESIZE` -/
abbrev pipesize : ℕ := 512

variable {ι : Type*}

/-- A call of `pipewrite` that has returned `value` and has stored the first `count` bytes. -/
structure Written (ι : Type*) where
  myproc : ι
  addr : List Byte
  count : ℕ
  value : ℤ

/-- A call of `piperead` that has returned `value` and these bytes. -/
structure Taken (ι : Type*) where
  myproc : ι
  n : ℕ
  bytes : List Byte
  value : ℤ

/-- `struct pipe`, `killed` of the processes, and the history. -/
structure Pipe (ι : Type*) where
  data : Fin pipesize → Byte := fun _ => 0
  nread : BitVec 32 := 0
  nwrite : BitVec 32 := 0
  readopen : Bool := true
  writeopen : Bool := true
  killed : ι → Bool := fun _ => false
  stored : List (ι × Byte) := []
  writes : List (Written ι) := []
  reads : List (Taken ι) := []

/-- What processes sleep on. -/
inductive PipeChan where
  | nread
  | nwrite
  deriving DecidableEq, Repr

/-- A call from the point at which it gets the lock; `i` is the loop variable of `pipewrite`. -/
inductive PipeCall where
  | pipewrite (addr : List Byte) (i : ℕ)
  | piperead (n : ℕ)
  | pipeclose (writable : Bool)
  deriving DecidableEq

abbrev PipeSection (ι : Type*) := Section (Pipe ι) PipeChan PipeCall

def Pipe.full (p : Pipe ι) : Prop := p.nwrite = p.nread + BitVec.ofNat 32 pipesize

instance (p : Pipe ι) : Decidable p.full := inferInstanceAs (Decidable (_ = _))

/-- `p->data[p->nwrite++ % PIPESIZE] = c` -/
def Pipe.store (p : Pipe ι) (myproc : ι) (c : Byte) : Pipe ι :=
  { p with
    data := Function.update p.data (cell pipesize p.nwrite) c
    nwrite := p.nwrite + 1
    stored := p.stored ++ [(myproc, c)] }

/-- The loop of `pipewrite` over the bytes that are left, from `i`. -/
def writeLoop (myproc : ι) (addr : List Byte) : List Byte → ℕ → Pipe ι → PipeSection ι
  | [], i, p =>
      { shared := { p with writes := p.writes ++ [⟨myproc, addr, i, addr.length⟩] }
        wakes := [.nread] }
  | c :: left, i, p =>
      if p.full then
        if !p.readopen || p.killed myproc then
          { shared := { p with writes := p.writes ++ [⟨myproc, addr, i, -1⟩] } }
        else { shared := p, wakes := [.nread], place := .sleeping .nwrite (.pipewrite addr i) }
      else writeLoop myproc addr left (i + 1) (p.store myproc c)

/-- `pipewrite` -/
def pipewrite (myproc : ι) (addr : List Byte) (i : ℕ) (p : Pipe ι) : PipeSection ι :=
  writeLoop myproc addr (addr.drop i) i p

/-- The copy loop of `piperead`. -/
def copyLoop : ℕ → Pipe ι → List Byte × Pipe ι
  | 0, p => ([], p)
  | n + 1, p =>
      if p.nread = p.nwrite then ([], p)
      else
        let (bytes, p') := copyLoop n { p with nread := p.nread + 1 }
        (p.data (cell pipesize p.nread) :: bytes, p')

/-- `piperead` -/
def piperead (myproc : ι) (n : ℕ) (p : Pipe ι) : PipeSection ι :=
  if p.nread = p.nwrite ∧ p.writeopen = true then
    if p.killed myproc then
      { shared := { p with reads := p.reads ++ [⟨myproc, n, [], -1⟩] } }
    else { shared := p, place := .sleeping .nread (.piperead n) }
  else
    let (bytes, p') := copyLoop n p
    { shared := { p' with reads := p'.reads ++ [⟨myproc, n, bytes, bytes.length⟩] }
      wakes := [.nwrite] }

/-- `pipeclose`; the page of the pipe is freed when both ends are closed. -/
def pipeclose (writable : Bool) (p : Pipe ι) : PipeSection ι :=
  if writable then { shared := { p with writeopen := false }, wakes := [.nread] }
  else { shared := { p with readopen := false }, wakes := [.nwrite] }

/-! ## What a section does -/

variable {p p' : Pipe ι} {myproc j : ι} {addr left bytes : List Byte} {i n : ℕ} {pending : List Byte}

theorem pipesize_divides : pipesize ∣ 2 ^ 32 := by decide

theorem pipesize_small : pipesize < 2 ^ 32 := by decide

/-- The bytes between the counters. -/
abbrev Pipe.Pending (p : Pipe ι) (pending : List Byte) : Prop :=
  Holds p.data p.nread p.nwrite pending

/-- Bytes have been stored, and nothing else has changed. -/
structure Stored (myproc : ι) (bytes : List Byte) (p p' : Pipe ι) : Prop where
  nread : p'.nread = p.nread
  readopen : p'.readopen = p.readopen
  writeopen : p'.writeopen = p.writeopen
  killed : p'.killed = p.killed
  reads : p'.reads = p.reads
  writes : p'.writes = p.writes
  stored : p'.stored = p.stored ++ bytes.map (myproc, ·)
  pending : ∀ pending, p.Pending pending → p'.Pending (pending ++ bytes)

theorem Stored.refl : Stored myproc [] p p :=
  ⟨rfl, rfl, rfl, rfl, rfl, rfl, by simp, fun _ holds => by simpa using holds⟩

theorem full_iff (holds : p.Pending pending) : p.full ↔ pending.length = pipesize :=
  holds.full_iff pipesize_small

theorem Stored.store (room : ¬p.full) (c : Byte)
    (rest : Stored myproc bytes (p.store myproc c) p') : Stored myproc (c :: bytes) p p' := by
  refine ⟨rest.nread, rest.readopen, rest.writeopen, rest.killed, rest.reads, rest.writes, ?_,
    fun pending' holds' => ?_⟩
  · rw [rest.stored]
    simp [Pipe.store]
  · have less : pending'.length < pipesize :=
      lt_of_le_of_ne holds'.bound fun full => room ((full_iff holds').2 full)
    have pushed := rest.pending _ (holds'.push pipesize_divides less c)
    rw [List.append_assoc] at pushed
    exact pushed

/-- The three ways in which a section of `pipewrite` ends. -/
inductive WriteEnds (myproc : ι) (addr left : List Byte) (i : ℕ) (p : Pipe ι) : PipeSection ι → Prop
  | returns {p' : Pipe ι} (stored : Stored myproc left p p') :
      WriteEnds myproc addr left i p
        { shared := { p' with writes := p'.writes ++ [⟨myproc, addr, i + left.length, addr.length⟩] }
          wakes := [.nread] }
  | fails {p' : Pipe ι} (bytes : List Byte) (more : bytes.length < left.length)
      (isPrefix : bytes = left.take bytes.length)
      (stored : Stored myproc bytes p p') (full : p'.full)
      (alone : p.readopen = false ∨ p.killed myproc = true) :
      WriteEnds myproc addr left i p
        { shared := { p' with writes := p'.writes ++ [⟨myproc, addr, i + bytes.length, -1⟩] } }
  | sleeps {p' : Pipe ι} (bytes : List Byte) (more : bytes.length < left.length)
      (isPrefix : bytes = left.take bytes.length)
      (stored : Stored myproc bytes p p') (full : p'.full)
      (goesOn : p.readopen = true ∧ p.killed myproc = false) :
      WriteEnds myproc addr left i p
        { shared := p', wakes := [.nread], place := .sleeping .nwrite (.pipewrite addr (i + bytes.length)) }

theorem writeLoop_ends (myproc : ι) (addr left : List Byte) :
    ∀ {i p pending}, Pipe.Pending p pending →
      WriteEnds myproc addr left i p (writeLoop myproc addr left i p) := by
  induction left with
  | nil => exact fun _ => .returns .refl
  | cons c left ih =>
      intro i p pending holds
      unfold writeLoop
      by_cases full : p.full
      · rw [if_pos full]
        by_cases alone : (!p.readopen || p.killed myproc) = true
        · rw [if_pos alone]
          rw [Bool.or_eq_true, Bool.not_eq_true'] at alone
          exact .fails [] (Nat.succ_pos _) rfl .refl full alone
        · rw [if_neg alone]
          rw [Bool.or_eq_true, Bool.not_eq_true', not_or, Bool.not_eq_false, Bool.not_eq_true] at alone
          exact .sleeps [] (Nat.succ_pos _) rfl .refl full alone
      · rw [if_neg full]
        have less : pending.length < pipesize :=
          lt_of_le_of_ne holds.bound fun isFull => full ((full_iff holds).2 isFull)
        have pushed : (p.store myproc c).Pending (pending ++ [c]) :=
          holds.push pipesize_divides less c
        have later := ih (i := i + 1) pushed
        generalize writeLoop myproc addr left (i + 1) (p.store myproc c) = section' at later
        cases later with
        | returns stored =>
            have ends : WriteEnds myproc addr (c :: left) i p _ := .returns (stored.store full c)
            rwa [List.length_cons, Nat.add_comm left.length 1, ← Nat.add_assoc] at ends
        | fails bytes more isPrefix stored full' alone =>
            have ends : WriteEnds myproc addr (c :: left) i p _ := .fails (c :: bytes)
              (by simpa using more) (by simpa using isPrefix) (stored.store full c) full' alone
            rwa [List.length_cons, Nat.add_comm bytes.length 1, ← Nat.add_assoc] at ends
        | sleeps bytes more isPrefix stored full' goesOn =>
            have ends : WriteEnds myproc addr (c :: left) i p _ := .sleeps (c :: bytes)
              (by simpa using more) (by simpa using isPrefix) (stored.store full c) full' goesOn
            rwa [List.length_cons, Nat.add_comm bytes.length 1, ← Nat.add_assoc] at ends

/-- The copy loop takes bytes from the front until it has enough or nothing is left. -/
theorem copyLoop_takes (n : ℕ) : ∀ {p : Pipe ι} {pending}, p.Pending pending →
    (copyLoop n p).1 = pending.take n ∧
    (copyLoop n p).2 = { p with nread := (copyLoop n p).2.nread } ∧
    (copyLoop n p).2.Pending (pending.drop n) := by
  induction n with
  | zero => exact fun holds => ⟨by simp [copyLoop], rfl, by simpa [copyLoop] using holds⟩
  | succ n ih =>
      intro p pending holds
      unfold copyLoop
      have empty := holds.empty_iff pipesize_small
      cases pending with
      | nil =>
          rw [if_pos (empty.2 rfl)]
          exact ⟨rfl, rfl, holds⟩
      | cons c pending =>
          rw [if_neg fun same => List.cons_ne_nil _ _ (empty.1 same)]
          rcases holds.pop with ⟨first, rest⟩
          rcases ih (p := { p with nread := p.nread + 1 }) rest with ⟨taken, same, left⟩
          refine ⟨?_, same, left⟩
          dsimp only
          rw [taken, first]
          rfl

/-! ## The system -/

variable [DecidableEq ι]

/-- A call of `kill`, which may come when the process has looked at `killed` and does not sleep
yet. -/
structure PipeKill (ι : Type*) where
  pid : ι
  beforeSleep : Bool

def pipeCode : Code (Pipe ι) ι PipeChan PipeCall (PipeKill ι) where
  body myproc call := match call with
    | .pipewrite addr i => pipewrite myproc addr i
    | .piperead n => piperead myproc n
    | .pipeclose writable => pipeclose writable
  interrupt kill p :=
    { shared := { p with killed := Function.update p.killed kill.pid true }
      rouses := if kill.beforeSleep then [] else [kill.pid] }

abbrev PipeState (ι : Type*) := Monitor.State (Pipe ι) ι PipeChan PipeCall

/-- The page of the pipe is not used after it has been freed, and calls start at their beginning. -/
def PipeUse (s : PipeState ι) : Label ι PipeCall (PipeKill ι) → Prop
  | .call _ (.pipewrite _ i) => i = 0
  | .run _ => s.shared.readopen = true ∨ s.shared.writeopen = true
  | _ => True

/-- The states of all interleavings. -/
def PipeReach : PipeState ι → Prop := Reachable (Step pipeCode) PipeUse { shared := {} }

end Xv6.Sync
