import Xv6.Lib.LinkedCycle
import Xv6.Lib.References
import Xv6.Lib.Transition

/-!
# The buffer cache

`bio.c` and `log_write`. Each section under `bcache.lock` is one step, and so are taking the lock of a
buffer and what its holder does with it. `commit` uses the buffers with `bread`, `bwrite` and `brelse`
like every other process. The blocks that were written, and when a buffer was last released, are history.
-/

namespace Xv6.Fs

open LinkedCycle Transition

/-- `struct buf`; the lock has the process that holds it. -/
structure Buf (ι δ : Type*) where
  valid : Bool := false
  dirty : Bool := false
  dev : ℕ := 0
  blockno : ℕ := 0
  refcnt : ℕ := 0
  lock : Option ι := none
  data : δ

/-- Where a process is in `bread` or `brelse`. -/
inductive Doing (n : ℕ) where
  | idle
  /-- in `acquiresleep` of `bget` -/
  | waiting (b : Fin n) (dev blockno : ℕ)
  /-- behind `bget` -/
  | loading (b : Fin n) (dev blockno : ℕ)
  /-- behind `releasesleep` in `brelse` -/
  | releasing (b : Fin n)

structure Bcache (ι δ : Type*) (n : ℕ) where
  buf : Fin n → Buf ι δ
  links : Links (Fin n)
  disk : ℕ × ℕ → δ
  doing : ι → Doing n := fun _ => .idle
  written : ℕ × ℕ → Option δ := fun _ => none
  released : Fin n → ℕ := fun _ => 0
  clock : ℕ := 0

inductive Access (ι δ : Type*) (n : ℕ) where
  /-- the section of `bget` -/
  | bread (p : ι) (dev blockno : ℕ)
  /-- `acquiresleep` in `bget` -/
  | acquire (p : ι)
  /-- The rest of `bread` -/
  | load (p : ι)
  /-- The holder changes the data and calls `bwrite`. -/
  | bwrite (p : ι) (b : Fin n) (data : δ)
  /-- The holder changes the data and calls `log_write`. -/
  | logWrite (p : ι) (b : Fin n) (data : δ)
  /-- `releasesleep` in `brelse` -/
  | release (p : ι) (b : Fin n)
  /-- the section of `brelse` -/
  | brelse (p : ι)

variable {ι δ : Type*} {n : ℕ} [DecidableEq ι]

def Buf.key (v : Buf ι δ) : ℕ × ℕ := (v.dev, v.blockno)

namespace Bcache

def setBuf (s : Bcache ι δ n) (b : Fin n) (v : Buf ι δ) : Bcache ι δ n :=
  { s with buf := Function.update s.buf b v }

def setDoing (s : Bcache ι δ n) (p : ι) (d : Doing n) : Bcache ι δ n :=
  { s with doing := Function.update s.doing p d }

/-- `binit` -/
def binit (zero : δ) (disk : ℕ × ℕ → δ) : Bcache ι δ n :=
  { buf := fun _ => { data := zero }, links := (List.finRange n).foldl Links.insertFront Links.empty, disk }

/-- The section of `bget`. Without a buffer it panics. -/
def bget (s : Bcache ι δ n) (p : ι) (dev blockno : ℕ) : Option (Bcache ι δ n) :=
  match Links.search s.links.next (fun b => (s.buf b).dev = dev ∧ (s.buf b).blockno = blockno) (n + 1)
      (s.links.next none) with
  | some b =>
      some ((s.setBuf b { s.buf b with refcnt := (s.buf b).refcnt + 1 }).setDoing p (.waiting b dev blockno))
  | none =>
      match Links.search s.links.prev (fun b => (s.buf b).refcnt = 0 ∧ (s.buf b).dirty = false) (n + 1)
          (s.links.prev none) with
      | some b =>
          some ((s.setBuf b { s.buf b with dev, blockno, valid := false, dirty := false, refcnt := 1 }).setDoing p
            (.waiting b dev blockno))
      | none => none

/-- `iderw` -/
def iderw (s : Bcache ι δ n) (b : Fin n) : Bcache ι δ n :=
  if (s.buf b).dirty then
    { s.setBuf b { s.buf b with dirty := false, valid := true } with
      disk := Function.update s.disk (s.buf b).key (s.buf b).data }
  else s.setBuf b { s.buf b with data := s.disk (s.buf b).key, valid := true }

/-- The holder of a buffer changes its data; the history has what was written. -/
def change (s : Bcache ι δ n) (b : Fin n) (data : δ) : Bcache ι δ n :=
  { s.setBuf b { s.buf b with data, dirty := true } with
    written := Function.update s.written (s.buf b).key (some data) }

/-- The section of `brelse` -/
def brelse (s : Bcache ι δ n) (b : Fin n) : Bcache ι δ n :=
  let s := s.setBuf b { s.buf b with refcnt := (s.buf b).refcnt - 1 }
  let s := { s with clock := s.clock + 1, released := Function.update s.released b (s.clock + 1) }
  if (s.buf b).refcnt = 0 then { s with links := (s.links.unlink b).insertFront b } else s

/-- One step of one process. -/
def step (s : Bcache ι δ n) : Access ι δ n → Option (Bcache ι δ n)
  | .bread p dev blockno => match s.doing p with
      | .idle => s.bget p dev blockno
      | _ => none
  | .acquire p => match s.doing p with
      | .waiting b dev blockno =>
          if (s.buf b).lock = none then
            some ((s.setBuf b { s.buf b with lock := some p }).setDoing p (.loading b dev blockno))
          else none
      | _ => none
  | .load p => match s.doing p with
      | .loading b _ _ => some ((if (s.buf b).valid then s else s.iderw b).setDoing p .idle)
      | _ => none
  | .bwrite p b data => match s.doing p with
      | .idle => if (s.buf b).lock = some p then some ((s.change b data).iderw b) else none
      | _ => none
  | .logWrite p b data => match s.doing p with
      | .idle => if (s.buf b).lock = some p then some (s.change b data) else none
      | _ => none
  | .release p b => match s.doing p with
      | .idle =>
          if (s.buf b).lock = some p then
            some ((s.setBuf b { s.buf b with lock := none }).setDoing p (.releasing b))
          else none
      | _ => none
  | .brelse p => match s.doing p with
      | .releasing b => some ((s.brelse b).setDoing p .idle)
      | _ => none

end Bcache

/-! ## The order of the buffers -/

/-- A buffer that is referenced or valid. -/
def Buf.Active (v : Buf ι δ) : Prop := 0 < v.refcnt ∨ v.valid = true

/-- The buffers in the order of the list. Of the buffers for one block only the first can be active, and
buffers that moved to the front later come earlier. -/
structure Ordered (s : Bcache ι δ n) (list : List (Fin n)) (moved : Fin n → ℕ) : Prop where
  cycle : s.links.Cycle list
  all : ∀ b, b ∈ list
  first : list.Pairwise fun x y => (s.buf x).key = (s.buf y).key → ¬(s.buf y).Active
  recent : list.Pairwise fun x y => moved y ≤ moved x
  past : ∀ b, moved b ≤ s.clock
  idle : ∀ b, (s.buf b).refcnt = 0 → moved b = s.released b

variable {s s' : Bcache ι δ n} {list : List (Fin n)} {moved : Fin n → ℕ} {b c : Fin n} {v : Buf ι δ}
  {p q : ι} {dev blockno : ℕ}

theorem pairwise_or {α : Type*} {list : List α} {R : α → α → Prop} {a b : α} (pairwise : list.Pairwise R)
    (first : a ∈ list) (second : b ∈ list) (different : a ≠ b) : R a b ∨ R b a := by
  have symmetric : list.Pairwise fun x y => R x y ∨ R y x := pairwise.imp .inl
  have symm : Std.Symm fun x y => R x y ∨ R y x := ⟨fun _ _ => Or.symm⟩
  exact symmetric.forall first second different

/-- What comes before the node that a search finds fails the test. -/
theorem pairwise_find {α : Type*} {list : List α} {test : α → Bool} {a : α} (nodup : list.Nodup)
    (found : list.find? test = some a) : list.Pairwise fun x y => y = a → test x = false := by
  induction list with
  | nil => exact List.Pairwise.nil
  | cons x list ih =>
      rw [List.nodup_cons] at nodup
      rw [List.find?_cons] at found
      cases isTest : test x with
      | true =>
          rw [isTest] at found
          have isX := Option.some.inj found
          subst isX
          have absent : ∀ y ∈ list, y ≠ x := fun y member same => nodup.1 (same ▸ member)
          refine List.pairwise_cons.2 ⟨fun y member same => absurd same (absent y member), ?_⟩
          exact List.pairwise_of_forall_mem_list fun _ _ y member same => absurd same (absent y member)
      | false =>
          rw [isTest] at found
          exact List.pairwise_cons.2 ⟨fun _ _ _ => isTest, ih nodup.2 found⟩

omit [DecidableEq ι] in
theorem Ordered.length_lt (ordered : Ordered s list moved) : list.length < n + 1 := by
  have bound := ordered.cycle.2.length_le_card
  rw [Fintype.card_fin] at bound
  omega

omit [DecidableEq ι] in
/-- No two active buffers are for one block. -/
theorem Ordered.unique (ordered : Ordered s list moved) (first : (s.buf b).Active) (second : (s.buf c).Active)
    (same : (s.buf b).key = (s.buf c).key) : b = c := by
  by_contra different
  rcases pairwise_or ordered.first (ordered.all b) (ordered.all c) different with before | after
  · exact before same second
  · exact after same.symm first

omit [DecidableEq ι] in
/-- Neither the block of a buffer nor the list changes. -/
theorem Ordered.keep (ordered : Ordered s list moved) (links : s'.links = s.links) (clock : s.clock ≤ s'.clock)
    (isBuf : s'.buf = Function.update s.buf b v) (isKey : v.key = (s.buf b).key)
    (active : v.Active → (s.buf b).Active)
    (idle : ∀ x, (s'.buf x).refcnt = 0 → (s.buf x).refcnt = 0 ∧ s'.released x = s.released x) :
    Ordered s' list moved := by
  have keys : ∀ x, (s'.buf x).key = (s.buf x).key := by
    intro x
    rw [isBuf, Function.update_apply]
    split
    · rename_i isB
      rw [isB]
      exact isKey
    · rfl
  have actives : ∀ x, (s'.buf x).Active → (s.buf x).Active := by
    intro x
    rw [isBuf, Function.update_apply]
    split
    · rename_i isB
      rw [isB]
      exact active
    · exact id
  refine ⟨?_, ordered.all, ?_, ordered.recent, fun x => (ordered.past x).trans clock, fun x zero => ?_⟩
  · rw [links]
    exact ordered.cycle
  · refine ordered.first.imp fun notActive same isActive => ?_
    rw [keys, keys] at same
    exact notActive same (actives _ isActive)
  · rw [(idle x zero).2]
    exact ordered.idle x (idle x zero).1

omit [DecidableEq ι] in
/-- The number of references to a buffer stays too. -/
theorem Ordered.same (ordered : Ordered s list moved) (links : s'.links = s.links) (clock : s'.clock = s.clock)
    (released : s'.released = s.released) (isBuf : s'.buf = Function.update s.buf b v)
    (isKey : v.key = (s.buf b).key) (active : v.Active → (s.buf b).Active)
    (refcnt : v.refcnt = (s.buf b).refcnt) : Ordered s' list moved := by
  refine ordered.keep links clock.ge isBuf isKey active fun x zero => ⟨?_, congrFun released x⟩
  rw [isBuf, Function.update_apply] at zero
  split at zero
  · rename_i isB
    rw [isB]
    exact refcnt.symm.trans zero
  · exact zero

omit [DecidableEq ι] in
/-- A block is found in the cache. -/
theorem Ordered.hit (ordered : Ordered s list moved)
    (found : list.find? (fun b => (s.buf b).dev = dev ∧ (s.buf b).blockno = blockno) = some b)
    (links : s'.links = s.links) (clock : s'.clock = s.clock) (released : s'.released = s.released)
    (isBuf : s'.buf = Function.update s.buf b v) (isKey : v.key = (s.buf b).key) (refcnt : v.refcnt ≠ 0) :
    Ordered s' list moved := by
  have isTest := List.find?_some found
  have isBlock : (s.buf b).key = (dev, blockno) := Prod.ext_iff.2 (of_decide_eq_true isTest)
  have keys : ∀ x, (s'.buf x).key = (s.buf x).key := by
    intro x
    rw [isBuf, Function.update_apply]
    split
    · rename_i isB
      rw [isB]
      exact isKey
    · rfl
  refine ⟨?_, ordered.all, ?_, ordered.recent, fun x => ?_, fun x zero => ?_⟩
  · rw [links]
    exact ordered.cycle
  · refine (ordered.first.and (pairwise_find ordered.cycle.2 found)).imp ?_
    rintro x y ⟨notActive, before⟩ same isActive
    rw [keys, keys] at same
    by_cases isB : y = b
    · subst isB
      have notBlock := of_decide_eq_false (before rfl)
      rw [isBlock] at same
      exact notBlock (Prod.ext_iff.1 same)
    · rw [isBuf, Function.update_of_ne isB] at isActive
      exact notActive same isActive
  · rw [clock]
    exact ordered.past x
  · rw [released]
    rw [isBuf, Function.update_apply] at zero
    split at zero
    · exact absurd zero refcnt
    · exact ordered.idle x zero

omit [DecidableEq ι] in
/-- A buffer is recycled for a block that is not in the cache. -/
theorem Ordered.recycle (ordered : Ordered s list moved)
    (missing : ∀ x, (s.buf x).key ≠ v.key)
    (links : s'.links = s.links) (clock : s'.clock = s.clock) (released : s'.released = s.released)
    (isBuf : s'.buf = Function.update s.buf b v) (refcnt : v.refcnt ≠ 0) :
    Ordered s' list moved := by
  refine ⟨?_, ordered.all, ?_, ordered.recent, fun x => ?_, fun x zero => ?_⟩
  · rw [links]
    exact ordered.cycle
  · refine (ordered.first.and ordered.cycle.2).imp ?_
    rintro x y ⟨notActive, different⟩ same isActive
    rw [isBuf, Function.update_apply, Function.update_apply] at same
    rw [isBuf, Function.update_apply] at isActive
    by_cases isB : y = b
    · subst isB
      rw [if_neg different, if_pos rfl] at same
      exact missing x same
    · by_cases isB' : x = b
      · rw [if_pos isB', if_neg isB] at same
        exact missing y same.symm
      · rw [if_neg isB, if_neg isB'] at same
        rw [if_neg isB] at isActive
        exact notActive same isActive
  · rw [clock]
    exact ordered.past x
  · rw [released]
    rw [isBuf, Function.update_apply] at zero
    split at zero
    · exact absurd zero refcnt
    · exact ordered.idle x zero

omit [DecidableEq ι] in
/-- The buffer that `bget` recycles has moved to the front earlier than all others that it could recycle. -/
theorem Ordered.oldest (ordered : Ordered s list moved)
    (found : list.reverse.find? (fun b => (s.buf b).refcnt = 0 ∧ (s.buf b).dirty = false) = some b)
    (unused : (s.buf c).refcnt = 0) (clean : (s.buf c).dirty = false) : s.released b ≤ s.released c := by
  have test := List.find?_some found
  have isTest := of_decide_eq_true test
  rw [← ordered.idle b isTest.1, ← ordered.idle c unused]
  by_cases same : c = b
  · rw [same]
  · have behind := pairwise_find (List.nodup_reverse.2 ordered.cycle.2) found
    rw [List.pairwise_reverse] at behind
    rcases pairwise_or (ordered.recent.and behind) (ordered.all c) (ordered.all b) same with before | after
    · exact before.1
    · exact absurd ⟨unused, clean⟩ (of_decide_eq_false (after.2 rfl))

omit [DecidableEq ι] in
/-- A buffer that is referenced moves to the front. -/
theorem Ordered.front (ordered : Ordered s list moved) (used : (s.buf b).Active)
    (links : s'.links = (s.links.unlink b).insertFront b) (clock : s'.clock = s.clock + 1)
    (released : s'.released = Function.update s.released b (s.clock + 1))
    (isBuf : s'.buf = Function.update s.buf b v) (isKey : v.key = (s.buf b).key) :
    ∃ list', Ordered s' list' (Function.update moved b (s.clock + 1)) := by
  rcases List.append_of_mem (ordered.all b) with ⟨front, rest, rfl⟩
  have nodup := ordered.cycle.2
  have absent : b ∉ front ++ rest := by
    rw [List.nodup_middle, List.nodup_cons] at nodup
    exact nodup.1
  have sublist : (front ++ rest).Sublist (front ++ b :: rest) :=
    List.Sublist.append_left (List.sublist_cons_self b rest) front
  have keys : ∀ x, (s'.buf x).key = (s.buf x).key := by
    intro x
    rw [isBuf, Function.update_apply]
    split
    · rename_i isB
      rw [isB]
      exact isKey
    · rfl
  have others : ∀ x ∈ front ++ rest, x ≠ b ∧ s'.buf x = s.buf x := by
    intro x member
    have different : x ≠ b := fun same => absent (same ▸ member)
    refine ⟨different, ?_⟩
    rw [isBuf, Function.update_of_ne different]
  refine ⟨b :: (front ++ rest), ⟨?_, fun x => ?_, ?_, ?_, fun x => ?_, fun x zero => ?_⟩⟩
  · rw [links]
    exact ordered.cycle.unlink.insertFront absent
  · have member := ordered.all x
    rw [List.mem_append, List.mem_cons] at member
    rw [List.mem_cons, List.mem_append]
    tauto
  · refine List.pairwise_cons.2 ⟨fun y member same isActive => ?_, ?_⟩
    · rw [(others y member).2] at isActive
      rw [keys, keys] at same
      exact (others y member).1 (ordered.unique used isActive same).symm
    · refine (ordered.first.sublist sublist).imp_of_mem fun {x y} _ member notActive same isActive => ?_
      rw [(others y member).2] at isActive
      rw [keys, keys] at same
      exact notActive same isActive
  · refine List.pairwise_cons.2 ⟨fun y member => ?_, ?_⟩
    · have past := ordered.past y
      rw [Function.update_of_ne (others y member).1, Function.update_self]
      omega
    · refine (ordered.recent.sublist sublist).imp_of_mem fun {x y} first second earlier => ?_
      rw [Function.update_of_ne (others x first).1, Function.update_of_ne (others y second).1]
      exact earlier
  · have past := ordered.past x
    rw [clock, Function.update_apply]
    split <;> omega
  · rw [released, Function.update_apply, Function.update_apply]
    by_cases isB : x = b
    · rw [if_pos isB, if_pos isB]
    · rw [if_neg isB, if_neg isB]
      rw [isBuf, Function.update_of_ne isB] at zero
      exact ordered.idle x zero

/-! ## References -/

/-- Whether a process waits for a buffer, or is about to give its reference back. -/
def Doing.queued : Doing n → Fin n → Bool
  | .waiting c _ _, b => c = b
  | .releasing c, b => c = b
  | _, _ => false

variable [Fintype ι]

/-- The number of processes that wait for a buffer or are about to give their reference back. -/
def queue (doing : ι → Doing n) (b : Fin n) : ℕ := (Finset.univ.filter fun p => (doing p).queued b).card

/-- The number of processes that hold a buffer. -/
def holders (v : Buf ι δ) : ℕ := if v.lock = none then 0 else 1

theorem queue_update (doing : ι → Doing n) (p : ι) (d : Doing n) (b : Fin n) :
    queue (Function.update doing p d) b + (if (doing p).queued b then 1 else 0) =
      queue doing b + if d.queued b then 1 else 0 :=
  References.card_update doing (fun d => d.queued b = true) p d

omit [DecidableEq ι] in
theorem queue_pos {doing : ι → Doing n} (queued : (doing p).queued b = true) : 0 < queue doing b :=
  Finset.card_pos.2 ⟨p, Finset.mem_filter.2 ⟨Finset.mem_univ p, queued⟩⟩

/-- The bytes that a block has: those that were written last. -/
def current (disk : ℕ × ℕ → δ) (s : Bcache ι δ n) (key : ℕ × ℕ) : δ := (s.written key).getD (disk key)

/-- The order of the buffers, and the references to them. -/
structure Good (s : Bcache ι δ n) : Prop where
  ordered : ∃ list moved, Ordered s list moved
  users : ∀ b, (s.buf b).refcnt = holders (s.buf b) + queue s.doing b
  waiting : ∀ p b dev blockno, s.doing p = .waiting b dev blockno → (s.buf b).key = (dev, blockno)
  loading : ∀ p b dev blockno, s.doing p = .loading b dev blockno →
    (s.buf b).lock = some p ∧ (s.buf b).key = (dev, blockno)
  held : ∀ p b, (s.buf b).lock = some p → (∀ dev blockno, s.doing p ≠ .loading b dev blockno) →
    (s.buf b).valid = true

/-- Valid buffers have what was written last, and so has the disk unless a buffer is dirty. -/
structure Coherent (disk : ℕ × ℕ → δ) (s : Bcache ι δ n) : Prop where
  data : ∀ b, (s.buf b).valid = true → (s.buf b).data = current disk s (s.buf b).key
  disk : ∀ key, s.disk key ≠ current disk s key → ∃ b, (s.buf b).key = key ∧ (s.buf b).dirty = true
  dirty : ∀ b, (s.buf b).dirty = true → (s.buf b).valid = true

variable {disk : ℕ × ℕ → δ} {d : Doing n} {data : δ}

omit [DecidableEq ι] in
theorem Good.used_of_lock (good : Good s) (locked : (s.buf b).lock = some p) : 0 < (s.buf b).refcnt := by
  have isCount := good.users b
  unfold holders at isCount
  rw [locked, if_neg (Option.some_ne_none p)] at isCount
  omega

omit [DecidableEq ι] in
theorem Good.used_of_queued (good : Good s) (queued : (s.doing p).queued b = true) : 0 < (s.buf b).refcnt := by
  have isCount := good.users b
  have positive := queue_pos queued
  omega

omit [DecidableEq ι] in
theorem Good.unique (good : Good s) (first : (s.buf b).Active) (second : (s.buf c).Active)
    (same : (s.buf b).key = (s.buf c).key) : b = c := by
  rcases good.ordered with ⟨list, moved, ordered⟩
  exact ordered.unique first second same

/-- A step of the process `p` that changes the buffer `b`. -/
theorem Good.next (good : Good s) (ordered : ∃ list moved, Ordered s' list moved)
    (isBuf : s'.buf = Function.update s.buf b v) (isDoing : s'.doing = Function.update s.doing p d)
    (users : v.refcnt + (if (s.doing p).queued b then 1 else 0) + holders (s.buf b) =
      (s.buf b).refcnt + holders v + if d.queued b then 1 else 0)
    (others : ∀ x ≠ b, (s.doing p).queued x = d.queued x)
    (waiting : ∀ c dev blockno, d = .waiting c dev blockno → c = b ∧ v.key = (dev, blockno))
    (loading : ∀ c dev blockno, d = .loading c dev blockno → c = b ∧ v.lock = some p ∧ v.key = (dev, blockno))
    (stays : 0 < (s.buf b).refcnt → v.key = (s.buf b).key)
    (lock : ∀ q ≠ p, (s.buf b).lock = some q ↔ v.lock = some q)
    (valid : 0 < (s.buf b).refcnt → (s.buf b).valid = true → v.valid = true)
    (held : v.lock = some p → v.valid = true ∨ ∃ dev blockno, d = .loading b dev blockno)
    (loaded : ∀ c dev blockno, s.doing p = .loading c dev blockno → c = b) : Good s' := by
  refine ⟨ordered, fun x => ?_, fun q x dev blockno isWaiting => ?_, fun q x dev blockno isLoading => ?_,
    fun q x locked notLoading => ?_⟩
  · have count := queue_update s.doing p d x
    have old := good.users x
    rw [isBuf, isDoing]
    by_cases isB : x = b
    · subst isB
      rw [Function.update_self]
      omega
    · rw [Function.update_of_ne isB]
      rw [others x isB] at count
      omega
  · rw [isDoing] at isWaiting
    rw [isBuf]
    by_cases isP : q = p
    · rw [isP, Function.update_self] at isWaiting
      rcases waiting x dev blockno isWaiting with ⟨rfl, isKey⟩
      rw [Function.update_self]
      exact isKey
    · rw [Function.update_of_ne isP] at isWaiting
      have isKey := good.waiting q x dev blockno isWaiting
      by_cases isB : x = b
      · subst isB
        have queued : (s.doing q).queued x = true := by
          rw [isWaiting]
          exact decide_eq_true rfl
        rw [Function.update_self, stays (good.used_of_queued queued)]
        exact isKey
      · rw [Function.update_of_ne isB]
        exact isKey
  · rw [isDoing] at isLoading
    rw [isBuf]
    by_cases isP : q = p
    · rw [isP, Function.update_self] at isLoading
      rcases loading x dev blockno isLoading with ⟨rfl, both⟩
      rw [Function.update_self, isP]
      exact both
    · rw [Function.update_of_ne isP] at isLoading
      rcases good.loading q x dev blockno isLoading with ⟨locked, isKey⟩
      by_cases isB : x = b
      · subst isB
        rw [Function.update_self, stays (good.used_of_lock locked)]
        exact ⟨(lock q isP).1 locked, isKey⟩
      · rw [Function.update_of_ne isB]
        exact ⟨locked, isKey⟩
  · rw [isDoing] at notLoading
    rw [isBuf] at locked ⊢
    by_cases isB : x = b
    · subst isB
      rw [Function.update_self] at locked ⊢
      by_cases isP : q = p
      · rw [isP] at locked
        rcases held locked with isValid | ⟨dev, blockno, isLoading⟩
        · exact isValid
        · refine absurd ?_ (notLoading dev blockno)
          rw [isP, Function.update_self]
          exact isLoading
      · rw [Function.update_of_ne isP] at notLoading
        have locked' := (lock q isP).2 locked
        exact valid (good.used_of_lock locked') (good.held q x locked' notLoading)
    · rw [Function.update_of_ne isB] at locked ⊢
      refine good.held q x locked fun dev blockno isLoading => ?_
      by_cases isP : q = p
      · rw [isP] at isLoading
        exact isB (loaded x dev blockno isLoading)
      · refine notLoading dev blockno ?_
        rw [Function.update_of_ne isP]
        exact isLoading

omit [DecidableEq ι] [Fintype ι] in
/-- What was written, and the data of the buffers, stay. -/
theorem Coherent.keep (coherent : Coherent disk s) (isDisk : s'.disk = s.disk) (isWritten : s'.written = s.written)
    (isBuf : s'.buf = Function.update s.buf b v) (isKey : v.key = (s.buf b).key) (isValid : v.valid = (s.buf b).valid)
    (isDirty : v.dirty = (s.buf b).dirty) (isData : v.data = (s.buf b).data) : Coherent disk s' := by
  have fields : ∀ x, (s'.buf x).key = (s.buf x).key ∧ (s'.buf x).valid = (s.buf x).valid ∧
      (s'.buf x).dirty = (s.buf x).dirty ∧ (s'.buf x).data = (s.buf x).data := by
    intro x
    rw [isBuf, Function.update_apply]
    split
    · rename_i isB
      rw [isB]
      exact ⟨isKey, isValid, isDirty, isData⟩
    · exact ⟨rfl, rfl, rfl, rfl⟩
  have isCurrent : ∀ key, current disk s' key = current disk s key := by
    intro key
    unfold current
    rw [isWritten]
  refine ⟨fun x valid => ?_, fun key different => ?_, fun x isDirty => ?_⟩
  · rw [(fields x).2.1] at valid
    rw [isCurrent, (fields x).1, (fields x).2.2.2]
    exact coherent.data x valid
  · rw [isDisk, isCurrent] at different
    rcases coherent.disk key different with ⟨x, isKey, dirty⟩
    refine ⟨x, ?_, ?_⟩
    · rw [(fields x).1]
      exact isKey
    · rw [(fields x).2.2.1]
      exact dirty
  · rw [(fields x).2.2.1] at isDirty
    rw [(fields x).2.1]
    exact coherent.dirty x isDirty

omit [DecidableEq ι] [Fintype ι] in
/-- A clean buffer gets other contents; if it is valid, it has what was written last. -/
theorem Coherent.refill (coherent : Coherent disk s) (isDisk : s'.disk = s.disk) (isWritten : s'.written = s.written)
    (isBuf : s'.buf = Function.update s.buf b v) (wasClean : (s.buf b).dirty = false) (isClean : v.dirty = false)
    (isData : v.valid = true → v.data = current disk s v.key) : Coherent disk s' := by
  have isCurrent : ∀ key, current disk s' key = current disk s key := by
    intro key
    unfold current
    rw [isWritten]
  refine ⟨fun x valid => ?_, fun key different => ?_, fun x isDirty => ?_⟩
  · rw [isBuf] at valid ⊢
    rw [isCurrent]
    by_cases isB : x = b
    · rw [isB, Function.update_self] at valid ⊢
      exact isData valid
    · rw [Function.update_of_ne isB] at valid ⊢
      exact coherent.data x valid
  · rw [isDisk, isCurrent] at different
    rcases coherent.disk key different with ⟨x, isKey, isDirty⟩
    have isB : x ≠ b := by
      rintro rfl
      rw [wasClean] at isDirty
      exact Bool.false_ne_true isDirty
    refine ⟨x, ?_⟩
    rw [isBuf, Function.update_of_ne isB]
    exact ⟨isKey, isDirty⟩
  · rw [isBuf] at isDirty ⊢
    by_cases isB : x = b
    · rw [isB, Function.update_self, isClean] at isDirty
      exact absurd isDirty Bool.false_ne_true
    · rw [Function.update_of_ne isB] at isDirty ⊢
      exact coherent.dirty x isDirty

/-! ## The steps -/

omit [Fintype ι] in
/-- `bget` finds the block, or recycles a buffer. -/
theorem bget_cases (ordered : Ordered s list moved) (isGet : s.bget p dev blockno = some s') :
    (∃ b, list.find? (fun b => (s.buf b).dev = dev ∧ (s.buf b).blockno = blockno) = some b ∧
      s' = (s.setBuf b { s.buf b with refcnt := (s.buf b).refcnt + 1 }).setDoing p (.waiting b dev blockno)) ∨
    (∀ b, (s.buf b).key ≠ (dev, blockno)) ∧ ∃ b,
      list.reverse.find? (fun b => (s.buf b).refcnt = 0 ∧ (s.buf b).dirty = false) = some b ∧
      s' = (s.setBuf b { s.buf b with dev, blockno, valid := false, dirty := false, refcnt := 1 }).setDoing p
        (.waiting b dev blockno) := by
  unfold Bcache.bget at isGet
  rw [ordered.cycle.1.search _ _ ordered.length_lt, ordered.cycle.search_prev _ _ ordered.length_lt] at isGet
  split at isGet
  · rename_i b found
    exact .inl ⟨b, found, (Option.some.inj isGet).symm⟩
  · rename_i missing
    refine .inr ⟨fun b isKey => ?_, ?_⟩
    · have fails := List.find?_eq_none.1 missing b (ordered.all b)
      exact fails (decide_eq_true (Prod.ext_iff.1 isKey))
    · split at isGet
      · rename_i b found
        exact ⟨b, found, (Option.some.inj isGet).symm⟩
      · exact absurd isGet (Option.some_ne_none _).symm

theorem queued_other (different : c ≠ b) : decide (b = c) = false := decide_eq_false different.symm

/-- The section of `bget`. -/
theorem Good.bread (good : Good s) (coherent : Coherent disk s) (isIdle : s.doing p = .idle)
    (isGet : s.bget p dev blockno = some s') : Good s' ∧ Coherent disk s' := by
  rcases good.ordered with ⟨list, moved, ordered⟩
  have notLoading : ∀ {c dev blockno}, s.doing p ≠ .loading c dev blockno := by
    intro c dev blockno isLoading
    rw [isIdle] at isLoading
    nomatch isLoading
  have notQueued : ∀ x, (s.doing p).queued x = false := by
    intro x
    rw [isIdle]
    rfl
  rcases bget_cases ordered isGet with ⟨b, found, rfl⟩ | ⟨missing, b, found, rfl⟩
  · have test := List.find?_some found
    have isKey : (s.buf b).key = (dev, blockno) := Prod.ext_iff.2 (of_decide_eq_true test)
    have ordered' : Ordered ((s.setBuf b { s.buf b with refcnt := (s.buf b).refcnt + 1 }).setDoing p
        (.waiting b dev blockno)) list moved :=
      ordered.hit found rfl rfl rfl rfl rfl (Nat.succ_ne_zero _)
    refine ⟨good.next ⟨list, moved, ordered'⟩ rfl rfl ?_ (fun x different => ?_) (fun c dev' blockno' isWaiting => ?_)
      (fun _ _ _ isLoading => nomatch isLoading) (fun _ => rfl) (fun _ _ => Iff.rfl)
      (fun _ => id) (fun locked => .inl (good.held p b locked fun _ _ => notLoading))
      fun _ _ _ isLoading => absurd isLoading notLoading, coherent.keep rfl rfl rfl rfl rfl rfl rfl⟩
    · rw [notQueued b]
      unfold Doing.queued holders
      simp only [decide_true, if_true, Bool.false_eq_true, if_false]
      omega
    · rw [notQueued x]
      exact (queued_other different).symm
    · rw [Doing.waiting.injEq] at isWaiting
      rcases isWaiting with ⟨rfl, rfl, rfl⟩
      exact ⟨rfl, isKey⟩
  · have test := List.find?_some found
    have isFree := of_decide_eq_true test
    have missing' : ∀ x, (s.buf x).key ≠ ({ s.buf b with
      dev, blockno, valid := false, dirty := false, refcnt := 1 } : Buf ι δ).key := missing
    have ordered' : Ordered ((s.setBuf b { s.buf b with
        dev, blockno, valid := false, dirty := false, refcnt := 1 }).setDoing p (.waiting b dev blockno)) list moved :=
      ordered.recycle missing' rfl rfl rfl rfl Nat.one_ne_zero
    have unused : ¬0 < (s.buf b).refcnt := by
      rw [isFree.1]
      exact lt_irrefl 0
    refine ⟨good.next ⟨list, moved, ordered'⟩ rfl rfl ?_ (fun x different => ?_) (fun c dev' blockno' isWaiting => ?_)
      (fun _ _ _ isLoading => nomatch isLoading) (fun used => absurd used unused)
      (fun _ _ => Iff.rfl) (fun used => absurd used unused)
      (fun locked => absurd (good.used_of_lock locked) unused)
      (fun _ _ _ isLoading => absurd isLoading notLoading),
      coherent.refill rfl rfl rfl isFree.2 rfl fun valid => absurd valid Bool.false_ne_true⟩
    · rw [notQueued b, isFree.1]
      unfold Doing.queued holders
      simp only [decide_true, if_true, Bool.false_eq_true, if_false]
      omega
    · rw [notQueued x]
      exact (queued_other different).symm
    · rw [Doing.waiting.injEq] at isWaiting
      rcases isWaiting with ⟨rfl, rfl, rfl⟩
      exact ⟨rfl, rfl⟩

/-- A process gets the lock of a buffer. -/
theorem Good.acquire (good : Good s) (coherent : Coherent disk s) (isWaiting : s.doing p = .waiting b dev blockno)
    (isFree : (s.buf b).lock = none) (isS : s' = (s.setBuf b { s.buf b with lock := some p }).setDoing p
      (.loading b dev blockno)) : Good s' ∧ Coherent disk s' := by
  subst isS
  rcases good.ordered with ⟨list, moved, ordered⟩
  have ordered' : Ordered ((s.setBuf b { s.buf b with lock := some p }).setDoing p (.loading b dev blockno)) list
      moved := ordered.same rfl rfl rfl rfl rfl id rfl
  refine ⟨good.next ⟨list, moved, ordered'⟩ rfl rfl ?_ (fun x different => ?_)
    (fun _ _ _ isWaiting' => nomatch isWaiting') (fun c dev' blockno' isLoading => ?_)
    (fun _ => rfl) (fun q different => ?_) (fun _ => id) (fun _ => .inr ⟨dev, blockno, rfl⟩)
    (fun c dev' blockno' isLoading => ?_), coherent.keep rfl rfl rfl rfl rfl rfl rfl⟩
  · rw [isWaiting]
    unfold Doing.queued holders
    rw [isFree]
    simp
  · rw [isWaiting]
    exact queued_other different
  · rw [Doing.loading.injEq] at isLoading
    rcases isLoading with ⟨rfl, rfl, rfl⟩
    exact ⟨rfl, rfl, good.waiting p b dev blockno isWaiting⟩
  · rw [isFree]
    refine ⟨fun none => absurd none (Option.some_ne_none q).symm, fun isQ => ?_⟩
    exact absurd (Option.some.inj isQ).symm different
  · rw [isWaiting] at isLoading
    nomatch isLoading

/-- The rest of `bread`. -/
theorem Good.load (good : Good s) (coherent : Coherent disk s) (isLoading : s.doing p = .loading b dev blockno)
    (isS : s' = (if (s.buf b).valid then s else s.iderw b).setDoing p .idle) :
    (Good s' ∧ Coherent disk s') ∧ (s'.buf b).key = (dev, blockno) ∧
      (s'.buf b).data = current disk s (dev, blockno) ∧ (s'.buf b).lock = some p := by
  subst isS
  rcases good.ordered with ⟨list, moved, ordered⟩
  rcases good.loading p b dev blockno isLoading with ⟨locked, isKey⟩
  have used := good.used_of_lock locked
  have notQueued : ∀ x, (s.doing p).queued x = false := by
    intro x
    rw [isLoading]
    rfl
  have only : ∀ c dev' blockno', s.doing p = .loading c dev' blockno' → c = b := by
    intro c dev' blockno' isLoading'
    rw [isLoading, Doing.loading.injEq] at isLoading'
    exact isLoading'.1.symm
  by_cases isValid : (s.buf b).valid = true
  · have isSame : s.buf = Function.update s.buf b (s.buf b) := (Function.update_eq_self _ _).symm
    have ordered' : Ordered (s.setDoing p .idle) list moved := ordered.same rfl rfl rfl isSame rfl id rfl
    rw [if_pos isValid]
    refine ⟨⟨good.next ⟨list, moved, ordered'⟩ isSame rfl ?_ (fun x _ => notQueued x)
      (fun _ _ _ isWaiting => nomatch isWaiting)
      (fun _ _ _ isLoading' => nomatch isLoading') (fun _ => rfl) (fun _ _ => Iff.rfl)
      (fun _ => id) (fun _ => .inl isValid) only, coherent.keep rfl rfl isSame rfl rfl rfl rfl⟩, isKey, ?_, locked⟩
    · rw [notQueued b]
      rfl
    · rw [← isKey]
      exact coherent.data b isValid
  · have isClean : (s.buf b).dirty = false := by
      rw [← Bool.not_eq_true]
      exact fun isDirty => isValid (coherent.dirty b isDirty)
    -- no other buffer has the block, so the disk has what was written last
    have isDisk : s.disk (s.buf b).key = current disk s (s.buf b).key := by
      by_contra different
      rcases coherent.disk _ different with ⟨c, same, isDirty⟩
      have isB := good.unique (.inr (coherent.dirty c isDirty)) (.inl used) same
      rw [isB, isClean] at isDirty
      exact Bool.false_ne_true isDirty
    have isCode : s.iderw b = s.setBuf b { s.buf b with data := s.disk (s.buf b).key, valid := true } := by
      unfold Bcache.iderw
      rw [isClean]
      rfl
    rw [if_neg isValid, isCode]
    have ordered' : Ordered ((s.setBuf b { s.buf b with data := s.disk (s.buf b).key, valid := true }).setDoing p .idle)
        list moved := ordered.same rfl rfl rfl rfl rfl (fun _ => .inl used) rfl
    refine ⟨⟨good.next ⟨list, moved, ordered'⟩ rfl rfl ?_ (fun x _ => notQueued x)
      (fun _ _ _ isWaiting => nomatch isWaiting)
      (fun _ _ _ isLoading' => nomatch isLoading') (fun _ => rfl) (fun _ _ => Iff.rfl)
      (fun _ _ => rfl) (fun _ => .inl rfl) only, coherent.refill rfl rfl rfl isClean isClean fun _ => isDisk⟩,
      ?_, ?_, ?_⟩
    · rw [notQueued b]
      rfl
    · change (Function.update s.buf b _ b).key = _
      rw [Function.update_self]
      exact isKey
    · change (Function.update s.buf b _ b).data = _
      rw [Function.update_self, ← isKey]
      exact isDisk
    · change (Function.update s.buf b _ b).lock = _
      rw [Function.update_self]
      exact locked

omit [DecidableEq ι] [Fintype ι] in
theorem bwrite_eq (s : Bcache ι δ n) (b : Fin n) (data : δ) : (s.change b data).iderw b =
    { s.setBuf b { s.buf b with data, dirty := false, valid := true } with
      disk := Function.update s.disk (s.buf b).key data
      written := Function.update s.written (s.buf b).key (some data) } := by
  have self : (s.change b data).buf b = { s.buf b with data, dirty := true } := Function.update_self _ _ _
  have isDirty : ((s.change b data).buf b).dirty = true := by rw [self]
  unfold Bcache.iderw
  rw [if_pos isDirty, self]
  unfold Bcache.change Bcache.setBuf
  dsimp only
  rw [Function.update_idem]
  rfl

omit [DecidableEq ι] in
/-- The holder of a buffer writes it, to the disk too or not. -/
theorem Coherent.change (coherent : Coherent disk s) (good : Good s) (locked : (s.buf b).lock = some p)
    (isBuf : s'.buf = Function.update s.buf b v) (isKey : v.key = (s.buf b).key) (isData : v.data = data)
    (isValid : v.valid = true) (isWritten : s'.written = Function.update s.written (s.buf b).key (some data))
    (isDisk : (s'.disk = s.disk ∧ v.dirty = true) ∨ s'.disk = Function.update s.disk (s.buf b).key data) :
    Coherent disk s' := by
  have used := good.used_of_lock locked
  have isCurrent : ∀ key, current disk s' key = if key = (s.buf b).key then data else current disk s key := by
    intro key
    unfold current
    rw [isWritten, Function.update_apply]
    split
    · rfl
    · rfl
  refine ⟨fun x valid => ?_, fun key different => ?_, fun x isDirty => ?_⟩
  · rw [isCurrent]
    rw [isBuf] at valid ⊢
    by_cases isB : x = b
    · rw [isB, Function.update_self, isKey, if_pos rfl]
      exact isData
    · rw [Function.update_of_ne isB] at valid ⊢
      rw [if_neg fun same => isB (good.unique (.inr valid) (.inl used) same)]
      exact coherent.data x valid
  · rw [isCurrent] at different
    by_cases isThis : key = (s.buf b).key
    · rw [if_pos isThis] at different
      rcases isDisk with ⟨_, isDirty⟩ | isDisk
      · refine ⟨b, ?_⟩
        rw [isBuf, Function.update_self]
        exact ⟨isKey.trans isThis.symm, isDirty⟩
      · rw [isDisk, isThis, Function.update_self] at different
        exact absurd rfl different
    · rw [if_neg isThis] at different
      have isOld : s'.disk key = s.disk key := by
        rcases isDisk with ⟨isDisk, _⟩ | isDisk
        · rw [isDisk]
        · rw [isDisk, Function.update_of_ne isThis]
      rw [isOld] at different
      rcases coherent.disk key different with ⟨x, isKey', isDirty⟩
      have isB : x ≠ b := by
        rintro rfl
        exact isThis isKey'.symm
      refine ⟨x, ?_⟩
      rw [isBuf, Function.update_of_ne isB]
      exact ⟨isKey', isDirty⟩
  · rw [isBuf] at isDirty ⊢
    by_cases isB : x = b
    · rw [isB, Function.update_self]
      exact isValid
    · rw [Function.update_of_ne isB] at isDirty ⊢
      exact coherent.dirty x isDirty

/-- What the holder of a buffer does to its data does not concern the others. -/
theorem Good.change (good : Good s) (isIdle : s.doing p = .idle) (locked : (s.buf b).lock = some p)
    (links : s'.links = s.links) (clock : s'.clock = s.clock) (released : s'.released = s.released)
    (isDoing : s'.doing = s.doing) (isBuf : s'.buf = Function.update s.buf b v) (isKey : v.key = (s.buf b).key)
    (refcnt : v.refcnt = (s.buf b).refcnt) (lock : v.lock = (s.buf b).lock) (isValid : v.valid = true) : Good s' := by
  rcases good.ordered with ⟨list, moved, ordered⟩
  have used := good.used_of_lock locked
  have ordered' := ordered.same links clock released isBuf isKey (fun _ => .inl used) refcnt
  have isSame : s'.doing = Function.update s.doing p .idle := by
    rw [isDoing, ← isIdle, Function.update_eq_self]
  refine good.next ⟨list, moved, ordered'⟩ isBuf isSame ?_ (fun x _ => ?_) (fun _ _ _ isWaiting => nomatch isWaiting)
    (fun _ _ _ isLoading => nomatch isLoading) (fun _ => isKey) (fun q _ => ?_) (fun _ _ => isValid)
    (fun _ => .inl isValid) fun c dev' blockno' isLoading => ?_
  · unfold holders
    rw [isIdle, refcnt, lock]
    exact Nat.add_right_comm _ _ _
  · rw [isIdle]
  · rw [lock]
  · rw [isIdle] at isLoading
    nomatch isLoading

/-- `releasesleep` in `brelse` -/
theorem Good.release (good : Good s) (coherent : Coherent disk s) (isIdle : s.doing p = .idle)
    (locked : (s.buf b).lock = some p)
    (isS : s' = (s.setBuf b { s.buf b with lock := none }).setDoing p (.releasing b)) :
    Good s' ∧ Coherent disk s' := by
  subst isS
  rcases good.ordered with ⟨list, moved, ordered⟩
  have ordered' : Ordered ((s.setBuf b { s.buf b with lock := none }).setDoing p (.releasing b)) list moved :=
    ordered.same rfl rfl rfl rfl rfl id rfl
  refine ⟨good.next ⟨list, moved, ordered'⟩ rfl rfl ?_ (fun x different => ?_)
    (fun _ _ _ isWaiting => nomatch isWaiting) (fun _ _ _ isLoading => nomatch isLoading) (fun _ => rfl)
    (fun q different => ?_) (fun _ => id) (fun none => absurd none (Option.some_ne_none p).symm)
    (fun c dev' blockno' isLoading => ?_), coherent.keep rfl rfl rfl rfl rfl rfl rfl⟩
  · rw [isIdle]
    unfold Doing.queued holders
    rw [locked]
    simp
  · rw [isIdle]
    exact (queued_other different).symm
  · rw [locked]
    refine ⟨fun isQ => absurd (Option.some.inj isQ).symm different, fun none => ?_⟩
    exact absurd none (Option.some_ne_none q).symm
  · rw [isIdle] at isLoading
    nomatch isLoading

/-- The section of `brelse`. -/
theorem Good.brelse (good : Good s) (coherent : Coherent disk s) (isReleasing : s.doing p = .releasing b)
    (isS : s' = (s.brelse b).setDoing p .idle) : Good s' ∧ Coherent disk s' := by
  rcases good.ordered with ⟨list, moved, ordered⟩
  have queued : (s.doing p).queued b = true := by
    rw [isReleasing]
    exact decide_eq_true rfl
  have used := good.used_of_queued queued
  have isBuf : s'.buf = Function.update s.buf b { s.buf b with refcnt := (s.buf b).refcnt - 1 } := by
    rw [isS]
    unfold Bcache.brelse
    dsimp only
    split
    · rfl
    · rfl
  have rest : s'.doing = Function.update s.doing p .idle ∧ s'.disk = s.disk ∧ s'.written = s.written ∧
      s'.clock = s.clock + 1 ∧ s'.released = Function.update s.released b (s.clock + 1) := by
    rw [isS]
    unfold Bcache.brelse
    dsimp only
    split
    · exact ⟨rfl, rfl, rfl, rfl, rfl⟩
    · exact ⟨rfl, rfl, rfl, rfl, rfl⟩
  rcases rest with ⟨isDoing, isDisk, isWritten, isClock, isReleased⟩
  have isLinks : s'.links =
      if (s.buf b).refcnt - 1 = 0 then (s.links.unlink b).insertFront b else s.links := by
    rw [isS]
    unfold Bcache.brelse Bcache.setBuf
    simp only [Function.update_self]
    split
    · rfl
    · rfl
  have ordered' : ∃ list' moved', Ordered s' list' moved' := by
    by_cases last : (s.buf b).refcnt - 1 = 0
    · rw [if_pos last] at isLinks
      rcases ordered.front (.inl used) isLinks isClock isReleased isBuf rfl with ⟨list', inFront⟩
      exact ⟨list', _, inFront⟩
    · rw [if_neg last] at isLinks
      refine ⟨list, moved, ordered.keep isLinks (isClock ▸ Nat.le_succ _) isBuf rfl (fun _ => .inl used)
        fun x zero => ?_⟩
      have different : x ≠ b := by
        rintro rfl
        rw [isBuf, Function.update_self] at zero
        exact last zero
      rw [isBuf, Function.update_of_ne different] at zero
      rw [isReleased, Function.update_of_ne different]
      exact ⟨zero, rfl⟩
  refine ⟨good.next ordered' isBuf isDoing ?_ (fun x different => ?_) (fun _ _ _ isWaiting => nomatch isWaiting)
    (fun _ _ _ isLoading => nomatch isLoading) (fun _ => rfl) (fun _ _ => Iff.rfl) (fun _ => id) (fun locked => ?_)
    (fun c dev' blockno' isLoading => ?_), coherent.keep isDisk isWritten isBuf rfl rfl rfl rfl⟩
  · rw [queued]
    unfold Doing.queued holders
    simp only [if_true, Bool.false_eq_true, if_false]
    omega
  · rw [isReleasing]
    exact queued_other different
  · refine .inl (good.held p b locked fun dev blockno isLoading => ?_)
    rw [isReleasing] at isLoading
    nomatch isLoading
  · rw [isReleasing] at isLoading
    nomatch isLoading

/-- Every step keeps the order, the references and the data. -/
theorem Good.step (good : Good s) (coherent : Coherent disk s) {access : Access ι δ n}
    (isStep : s.step access = some s') : Good s' ∧ Coherent disk s' := by
  unfold Bcache.step at isStep
  cases access with
  | bread p dev blockno =>
      dsimp only at isStep
      split at isStep
      · rename_i isIdle
        exact good.bread coherent isIdle isStep
      · nomatch isStep
  | acquire p =>
      dsimp only at isStep
      split at isStep
      · rename_i b dev blockno isWaiting
        split at isStep
        · rename_i isFree
          exact good.acquire coherent isWaiting isFree (Option.some.inj isStep).symm
        · nomatch isStep
      · nomatch isStep
  | load p =>
      dsimp only at isStep
      split at isStep
      · rename_i b dev blockno isLoading
        exact (good.load coherent isLoading (Option.some.inj isStep).symm).1
      · nomatch isStep
  | bwrite p b data =>
      dsimp only at isStep
      split at isStep
      · rename_i isIdle
        split at isStep
        · rename_i locked
          rw [bwrite_eq] at isStep
          have isS := Option.some.inj isStep
          subst isS
          exact ⟨good.change isIdle locked rfl rfl rfl rfl rfl rfl rfl rfl rfl,
            coherent.change good locked rfl rfl rfl rfl rfl (.inr rfl)⟩
        · nomatch isStep
      · nomatch isStep
  | logWrite p b data =>
      dsimp only at isStep
      split at isStep
      · rename_i isIdle
        split at isStep
        · rename_i locked
          have isValid : (s.buf b).valid = true := good.held p b locked fun dev blockno isLoading => by
            rw [isIdle] at isLoading
            nomatch isLoading
          have isS := Option.some.inj isStep
          subst isS
          exact ⟨good.change isIdle locked rfl rfl rfl rfl rfl rfl rfl rfl isValid,
            coherent.change good locked rfl rfl rfl isValid rfl (.inl ⟨rfl, rfl⟩)⟩
        · nomatch isStep
      · nomatch isStep
  | release p b =>
      dsimp only at isStep
      split at isStep
      · rename_i isIdle
        split at isStep
        · rename_i locked
          exact good.release coherent isIdle locked (Option.some.inj isStep).symm
        · nomatch isStep
      · nomatch isStep
  | brelse p =>
      dsimp only at isStep
      split at isStep
      · rename_i b isReleasing
        exact good.brelse coherent isReleasing (Option.some.inj isStep).symm
      · nomatch isStep

/-! ## Runs -/

omit [DecidableEq ι] in
theorem good_binit (zero : δ) (disk : ℕ × ℕ → δ) :
    Good (Bcache.binit zero disk : Bcache ι δ n) ∧ Coherent disk (Bcache.binit zero disk : Bcache ι δ n) := by
  have nodup : ((List.finRange n).reverse ++ []).Nodup := by
    rw [List.append_nil, List.nodup_reverse]
    exact List.nodup_finRange n
  have cycle := Links.cycle_empty.insertAll (List.finRange n) nodup
  have notActive : ∀ b, ¬((Bcache.binit zero disk : Bcache ι δ n).buf b).Active := by
    rintro b (used | valid)
    · exact lt_irrefl 0 used
    · exact Bool.false_ne_true valid
  refine ⟨⟨⟨_, fun _ => 0, cycle, fun b => ?_, ?_, ?_, fun _ => le_rfl, fun _ _ => rfl⟩, fun b => ?_,
    (fun _ _ _ _ isWaiting => nomatch isWaiting), (fun _ _ _ _ isLoading => nomatch isLoading),
    (fun _ _ locked => nomatch locked)⟩, (fun b valid => nomatch valid), fun key different => absurd rfl different,
    (fun b isDirty => nomatch isDirty)⟩
  · rw [List.append_nil, List.mem_reverse]
    exact List.mem_finRange b
  · exact List.pairwise_of_forall_mem_list fun _ _ y _ _ => notActive y
  · exact List.pairwise_of_forall_mem_list fun _ _ _ _ => le_rfl
  · unfold holders queue
    simp [Bcache.binit, Doing.queued]

/-- What holds of the buffer cache in every state. -/
structure CacheLaw (disk : ℕ × ℕ → δ) (s : Bcache ι δ n) : Prop where
  cycle : ∃ list, s.links.Cycle list ∧ ∀ b, b ∈ list
  unique : ∀ b c, (s.buf b).Active → (s.buf c).Active → (s.buf b).key = (s.buf c).key → b = c
  refcnt : ∀ b, (s.buf b).refcnt = holders (s.buf b) + queue s.doing b
  stays : ∀ access s', s.step access = some s' → ∀ b, 0 < (s.buf b).refcnt ∨ (s.buf b).dirty = true →
    (s'.buf b).key = (s.buf b).key
  oldest : ∀ p dev blockno s' b, s.step (.bread p dev blockno) = some s' → s'.doing p = .waiting b dev blockno →
    (s.buf b).key ≠ (dev, blockno) → (s.buf b).refcnt = 0 ∧ (s.buf b).dirty = false ∧
      ∀ c, (s.buf c).refcnt = 0 → (s.buf c).dirty = false → s.released b ≤ s.released c
  returns : ∀ p b dev blockno s', s.doing p = .loading b dev blockno → s.step (.load p) = some s' →
    (s'.buf b).lock = some p ∧ (s'.buf b).key = (dev, blockno) ∧ (s'.buf b).data = current disk s (dev, blockno)
  holds : ∀ p b, (s.buf b).lock = some p → (∀ dev blockno, s.doing p ≠ .loading b dev blockno) →
    (s.buf b).data = current disk s (s.buf b).key

omit [Fintype ι] in
/-- Only `bget` gives a buffer to another block. -/
theorem key_stays (ordered : Ordered s list moved) {access : Access ι δ n} (isStep : s.step access = some s')
    (used : 0 < (s.buf b).refcnt ∨ (s.buf b).dirty = true) : (s'.buf b).key = (s.buf b).key := by
  have same : ∀ {c : Fin n} {v : Buf ι δ}, v.key = (s.buf c).key →
      (Function.update s.buf c v b).key = (s.buf b).key := by
    intro c v isKey
    rw [Function.update_apply]
    split
    · rename_i isC
      rw [isC]
      exact isKey
    · rfl
  unfold Bcache.step at isStep
  cases access with
  | bread p dev blockno =>
      dsimp only at isStep
      split at isStep
      · rcases bget_cases ordered isStep with ⟨c, found, rfl⟩ | ⟨missing, c, found, rfl⟩
        · exact same rfl
        · have test := List.find?_some found
          have isFree := of_decide_eq_true test
          have different : b ≠ c := by
            rintro rfl
            rw [isFree.1, isFree.2] at used
            rcases used with used | used
            · exact lt_irrefl 0 used
            · exact Bool.false_ne_true used
          exact congrArg Buf.key (Function.update_of_ne different _ _)
      · nomatch isStep
  | acquire p =>
      dsimp only at isStep
      split at isStep
      · split at isStep
        · rw [← Option.some.inj isStep]
          exact same rfl
        · nomatch isStep
      · nomatch isStep
  | load p =>
      dsimp only at isStep
      split at isStep
      · rw [← Option.some.inj isStep]
        unfold Bcache.iderw
        split
        · rfl
        · split
          · exact same rfl
          · exact same rfl
      · nomatch isStep
  | bwrite p c data =>
      dsimp only at isStep
      split at isStep
      · split at isStep
        · rw [bwrite_eq] at isStep
          rw [← Option.some.inj isStep]
          exact same rfl
        · nomatch isStep
      · nomatch isStep
  | logWrite p c data =>
      dsimp only at isStep
      split at isStep
      · split at isStep
        · rw [← Option.some.inj isStep]
          exact same rfl
        · nomatch isStep
      · nomatch isStep
  | release p c =>
      dsimp only at isStep
      split at isStep
      · split at isStep
        · rw [← Option.some.inj isStep]
          exact same rfl
        · nomatch isStep
      · nomatch isStep
  | brelse p =>
      dsimp only at isStep
      split at isStep
      · rw [← Option.some.inj isStep]
        unfold Bcache.brelse
        dsimp only
        split
        · exact same rfl
        · exact same rfl
      · nomatch isStep

theorem Good.law (good : Good s) (coherent : Coherent disk s) : CacheLaw disk s := by
  rcases good.ordered with ⟨list, moved, ordered⟩
  refine ⟨⟨list, ordered.cycle, ordered.all⟩, fun b c => ordered.unique, good.users,
    fun access s' isStep b used => key_stays ordered isStep used,
    fun p dev blockno s' b isStep isWaiting other => ?_, fun p b dev blockno s' isLoading isStep => ?_,
    fun p b locked notLoading => coherent.data b (good.held p b locked notLoading)⟩
  · unfold Bcache.step at isStep
    dsimp only at isStep
    split at isStep
    · rcases bget_cases ordered isStep with ⟨c, found, rfl⟩ | ⟨missing, c, found, rfl⟩
      · have isC : c = b := by
          change Function.update s.doing p _ p = _ at isWaiting
          rw [Function.update_self, Doing.waiting.injEq] at isWaiting
          exact isWaiting.1
        have test := List.find?_some found
        rw [isC] at test
        exact absurd (Prod.ext_iff.2 (of_decide_eq_true test)) other
      · have isC : c = b := by
          change Function.update s.doing p _ p = _ at isWaiting
          rw [Function.update_self, Doing.waiting.injEq] at isWaiting
          exact isWaiting.1
        have test := List.find?_some found
        rw [isC] at test found
        have isFree := of_decide_eq_true test
        exact ⟨isFree.1, isFree.2, fun c unused clean => ordered.oldest found unused clean⟩
    · nomatch isStep
  · unfold Bcache.step at isStep
    dsimp only at isStep
    rw [isLoading] at isStep
    rcases good.load coherent isLoading (Option.some.inj isStep).symm with ⟨_, isKey, isData, locked⟩
    exact ⟨locked, isKey, isData⟩

/-- The buffer cache, for any number of processes and buffers and every run after `binit`. -/
theorem buffer_cache (zero : δ) (disk : ℕ × ℕ → δ) (s : Bcache ι δ n)
    (reach : Reachable (fun s access s' => s.step access = some s') (fun _ _ => True)
      (Bcache.binit zero disk) s) : CacheLaw disk s := by
  have both : Good s ∧ Coherent disk s :=
    Reachable.invariant reach (fun s => Good s ∧ Coherent disk s) (good_binit zero disk)
      fun _ inv _ isStep => inv.1.step inv.2 isStep
  exact both.1.law both.2

omit [Fintype ι] in
theorem reach_of_accesses {start : Bcache ι δ n} (accesses : List (Access ι δ n)) :
    ∀ {s s' : Bcache ι δ n},
      Reachable (fun s access s' => s.step access = some s') (fun _ _ => True) start s →
      accesses.foldlM (fun (s : Bcache ι δ n) access => s.step access) s = some s' →
        Reachable (fun s access s' => s.step access = some s') (fun _ _ => True) start s' := by
  induction accesses with
  | nil =>
      intro s s' reach run
      cases run
      exact reach
  | cons access accesses ih =>
      intro s s' reach run
      rw [List.foldlM_cons] at run
      rcases Option.bind_eq_some_iff.1 run with ⟨t, first, rest⟩
      exact ih (reach.next trivial first) rest

/-- With two buffers, block 5 is written and released, its buffer is taken for block 7, and then it is
read again, into the other buffer. -/
def recycling : List (Access (Fin 2) ℕ 2) :=
  [.bread 0 1 5, .acquire 0, .load 0, .bwrite 0 0 9, .release 0 0, .brelse 0, .bread 0 1 6, .acquire 0,
    .load 0, .bread 1 1 7, .acquire 1, .load 1, .release 0 1, .brelse 0, .bread 0 1 5, .acquire 0, .load 0]

theorem buffer_cache_recycling : ∃ s : Bcache (Fin 2) ℕ 2,
    Reachable (fun s access s' => s.step access = some s') (fun _ _ => True) (Bcache.binit 0 fun _ => 7) s ∧
    (s.buf 0).key = (1, 7) ∧ (s.buf 1).key = (1, 5) ∧ (s.buf 1).data = 9 ∧ CacheLaw (fun _ => 7) s := by
  have isRun : (recycling.foldlM (fun (s : Bcache (Fin 2) ℕ 2) access => s.step access)
      (Bcache.binit 0 fun _ => 7)).map (fun s => ((s.buf 0).key, (s.buf 1).key, (s.buf 1).data)) =
        some ((1, 7), (1, 5), 9) := by decide +kernel
  rcases Option.map_eq_some_iff.1 isRun with ⟨s, run, result⟩
  have reach := reach_of_accesses recycling .refl run
  have first := congrArg Prod.fst result
  have second := congrArg Prod.snd result
  exact ⟨s, reach, first, congrArg Prod.fst second, congrArg Prod.snd second, buffer_cache 0 (fun _ => 7) s reach⟩

end Xv6.Fs
