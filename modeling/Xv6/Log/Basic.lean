import Xv6.Lib.RedoLog
import Xv6.Lib.Transition

/-!
# The log

The functions of `log.c`, with the buffer cache under them and the operations that use them. A step
goes up to the next disk write or the next point at which `log.lock` is released; the first tests
of `log_write` come before `log.lock` is taken and are a step of their own. `bwrite` is atomic, and
a crash can come between any two steps: it leaves the disk and nothing else.

A block is a function from word numbers, `log.lh` is the list of its first `n` block numbers. The
fields after `logging` are history: the steps write to them and no step reads them.
-/

namespace Xv6.Log

/-- `MAXOPBLOCKS` -/
abbrev maxopblocks : ℕ := 10

/-- `LOGSIZE` -/
abbrev logsize : ℕ := maxopblocks * 3

/-- The words of a disk block. -/
abbrev Block := ℕ → ℕ

/-- The fields of `struct log` that `initlog` sets. The first block is the header. -/
structure Layout where
  start : ℕ
  size : ℕ
  header : 0 < size

/-- A block that is not a part of the log. -/
def Layout.Home (log : Layout) (b : ℕ) : Prop := b < log.start ∨ log.start + log.size ≤ b

instance (log : Layout) (b : ℕ) : Decidable (log.Home b) :=
  inferInstanceAs (Decidable (b < log.start ∨ log.start + log.size ≤ b))

/-- A buffer that holds other data than its disk block, or has been written through. -/
structure Buf where
  data : Block
  /-- `B_DIRTY` -/
  dirty : Bool

/-- The next disk write of `commit` or `recover_from_log`. -/
inductive Phase where
  | ready
  | readHead
  | writeLog (tail : ℕ)
  | writeHead
  | installTrans (tail : ℕ)
  | eraseHead
  /-- the last critical section of `end_op`, or the end of `initlog` -/
  | done
  deriving DecidableEq

/-- A change that an operation has passed to `log_write`. -/
structure Write where
  op : ℕ
  blockno : ℕ
  data : Block

structure State where
  disk : ℕ → Block
  cache : ℕ → Option Buf := fun _ => none
  /-- `log.lh` -/
  lh : List ℕ := []
  outstanding : ℕ := 0
  committing : Bool := false
  phase : Phase := .readHead
  /-- in `initlog` -/
  booting : Bool := true
  /-- the operations between `begin_op` and `end_op` -/
  running : List ℕ := []
  /-- the block whose buffer an operation holds between the tests of `log_write` and its end -/
  logging : ℕ → Option ℕ := fun _ => none
  /-- the number of operations so far -/
  begun : ℕ := 0
  /-- the operations that `begin_op` has admitted since the last commit -/
  admitted : List ℕ := []
  /-- the blocks that an operation has passed to `log_write` -/
  logged : ℕ → List ℕ := fun _ => []
  /-- the changes since the last commit -/
  group : List Write := []
  /-- the groups of changes whose header has been written -/
  groups : List (List Write) := []
  /-- the groups of changes that a crash has undone -/
  lost : List (List Write) := []

/-- The panics of `log.c`. -/
inductive Fault where
  | tooBig
  | outsideOfTrans
  | committing
  deriving DecidableEq, Repr

/-- `bread` -/
def State.read (s : State) (b : ℕ) : Block :=
  match s.cache b with
  | some buf => buf.data
  | none => s.disk b

/-- The content of a buffer changes. -/
def State.modify (s : State) (b : ℕ) (data : Block) (dirty : Bool) : State :=
  { s with cache := Function.update s.cache b (some { data, dirty }) }

def State.dirty (s : State) (b : ℕ) : Bool := ((s.cache b).map Buf.dirty).getD false

/-- `bwrite` of a buffer with new data. -/
def State.bwrite (s : State) (b : ℕ) (data : Block) : State :=
  { s.modify b data false with disk := Function.update s.disk b data }

/-- The header block after `hb->n` and `hb->block` have been set. -/
def encode (lh : List ℕ) (hb : Block) : Block := fun i =>
  match i with
  | 0 => lh.length
  | i + 1 => lh.getD i (hb (i + 1))

/-- What `read_head` takes from the header block. -/
def decode (hb : Block) : List ℕ := (List.range (hb 0)).map fun i => hb (i + 1)

section

variable (log : Layout) (s : State)

/-- A pass of the loop of `begin_op`; there is no step if the process has to sleep. -/
def beginOp : Option State :=
  if s.committing then none
  else if s.lh.length + (s.outstanding + 1) * maxopblocks > logsize then none
  else some { s with
    outstanding := s.outstanding + 1, running := s.begun :: s.running, begun := s.begun + 1
    admitted := s.begun :: s.admitted }

/-- The operation has locked and changed a buffer, and `log_write` makes its first tests. -/
def logWriteTest (o b : ℕ) (data : Block) : Except Fault State :=
  if s.lh.length ≥ logsize ∨ s.lh.length ≥ log.size - 1 then .error .tooBig
  else if s.outstanding < 1 then .error .outsideOfTrans
  else .ok { s.modify b data (s.dirty b) with
    logging := Function.update s.logging o (some b)
    logged := Function.update s.logged o (b :: s.logged o) }

/-- The critical section of `log_write`. -/
def logWrite (o b : ℕ) : State :=
  { s.modify b (s.read b) true with
    lh := if b ∈ s.lh then s.lh else s.lh ++ [b]  -- log absorption
    logging := Function.update s.logging o none
    group := s.group ++ [{ op := o, blockno := b, data := s.read b }] }

/-- The first critical section of `end_op`. With an empty log `commit` does nothing. -/
def endOp (o : ℕ) : Except Fault State :=
  let outstanding := s.outstanding - 1
  if s.committing then .error .committing
  else if outstanding = 0 then .ok { s with
    outstanding, running := s.running.erase o, committing := true
    phase := if s.lh = [] then .done else .writeLog 0 }
  else .ok { s with outstanding, running := s.running.erase o }

/-- A pass of the loop of `write_log`. -/
def writeLog (tail : ℕ) : State :=
  { s.bwrite (log.start + tail + 1) (s.read (s.lh.getD tail 0)) with
    phase := if tail + 1 < s.lh.length then .writeLog (tail + 1) else .writeHead }

/-- `write_head` in `commit`, which commits the changes. -/
def writeHead : State :=
  { s.bwrite log.start (encode s.lh (s.read log.start)) with
    phase := .installTrans 0, groups := s.groups ++ [s.group], group := [] }

/-- A pass of the loop of `install_trans`. -/
def installTrans (tail : ℕ) : State :=
  { s.bwrite (s.lh.getD tail 0) (s.read (log.start + tail + 1)) with
    phase := if tail + 1 < s.lh.length then .installTrans (tail + 1) else .eraseHead }

/-- `log.lh.n = 0` and the `write_head` after it. -/
def eraseHead : State :=
  { s.bwrite log.start (encode [] (s.read log.start)) with lh := [], phase := .done }

/-- `read_head` -/
def readHead : State :=
  let lh := decode (s.read log.start)
  { s with lh, phase := if lh = [] then .eraseHead else .installTrans 0 }

/-- The last critical section of `end_op`, or the end of `initlog`. -/
def finish : State :=
  { s with committing := false, booting := false, phase := .ready, admitted := [] }

/-- The process in `commit` or in `recover_from_log` goes on. -/
def proceed : Option State :=
  match s.phase with
  | .ready => none
  | .readHead => some (readHead log s)
  | .writeLog tail => some (writeLog log s tail)
  | .writeHead => some (writeHead log s)
  | .installTrans tail => some (installTrans log s tail)
  | .eraseHead => some (eraseHead log s)
  | .done => some (finish s)

/-- A crash, after which the machine boots. -/
def crash : State :=
  { disk := s.disk, begun := s.begun, logged := s.logged, groups := s.groups,
    lost := s.lost ++ [s.group] }

end

/-- What happens next. -/
inductive Event where
  | beginOp
  /-- an operation that holds no other buffer in `log_write` calls it for a block -/
  | logWriteTest (o b : ℕ) (data : Block)
  | logWrite (o : ℕ)
  | endOp (o : ℕ)
  | proceed
  /-- `bget` takes a buffer that is not in use for another block -/
  | recycle (b : ℕ)
  | crash

/-- A step of the machine, if the event can happen. -/
def step (log : Layout) (s : State) : Event → Option (Except Fault State)
  | .beginOp => if s.booting then none else (beginOp s).map .ok
  | .logWriteTest o b data =>
      if o ∈ s.running ∧ s.logging o = none ∧ ∀ o' ∈ s.running, s.logging o' ≠ some b then
        some (logWriteTest log s o b data)
      else none
  | .logWrite o => (s.logging o).map fun b => .ok (logWrite s o b)
  | .endOp o =>
      if o ∈ s.running ∧ s.logging o = none then some (endOp s o) else none
  | .proceed => (proceed log s).map .ok
  | .recycle b =>
      if s.dirty b ∨ ∃ o ∈ s.running, s.logging o = some b then none
      else some (.ok { s with cache := Function.update s.cache b none })
  | .crash => some (.ok (crash s))

def Steps (log : Layout) (s : State) (e : Event) (t : State) : Prop := step log s e = some (.ok t)

end Xv6.Log
