import Xv6.Lib.Monitor

/-!
# The IDE driver

`iderw`, `idestart` and `ideintr` of `ide.c`, with one process or interrupt at a time, as `idelock`
makes it, and a disk that raises one interrupt for each request that has been started, with any
status. If the disk reports an error for a write, the block may hold anything.

The driver also records the requests that have been appended to the queue, started and served.
-/

namespace Xv6.Dev

open Monitor Transition

/-- `FSSIZE` -/
def fssize : ℕ := 1000

variable {ι β δ : Type*}

/-- `struct buf`, as far as the driver looks at it. -/
structure Buf (δ : Type*) where
  valid : Bool
  dirty : Bool
  dev : ℕ
  blockno : ℕ
  data : δ

namespace Buf

/-- `(b->flags & (B_VALID|B_DIRTY)) == B_VALID` -/
def done (b : Buf δ) : Bool := b.valid && !b.dirty

/-- The drive and the sector that `idestart` writes to the registers; a block is a sector. -/
def address (b : Buf δ) : ℕ × ℕ := (b.dev % 2, b.blockno % 2 ^ 28)

end Buf

/-- What the disk has been told to do; for a write, with the data that it has been given. -/
structure Command (δ : Type*) where
  address : ℕ × ℕ
  write : Option δ

structure Ide (β δ : Type*) where
  buf : β → Buf δ
  disk : ℕ × ℕ → δ
  havedisk1 : Bool := true
  idequeue : List β := []
  command : Option (Command δ) := none
  panicked : Bool := false
  appended : List β := []
  started : List β := []
  served : List β := []

/-- A call of `iderw`, or its loop that waits for a request. -/
inductive IdeCall (β : Type*) where
  | iderw (b : β)
  | wait (b : β) (request : ℕ)
  deriving DecidableEq

/-- The buffer of a call. -/
def IdeCall.buf : IdeCall β → β
  | .iderw b => b
  | .wait b _ => b

/-- An interrupt with the status that `idewait(1)` reports and what a failed write has left in the
block, a change of a buffer by the process that has locked it, or a call of `kill`. -/
inductive IdeEvent (ι β δ : Type*) where
  | complete (error : Bool) (left : δ)
  | prepare (b : β) (buf : Buf δ)
  | kill (pid : ι)

variable [DecidableEq β]

/-- `idestart` -/
def idestart (b : β) (s : Ide β δ) : Ide β δ :=
  if (s.buf b).blockno ≥ fssize then { s with panicked := true }
  else
    { s with
      command := some
        { address := (s.buf b).address
          write := if (s.buf b).dirty then some (s.buf b).data else none }
      started := s.started ++ [b] }

/-- `iderw` up to its loop, and the first pass. -/
def iderw (b : β) (s : Ide β δ) : Section (Ide β δ) β (IdeCall β) :=
  if (s.buf b).done then { shared := { s with panicked := true } }
  else if (s.buf b).dev ≠ 0 ∧ !s.havedisk1 then { shared := { s with panicked := true } }
  else
    let s' := { s with idequeue := s.idequeue ++ [b], appended := s.appended ++ [b] }
    { shared := if s'.idequeue.head? = some b then idestart b s' else s'
      place := if (s.buf b).done then .out else .sleeping b (.wait b s.appended.length) }

/-- A pass of the loop of `iderw`. -/
def wait (b : β) (request : ℕ) (s : Ide β δ) : Section (Ide β δ) β (IdeCall β) :=
  if (s.buf b).done then { shared := s } else { shared := s, place := .sleeping b (.wait b request) }

/-- The disk is done with a command: a write that has not failed has changed the block. -/
def Ide.completed (command : Command δ) (error : Bool) (left : δ) (s : Ide β δ) : Ide β δ :=
  match command.write with
  | some data =>
      { s with
        disk := Function.update s.disk command.address (if error then left else data)
        command := none }
  | none => { s with command := none }

/-- `ideintr`, when the disk has `sector` ready to be read. -/
def ideintr (error : Bool) (sector : δ) (s : Ide β δ) : Interrupt (Ide β δ) ι β :=
  match s.idequeue with
  | [] => { shared := s }
  | b :: idequeue =>
      let data := if !(s.buf b).dirty && !error then sector else (s.buf b).data
      let buf := { s.buf b with data, valid := true, dirty := false }
      let s := { s with buf := Function.update s.buf b buf, idequeue, served := s.served ++ [b] }
      { shared := match idequeue.head? with
          | some next => idestart next s
          | none => s
        wakes := [b] }

def ideCode : Code (Ide β δ) ι β (IdeCall β) (IdeEvent ι β δ) where
  body _ call := match call with
    | .iderw b => iderw b
    | .wait b request => wait b request
  interrupt event s := match event with
    | .complete error left => match s.command with
        | none => { shared := s }
        | some command => ideintr error (s.disk command.address) (s.completed command error left)
    | .prepare b buf => { shared := { s with buf := Function.update s.buf b buf } }
    | .kill pid => { shared := s, rouses := [pid] }

abbrev IdeState (ι β δ : Type*) := Monitor.State (Ide β δ) ι β (IdeCall β)

/-- The block of a buffer. -/
def Buf.block (b : Buf δ) : ℕ × ℕ := (b.dev, b.blockno)

variable [DecidableEq ι]

/-- Callers of `iderw` have locked their buffers, of which there is one for a block, and have something
to do on a disk that is there; only they change these buffers. The disk raises an interrupt for a
request that has been started. -/
def IdeUse (x : IdeState ι β δ) : Label ι (IdeCall β) (IdeEvent ι β δ) → Prop
  | .call _ (.iderw b) =>
      (x.shared.buf b).done = false ∧ (x.shared.buf b).blockno < fssize ∧ (x.shared.buf b).dev < 2 ∧
      ((x.shared.buf b).dev = 0 ∨ x.shared.havedisk1 = true) ∧
      ∀ j call, x.calls j = some call → call.buf ≠ b ∧ (x.shared.buf call.buf).block ≠ (x.shared.buf b).block
  | .call _ (.wait _ _) => False
  | .run _ => True
  | .interrupt (.complete _ _) => x.shared.command ≠ none
  | .interrupt (.prepare b _) => ∀ j call, x.calls j = some call → call.buf ≠ b
  | .interrupt (.kill _) => True

/-- The states of all interleavings. -/
def IdeReach (start : Ide β δ) : IdeState ι β δ → Prop :=
  Reachable (Step ideCode) IdeUse { shared := { buf := start.buf, disk := start.disk, havedisk1 := start.havedisk1 } }

/-! ## The queue -/

variable {start : Ide β δ} {x y : IdeState ι β δ} {s : Ide β δ} {calls : ι → Option (IdeCall β)}
  {label : Label ι (IdeCall β) (IdeEvent ι β δ)} {i j : ι} {b : β} {error : Bool} {left : δ}

/-- What the disk is told for a buffer. -/
def Buf.request (b : Buf δ) : Command δ :=
  { address := b.address, write := if b.dirty then some b.data else none }

/-- A buffer that a request is for. -/
structure Ide.Pending (s : Ide β δ) (b : β) : Prop where
  notDone : (s.buf b).done = false
  inside : (s.buf b).blockno < fssize
  drive : (s.buf b).dev < 2
  present : (s.buf b).dev = 0 ∨ s.havedisk1 = true

structure IdeInv (s : Ide β δ) (calls : ι → Option (IdeCall β)) : Prop where
  panicked : s.panicked = false
  nodup : s.idequeue.Nodup
  appended : s.appended = s.served ++ s.idequeue
  started : s.started = s.served ++ s.idequeue.take 1
  command : s.command = s.idequeue.head?.map fun b => (s.buf b).request
  pending : ∀ b ∈ s.idequeue, s.Pending b ∧ ∃ i k, calls i = some (.wait b k)
  calling : ∀ i b, calls i = some (.iderw b) → s.Pending b ∧ b ∉ s.idequeue
  waiting : ∀ i b k, calls i = some (.wait b k) → s.appended[k]? = some b ∧
    (s.buf b).blockno < fssize ∧ (s.buf b).dev < 2 ∧
    (k < s.served.length → (s.buf b).done = true ∧ b ∉ s.idequeue)
  apart : ∀ i j call call', calls i = some call → calls j = some call' → i ≠ j →
    call.buf ≠ call'.buf ∧ (s.buf call.buf).block ≠ (s.buf call'.buf).block

omit [DecidableEq β] [DecidableEq ι] in
theorem IdeInv.unserved (inv : IdeInv s calls) {k : ℕ} (waits : calls i = some (.wait b k))
    (later : s.served.length ≤ k) : b ∈ s.idequeue := by
  have isB := (inv.waiting i b k waits).1
  rw [inv.appended, List.getElem?_append_right later] at isB
  exact List.mem_of_getElem? isB

omit [DecidableEq β] in
theorem idestart_eq (inside : (s.buf b).blockno < fssize) :
    idestart b s = { s with
      command := some (s.buf b).request
      started := s.started ++ [b] } := by
  unfold idestart
  rw [if_neg (Nat.not_le.2 inside)]
  rfl

omit [DecidableEq ι] in
/-- A request is appended, and started if it is the only one. -/
theorem IdeInv.iderw_eq (inv : IdeInv s calls) (call : calls i = some (.iderw b)) :
    iderw b s =
      { shared := { s with
          idequeue := s.idequeue ++ [b]
          appended := s.appended ++ [b]
          command := (s.idequeue ++ [b]).head?.map fun b => (s.buf b).request
          started := s.served ++ (s.idequeue ++ [b]).take 1 }
        place := .sleeping b (.wait b s.appended.length) } := by
  rcases inv.calling i b call with ⟨pending, notQueued⟩
  have present : ¬((s.buf b).dev ≠ 0 ∧ !s.havedisk1) := by
    rintro ⟨notZero, missing⟩
    rcases pending.present with zero | there
    · exact notZero zero
    · rw [there] at missing
      cases missing
  have notDone : ¬(s.buf b).done = true := by simp [pending.notDone]
  have command := inv.command
  have started := inv.started
  unfold iderw
  rw [if_neg notDone, if_neg present, if_neg notDone]
  refine congrArg (fun shared =>
    ({ shared, place := .sleeping b (.wait b s.appended.length) } : Section (Ide β δ) β (IdeCall β))) ?_
  cases queue : s.idequeue with
  | nil =>
      rw [queue] at started
      refine (if_pos rfl).trans ((idestart_eq ?_).trans ?_)
      · exact pending.inside
      · simp [started]
  | cons c queue' =>
      have different : ¬(c :: queue' ++ [b]).head? = some b := by
        intro same
        have isB : c = b := Option.some.inj same
        exact notQueued (queue ▸ isB ▸ List.mem_cons_self)
      rw [queue] at command started
      refine (if_neg different).trans ?_
      simp [command, started]

omit [DecidableEq β] in
/-- A call that runs is the one that has been recorded, or another one that ran before. -/
theorem call_of_update {j : ι} {call call' : IdeCall β}
    (runs : Function.update calls i (some call) j = some call') :
    j = i ∧ call' = call ∨ j ≠ i ∧ calls j = some call' := by
  by_cases same : j = i
  · subst same
    rw [Function.update_self] at runs
    exact .inl ⟨rfl, (Option.some.inj runs).symm⟩
  · rw [Function.update_of_ne same] at runs
    exact .inr ⟨same, runs⟩

theorem IdeInv.iderw (inv : IdeInv s calls) (call : calls i = some (.iderw b)) :
    IdeInv (iderw b s).shared (Function.update calls i (iderw b s).place.code?) := by
  rcases inv.calling i b call with ⟨pending, notQueued⟩
  have others : ∀ j ≠ i, ∀ {call'}, calls j = some call' → call'.buf ≠ b := fun j different call' runs =>
    (inv.apart j i call' _ runs call different).1
  rw [inv.iderw_eq call]
  dsimp only [Place.code?]
  have cases : ∀ j call', Function.update calls i (some (.wait b s.appended.length)) j = some call' →
      j = i ∧ call' = .wait b s.appended.length ∨ j ≠ i ∧ calls j = some call' :=
    fun _ _ => call_of_update
  refine ⟨inv.panicked, ?_, ?_, rfl, rfl, fun b' member => ?_, fun j b' runs => ?_, fun j b' k runs => ?_,
    fun j j' c c' first second different => ?_⟩
  · rw [List.nodup_append]
    refine ⟨inv.nodup, List.nodup_singleton b, fun b' member b'' isB => ?_⟩
    rintro rfl
    rw [List.mem_singleton.1 isB] at member
    exact notQueued member
  · dsimp only
    rw [inv.appended, List.append_assoc]
  · rcases List.mem_append.1 member with old | new
    · rcases inv.pending b' old with ⟨pending', j, k, runs⟩
      refine ⟨⟨pending'.notDone, pending'.inside, pending'.drive, pending'.present⟩, j, k, ?_⟩
      rw [Function.update_of_ne, runs]
      rintro rfl
      cases runs.symm.trans call
    · rw [List.mem_singleton.1 new]
      exact ⟨⟨pending.notDone, pending.inside, pending.drive, pending.present⟩, i, _,
        Function.update_self _ _ _⟩
  · rcases cases j _ runs with ⟨-, isWait⟩ | ⟨different, runs'⟩
    · cases isWait
    · rcases inv.calling j b' runs' with ⟨pending', absent⟩
      refine ⟨⟨pending'.notDone, pending'.inside, pending'.drive, pending'.present⟩, fun member => ?_⟩
      rcases List.mem_append.1 member with old | new
      · exact absent old
      · exact others j different runs' (List.mem_singleton.1 new)
  · rcases cases j _ runs with ⟨-, isWait⟩ | ⟨different, runs'⟩
    · cases isWait
      refine ⟨by simp, pending.inside, pending.drive, fun served => ?_⟩
      have length := congrArg List.length inv.appended
      rw [List.length_append] at length
      dsimp only at served
      omega
    · rcases inv.waiting j b' k runs' with ⟨isB, inside, drive, served⟩
      refine ⟨?_, inside, drive, fun before => ⟨(served before).1, fun member => ?_⟩⟩
      · rcases List.getElem?_eq_some_iff.1 isB with ⟨bound, -⟩
        rw [List.getElem?_append_left bound]
        exact isB
      · rcases List.mem_append.1 member with old | new
        · exact (served before).2 old
        · exact others j different runs' (List.mem_singleton.1 new)
  · rcases cases j _ first with ⟨rfl, rfl⟩ | ⟨notI, runs⟩
    · rcases cases j' _ second with ⟨rfl, -⟩ | ⟨notI', runs'⟩
      · exact absurd rfl different
      · exact inv.apart j j' (.iderw b) c' call runs' different
    · rcases cases j' _ second with ⟨rfl, rfl⟩ | ⟨notI', runs'⟩
      · exact inv.apart j j' c (.iderw b) runs call different
      · exact inv.apart j j' c c' runs runs' different

omit [DecidableEq β] in
/-- A pass of the loop changes nothing but that the call may return. -/
theorem IdeInv.wait (inv : IdeInv s calls) {k : ℕ} (call : calls i = some (.wait b k)) :
    (wait b k s).shared = s ∧ IdeInv s (Function.update calls i (wait b k s).place.code?) ∧
      ((wait b k s).place = .out → k < s.served.length) := by
  unfold Dev.wait
  by_cases done : (s.buf b).done = true
  · rw [if_pos done]
    have notQueued : b ∉ s.idequeue := by
      intro member
      rw [(inv.pending b member).1.notDone] at done
      cases done
    have remains : ∀ j call', Function.update calls i (none : Option (IdeCall β)) j = some call' →
        calls j = some call' := by
      intro j call' runs
      by_cases same : j = i
      · subst same
        rw [Function.update_self] at runs
        cases runs
      · rwa [Function.update_of_ne same] at runs
    refine ⟨rfl, ⟨inv.panicked, inv.nodup, inv.appended, inv.started, inv.command, fun b' member => ?_,
      fun j b' runs => inv.calling j b' (remains j _ runs),
      fun j b' k' runs => inv.waiting j b' k' (remains j _ runs),
      fun j j' c c' first second => inv.apart j j' c c' (remains j c first) (remains j' c' second)⟩,
      fun _ => ?_⟩
    · rcases inv.pending b' member with ⟨pending, j, k', runs⟩
      refine ⟨pending, j, k', ?_⟩
      rw [Function.update_of_ne, runs]
      rintro rfl
      cases runs.symm.trans call
      exact notQueued member
    · by_contra later
      exact notQueued (inv.unserved call (Nat.not_lt.1 later))
  · rw [if_neg done]
    refine ⟨rfl, ?_, nofun⟩
    have same : Function.update calls i (Place.sleeping b (IdeCall.wait b k)).code? = calls := by
      rw [Function.update_eq_self_iff]
      exact call.symm
    rw [same]
    exact inv

/-! ## Interrupts -/

/-- The buffer of a request that has been served. -/
def Buf.served (buf : Buf δ) (error : Bool) (sector : δ) : Buf δ :=
  { buf with
    data := if !buf.dirty && !error then sector else buf.data
    valid := true
    dirty := false }

omit [DecidableEq ι] in
/-- The first request is served, and the next one started. -/
theorem IdeInv.complete_eq (inv : IdeInv s calls) {queue : List β} (isQueue : s.idequeue = b :: queue)
    (error : Bool) (left : δ) :
    (ideCode.interrupt (.complete error left) s : Interrupt (Ide β δ) ι β) =
      { shared := { s with
          buf := Function.update s.buf b ((s.buf b).served error (s.disk (s.buf b).address))
          disk := if (s.buf b).dirty then
            Function.update s.disk (s.buf b).address (if error then left else (s.buf b).data) else s.disk
          idequeue := queue
          command := queue.head?.map fun c => (s.buf c).request
          started := s.served ++ [b] ++ queue.take 1
          served := s.served ++ [b] }
        wakes := [b] } := by
  have command := inv.command
  have started := inv.started
  rw [isQueue] at command started
  have isCommand : s.command = some (s.buf b).request := command
  have nodup := inv.nodup
  rw [isQueue] at nodup
  have completed : s.completed (s.buf b).request error left =
      { s with
        disk := if (s.buf b).dirty then
          Function.update s.disk (s.buf b).address (if error then left else (s.buf b).data) else s.disk
        command := none } := by
    unfold Ide.completed Buf.request
    cases (s.buf b).dirty <;> rfl
  dsimp only [ideCode]
  rw [isCommand]
  dsimp only
  rw [completed]
  unfold ideintr
  dsimp only
  rw [isQueue]
  cases queue with
  | nil => simp [started, Buf.served, Buf.request]
  | cons c queue =>
      have different : c ≠ b := by
        rintro rfl
        exact (List.nodup_cons.1 nodup).1 List.mem_cons_self
      have inside := (inv.pending c (isQueue ▸ List.mem_cons_of_mem _ List.mem_cons_self)).1.inside
      dsimp only [List.head?_cons]
      rw [idestart_eq]
      · simp [started, Buf.served, Buf.request, different]
      · dsimp only
        rw [Function.update_of_ne different]
        exact inside

omit [DecidableEq ι] in
theorem IdeInv.complete (inv : IdeInv s calls) {queue : List β} (isQueue : s.idequeue = b :: queue)
    (error : Bool) (left : δ) :
    IdeInv (ideCode.interrupt (.complete error left) s : Interrupt (Ide β δ) ι β).shared calls := by
  have nodup := inv.nodup
  have appended := inv.appended
  rw [isQueue] at nodup appended
  rcases List.nodup_cons.1 nodup with ⟨notLater, nodup'⟩
  have other : ∀ c ≠ b, ∀ buf, Function.update s.buf b buf c = s.buf c := fun c different buf =>
    Function.update_of_ne different buf s.buf
  -- only the flags and the data of the buffer change
  have address : ∀ c, let buf := Function.update s.buf b ((s.buf b).served error (s.disk (s.buf b).address)) c
      buf.dev = (s.buf c).dev ∧ buf.blockno = (s.buf c).blockno := by
    intro c
    by_cases same : c = b
    · subst same
      dsimp only
      rw [Function.update_self]
      exact ⟨rfl, rfl⟩
    · dsimp only
      rw [other c same]
      exact ⟨rfl, rfl⟩
  have pending' : ∀ c ≠ b, s.Pending c → Ide.Pending
      (ideCode.interrupt (.complete error left) s : Interrupt (Ide β δ) ι β).shared c := by
    intro c different pending
    rw [inv.complete_eq isQueue]
    refine ⟨?_, ?_, ?_, ?_⟩
    · exact (congrArg Buf.done (other c different _)).trans pending.notDone
    · exact (congrArg Buf.blockno (other c different _)).trans_lt pending.inside
    · exact (congrArg Buf.dev (other c different _)).trans_lt pending.drive
    · exact pending.present.imp_left (congrArg Buf.dev (other c different _)).trans
  have queued : ∀ c, c ∉ s.idequeue → c ≠ b := by
    rintro c absent rfl
    exact absent (isQueue ▸ List.mem_cons_self)
  have pendingQueue : ∀ c ∈ queue, Ide.Pending
      (ideCode.interrupt (.complete error left) s : Interrupt (Ide β δ) ι β).shared c ∧
        ∃ i k, calls i = some (.wait c k) := by
    intro c member
    rcases inv.pending c (isQueue ▸ List.mem_cons_of_mem _ member) with ⟨pending, owner⟩
    refine ⟨pending' c ?_ pending, owner⟩
    rintro rfl
    exact notLater member
  have callings : ∀ i c, calls i = some (.iderw c) → Ide.Pending
      (ideCode.interrupt (.complete error left) s : Interrupt (Ide β δ) ι β).shared c ∧ c ∉ queue := by
    intro i c runs
    rcases inv.calling i c runs with ⟨pending, absent⟩
    exact ⟨pending' c (queued c absent) pending, fun member =>
      absent (isQueue ▸ List.mem_cons_of_mem _ member)⟩
  have apart : ∀ i j call call', calls i = some call → calls j = some call' → i ≠ j →
      call.buf ≠ call'.buf ∧
        ((Function.update s.buf b ((s.buf b).served error (s.disk (s.buf b).address))) call.buf).block ≠
          ((Function.update s.buf b ((s.buf b).served error (s.disk (s.buf b).address))) call'.buf).block := by
    intro i j call call' first second different
    rcases inv.apart i j call call' first second different with ⟨bufs, blocks⟩
    refine ⟨bufs, fun same => blocks ?_⟩
    unfold Buf.block at same ⊢
    rwa [(address call.buf).1, (address call.buf).2, (address call'.buf).1, (address call'.buf).2] at same
  have waits : ∀ i c k, calls i = some (.wait c k) → k < (s.served ++ [b]).length →
      ((Function.update s.buf b ((s.buf b).served error (s.disk (s.buf b).address))) c).done = true ∧
        c ∉ queue := by
    intro i c k runs before
    rcases inv.waiting i c k runs with ⟨isC, -, -, served⟩
    by_cases earlier : k < s.served.length
    · rcases served earlier with ⟨done, absent⟩
      rw [other c (queued c absent)]
      exact ⟨done, fun member => absent (isQueue ▸ List.mem_cons_of_mem _ member)⟩
    · have isNow : k = s.served.length := by
        rw [List.length_append, List.length_singleton] at before
        omega
      have isB : c = b := by
        rw [isNow, appended, List.getElem?_append_right le_rfl, Nat.sub_self] at isC
        exact (Option.some.inj isC).symm
      subst isB
      rw [Function.update_self]
      exact ⟨rfl, notLater⟩
  rw [inv.complete_eq isQueue] at pendingQueue callings ⊢
  refine ⟨inv.panicked, nodup', ?_, ?_, ?_, pendingQueue, callings, fun i c k runs => ?_, apart⟩
  · dsimp only
    rw [appended, List.append_assoc]
    rfl
  · rfl
  · dsimp only
    cases queue with
    | nil => rfl
    | cons c queue =>
        have different : c ≠ b := by
          rintro rfl
          exact notLater List.mem_cons_self
        simp [other c different]
  · rcases inv.waiting i c k runs with ⟨isC, inside, drive, -⟩
    refine ⟨isC, ?_, ?_, waits i c k runs⟩
    · exact (address c).2.trans_lt inside
    · exact (address c).1.trans_lt drive

theorem IdeInv.step (inv : IdeInv x.shared x.calls) (admitted : IdeUse x label)
    (step : Step ideCode x label y) : IdeInv y.shared y.calls := by
  cases step with
  | @call i entry outside =>
      cases entry with
      | wait b k => exact admitted.elim
      | iderw b =>
          rcases admitted with ⟨notDone, inside, drive, present, alone⟩
          rw [calls_call]
          have absent : b ∉ x.shared.idequeue := by
            intro member
            rcases (inv.pending b member).2 with ⟨j, k, runs⟩
            exact (alone j _ runs).1 rfl
          have none : x.calls i = none := by
            unfold Monitor.State.calls
            rw [outside]
            rfl
          have cases : ∀ j call, Function.update x.calls i (some (.iderw b)) j = some call →
              j = i ∧ call = .iderw b ∨ j ≠ i ∧ x.calls j = some call :=
            fun _ _ => call_of_update
          refine ⟨inv.panicked, inv.nodup, inv.appended, inv.started, inv.command, fun c member => ?_,
            fun j c runs => ?_, fun j c k runs => ?_, fun j j' c c' first second different => ?_⟩
          · rcases inv.pending c member with ⟨pending, j, k, runs⟩
            refine ⟨pending, j, k, ?_⟩
            rw [Function.update_of_ne, runs]
            rintro rfl
            cases runs.symm.trans none
          · rcases cases j _ runs with ⟨-, isCall⟩ | ⟨-, runs'⟩
            · cases isCall
              exact ⟨⟨notDone, inside, drive, present⟩, absent⟩
            · exact inv.calling j c runs'
          · rcases cases j _ runs with ⟨-, isCall⟩ | ⟨-, runs'⟩
            · cases isCall
            · exact inv.waiting j c k runs'
          · rcases cases j _ first with ⟨rfl, rfl⟩ | ⟨-, runs⟩
            · rcases cases j' _ second with ⟨rfl, -⟩ | ⟨-, runs'⟩
              · exact absurd rfl different
              · exact ⟨(alone j' c' runs').1.symm, (alone j' c' runs').2.symm⟩
            · rcases cases j' _ second with ⟨rfl, rfl⟩ | ⟨-, runs'⟩
              · exact alone j c runs
              · exact inv.apart j j' c c' runs runs' different
  | @run i call ready =>
      have runs : x.calls i = some call := by
        unfold Monitor.State.calls
        rw [ready]
        rfl
      rw [calls_run]
      cases call with
      | iderw b => exact inv.iderw runs
      | wait b k =>
          rcases inv.wait runs with ⟨same, inv', -⟩
          change IdeInv (Dev.wait b k x.shared).shared _
          rw [same]
          exact inv'
  | interrupt event =>
      rw [calls_interrupt]
      cases event with
      | complete error left =>
          cases queue : x.shared.idequeue with
          | nil =>
              have command := inv.command
              rw [queue] at command
              exact absurd command admitted
          | cons b queue' => exact inv.complete queue error left
      | kill pid => exact inv
      | prepare b buf =>
          have other : ∀ j call, x.calls j = some call →
              Function.update x.shared.buf b buf call.buf = x.shared.buf call.buf := fun j call runs =>
            Function.update_of_ne (admitted j call runs) _ _
          have queued : ∀ c ∈ x.shared.idequeue, Function.update x.shared.buf b buf c = x.shared.buf c := by
            intro c member
            rcases (inv.pending c member).2 with ⟨j, k, runs⟩
            exact other j _ runs
          have pending : ∀ c, Function.update x.shared.buf b buf c = x.shared.buf c → x.shared.Pending c →
              Ide.Pending { x.shared with buf := Function.update x.shared.buf b buf } c :=
            fun c same pending => ⟨(congrArg Buf.done same).trans pending.notDone,
              (congrArg Buf.blockno same).trans_lt pending.inside,
              (congrArg Buf.dev same).trans_lt pending.drive,
              pending.present.imp_left (congrArg Buf.dev same).trans⟩
          refine ⟨inv.panicked, inv.nodup, inv.appended, inv.started, ?_, fun c member => ?_,
            fun j c runs => ?_, fun j c k runs => ?_, fun j j' call call' first second different => ?_⟩
          · change x.shared.command =
              x.shared.idequeue.head?.map fun c => (Function.update x.shared.buf b buf c).request
            rw [inv.command]
            cases queue : x.shared.idequeue with
            | nil => rfl
            | cons c queue' =>
                have same := queued c (queue ▸ List.mem_cons_self)
                exact congrArg (fun buf => some (Buf.request buf)) same.symm
          · rcases inv.pending c member with ⟨isPending, owner⟩
            exact ⟨pending c (queued c member) isPending, owner⟩
          · rcases inv.calling j c runs with ⟨isPending, absent⟩
            exact ⟨pending c (other j _ runs) isPending, absent⟩
          · rcases inv.waiting j c k runs with ⟨isC, inside, drive, served⟩
            have same : Function.update x.shared.buf b buf c = x.shared.buf c := other j _ runs
            refine ⟨isC, (congrArg Buf.blockno same).trans_lt inside, (congrArg Buf.dev same).trans_lt drive,
              fun before => ⟨(congrArg Buf.done same).trans (served before).1, (served before).2⟩⟩
          · rcases inv.apart j j' call call' first second different with ⟨bufs, blocks⟩
            refine ⟨bufs, fun same => blocks ?_⟩
            have first' := congrArg Buf.block (other j call first)
            have second' := congrArg Buf.block (other j' call' second)
            exact first'.symm.trans (same.trans second')

theorem inv_of_ideReach (reach : IdeReach start x) : IdeInv x.shared x.calls := by
  refine Reachable.invariant reach (fun x => IdeInv x.shared x.calls) ?_
    fun _ inv admitted step => inv.step admitted step
  exact ⟨rfl, List.nodup_nil, rfl, rfl, rfl, nofun, nofun, nofun, nofun⟩

/-! ## Data -/

/-- The buffers of the requests that have been served agree with the disk, as long as their processes are
in `iderw`. -/
def Agreeing (x : IdeState ι β δ) : Prop :=
  ∀ i b k, x.calls i = some (.wait b k) → k < x.shared.served.length →
    (x.shared.buf b).data = x.shared.disk (x.shared.buf b).address

/-- The disk reports no error, or the buffer and the disk agree nevertheless. -/
def Harmless (x : IdeState ι β δ) : Label ι (IdeCall β) (IdeEvent ι β δ) → Prop
  | .interrupt (.complete error left) => error = true → ∀ b, x.shared.idequeue.head? = some b →
      (x.shared.buf b).data =
        if (x.shared.buf b).dirty then left else x.shared.disk (x.shared.buf b).address
  | _ => True

/-- Different blocks are in different places on the disks. -/
theorem address_injective {buf buf' : Buf δ} (inside : buf.blockno < fssize) (drive : buf.dev < 2)
    (inside' : buf'.blockno < fssize) (drive' : buf'.dev < 2) (same : buf.address = buf'.address) :
    buf.block = buf'.block := by
  unfold Buf.address at same
  unfold Buf.block
  unfold fssize at inside inside'
  rcases Prod.mk.inj same with ⟨dev, blockno⟩
  rw [Nat.mod_eq_of_lt drive, Nat.mod_eq_of_lt drive'] at dev
  rw [Nat.mod_eq_of_lt (inside.trans (by decide)), Nat.mod_eq_of_lt (inside'.trans (by decide))] at blockno
  rw [dev, blockno]

omit [DecidableEq β] [DecidableEq ι] in
/-- The request of the first buffer of the queue is the first that has not been served. -/
theorem IdeInv.first (inv : IdeInv s calls) {queue : List β} (isQueue : s.idequeue = b :: queue) {k : ℕ}
    (waits : calls i = some (.wait b k)) : k = s.served.length := by
  rcases inv.waiting i b k waits with ⟨isB, -, -, served⟩
  have later : ¬k < s.served.length := fun before =>
    (served before).2 (isQueue ▸ List.mem_cons_self)
  rw [inv.appended, List.getElem?_append_right (Nat.not_lt.1 later), isQueue] at isB
  have nodup := inv.nodup
  rw [isQueue] at nodup
  cases position : k - s.served.length with
  | zero => omega
  | succ m =>
      rw [position, List.getElem?_cons_succ] at isB
      exact absurd (List.mem_of_getElem? isB) (List.nodup_cons.1 nodup).1

/-- What the disk and the buffer hold when the request of the buffer has been served. -/
theorem complete_agrees (buf : Buf δ) (disk : ℕ × ℕ → δ) (error : Bool) (left : δ) :
    ((buf.served error (disk buf.address)).data =
        (if buf.dirty then Function.update disk buf.address (if error then left else buf.data) else disk)
          (buf.served error (disk buf.address)).address) ↔
      (error = true → buf.data = if buf.dirty then left else disk buf.address) := by
  have same : (buf.served error (disk buf.address)).address = buf.address := rfl
  rw [same]
  unfold Buf.served
  cases buf.dirty <;> cases error <;> simp

omit [DecidableEq ι] in
/-- An interrupt keeps what has been served before, and serves the first request well exactly if it is
harmless. -/
theorem Agreeing.complete (inv : IdeInv x.shared x.calls) (agreeing : Agreeing x) {queue : List β}
    (isQueue : x.shared.idequeue = b :: queue) (error : Bool) (left : δ)
    (shared : y.shared =
      (ideCode.interrupt (.complete error left) x.shared : Interrupt (Ide β δ) ι β).shared)
    (calls : y.calls = x.calls) :
    Agreeing y ↔ Harmless x (.interrupt (.complete error left)) := by
  rw [inv.complete_eq isQueue] at shared
  have data := complete_agrees (x.shared.buf b) x.shared.disk error left
  rcases inv.pending b (isQueue ▸ List.mem_cons_self) with ⟨pending, owner, first, waits⟩
  have isFirst := inv.first isQueue waits
  have harmless : Harmless x (.interrupt (.complete error left)) ↔
      (error = true → (x.shared.buf b).data =
        if (x.shared.buf b).dirty then left else x.shared.disk (x.shared.buf b).address) := by
    dsimp only [Harmless]
    rw [isQueue]
    simp
  rw [harmless, ← data]
  unfold Agreeing
  rw [shared, calls]
  dsimp only
  constructor
  · intro agreeing'
    have now := agreeing' owner b first waits (by
      rw [List.length_append, List.length_singleton]
      omega)
    rwa [Function.update_self] at now
  · intro now i c k runs before
    by_cases same : c = b
    · subst same
      rw [Function.update_self]
      exact now
    · have earlier : k < x.shared.served.length := by
        rw [List.length_append, List.length_singleton] at before
        by_contra later
        have isNow : k = x.shared.served.length := by omega
        have isC := (inv.waiting i c k runs).1
        rw [isNow, inv.appended, List.getElem?_append_right le_rfl, Nat.sub_self, isQueue] at isC
        exact same (Option.some.inj isC).symm
      rw [Function.update_of_ne same]
      refine (agreeing i c k runs earlier).trans ?_
      split
      · rw [Function.update_of_ne]
        intro sameAddress
        have different : i ≠ owner := by
          rintro rfl
          cases runs.symm.trans waits
          exact same rfl
        rcases inv.waiting i c k runs with ⟨-, inside, drive, -⟩
        exact (inv.apart i owner _ _ runs waits different).2
          (address_injective inside drive pending.inside pending.drive sameAddress)
      · rfl

/-- A step keeps the agreement exactly if it is harmless. -/
theorem Agreeing.step (inv : IdeInv x.shared x.calls) (agreeing : Agreeing x) (admitted : IdeUse x label)
    (step : Step ideCode x label y) : Agreeing y ↔ Harmless x label := by
  cases step with
  | @call i entry outside =>
      refine iff_of_true (fun j c k runs before => ?_) trivial
      rw [calls_call] at runs
      by_cases same : j = i
      · subst same
        rw [Function.update_self] at runs
        cases runs
        exact admitted.elim
      · rw [Function.update_of_ne same] at runs
        exact agreeing j c k runs before
  | @run i call ready =>
      have runs : x.calls i = some call := by
        unfold Monitor.State.calls
        rw [ready]
        rfl
      refine iff_of_true (fun j c k runs' before => ?_) trivial
      rw [calls_run] at runs'
      cases call with
      | iderw b =>
          have eq : ideCode.body i (.iderw b) x.shared = _ := inv.iderw_eq runs
          rw [eq] at runs' before ⊢
          by_cases same : j = i
          · subst same
            rw [Function.update_self] at runs'
            cases runs'
            have length := congrArg List.length inv.appended
            rw [List.length_append] at length
            dsimp only at before
            omega
          · rw [Function.update_of_ne same] at runs'
            exact agreeing j c k runs' before
      | wait b request =>
          have shared : (ideCode.body i (.wait b request) x.shared : Section (Ide β δ) β (IdeCall β)).shared =
            x.shared := (inv.wait runs).1
          dsimp only at before ⊢
          rw [shared] at before ⊢
          by_cases same : j = i
          · subst same
            rw [Function.update_self] at runs'
            have isWait : x.calls j = some (.wait c k) := by
              change (Dev.wait b request x.shared).place.code? = _ at runs'
              unfold Dev.wait at runs'
              split at runs'
              · cases runs'
              · cases runs'
                exact runs
            exact agreeing j c k isWait before
          · rw [Function.update_of_ne same] at runs'
            exact agreeing j c k runs' before
  | interrupt event =>
      cases event with
      | complete error left =>
          cases queue : x.shared.idequeue with
          | nil =>
              have command := inv.command
              rw [queue] at command
              exact absurd command admitted
          | cons b queue' => exact agreeing.complete inv queue error left rfl (calls_interrupt _ _)
      | kill pid =>
          refine iff_of_true (fun j c k runs before => ?_) trivial
          rw [calls_interrupt] at runs
          exact agreeing j c k runs before
      | prepare b buf =>
          refine iff_of_true (fun j c k runs before => ?_) trivial
          rw [calls_interrupt] at runs
          have other : Function.update x.shared.buf b buf c = x.shared.buf c :=
            Function.update_of_ne (admitted j _ runs) _ _
          change (Function.update x.shared.buf b buf c).data =
            x.shared.disk (Function.update x.shared.buf b buf c).address
          rw [other]
          exact agreeing j c k runs before

/-- The states of the interleavings in which the disk reports no error that does harm. -/
def HarmlessReach (start : Ide β δ) : IdeState ι β δ → Prop :=
  Reachable (Step ideCode) (fun x label => IdeUse x label ∧ Harmless x label)
    { shared := { buf := start.buf, disk := start.disk, havedisk1 := start.havedisk1 } }

theorem agreeing_of_harmless (reach : HarmlessReach start x) : Agreeing x := by
  refine Reachable.invariant reach Agreeing ?_ fun {x label y} reached agreeing admitted step => ?_
  · rintro i b k runs
    cases runs
  · have inv := inv_of_ideReach (Reachable.mono (fun _ _ => And.left) reached)
    exact (agreeing.step inv admitted.1 step).2 admitted.2

/-- A disk of sevens and a buffer for its block 5. -/
def sevens : Ide ℕ ℕ :=
  { buf := fun _ => { valid := false, dirty := false, dev := 1, blockno := 5, data := 0 }
    disk := fun _ => 7 }

/-- Process 1 reads the block, and the disk has an error or has none. -/
theorem sevens_read (error : Bool) :
    ∃ x : IdeState ℕ ℕ ℕ, IdeReach sevens x ∧ (error = false → HarmlessReach sevens x) ∧
      x.place 1 = .ready (.wait 0 0) ∧ (wait 0 0 x.shared).place = .out ∧
      (x.shared.buf 0).data = (if error then 0 else 7) ∧
      x.shared.disk (x.shared.buf 0).address = 7 := by
  let x₀ : IdeState ℕ ℕ ℕ := { shared := sevens }
  have alone : ∀ (j : ℕ) (call : IdeCall ℕ), x₀.calls j ≠ some call := nofun
  have called : IdeUse x₀ (.call 1 (.iderw 0)) :=
    ⟨rfl, by decide, by decide, .inr rfl, fun j call runs => absurd runs (alone j call)⟩
  have run : ∃ x₁ x₂ x₃ : IdeState ℕ ℕ ℕ, take ideCode x₀ (.call 1 (.iderw 0)) = some x₁ ∧
      take ideCode x₁ (.run 1) = some x₂ ∧
      take ideCode x₂ (.interrupt (.complete error 0)) = some x₃ ∧
      x₂.shared.command ≠ none ∧ x₃.place 1 = .ready (.wait 0 0) ∧ (wait 0 0 x₃.shared).place = .out ∧
      (x₃.shared.buf 0).data = (if error then 0 else 7) ∧
      x₃.shared.disk (x₃.shared.buf 0).address = 7 := by
    cases error
    · exact ⟨_, _, _, rfl, rfl, rfl, nofun, rfl, rfl, rfl, rfl⟩
    · exact ⟨_, _, _, rfl, rfl, rfl, nofun, rfl, rfl, rfl, rfl⟩
  rcases run with ⟨x₁, x₂, x₃, first, second, third, busy, facts⟩
  have free : IdeUse x₁ (.run 1) := trivial
  have interrupted : IdeUse x₂ (.interrupt (.complete error 0)) := busy
  refine ⟨x₃, ?_, fun noError => ?_, facts⟩
  · have reach₁ : IdeReach sevens x₁ := Reachable.refl.next called (step_of_take first)
    have reach₂ : IdeReach sevens x₂ := reach₁.next free (step_of_take second)
    exact reach₂.next interrupted (step_of_take third)
  · have harmless : Harmless x₂ (.interrupt (.complete error 0)) := fun isError =>
      Bool.noConfusion (noError.symm.trans isError)
    have harmless' : Harmless x₁ (.run 1) := trivial
    have reach₁ : HarmlessReach sevens x₁ := Reachable.refl.next ⟨called, trivial⟩ (step_of_take first)
    have reach₂ : HarmlessReach sevens x₂ := reach₁.next ⟨free, harmless'⟩ (step_of_take second)
    exact reach₂.next ⟨interrupted, harmless⟩ (step_of_take third)

end Xv6.Dev
