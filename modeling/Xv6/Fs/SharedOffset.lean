import Xv6.Fs.Writing
import Xv6.Lib.Transition

/-!
# Processes that share an open file

`fileread` and `filewrite` of `file.c`, for a `struct file` of type `FD_INODE`. The offset is used and
advanced while the lock of the inode is held; each section from `ilock` to `iunlock` is one step. The
pieces that are transferred are recorded in the order of the sections.
-/

namespace Xv6.Fs

open Bytes Transition

/-- `max` in `filewrite`, with `MAXOPBLOCKS` for 10 -/
def writeMax : ℕ := ((10 - 1 - 1 - 2) / 2) * 512

/-- Bytes that a section has transferred; the number of the call if they were written. -/
structure Chunk where
  call : Option ℕ
  off : ℕ
  bytes : List Byte

/-- Where a process is: outside, or in the loop of `filewrite`. -/
inductive Loop where
  | out
  | writing (call : ℕ) (src : List Byte) (i : ℕ)

/-- The file, its inode and the processes; the calls of `filewrite` are numbered. -/
structure Shared (ι : Type*) where
  readable : Bool
  writable : Bool
  off : ℕ
  ip : Dinode
  image : ℕ → Block
  loop : ι → Loop := fun _ => .out
  sources : List (List Byte) := []
  results : ℕ → Option (Option ℕ) := fun _ => none
  chunks : List Chunk := []

inductive Section (ι : Type*) where
  /-- `fileread` for `n` bytes -/
  | read (p : ι) (n : ℕ)
  /-- A process enters `filewrite`. -/
  | write (p : ι) (src : List Byte)
  /-- A process tests the condition of the loop and runs its body. -/
  | pass (p : ι)

variable {ι : Type*} [DecidableEq ι] {devsw : Devsw} {sb : Superblock} {inum : ℕ} {s s' s₀ : Shared ι}

namespace Shared

/-- The section of `fileread` -/
def read (devsw : Devsw) (sb : Superblock) (s : Shared ι) (n : ℕ) : Option (Shared ι) :=
  if s.readable = false then some s
  else
    match readi devsw sb s.ip s.image s.off n with
    | none => none
    | some (none, ip, image) => some { s with ip, image }
    | some (some data, ip, image) =>
        if 0 < data.length then
          some { s with
            ip, image
            off := s.off + data.length
            chunks := s.chunks ++ [{ call := none, off := s.off, bytes := data }] }
        else some { s with ip, image }

/-- A call of `filewrite` begins. -/
def write (s : Shared ι) (p : ι) (src : List Byte) : Shared ι :=
  let s := { s with sources := s.sources ++ [src] }
  if s.writable = false then { s with results := Function.update s.results (s.sources.length - 1) (some none) }
  else { s with loop := Function.update s.loop p (.writing (s.sources.length - 1) src 0) }

/-- The call of a process returns. -/
def finish (s : Shared ι) (p : ι) (call : ℕ) (r : Option ℕ) : Shared ι :=
  { s with loop := Function.update s.loop p .out, results := Function.update s.results call (some r) }

/-- A pass of the loop of `filewrite`, or its end. A short write is a panic. -/
def pass (devsw : Devsw) (sb : Superblock) (inum : ℕ) (s : Shared ι) (p : ι) (call : ℕ) (src : List Byte) (i : ℕ) :
    Option (Shared ι) :=
  if i < src.length then
    let n1 := if writeMax < src.length - i then writeMax else src.length - i
    let piece := (src.drop i).take n1
    match writei devsw sb inum s.ip s.image piece s.off with
    | none => none
    | some (none, ip, image) => some ({ s with ip, image }.finish p call none)
    | some (some r, ip, image) =>
        let s := if 0 < r then
            { s with off := s.off + r, chunks := s.chunks ++ [{ call, off := s.off, bytes := piece }] }
          else s
        if r ≠ n1 then none
        else some { s with ip, image, loop := Function.update s.loop p (.writing call src (i + r)) }
  else some (s.finish p call (if i = src.length then some src.length else none))

/-- One section of one process. -/
def step (devsw : Devsw) (sb : Superblock) (inum : ℕ) (s : Shared ι) : Section ι → Option (Shared ι)
  | .read p n => match s.loop p with
      | .out => s.read devsw sb n
      | .writing .. => none
  | .write p src => match s.loop p with
      | .out => some (s.write p src)
      | .writing .. => none
  | .pass p => match s.loop p with
      | .out => none
      | .writing call src i => s.pass devsw sb inum p call src i

end Shared

/-- The arguments of the calls are numbers of type `int` that are not negative. -/
def IntArgument : Section ι → Prop
  | .read _ n => n < 2 ^ 31
  | .write _ src => src.length < 2 ^ 31
  | .pass _ => True

/-- The states of the runs of any number of processes. -/
def Runs (devsw : Devsw) (sb : Superblock) (inum : ℕ) : Shared ι → Shared ι → Prop :=
  Reachable (fun s label s' => s.step devsw sb inum label = some s') fun _ => IntArgument

/-! ## What the sections keep -/

/-- The chunks follow each other from `off` on. -/
def Consecutive : ℕ → List Chunk → Prop
  | _, [] => True
  | off, chunk :: chunks => chunk.off = off ∧ Consecutive (off + chunk.bytes.length) chunks

/-- The bytes of the chunks. -/
def transferred (chunks : List Chunk) : List Byte := chunks.flatMap Chunk.bytes

/-- The bytes that a call has written. -/
def written (chunks : List Chunk) (call : ℕ) : List Byte := transferred (chunks.filter (·.call = some call))

/-- The bytes of the file, after those that were written. -/
def replay (content : List Byte) (chunks : List Chunk) : List Byte :=
  chunks.foldl (fun content chunk => if chunk.call = none then content else patch content chunk.off chunk.bytes)
    content

variable {chunks : List Chunk} {chunk : Chunk} {content : List Byte} {off call : ℕ}

theorem transferred_append : transferred (chunks ++ [chunk]) = transferred chunks ++ chunk.bytes := by
  unfold transferred
  rw [List.flatMap_append, List.flatMap_singleton]

theorem consecutive_append : Consecutive off (chunks ++ [chunk]) ↔
    Consecutive off chunks ∧ chunk.off = off + (transferred chunks).length := by
  induction chunks generalizing off with
  | nil =>
      unfold transferred
      simp [Consecutive]
  | cons first chunks ih =>
      have isLength : off + (transferred (first :: chunks)).length =
          off + first.bytes.length + (transferred chunks).length := by
        unfold transferred
        rw [List.flatMap_cons, List.length_append, Nat.add_assoc]
      rw [List.cons_append, Consecutive, Consecutive, ih, isLength, and_assoc]

theorem written_append_self (isCall : chunk.call = some call) :
    written (chunks ++ [chunk]) call = written chunks call ++ chunk.bytes := by
  unfold written
  rw [List.filter_append, List.filter_singleton, isCall, decide_eq_true rfl]
  exact transferred_append

theorem written_append_other (isOther : chunk.call ≠ some call) :
    written (chunks ++ [chunk]) call = written chunks call := by
  unfold written
  rw [List.filter_append, List.filter_singleton, decide_eq_false isOther]
  exact congrArg transferred (List.append_nil _)

theorem replay_append : replay content (chunks ++ [chunk]) =
    if chunk.call = none then replay content chunks else patch (replay content chunks) chunk.off chunk.bytes := by
  unfold replay
  rw [List.foldl_append]
  rfl

/-! ## What a section does -/

variable {p : ι} {src : List Byte} {i n : ℕ}

omit [DecidableEq ι] in
/-- The section of `fileread` reads from the offset. -/
theorem read_cases (file : FileHolds sb inum s.ip s.image content) (isSize : s.ip.size = content.length)
    (small : n < 2 ^ 31) (isRead : s.read devsw sb n = some s') :
    s' = s ∨ ∃ data, data = (content.drop s.off).take n ∧ 0 < data.length ∧ s.off ≤ content.length ∧
      s' = { s with
        off := s.off + data.length
        chunks := s.chunks ++ [{ call := none, off := s.off, bytes := data }] } := by
  unfold Shared.read at isRead
  split at isRead
  · exact .inl (Option.some.inj isRead).symm
  · by_cases start : s.off ≤ content.length
    · have old := file.inodeHolds.bound
      have noOverflow : s.off + n < 2 ^ 32 := by
        unfold maxfile ndirect nindirect bsize at old
        omega
      rw [file.inodeHolds.readi devsw sb file.notDevice isSize start noOverflow] at isRead
      dsimp only at isRead
      split at isRead
      · rename_i some
        exact .inr ⟨_, rfl, some, start, (Option.some.inj isRead).symm⟩
      · exact .inl (Option.some.inj isRead).symm
    · have isNone : readi devsw sb s.ip s.image s.off n = some (none, s.ip, s.image) := by
        unfold readi
        rw [if_neg file.notDevice, if_pos (.inl (by omega))]
      rw [isNone] at isRead
      exact .inl (Option.some.inj isRead).symm

/-- A pass of the loop writes the next piece at the offset, or the call returns. -/
theorem pass_cases (file : FileHolds sb inum s.ip s.image content) (isSize : s.ip.size = content.length)
    (isPass : s.pass devsw sb inum p call src i = some s') :
    (∃ r, s' = s.finish p call r ∧ (r = none ∨ r = some src.length ∧ i = src.length)) ∨
    ∃ piece ip image, i < src.length ∧ piece = (src.drop i).take piece.length ∧ i + piece.length ≤ src.length ∧
      s.off ≤ content.length ∧ FileHolds sb inum ip image (patch content s.off piece) ∧
      ip.size = (patch content s.off piece).length ∧
      s' = { s with
        ip, image
        off := s.off + piece.length
        loop := Function.update s.loop p (.writing call src (i + piece.length))
        chunks := s.chunks ++ [{ call, off := s.off, bytes := piece }] } := by
  unfold Shared.pass at isPass
  split at isPass
  · rename_i more
    generalize isN1 : (if writeMax < src.length - i then writeMax else src.length - i) = n1 at isPass
    have bound : 0 < n1 ∧ n1 ≤ src.length - i ∧ n1 ≤ writeMax := by
      rw [← isN1]
      unfold writeMax
      split <;> omega
    have isLength : ((src.drop i).take n1).length = n1 := by
      rw [List.length_take, List.length_drop]
      omega
    dsimp only at isPass
    split at isPass
    · exact absurd isPass (Option.some_ne_none _).symm
    · rename_i ip image isWrite
      rcases file.writei isSize (by unfold writeMax at bound; omega) isWrite with
        ⟨_, rfl, rfl⟩ | ⟨isSome, _⟩
      · exact .inl ⟨none, (Option.some.inj isPass).symm, .inl rfl⟩
      · exact absurd isSome (Option.some_ne_none _).symm
    · rename_i r ip image isWrite
      rcases file.writei isSize (by unfold writeMax at bound; omega) isWrite with
        ⟨isNone, _⟩ | ⟨isSome, start, file', size'⟩
      · exact absurd isNone (Option.some_ne_none _)
      · rw [Option.some.injEq, isLength] at isSome
        subst isSome
        rw [if_pos bound.1, if_neg (not_not.2 rfl)] at isPass
        refine .inr ⟨(src.drop i).take r, ip, image, more, ?_, ?_, start, file', size', ?_⟩
        · rw [isLength]
        · rw [isLength]
          omega
        · rw [isLength]
          exact (Option.some.inj isPass).symm
  · refine .inl ⟨_, (Option.some.inj isPass).symm, ?_⟩
    split
    · rename_i atEnd
      exact .inr ⟨rfl, atEnd⟩
    · exact .inl rfl

/-- The offset, the chunks and the bytes of the file. -/
structure Sharing (sb : Superblock) (inum start : ℕ) (content : List Byte) (s : Shared ι) : Prop where
  file : FileHolds sb inum s.ip s.image (replay content s.chunks)
  size : s.ip.size = (replay content s.chunks).length
  off : s.off = start + (transferred s.chunks).length
  consecutive : Consecutive start s.chunks
  present : ((replay content s.chunks).take s.off).drop start = transferred s.chunks
  atEnd : start = content.length →
    s.off = (replay content s.chunks).length ∧ ∀ chunk ∈ s.chunks, chunk.call ≠ none

/-- The processes in the loop have written a part of their bytes, and those that have returned all of them. -/
structure Calls (s : Shared ι) : Prop where
  inLoop : ∀ p call src i, s.loop p = .writing call src i →
    s.sources[call]? = some src ∧ written s.chunks call = src.take i ∧ i ≤ src.length ∧ s.results call = none
  single : ∀ p q call src src' i i', s.loop p = .writing call src i → s.loop q = .writing call src' i' → p = q
  returned : ∀ call n, s.results call = some (some n) →
    s.sources[call]? = some (written s.chunks call) ∧ n = (written s.chunks call).length
  known : ∀ chunk ∈ s.chunks, ∀ call, chunk.call = some call → call < s.sources.length
  later : ∀ call ≥ s.sources.length, s.results call = none

variable {start : ℕ}

omit [DecidableEq ι] in
/-- A section that transfers nothing. -/
theorem Sharing.idle (sharing : Sharing sb inum start content s) (isIp : s'.ip = s.ip) (isImage : s'.image = s.image)
    (isOff : s'.off = s.off) (isChunks : s'.chunks = s.chunks) : Sharing sb inum start content s' := by
  refine ⟨?_, ?_, ?_, ?_, ?_, ?_⟩
  · rw [isIp, isImage, isChunks]
    exact sharing.file
  · rw [isIp, isChunks]
    exact sharing.size
  · rw [isOff, isChunks]
    exact sharing.off
  · rw [isChunks]
    exact sharing.consecutive
  · rw [isOff, isChunks]
    exact sharing.present
  · rw [isOff, isChunks]
    exact sharing.atEnd

omit [DecidableEq ι] in
/-- A section that transfers a chunk at the offset. -/
theorem Sharing.moved (sharing : Sharing sb inum start content s) (isOff : chunk.off = s.off)
    (file : FileHolds sb inum s'.ip s'.image (replay content (s.chunks ++ [chunk])))
    (size : s'.ip.size = (replay content (s.chunks ++ [chunk])).length)
    (taken : (replay content (s.chunks ++ [chunk])).take (s.off + chunk.bytes.length) =
      (replay content s.chunks).take s.off ++ chunk.bytes)
    (inside : s.off ≤ (replay content s.chunks).length)
    (atEnd : s.off = (replay content s.chunks).length →
      s.off + chunk.bytes.length = (replay content (s.chunks ++ [chunk])).length ∧ chunk.call ≠ none)
    (isOff' : s'.off = s.off + chunk.bytes.length) (isChunks : s'.chunks = s.chunks ++ [chunk]) :
    Sharing sb inum start content s' := by
  have above : start ≤ s.off := by
    rw [sharing.off]
    exact Nat.le_add_right _ _
  refine ⟨?_, ?_, ?_, ?_, ?_, fun isStart => ?_⟩
  · rw [isChunks]
    exact file
  · rw [isChunks]
    exact size
  · rw [isOff', isChunks, sharing.off, transferred_append, List.length_append, Nat.add_assoc]
  · rw [isChunks, consecutive_append]
    exact ⟨sharing.consecutive, isOff.trans sharing.off⟩
  · rw [isChunks, isOff', taken, transferred_append, List.drop_append_of_le_length, sharing.present]
    rw [List.length_take]
    omega
  · rcases sharing.atEnd isStart with ⟨isEnd, written⟩
    rw [isChunks, isOff']
    refine ⟨(atEnd isEnd).1, fun other isOther => ?_⟩
    rcases List.mem_append.1 isOther with old | new
    · exact written other old
    · rw [List.mem_singleton.1 new]
      exact (atEnd isEnd).2

/-- Every section keeps the offset, the chunks and the bytes of the file in step. -/
theorem Sharing.step (sharing : Sharing sb inum start content s) {label : Section ι} (argument : IntArgument label)
    (isStep : s.step devsw sb inum label = some s') : Sharing sb inum start content s' := by
  cases label with
  | read p n =>
      unfold Shared.step at isStep
      dsimp only at isStep
      split at isStep
      · rcases read_cases sharing.file sharing.size argument isStep with rfl | ⟨data, isData, some, inside, rfl⟩
        · exact sharing
        · have isReplay : replay content (s.chunks ++ [{ call := none, off := s.off, bytes := data }]) =
              replay content s.chunks := replay_append
          refine sharing.moved rfl ?_ ?_ ?_ inside (fun isEnd => ?_) rfl rfl
          · rw [isReplay]
            exact sharing.file
          · rw [isReplay]
            exact sharing.size
          · have isTaken : ((replay content s.chunks).drop s.off).take data.length = data := by
              rw [isData, List.take_eq_take_iff, List.length_take]
              omega
            rw [isReplay, List.take_add, isTaken]
          · rw [isEnd, List.drop_length, List.take_nil] at isData
            rw [isData] at some
            exact absurd some (lt_irrefl 0)
      · exact absurd isStep (Option.some_ne_none _).symm
  | write p src =>
      unfold Shared.step at isStep
      dsimp only at isStep
      split at isStep
      · have isS := Option.some.inj isStep
        subst isS
        unfold Shared.write
        dsimp only
        split
        · exact sharing.idle rfl rfl rfl rfl
        · exact sharing.idle rfl rfl rfl rfl
      · exact absurd isStep (Option.some_ne_none _).symm
  | pass p =>
      unfold Shared.step at isStep
      dsimp only at isStep
      split at isStep
      · exact absurd isStep (Option.some_ne_none _).symm
      · rename_i call src i isLoop
        rcases pass_cases sharing.file sharing.size isStep with
          ⟨r, rfl, _⟩ | ⟨piece, ip, image, more, isPiece, bound, inside, file, size, rfl⟩
        · exact sharing.idle rfl rfl rfl rfl
        · have isReplay : replay content (s.chunks ++ [{ call := some call, off := s.off, bytes := piece }]) =
              patch (replay content s.chunks) s.off piece := replay_append
          refine sharing.moved rfl ?_ ?_ ?_ inside (fun isEnd => ?_) rfl rfl
          · rw [isReplay]
            exact file
          · rw [isReplay]
            exact size
          · rw [isReplay]
            unfold patch
            rw [List.take_left']
            rw [List.length_append, List.length_take]
            dsimp only
            omega
          · rw [isReplay, length_patch _ inside]
            refine ⟨?_, Option.some_ne_none _⟩
            dsimp only
            omega

omit [DecidableEq ι] in
/-- A call that has not begun has written nothing. -/
theorem Calls.written_later (calls : Calls s) (later : s.sources.length ≤ call) : written s.chunks call = [] := by
  unfold written
  have none : s.chunks.filter (·.call = some call) = [] := by
    rw [List.filter_eq_nil_iff]
    intro chunk member isCall
    have known := calls.known chunk member call (of_decide_eq_true isCall)
    omega
  rw [none]
  rfl

omit [DecidableEq ι] in
/-- A section that reads. -/
theorem Calls.read (calls : Calls s) (isLoop : s'.loop = s.loop) (isSources : s'.sources = s.sources)
    (isResults : s'.results = s.results) (notWritten : ∀ call, written s'.chunks call = written s.chunks call)
    (known : ∀ chunk ∈ s'.chunks, ∀ call, chunk.call = some call → call < s.sources.length) : Calls s' := by
  refine ⟨?_, ?_, ?_, ?_, ?_⟩
  · simp only [isLoop, isSources, isResults, notWritten]
    exact calls.inLoop
  · simp only [isLoop]
    exact calls.single
  · simp only [isSources, isResults, notWritten]
    exact calls.returned
  · rw [isSources]
    exact known
  · rw [isSources, isResults]
    exact calls.later

/-- A call begins. -/
theorem Calls.write (calls : Calls s) (isOut : s.loop p = .out) : Calls (s.write p src) := by
  have older : ∀ {call : ℕ} {other : List Byte}, s.sources[call]? = some other →
      (s.sources ++ [src])[call]? = some other := by
    intro call other isSource
    rw [List.getElem?_append_left (List.getElem?_eq_some_iff.1 isSource).1]
    exact isSource
  have isNew : (s.sources ++ [src])[s.sources.length]? = some src := List.getElem?_concat_length
  have isLength : (s.sources ++ [src]).length = s.sources.length + 1 := List.length_append
  have number : (s.sources ++ [src]).length - 1 = s.sources.length := by
    rw [isLength]
    exact Nat.add_sub_cancel _ _
  have known : ∀ chunk ∈ s.chunks, ∀ call, chunk.call = some call → call < (s.sources ++ [src]).length := by
    intro chunk member call isCall
    have old := calls.known chunk member call isCall
    omega
  have before : ∀ {p call src i}, s.loop p = .writing call src i → call < s.sources.length :=
    fun isLoop => (List.getElem?_eq_some_iff.1 (calls.inLoop _ _ _ _ isLoop).1).1
  unfold Shared.write
  dsimp only
  rw [number]
  split
  · refine ⟨fun q call other i isLoop => ?_, calls.single, fun call n isResult => ?_, known, fun call later => ?_⟩
    · rcases calls.inLoop q call other i isLoop with ⟨isSource, isWritten, bound, notReturned⟩
      have less := before isLoop
      refine ⟨older isSource, isWritten, bound, ?_⟩
      dsimp only
      rw [Function.update_of_ne less.ne]
      exact notReturned
    · dsimp only at isResult
      rw [Function.update_apply] at isResult
      split at isResult
      · exact absurd (Option.some.inj isResult) (Option.some_ne_none n).symm
      · rcases calls.returned call n isResult with ⟨isSource, isLength'⟩
        exact ⟨older isSource, isLength'⟩
    · dsimp only at later ⊢
      rw [Function.update_of_ne (by omega)]
      exact calls.later call (by omega)
  · refine ⟨fun q call other i isLoop => ?_, fun q q' call other other' i i' isLoop isLoop' => ?_,
      fun call n isResult => ?_, known, fun call later => calls.later call (by dsimp only at later; omega)⟩
    · dsimp only at isLoop
      by_cases isP : q = p
      · subst isP
        rw [Function.update_self, Loop.writing.injEq] at isLoop
        rcases isLoop with ⟨rfl, rfl, rfl⟩
        exact ⟨isNew, calls.written_later le_rfl, Nat.zero_le _, calls.later _ le_rfl⟩
      · rw [Function.update_of_ne isP] at isLoop
        rcases calls.inLoop q call other i isLoop with ⟨isSource, isWritten, bound, notReturned⟩
        exact ⟨older isSource, isWritten, bound, notReturned⟩
    · dsimp only at isLoop isLoop'
      by_cases isP : q = p
      · by_cases isP' : q' = p
        · exact isP.trans isP'.symm
        · rw [isP, Function.update_self, Loop.writing.injEq] at isLoop
          rw [Function.update_of_ne isP'] at isLoop'
          have less := before isLoop'
          omega
      · by_cases isP' : q' = p
        · rw [isP', Function.update_self, Loop.writing.injEq] at isLoop'
          rw [Function.update_of_ne isP] at isLoop
          have less := before isLoop
          omega
        · rw [Function.update_of_ne isP] at isLoop
          rw [Function.update_of_ne isP'] at isLoop'
          exact calls.single q q' call other other' i i' isLoop isLoop'
    · rcases calls.returned call n isResult with ⟨isSource, isLength'⟩
      exact ⟨older isSource, isLength'⟩

/-- A call returns. -/
theorem Calls.finish (calls : Calls s) (isLoop : s.loop p = .writing call src i) {r : Option ℕ}
    (result : r = none ∨ r = some src.length ∧ i = src.length) : Calls (s.finish p call r) := by
  rcases calls.inLoop p call src i isLoop with ⟨isSource, isWritten, bound, notReturned⟩
  have others : ∀ q call' src' i', Function.update s.loop p .out q = .writing call' src' i' →
      s.loop q = .writing call' src' i' ∧ call' ≠ call := by
    intro q call' src' i' isLoop'
    by_cases isP : q = p
    · rw [isP, Function.update_self] at isLoop'
      exact Loop.noConfusion isLoop'
    · rw [Function.update_of_ne isP] at isLoop'
      refine ⟨isLoop', ?_⟩
      rintro rfl
      exact isP (calls.single q p _ _ _ _ _ isLoop' isLoop)
  refine ⟨fun q call' src' i' isLoop' => ?_, fun q q' call' src' src'' i' i'' first second => ?_,
    fun call' n isResult => ?_, calls.known, fun call' later => ?_⟩
  · rcases others q call' src' i' isLoop' with ⟨old, different⟩
    rcases calls.inLoop q call' src' i' old with ⟨isSource', isWritten', bound', notReturned'⟩
    refine ⟨isSource', isWritten', bound', ?_⟩
    exact (Function.update_of_ne different _ _).trans notReturned'
  · exact calls.single q q' call' src' src'' i' i'' (others _ _ _ _ first).1 (others _ _ _ _ second).1
  · by_cases isCall : call' = call
    · subst isCall
      have isUpdate : Function.update s.results call' (some r) call' = some (some n) := isResult
      rw [Function.update_self] at isUpdate
      have isR : r = some n := Option.some.inj isUpdate
      rcases result with rfl | ⟨rfl, rfl⟩
      · exact absurd isR (Option.some_ne_none n).symm
      · rw [List.take_length] at isWritten
        refine ⟨?_, ?_⟩
        · exact isSource.trans (congrArg some isWritten.symm)
        · rw [← Option.some.inj isR]
          exact congrArg List.length isWritten.symm
    · exact calls.returned call' n ((Function.update_of_ne isCall _ _).symm.trans isResult)
  · have less := (List.getElem?_eq_some_iff.1 isSource).1
    have different : call' ≠ call := (less.trans_le later).ne'
    exact (Function.update_of_ne different _ _).trans (calls.later call' later)

/-- A call writes a piece. -/
theorem Calls.wrote (calls : Calls s) (isLoop : s.loop p = .writing call src i) {piece : List Byte}
    (isPiece : piece = (src.drop i).take piece.length) (inside : i + piece.length ≤ src.length)
    (isCall : chunk.call = some call) (isBytes : chunk.bytes = piece) (isSources : s'.sources = s.sources)
    (isResults : s'.results = s.results)
    (isLoop' : s'.loop = Function.update s.loop p (.writing call src (i + piece.length)))
    (isChunks : s'.chunks = s.chunks ++ [chunk]) : Calls s' := by
  rcases calls.inLoop p call src i isLoop with ⟨isSource, isWritten, bound, notReturned⟩
  have others : ∀ call' ≠ call, written s'.chunks call' = written s.chunks call' := by
    intro call' different
    rw [isChunks]
    refine written_append_other fun same => different ?_
    rw [isCall] at same
    exact (Option.some.inj same).symm
  have self : written s'.chunks call = src.take (i + piece.length) := by
    rw [isChunks, written_append_self isCall, isWritten, isBytes, List.take_add, ← isPiece]
  have places : ∀ q call' src' i', s'.loop q = .writing call' src' i' →
      q = p ∧ call' = call ∧ src' = src ∧ i' = i + piece.length ∨
      s.loop q = .writing call' src' i' ∧ call' ≠ call := by
    intro q call' src' i' isPlace
    rw [isLoop'] at isPlace
    by_cases isP : q = p
    · rw [isP, Function.update_self, Loop.writing.injEq] at isPlace
      exact .inl ⟨isP, isPlace.1.symm, isPlace.2.1.symm, isPlace.2.2.symm⟩
    · rw [Function.update_of_ne isP] at isPlace
      refine .inr ⟨isPlace, ?_⟩
      rintro rfl
      exact isP (calls.single q p _ _ _ _ _ isPlace isLoop)
  refine ⟨fun q call' src' i' isPlace => ?_, fun q q' call' src' src'' i' i'' first second => ?_,
    fun call' n isResult => ?_, fun other member call' isOther => ?_, ?_⟩
  · rw [isSources, isResults]
    rcases places q call' src' i' isPlace with ⟨rfl, rfl, rfl, rfl⟩ | ⟨old, different⟩
    · exact ⟨isSource, self, inside, notReturned⟩
    · rw [others call' different]
      exact calls.inLoop q call' src' i' old
  · rcases places q call' src' i' first with ⟨rfl, rfl, rfl, rfl⟩ | ⟨old, different⟩
    · rcases places q' _ src'' i'' second with ⟨rfl, _⟩ | ⟨_, different'⟩
      · rfl
      · exact absurd rfl different'
    · rcases places q' call' src'' i'' second with ⟨_, same, _⟩ | ⟨old', _⟩
      · exact absurd same different
      · exact calls.single q q' call' src' src'' i' i'' old old'
  · rw [isResults] at isResult
    have different : call' ≠ call := by
      rintro rfl
      rw [notReturned] at isResult
      exact absurd isResult (Option.some_ne_none _).symm
    rw [isSources, others call' different]
    exact calls.returned call' n isResult
  · rw [isSources]
    rw [isChunks] at member
    rcases List.mem_append.1 member with old | new
    · exact calls.known other old call' isOther
    · rw [List.mem_singleton.1 new, isCall] at isOther
      rw [← Option.some.inj isOther]
      exact (List.getElem?_eq_some_iff.1 isSource).1
  · rw [isSources, isResults]
    exact calls.later

/-- Every section keeps the calls and what they have written in step. -/
theorem Calls.step (calls : Calls s) (sharing : Sharing sb inum start content s) {label : Section ι}
    (argument : IntArgument label) (isStep : s.step devsw sb inum label = some s') : Calls s' := by
  cases label with
  | read p n =>
      unfold Shared.step at isStep
      dsimp only at isStep
      split at isStep
      · rcases read_cases sharing.file sharing.size argument isStep with rfl | ⟨data, _, _, _, rfl⟩
        · exact calls
        · refine calls.read rfl rfl rfl (fun call => written_append_other (Option.some_ne_none call).symm) ?_
          intro chunk member call isCall
          rcases List.mem_append.1 member with old | new
          · exact calls.known chunk old call isCall
          · rw [List.mem_singleton.1 new] at isCall
            exact absurd isCall (Option.some_ne_none call).symm
      · exact absurd isStep (Option.some_ne_none _).symm
  | write p src =>
      unfold Shared.step at isStep
      dsimp only at isStep
      split at isStep
      · rename_i isOut
        rw [← Option.some.inj isStep]
        exact calls.write isOut
      · exact absurd isStep (Option.some_ne_none _).symm
  | pass p =>
      unfold Shared.step at isStep
      dsimp only at isStep
      split at isStep
      · exact absurd isStep (Option.some_ne_none _).symm
      · rename_i call src i isLoop
        rcases pass_cases sharing.file sharing.size isStep with
          ⟨r, rfl, result⟩ | ⟨piece, ip, image, more, isPiece, inside, _, _, _, rfl⟩
        · exact calls.finish isLoop result
        · exact calls.wrote isLoop isPiece inside rfl rfl rfl rfl rfl rfl

/-! ## Runs -/

/-- The file when no call has begun. -/
def opened (readable writable : Bool) (off : ℕ) (ip : Dinode) (image : ℕ → Block) : Shared ι :=
  { readable, writable, off, ip, image }

/-- The chunks occupy consecutive ranges of the file, in the order of the sections. -/
structure OffsetLaw (sb : Superblock) (inum start : ℕ) (content : List Byte) (s : Shared ι) : Prop where
  off : s.off = start + (transferred s.chunks).length
  consecutive : Consecutive start s.chunks
  file : FileHolds sb inum s.ip s.image (replay content s.chunks)
  size : s.ip.size = (replay content s.chunks).length
  present : ∀ chunk ∈ s.chunks,
    ((replay content s.chunks).drop chunk.off).take chunk.bytes.length = chunk.bytes
  returned : ∀ call n, s.results call = some (some n) →
    s.sources[call]? = some (written s.chunks call) ∧ n = (written s.chunks call).length
  appended : ∀ m, content = [] → start = 0 → (∀ call < s.sources.length, s.results call = some (some m)) →
    replay content s.chunks = transferred s.chunks ∧
    (replay content s.chunks).length = s.sources.length * m ∧
    ∀ call, (isCall : call < s.sources.length) → written s.chunks call = s.sources[call]

/-- A chunk is where its offset says. -/
theorem consecutive_present (following : Consecutive off chunks) (member : chunk ∈ chunks) :
    off ≤ chunk.off ∧ chunk.off + chunk.bytes.length ≤ off + (transferred chunks).length ∧
      ((transferred chunks).drop (chunk.off - off)).take chunk.bytes.length = chunk.bytes := by
  induction chunks generalizing off with
  | nil => exact absurd member List.not_mem_nil
  | cons first chunks ih =>
      rcases following with ⟨isFirst, following⟩
      have split : transferred (first :: chunks) = first.bytes ++ transferred chunks := List.flatMap_cons
      have isLength : (transferred (first :: chunks)).length = first.bytes.length + (transferred chunks).length := by
        rw [split, List.length_append]
      rcases List.mem_cons.1 member with rfl | later
      · refine ⟨isFirst.ge, by omega, ?_⟩
        rw [split, isFirst, Nat.sub_self, List.drop_zero, List.take_left]
      · rcases ih following later with ⟨above, below, isBytes⟩
        refine ⟨by omega, by omega, ?_⟩
        rw [split, List.drop_append, List.drop_eq_nil_of_le (by omega), List.nil_append]
        have position : chunk.off - off - first.bytes.length = chunk.off - (off + first.bytes.length) := by omega
        rw [position]
        exact isBytes

/-- All that has been written, call by call. -/
theorem length_transferred (count : ℕ) (known : ∀ chunk ∈ chunks, ∃ call < count, chunk.call = some call) :
    (transferred chunks).length = ∑ call ∈ Finset.range count, (written chunks call).length := by
  induction chunks with
  | nil =>
      unfold written
      simp [transferred]
  | cons first chunks ih =>
      rcases known first (List.mem_cons_self ..) with ⟨call, less, isCall⟩
      have each : ∀ other, (written (first :: chunks) other).length =
          (written chunks other).length + if other = call then first.bytes.length else 0 := by
        intro other
        unfold written
        rw [List.filter_cons]
        by_cases same : other = call
        · rw [if_pos (decide_eq_true (same ▸ isCall)), if_pos same]
          unfold transferred
          rw [List.flatMap_cons, List.length_append, Nat.add_comm]
        · have isOther : first.call ≠ some other := by
            rw [isCall]
            exact fun both => same (Option.some.inj both).symm
          rw [if_neg (by simp [isOther]), if_neg same, Nat.add_zero]
      have split : transferred (first :: chunks) = first.bytes ++ transferred chunks := List.flatMap_cons
      rw [split, List.length_append, ih fun chunk member => known chunk (List.mem_cons_of_mem _ member)]
      simp only [each]
      rw [Finset.sum_add_distrib, Finset.sum_ite_eq', if_pos (Finset.mem_range.2 less), Nat.add_comm]

omit [DecidableEq ι] in
theorem Sharing.law (sharing : Sharing sb inum start content s) (calls : Calls s) :
    OffsetLaw sb inum start content s := by
  refine ⟨sharing.off, sharing.consecutive, sharing.file, sharing.size, fun chunk member => ?_, calls.returned,
    fun m empty zero success => ?_⟩
  · rcases consecutive_present sharing.consecutive member with ⟨above, below, isBytes⟩
    rw [← sharing.off] at below
    have isRange : (transferred s.chunks).drop (chunk.off - start) =
        ((replay content s.chunks).drop chunk.off).take (s.off - chunk.off) := by
      rw [← sharing.present, List.drop_drop, Nat.add_sub_cancel' above, List.drop_take]
    rw [isRange, List.take_take, Nat.min_eq_left (by omega)] at isBytes
    exact isBytes
  · have atEnd := sharing.atEnd (by rw [zero, empty]; rfl)
    have isAll := sharing.present
    rw [atEnd.1, zero, List.take_length, List.drop_zero] at isAll
    have isWritten : ∀ call, (isCall : call < s.sources.length) →
        written s.chunks call = s.sources[call] ∧ (written s.chunks call).length = m := by
      intro call isCall
      rcases calls.returned call m (success call isCall) with ⟨isSource, isLength⟩
      rw [List.getElem?_eq_getElem isCall] at isSource
      exact ⟨(Option.some.inj isSource).symm, isLength.symm⟩
    refine ⟨isAll, ?_, fun call isCall => (isWritten call isCall).1⟩
    rw [isAll, length_transferred s.sources.length]
    · rw [Finset.sum_congr rfl fun call isCall => (isWritten call (Finset.mem_range.1 isCall)).2, Finset.sum_const,
        Finset.card_range, smul_eq_mul]
    · intro chunk member
      rcases Option.ne_none_iff_exists'.1 (atEnd.2 chunk member) with ⟨call, isCall⟩
      exact ⟨call, calls.known chunk member call isCall, isCall⟩

/-- What holds in every state of a run. -/
theorem Runs.sharing {readable writable : Bool} {ip : Dinode} {image : ℕ → Block}
    (runs : Runs devsw sb inum (opened readable writable off ip image) s) (file : FileHolds sb inum ip image content)
    (isSize : ip.size = content.length) : Sharing sb inum off content s ∧ Calls s := by
  refine Reachable.invariant runs (fun s => Sharing sb inum off content s ∧ Calls s) ⟨?_, ?_⟩
    fun _ inv argument taken => ⟨inv.1.step argument taken, inv.2.step inv.1 argument taken⟩
  · refine ⟨file, isSize, rfl, trivial, ?_, fun isStart => ⟨isStart, fun _ member => absurd member List.not_mem_nil⟩⟩
    exact List.drop_eq_nil_of_le (List.length_take_le _ _)
  · refine ⟨fun p call src i isLoop => Loop.noConfusion isLoop, fun p q call src src' i i' isLoop =>
      Loop.noConfusion isLoop, fun call n isResult => absurd isResult (Option.some_ne_none _).symm,
      fun _ member => absurd member List.not_mem_nil, fun _ _ => rfl⟩

/-- The law of the shared offset. -/
theorem shared_offset (devsw : Devsw) (sb : Superblock) (inum : ℕ) (readable writable : Bool) (off : ℕ) (ip : Dinode)
    (image : ℕ → Block) (content : List Byte) (file : FileHolds sb inum ip image content)
    (isSize : ip.size = content.length) (s : Shared ι)
    (runs : Runs devsw sb inum (opened readable writable off ip image) s) :
    OffsetLaw sb inum off content s := by
  rcases runs.sharing file isSize with ⟨sharing, calls⟩
  exact sharing.law calls

/-- A disk with one block of bitmap, number 3. -/
def sizedDisk (size : ℕ) : Superblock :=
  { size, nblocks := 4, ninodes := 8, nlog := 0, logstart := 2, inodestart := 2, bmapstart := 3 }

/-- A disk of eight blocks, of which the first four are in use. -/
def eightBlocks : Superblock := sizedDisk 8

def fourUsed (b : ℕ) : Block := if b = 3 then (List.range 4).foldl setBit zeroes else zeroes

def emptyFile : Dinode := { type := 2, nlink := 1 }

theorem inUse_fourUsed {size b : ℕ} (bound : size ≤ bpb) (less : b < size) :
    inUse (sizedDisk size) fourUsed b = decide (b < 4) := by
  have isBitmap : bblock b (sizedDisk size) = 3 := by
    unfold bblock
    rw [Nat.div_eq_of_lt (less.trans_le bound)]
    rfl
  have isBit : b % bpb = b := Nat.mod_eq_of_lt (less.trans_le bound)
  unfold inUse fourUsed
  rw [isBitmap, if_pos rfl, bit_setBits, isBit]

/-- An inode without blocks. -/
theorem sizedDisk_noBlocks {size : ℕ} (bound : size ≤ bpb) {ip : Dinode} (none : ip.addrs = fun _ => 0)
    (notDevice : ip.type ≠ tDev) : FileHolds (sizedDisk size) 1 ip fourUsed [] := by
  have isBitmap : ∀ c < size, bblock c (sizedDisk size) = 3 := by
    intro c less
    unfold bblock
    rw [Nat.div_eq_of_lt (less.trans_le bound)]
    rfl
  have isInode : iblock 1 (sizedDisk size) = 2 := rfl
  refine ⟨bound.trans (by decide), fun c less => ?_, fun b less isMeta => ?_,
    fun k _ has => absurd (slot_none none) has, ⟨∅, ?_⟩, ?_, notDevice⟩
  · rw [isBitmap c less, isInode]
    decide
  · have small : b < 4 := by
      rcases isMeta with rfl | rfl | ⟨c, inside, rfl⟩
      · decide
      · rw [isInode]
        decide
      · rw [isBitmap c inside]
        decide
    rw [inUse_fourUsed bound less]
    exact decide_eq_true small
  · refine ⟨fun x => ⟨fun member => absurd member (Set.notMem_empty x), ?_⟩, fun i _ j _ k _ l _ _ has =>
      absurd (slot_none none) has⟩
    rintro ⟨notZero, i, _, k, _, isX⟩
    rw [slot_none none] at isX
    exact absurd isX.symm notZero
  · exact ⟨fun _ _ m less => absurd less (Nat.not_lt_zero m), fun _ _ m less => absurd less (Nat.not_lt_zero m),
      fun _ _ => Nat.zero_le _⟩

theorem sizedDisk_emptyFile {size : ℕ} (bound : size ≤ bpb) : FileHolds (sizedDisk size) 1 emptyFile fourUsed [] :=
  sizedDisk_noBlocks bound rfl (by decide)

theorem emptyFile_holds : FileHolds eightBlocks 1 emptyFile fourUsed [] := sizedDisk_emptyFile (by decide)

/-- One of two processes writes two bytes. -/
theorem shared_offset_twoBytes : ∃ s : Shared (Fin 2),
    Runs ⟨fun _ _ => none, fun _ _ => none⟩ eightBlocks 1 (opened true true 0 emptyFile fourUsed) s ∧
    s.off = 2 ∧ OffsetLaw eightBlocks 1 0 [] s := by
  let devsw : Devsw := ⟨fun _ _ => none, fun _ _ => none⟩
  let start : Shared (Fin 2) := opened true true 0 emptyFile fourUsed
  have isPass : ((start.write 0 [1, 2]).step devsw eightBlocks 1 (.pass 0)).map Shared.off = some 2 := by
    decide +kernel
  rcases Option.map_eq_some_iff.1 isPass with ⟨s, taken, isOff⟩
  have entered : start.step devsw eightBlocks 1 (.write 0 [1, 2]) = some (start.write 0 [1, 2]) := rfl
  have argument : IntArgument (.write (0 : Fin 2) [1, 2]) := by
    unfold IntArgument
    decide
  have first : Runs devsw eightBlocks 1 start (start.write 0 [1, 2]) :=
    Reachable.refl.next argument entered
  have argument' : IntArgument (.pass (0 : Fin 2)) := trivial
  have runs : Runs devsw eightBlocks 1 start s := Reachable.next first argument' taken
  exact ⟨s, runs, isOff, shared_offset devsw eightBlocks 1 true true 0 emptyFile fourUsed [] emptyFile_holds rfl s runs⟩

end Xv6.Fs
