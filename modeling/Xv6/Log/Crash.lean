import Xv6.Log.Admission

/-!
# Crash recovery

A group of changes is committed by one disk write, that of the header. From then on the log blocks
hold the new content of every block in the header, until the next header write, which comes after
all of them have been installed. So `Recoverable` holds of the disk at any time, and this is all
that `recover_from_log` needs.
-/

namespace Xv6.Log

open Transition RedoLog

variable {log : Layout} {s t : State} {e : Event} {o b : ℕ} {disk₀ content : ℕ → Block}

/-- The disk writes that install the changes. -/
def updates (changes : List Write) : List (ℕ × Block) :=
  changes.map fun change => (change.blockno, change.data)

/-- The blocks after all groups of changes that have been committed. -/
def State.base (disk₀ : ℕ → Block) (s : State) : ℕ → Block :=
  install (updates s.groups.flatten) disk₀

@[simp]
theorem decode_encode (lh : List ℕ) (hb : Block) : decode (encode lh hb) = lh := by
  apply List.ext_getElem
  · simp [decode, encode]
  · intro i inside inside'
    simp [decode, encode, inside']

/-- What the disk holds at any time, with the content of the blocks after the committed changes. -/
structure Recoverable (log : Layout) (content disk : ℕ → Block) : Prop where
  home : ∀ b ∈ decode (disk log.start), log.Home b
  room : (decode (disk log.start)).length ≤ log.size - 1
  logged : ∀ i b, (decode (disk log.start))[i]? = some b → disk (log.start + i + 1) = content b
  rest : ∀ b, log.Home b → b ∉ decode (disk log.start) → disk b = content b

theorem Layout.Home.ne_start (home : log.Home b) : b ≠ log.start := by
  have size := log.header
  unfold Layout.Home at home
  omega

theorem Layout.Home.ne_log {i : ℕ} (home : log.Home b) (inside : i + 1 < log.size) :
    b ≠ log.start + i + 1 := by
  unfold Layout.Home at home
  omega

theorem Recoverable.of_clean {disk : ℕ → Block} (clean : decode (disk log.start) = [])
    (same : ∀ b, log.Home b → disk b = content b) : Recoverable log content disk := by
  refine ⟨?_, ?_, ?_, ?_⟩
  · simp [clean]
  · simp [clean]
  · simp [clean]
  · exact fun b home _ => same b home

/-- The buffers that are dirty. -/
def State.pinned (s : State) : List ℕ :=
  match s.phase with
  | .installTrans tail => s.lh.drop tail
  | .readHead | .eraseHead => []
  | _ => s.lh

/-- Every buffer holds what the operations have made of its block. -/
def Contents (log : Layout) (disk₀ : ℕ → Block) (s : State) : Prop :=
  ∀ b, log.Home b → (∀ o, s.logging o ≠ some b) →
    s.read b = install (updates s.group) (s.base disk₀) b

/-- The first blocks of the header have been copied to the log. -/
def Copied (log : Layout) (s : State) (tail : ℕ) : Prop :=
  ∀ i b, i < tail → s.lh[i]? = some b → s.disk (log.start + i + 1) = s.read b

/-- What holds of the disk and the buffers in a phase. -/
def Progress (log : Layout) (disk₀ : ℕ → Block) (s : State) : Phase → Prop
  | .ready => decode (s.disk log.start) = [] ∧ Contents log disk₀ s
  | .readHead => s.group = []
  | .writeLog tail => decode (s.disk log.start) = [] ∧ Contents log disk₀ s ∧
      Copied log s tail ∧ tail < s.lh.length
  | .writeHead => decode (s.disk log.start) = [] ∧ Contents log disk₀ s ∧
      Copied log s s.lh.length ∧ 0 < s.lh.length
  | .installTrans tail => s.group = [] ∧ decode (s.disk log.start) = s.lh ∧
      (∀ i b, i < tail → s.lh[i]? = some b → s.disk b = s.base disk₀ b) ∧ tail < s.lh.length
  | .eraseHead => s.group = [] ∧ ∀ b, log.Home b → s.disk b = s.base disk₀ b
  | .done => s.group = [] ∧ s.lh = [] ∧ decode (s.disk log.start) = []

/-- A buffer that is not dirty agrees with the disk, but for one that an operation has locked. -/
def Clean (s : State) : Prop :=
  ∀ b buf, s.cache b = some buf → buf.dirty = false → (∀ o, s.logging o ≠ some b) →
    buf.data = s.disk b

/-- The invariant of all runs. -/
structure CrashInv (log : Layout) (disk₀ : ℕ → Block) (s : State) : Prop where
  control : Control s
  recoverable : Recoverable log (s.base disk₀) s.disk
  home : ∀ b ∈ s.lh, log.Home b
  room : s.lh.length ≤ log.size - 1
  locked : ∀ o b, s.logging o = some b → log.Home b
  clean : Clean s
  pinned : ∀ b, s.dirty b = true → b ∈ s.pinned
  changed : ∀ change ∈ s.group, change.blockno ∈ s.lh
  progress : Progress log disk₀ s s.phase

/-! ## Buffers -/

theorem read_modify (s : State) (b b' : ℕ) (data : Block) (dirty : Bool) :
    (s.modify b data dirty).read b' = if b' = b then data else s.read b' := by
  unfold State.read State.modify
  by_cases same : b' = b
  · simp [same]
  · simp [same]

theorem read_bwrite (s : State) (b b' : ℕ) (data : Block) :
    (s.bwrite b data).read b' = if b' = b then data else s.read b' := by
  unfold State.read State.bwrite State.modify
  by_cases same : b' = b
  · simp [same]
  · simp [same]

theorem dirty_modify (s : State) (b b' : ℕ) (data : Block) (dirty : Bool) :
    (s.modify b data dirty).dirty b' = if b' = b then dirty else s.dirty b' := by
  unfold State.dirty State.modify
  by_cases same : b' = b
  · simp [same]
  · simp [same]

theorem dirty_bwrite (s : State) (b b' : ℕ) (data : Block) :
    (s.bwrite b data).dirty b' = if b' = b then false else s.dirty b' :=
  dirty_modify s b b' data false

theorem dirty_of_bwrite {data : Block} {b' : ℕ} (dirty : (s.bwrite b data).dirty b' = true) :
    b' ≠ b ∧ s.dirty b' = true := by
  rw [dirty_bwrite] at dirty
  split at dirty
  · cases dirty
  · rename_i different
    exact ⟨different, dirty⟩

theorem Clean.bwrite (clean : Clean s) (b : ℕ) (data : Block) : Clean (s.bwrite b data) := by
  intro b' buf cached notDirty unlocked
  by_cases same : b' = b
  · subst same
    simp only [bwrite_fields, Function.update_self, Option.some.injEq] at cached ⊢
    rw [← cached]
  · simp only [bwrite_fields, Function.update_of_ne same] at cached unlocked ⊢
    exact clean b' buf cached notDirty unlocked

theorem CrashInv.idle (inv : CrashInv log disk₀ s) (busy : s.phase ≠ .ready) (o b : ℕ) :
    s.logging o ≠ some b := by
  intro holds
  have running := inv.control.caller o b holds
  rw [inv.control.busy busy] at running
  exact List.not_mem_nil running

/-- A buffer that is not pinned can be read from the disk as well. -/
theorem CrashInv.read_eq (inv : CrashInv log disk₀ s) (busy : s.phase ≠ .ready)
    (unpinned : b ∉ s.pinned) : s.read b = s.disk b := by
  have notDirty : s.dirty b = false :=
    Bool.eq_false_iff.mpr fun dirty => unpinned (inv.pinned b dirty)
  unfold State.read
  split
  · rename_i buf cached
    apply inv.clean b buf cached
    · simpa [State.dirty, cached] using notDirty
    · exact fun o => inv.idle busy o b
  · rfl

theorem CrashInv.pinned_home (inv : CrashInv log disk₀ s) (member : b ∈ s.pinned) :
    log.Home b := by
  apply inv.home
  unfold State.pinned at member
  split at member
  · exact List.mem_of_mem_drop member
  · exact absurd member List.not_mem_nil
  · exact absurd member List.not_mem_nil
  · exact member

/-- The blocks of the log are read as they are on disk. -/
theorem CrashInv.read_log {i : ℕ} (inv : CrashInv log disk₀ s) (busy : s.phase ≠ .ready)
    (inside : i + 1 < log.size) : s.read (log.start + i + 1) = s.disk (log.start + i + 1) :=
  inv.read_eq busy fun member => (inv.pinned_home member).ne_log inside rfl

theorem CrashInv.home_getD (inv : CrashInv log disk₀ s) {tail : ℕ} (inside : tail < s.lh.length) :
    s.lh[tail]? = some (s.lh.getD tail 0) ∧ log.Home (s.lh.getD tail 0) := by
  have here : s.lh.getD tail 0 = s.lh[tail] := by simp [inside]
  rw [here]
  exact ⟨List.getElem?_eq_getElem inside, inv.home _ (List.getElem_mem inside)⟩

/-! ## The disk writes of `commit` and recovery -/

theorem CrashInv.writeLog {tail : ℕ} (inv : CrashInv log disk₀ s) (phase : s.phase = .writeLog tail)
    (control' : Control (writeLog log s tail)) : CrashInv log disk₀ (writeLog log s tail) := by
  have progress := inv.progress
  rw [phase] at progress
  rcases progress with ⟨empty, contents, copied, inside⟩
  have size : tail + 1 < log.size := by
    have room := inv.room
    omega
  have pinned : s.pinned = s.lh := by simp [State.pinned, phase]
  have pinned' : (Log.writeLog log s tail).pinned = s.lh := by
    unfold State.pinned Log.writeLog
    dsimp only
    by_cases more : tail + 1 < s.lh.length
    · simp [more]
    · simp [more]
  have source := inv.home_getD inside
  -- the home blocks and the header are not touched
  have homeDisk : ∀ b, log.Home b → (Log.writeLog log s tail).disk b = s.disk b := fun b home =>
    Function.update_of_ne (home.ne_log size) _ _
  have homeRead : ∀ b, log.Home b → (Log.writeLog log s tail).read b = s.read b := fun b home =>
    (read_bwrite s _ b _).trans (if_neg (home.ne_log size))
  have head : (Log.writeLog log s tail).disk log.start = s.disk log.start :=
    Function.update_of_ne (by omega) _ _
  have empty' : decode ((Log.writeLog log s tail).disk log.start) = [] := by rw [head, empty]
  have contents' : Contents log disk₀ (Log.writeLog log s tail) := fun b home unlocked =>
    (homeRead b home).trans (contents b home unlocked)
  have copied' : Copied log (Log.writeLog log s tail) (tail + 1) := by
    intro i b before here
    rw [homeRead b (inv.home b (List.mem_of_getElem? here))]
    by_cases last : i = tail
    · subst last
      have same : s.lh.getD i 0 = b := Option.some.inj (source.1.symm.trans here)
      exact (Function.update_self _ _ _).trans (congrArg s.read same)
    · exact (Function.update_of_ne (by omega) _ _).trans (copied i b (by omega) here)
  refine ⟨control', ?_, inv.home, inv.room, inv.locked, inv.clean.bwrite _ _, ?_, inv.changed, ?_⟩
  · apply Recoverable.of_clean empty'
    intro b home
    rw [homeDisk b home]
    exact inv.recoverable.rest b home (by simp [empty])
  · intro b dirty
    rw [pinned', ← pinned]
    exact inv.pinned b (dirty_of_bwrite dirty).2
  · unfold Log.writeLog at empty' contents' copied' ⊢
    dsimp only
    split
    · rename_i more
      exact ⟨empty', contents', copied', more⟩
    · have all : tail + 1 = s.lh.length := by omega
      exact ⟨empty', contents', all ▸ copied', Nat.lt_of_le_of_lt (Nat.zero_le _) inside⟩

/-- The commit: with the header on disk the changes count. -/
theorem CrashInv.writeHead (inv : CrashInv log disk₀ s) (phase : s.phase = .writeHead)
    (control' : Control (writeHead log s)) : CrashInv log disk₀ (writeHead log s) := by
  have busy : s.phase ≠ .ready := by simp [phase]
  have progress := inv.progress
  rw [phase] at progress
  rcases progress with ⟨empty, contents, copied, nonempty⟩
  have room := inv.room
  have pinned : s.pinned = s.lh := by simp [State.pinned, phase]
  have head : decode ((Log.writeHead log s).disk log.start) = s.lh := by
    have written : (Log.writeHead log s).disk log.start = encode s.lh (s.read log.start) :=
      Function.update_self _ _ _
    rw [written, decode_encode]
  have base : (Log.writeHead log s).base disk₀ =
      install (updates s.group) (s.base disk₀) := by
    simp [State.base, Log.writeHead, updates, install_append]
  have homeDisk : ∀ b, log.Home b → (Log.writeHead log s).disk b = s.disk b := fun b home =>
    Function.update_of_ne (home.ne_start) _ _
  refine ⟨control', ?_, inv.home, room, inv.locked, inv.clean.bwrite _ _, ?_, ?_, ?_⟩
  · refine ⟨?_, ?_, ?_, ?_⟩
    · rw [head]
      exact inv.home
    · rw [head]
      exact room
    · intro i b here
      rw [head] at here
      have home : log.Home b := inv.home b (List.mem_of_getElem? here)
      have inside : i < s.lh.length := (List.getElem?_eq_some_iff.mp here).1
      have same : (Log.writeHead log s).disk (log.start + i + 1) = s.disk (log.start + i + 1) :=
        Function.update_of_ne (by omega) _ _
      rw [same, copied i b inside here, base]
      exact contents b home fun o => inv.idle busy o b
    · intro b home absent
      rw [head] at absent
      have unchanged : b ∉ (updates s.group).map Prod.fst := by
        intro member
        rcases List.mem_map.mp member with ⟨update, isUpdate, rfl⟩
        rcases List.mem_map.mp isUpdate with ⟨change, isChange, rfl⟩
        exact absent (inv.changed change isChange)
      rw [homeDisk b home, base, install_of_not_mem unchanged]
      exact inv.recoverable.rest b home (by simp [empty])
  · intro b dirty
    have member := inv.pinned b (dirty_of_bwrite dirty).2
    rw [pinned] at member
    exact member
  · exact fun change member => absurd member List.not_mem_nil
  · exact ⟨rfl, head, (fun i b before => absurd before (Nat.not_lt_zero i)), nonempty⟩

theorem CrashInv.installTrans {tail : ℕ} (inv : CrashInv log disk₀ s)
    (phase : s.phase = .installTrans tail) (control' : Control (installTrans log s tail)) :
    CrashInv log disk₀ (installTrans log s tail) := by
  have busy : s.phase ≠ .ready := by simp [phase]
  have progress := inv.progress
  rw [phase] at progress
  rcases progress with ⟨noGroup, head, installed, inside⟩
  have room := inv.room
  have size : tail + 1 < log.size := by omega
  have target := inv.home_getD inside
  have pinned : s.pinned = s.lh.drop tail := by simp [State.pinned, phase]
  have content : s.read (log.start + tail + 1) = s.base disk₀ (s.lh.getD tail 0) := by
    rw [inv.read_log busy size]
    exact inv.recoverable.logged tail _ (head ▸ target.1)
  have written : ∀ b, (Log.installTrans log s tail).disk b =
      if b = s.lh.getD tail 0 then s.base disk₀ b else s.disk b := by
    intro b
    split
    · rename_i same
      subst same
      exact (Function.update_self _ _ _).trans content
    · rename_i different
      exact Function.update_of_ne different _ _
  have head' : decode ((Log.installTrans log s tail).disk log.start) = s.lh := by
    rw [written, if_neg (target.2.ne_start).symm, head]
  have installed' : ∀ i b, i < tail + 1 → s.lh[i]? = some b →
      (Log.installTrans log s tail).disk b = s.base disk₀ b := by
    intro i b before here
    rw [written]
    split
    · rfl
    · rename_i different
      have earlier : i ≠ tail := by
        rintro rfl
        exact different (Option.some.inj (here.symm.trans target.1))
      exact installed i b (by omega) here
  have recoverable : Recoverable log (s.base disk₀) (Log.installTrans log s tail).disk := by
    refine ⟨?_, ?_, ?_, ?_⟩
    · rw [head']
      exact inv.home
    · rw [head']
      exact room
    · intro i b here
      rw [head'] at here
      have before : i < s.lh.length := (List.getElem?_eq_some_iff.mp here).1
      rw [written, if_neg (target.2.ne_log (by omega)).symm]
      exact inv.recoverable.logged i b (head ▸ here)
    · intro b home absent
      rw [head'] at absent
      rw [written]
      split
      · rfl
      · exact inv.recoverable.rest b home (head ▸ absent)
  have pinned' : ∀ b, (Log.installTrans log s tail).dirty b = true → b ∈ s.lh.drop (tail + 1) := by
    intro b dirty
    rcases dirty_of_bwrite dirty with ⟨different, dirty⟩
    have member := inv.pinned b dirty
    rw [pinned, List.drop_eq_getElem_cons inside] at member
    refine (List.mem_cons.mp member).resolve_left fun same => different ?_
    rw [same]
    simp [inside]
  refine ⟨control', recoverable, inv.home, room, inv.locked, inv.clean.bwrite _ _, ?_, inv.changed,
    ?_⟩
  · intro b dirty
    have member := pinned' b dirty
    unfold State.pinned Log.installTrans
    dsimp only
    by_cases more : tail + 1 < s.lh.length
    · rw [if_pos more]
      exact member
    · rw [List.drop_eq_nil_of_le (by omega)] at member
      exact absurd member List.not_mem_nil
  · unfold Log.installTrans at installed' head' ⊢
    dsimp only
    split
    · rename_i more
      exact ⟨noGroup, head', installed', more⟩
    · refine ⟨noGroup, fun b home => ?_⟩
      by_cases member : b ∈ s.lh
      · rcases List.getElem?_of_mem member with ⟨i, here⟩
        have before : i < s.lh.length := (List.getElem?_eq_some_iff.mp here).1
        exact installed' i b (by omega) here
      · exact recoverable.rest b home (head'.symm ▸ member)

theorem CrashInv.eraseHead (inv : CrashInv log disk₀ s) (phase : s.phase = .eraseHead)
    (control' : Control (eraseHead log s)) : CrashInv log disk₀ (eraseHead log s) := by
  have progress := inv.progress
  rw [phase] at progress
  rcases progress with ⟨noGroup, same⟩
  have pinned : s.pinned = [] := by simp [State.pinned, phase]
  have head : decode ((Log.eraseHead log s).disk log.start) = [] := by
    have written : (Log.eraseHead log s).disk log.start = encode [] (s.read log.start) :=
      Function.update_self _ _ _
    rw [written, decode_encode]
  refine ⟨control', ?_, ?_, Nat.zero_le _, inv.locked, inv.clean.bwrite _ _, ?_, ?_, ?_⟩
  · apply Recoverable.of_clean head
    intro b home
    exact (Function.update_of_ne home.ne_start _ _).trans (same b home)
  · exact fun b member => absurd member List.not_mem_nil
  · intro b dirty
    have member := inv.pinned b (dirty_of_bwrite dirty).2
    rw [pinned] at member
    exact absurd member List.not_mem_nil
  · intro change member
    change change ∈ s.group at member
    rw [noGroup] at member
    exact absurd member List.not_mem_nil
  · exact ⟨noGroup, rfl, head⟩

theorem CrashInv.readHead (inv : CrashInv log disk₀ s) (phase : s.phase = .readHead)
    (control' : Control (readHead log s)) : CrashInv log disk₀ (readHead log s) := by
  have busy : s.phase ≠ .ready := by simp [phase]
  have noGroup : s.group = [] := by
    have progress := inv.progress
    rw [phase] at progress
    exact progress
  have pinned : s.pinned = [] := by simp [State.pinned, phase]
  have head : s.read log.start = s.disk log.start := inv.read_eq busy (by simp [pinned])
  have recoverable := inv.recoverable
  refine ⟨control', recoverable, ?_, ?_, inv.locked, inv.clean, ?_, ?_, ?_⟩
  · unfold Log.readHead
    rw [head]
    exact recoverable.home
  · unfold Log.readHead
    rw [head]
    exact recoverable.room
  · intro b dirty
    have member := inv.pinned b dirty
    rw [pinned] at member
    exact absurd member List.not_mem_nil
  · intro change member
    change change ∈ s.group at member
    rw [noGroup] at member
    exact absurd member List.not_mem_nil
  · unfold Log.readHead
    rw [head]
    dsimp only
    split
    · rename_i empty
      exact ⟨noGroup, fun b home => recoverable.rest b home (by simp [empty])⟩
    · rename_i nonempty
      exact ⟨noGroup, rfl, (fun i b before => absurd before (Nat.not_lt_zero i)),
        List.length_pos_iff.mpr nonempty⟩

theorem CrashInv.finish (inv : CrashInv log disk₀ s) (phase : s.phase = .done)
    (control' : Control (finish s)) : CrashInv log disk₀ (finish s) := by
  have busy : s.phase ≠ .ready := by simp [phase]
  have progress := inv.progress
  rw [phase] at progress
  rcases progress with ⟨noGroup, noBlocks, empty⟩
  have pinned : s.pinned = s.lh := by simp [State.pinned, phase]
  refine ⟨control', inv.recoverable, inv.home, inv.room, inv.locked, inv.clean, ?_, inv.changed,
    empty, ?_⟩
  · intro b dirty
    have member := inv.pinned b dirty
    rw [pinned] at member
    exact member
  · intro b home unlocked
    have sameDisk : s.read b = s.disk b := inv.read_eq busy (by simp [pinned, noBlocks])
    have noUpdates : (Log.finish s).group = [] := noGroup
    rw [noUpdates]
    exact sameDisk.trans (inv.recoverable.rest b home (by simp [empty]))

theorem CrashInv.proceed (inv : CrashInv log disk₀ s) (next : proceed log s = some t) :
    CrashInv log disk₀ t := by
  have control' := (inv.control.proceed next).1
  unfold Log.proceed at next
  split at next
  · cases next
  · rename_i phase
    rcases Option.some.inj next with rfl
    exact inv.readHead phase control'
  · rename_i tail phase
    rcases Option.some.inj next with rfl
    exact inv.writeLog phase control'
  · rename_i phase
    rcases Option.some.inj next with rfl
    exact inv.writeHead phase control'
  · rename_i tail phase
    rcases Option.some.inj next with rfl
    exact inv.installTrans phase control'
  · rename_i phase
    rcases Option.some.inj next with rfl
    exact inv.eraseHead phase control'
  · rename_i phase
    rcases Option.some.inj next with rfl
    exact inv.finish phase control'

/-! ## Operations -/

/-- The operations change home blocks, and the log has room for them. -/
def Fits (log : Layout) (s : State) : Event → Prop
  | .logWriteTest _ b _ => log.Home b
  | .logWrite o =>
      ∀ b ∈ s.logging o, b ∈ s.lh ∨ s.lh.length < log.size - 1 ∧ s.lh.length < logsize
  | _ => True

theorem CrashInv.ready (inv : CrashInv log disk₀ s) (ready : s.phase = .ready) :
    decode (s.disk log.start) = [] ∧ Contents log disk₀ s ∧ s.pinned = s.lh := by
  have progress := inv.progress
  rw [ready] at progress
  exact ⟨progress.1, progress.2, by simp [State.pinned, ready]⟩

theorem CrashInv.beginOp (inv : CrashInv log disk₀ s) (next : beginOp s = some t)
    (control' : Control t) : CrashInv log disk₀ t := by
  unfold Log.beginOp at next
  split at next
  · cases next
  split at next
  · cases next
  rcases Option.some.inj next with rfl
  refine ⟨control', inv.recoverable, inv.home, inv.room, inv.locked, inv.clean, inv.pinned,
    inv.changed, ?_⟩
  have ready := control'.phase_ready List.mem_cons_self
  rw [ready]
  rcases inv.ready ready with ⟨empty, contents, -⟩
  exact ⟨empty, contents⟩

theorem CrashInv.logWriteTest {data : Block} (inv : CrashInv log disk₀ s)
    (running : o ∈ s.running) (outside : s.logging o = none) (home : log.Home b)
    (run : logWriteTest log s o b data = .ok t) (control' : Control t) :
    CrashInv log disk₀ t := by
  have ready := inv.control.phase_ready running
  rcases inv.ready ready with ⟨empty, contents, pinned⟩
  unfold Log.logWriteTest at run
  split at run
  · cases run
  split at run
  · cases run
  rcases Except.ok.inj run with rfl
  -- what is not locked now is another block, and was not locked before
  have unlocked : ∀ b', (∀ o', Function.update s.logging o (some b) o' ≠ some b') →
      b' ≠ b ∧ ∀ o', s.logging o' ≠ some b' := by
    intro b' free
    refine ⟨?_, ?_⟩
    · rintro rfl
      exact free o (Function.update_self _ _ _)
    · intro o' holds
      have different : o' ≠ o := by
        rintro rfl
        cases outside.symm.trans holds
      exact free o' ((Function.update_of_ne different _ _).trans holds)
  refine ⟨control', inv.recoverable, inv.home, inv.room, ?_, ?_, ?_, inv.changed, ?_⟩
  · intro o' b' holds
    by_cases same : o' = o
    · subst same
      simp only [Function.update_self, Option.some.injEq] at holds
      exact holds ▸ home
    · simp only [Function.update_of_ne same] at holds
      exact inv.locked o' b' holds
  · intro b' buf cached notDirty free
    rcases unlocked b' free with ⟨different, free⟩
    simp only [modify_fields, Function.update_of_ne different] at cached
    exact inv.clean b' buf cached notDirty free
  · intro b' dirty
    have before := (dirty_modify s b b' data (s.dirty b)).symm.trans dirty
    split at before
    · rename_i same
      exact same ▸ inv.pinned b before
    · exact inv.pinned b' before
  · dsimp only [modify_fields]
    rw [ready]
    refine ⟨empty, ?_⟩
    intro b' home' free
    rcases unlocked b' free with ⟨different, free⟩
    have same := (read_modify s b b' data (s.dirty b)).trans (if_neg different)
    exact same.trans (contents b' home' free)

theorem CrashInv.logWrite (inv : CrashInv log disk₀ s) (holds : s.logging o = some b)
    (fits : b ∈ s.lh ∨ s.lh.length < log.size - 1) (control' : Control (logWrite s o b)) :
    CrashInv log disk₀ (logWrite s o b) := by
  have ready := inv.control.phase_ready (inv.control.caller o b holds)
  rcases inv.ready ready with ⟨empty, contents, pinned⟩
  have home := inv.locked o b holds
  have lh : ∀ b', b' ∈ (Log.logWrite s o b).lh ↔ b' ∈ s.lh ∨ b' = b := by
    intro b'
    simp only [Log.logWrite]
    split
    · rename_i absorbed
      refine ⟨.inl, fun member => member.elim id ?_⟩
      rintro rfl
      exact absorbed
    · rw [List.mem_append, List.mem_singleton]
  have unlocked : ∀ b' ≠ b, (∀ o', Function.update s.logging o none o' ≠ some b') →
      ∀ o', s.logging o' ≠ some b' := by
    intro b' different free o' holds'
    by_cases same : o' = o
    · subst same
      exact different (Option.some.inj (holds'.symm.trans holds))
    · exact free o' ((Function.update_of_ne same _ _).trans holds')
  refine ⟨control', inv.recoverable, ?_, ?_, ?_, ?_, ?_, ?_, ?_⟩
  · intro b' member
    rcases (lh b').mp member with member | rfl
    · exact inv.home b' member
    · exact home
  · have room := inv.room
    simp only [Log.logWrite]
    split
    · exact room
    · rename_i absent
      have less := fits.resolve_left absent
      rw [List.length_append, List.length_singleton]
      omega
  · intro o' b' holds'
    by_cases same : o' = o
    · subst same
      simp [Log.logWrite] at holds'
    · simp only [Log.logWrite, Function.update_of_ne same] at holds'
      exact inv.locked o' b' holds'
  · intro b' buf cached notDirty free
    by_cases same : b' = b
    · subst same
      simp only [Log.logWrite, modify_fields, Function.update_self, Option.some.injEq] at cached
      rw [← cached] at notDirty
      cases notDirty
    · simp only [Log.logWrite, modify_fields, Function.update_of_ne same] at cached
      exact inv.clean b' buf cached notDirty (unlocked b' same free)
  · intro b' dirty
    have before := (dirty_modify s b b' (s.read b) true).symm.trans dirty
    have pinned' : (Log.logWrite s o b).pinned = (Log.logWrite s o b).lh := by
      simp [State.pinned, Log.logWrite, ready]
    rw [pinned', lh]
    split at before
    · exact .inr ‹_›
    · exact .inl (pinned ▸ inv.pinned b' before)
  · intro change member
    rw [lh]
    rcases List.mem_append.mp member with member | last
    · exact .inl (inv.changed change member)
    · exact .inr (by rw [List.mem_singleton.mp last])
  · dsimp only [Log.logWrite, modify_fields]
    rw [ready]
    refine ⟨empty, ?_⟩
    intro b' home' free
    have read : (Log.logWrite s o b).read b' = s.read b' := by
      have changed := read_modify s b b' (s.read b) true
      split at changed
      · rename_i same
        exact same ▸ changed
      · exact changed
    have writes : updates (s.group ++ [{ op := o, blockno := b, data := s.read b }]) =
        updates s.group ++ [(b, s.read b)] := by simp [updates]
    change (Log.logWrite s o b).read b' = install (updates (s.group ++
      [{ op := o, blockno := b, data := s.read b }])) (s.base disk₀) b'
    rw [read, writes, install_concat]
    by_cases same : b' = b
    · rw [same, Function.update_self]
    · rw [Function.update_of_ne same]
      exact contents b' home' (unlocked b' same free)

theorem CrashInv.endOp (inv : CrashInv log disk₀ s) (running : o ∈ s.running)
    (run : endOp s o = .ok t) (control' : Control t) : CrashInv log disk₀ t := by
  have ready := inv.control.phase_ready running
  rcases inv.ready ready with ⟨empty, contents, pinned⟩
  unfold Log.endOp at run
  dsimp only at run
  split at run
  · cases run
  split at run <;> rcases Except.ok.inj run with rfl
  · refine ⟨control', inv.recoverable, inv.home, inv.room, inv.locked, inv.clean, ?_, inv.changed,
      ?_⟩
    · intro b dirty
      have member := pinned ▸ inv.pinned b dirty
      unfold State.pinned
      dsimp only
      by_cases noBlocks : s.lh = []
      · rw [noBlocks] at member
        exact absurd member List.not_mem_nil
      · rw [if_neg noBlocks]
        exact member
    · dsimp only
      split
      · rename_i noBlocks
        refine ⟨?_, noBlocks, empty⟩
        apply List.eq_nil_iff_forall_not_mem.mpr
        intro change member
        have logged := inv.changed change member
        rw [noBlocks] at logged
        exact List.not_mem_nil logged
      · rename_i some
        exact ⟨empty, contents, (fun i b before => absurd before (Nat.not_lt_zero i)),
          List.length_pos_iff.mpr some⟩
  · refine ⟨control', inv.recoverable, inv.home, inv.room, inv.locked, inv.clean, inv.pinned,
      inv.changed, ?_⟩
    dsimp only
    rw [ready]
    exact ⟨empty, contents⟩

theorem CrashInv.crash (inv : CrashInv log disk₀ s) : CrashInv log disk₀ (crash s) where
  control := .crash
  recoverable := inv.recoverable
  home := fun _ member => absurd member List.not_mem_nil
  room := Nat.zero_le _
  locked := fun _ _ holds => nomatch holds
  clean := fun _ _ cached => nomatch cached
  pinned := fun _ dirty => nomatch dirty
  changed := fun _ member => absurd member List.not_mem_nil
  progress := rfl

theorem CrashInv.does (inv : CrashInv log disk₀ s) (fits : Fits log s e) (does : Does log s e t) :
    CrashInv log disk₀ t := by
  have control' := inv.control.does does
  cases does with
  | beginOp notBooting next => exact inv.beginOp next control'
  | logWriteTest running outside free run =>
      exact inv.logWriteTest running outside fits run control'
  | logWrite holds => exact inv.logWrite holds ((fits _ holds).imp_right And.left) control'
  | endOp running outside run => exact inv.endOp running run control'
  | proceed next => exact inv.proceed next
  | recycle notDirty free =>
      rename_i b
      -- the buffer agrees with the disk
      have read : ∀ b', ({ s with cache := Function.update s.cache b none } : State).read b' =
          s.read b' := by
        intro b'
        unfold State.read
        by_cases same : b' = b
        · subst same
          simp only [Function.update_self]
          split
          · rename_i buf cached
            have clean : buf.dirty = false := by simpa [State.dirty, cached] using notDirty
            exact (inv.clean b' buf cached clean
              fun o holds => free o (inv.control.caller o b' holds) holds).symm
          · rfl
        · simp only [Function.update_of_ne same]
      have cached : ∀ b' buf, Function.update s.cache b none b' = some buf →
          s.cache b' = some buf := by
        intro b' buf isCached
        by_cases same : b' = b
        · subst same
          simp at isCached
        · rwa [Function.update_of_ne same] at isCached
      refine ⟨control', inv.recoverable, inv.home, inv.room, inv.locked, ?_, ?_, inv.changed, ?_⟩
      · exact fun b' buf isCached => inv.clean b' buf (cached b' buf isCached)
      · intro b' dirty
        apply inv.pinned b'
        unfold State.dirty at dirty ⊢
        by_cases same : b' = b
        · subst same
          simp at dirty
        · simpa only [Function.update_of_ne same] using dirty
      · have progress := inv.progress
        unfold Progress Contents Copied at progress ⊢
        dsimp only
        simp only [read]
        exact progress
  | crash => exact inv.crash

/-! ## Groups -/

/-- The groups of changes that are committed or undone, and the one in progress. -/
def State.allGroups (s : State) : List (List Write) := s.lost ++ s.groups ++ [s.group]

/-- No operation has changes in both groups. -/
def Apart (first second : List Write) : Prop :=
  ∀ change ∈ first, ∀ change' ∈ second, change.op ≠ change'.op

theorem Apart.symm {first second : List Write} (apart : Apart first second) :
    Apart second first :=
  fun change member change' member' same => apart change' member' change member same.symm

/-- A group is closed when the operations with changes in it have ended. -/
structure Grouped (s : State) : Prop where
  begun : ∀ change ∈ s.group, change.op < s.begun
  ended : ∀ group ∈ s.lost ++ s.groups, ∀ change ∈ group,
    change.op < s.begun ∧ change.op ∉ s.running
  apart : s.allGroups.Pairwise Apart

theorem Grouped.close (grouped : Grouped s) (idle : t.running = []) (begun : t.begun = s.begun)
    (closed : (t.lost ++ t.groups).Perm (s.lost ++ s.groups ++ [s.group])) (empty : t.group = []) :
    Grouped t := by
  refine ⟨?_, ?_, ?_⟩
  · intro change member
    rw [empty] at member
    exact absurd member List.not_mem_nil
  · intro group member change isChange
    rw [idle, begun]
    refine ⟨?_, List.not_mem_nil⟩
    rcases List.mem_append.mp (closed.mem_iff.mp member) with member | last
    · exact (grouped.ended group member change isChange).1
    · rw [List.mem_singleton.mp last] at isChange
      exact grouped.begun change isChange
  · unfold State.allGroups
    rw [empty, List.pairwise_append]
    refine ⟨?_, List.pairwise_singleton _ _, ?_⟩
    · exact (closed.pairwise_iff fun apart => apart.symm).mpr grouped.apart
    · rintro group - last member change isChange change' isChange'
      rw [List.mem_singleton.mp member] at isChange'
      exact absurd isChange' List.not_mem_nil

theorem Grouped.keep (grouped : Grouped s) (running : ∀ o ∈ t.running, o ∈ s.running ∨ s.begun ≤ o)
    (begun : s.begun ≤ t.begun) (lost : t.lost = s.lost) (groups : t.groups = s.groups)
    (group : t.group = s.group) : Grouped t := by
  refine ⟨?_, ?_, ?_⟩
  · rw [group]
    exact fun change member => Nat.lt_of_lt_of_le (grouped.begun change member) begun
  · rw [lost, groups]
    intro group member change isChange
    rcases grouped.ended group member change isChange with ⟨old, notRunning⟩
    refine ⟨Nat.lt_of_lt_of_le old begun, fun isRunning => ?_⟩
    rcases running change.op isRunning with before | fresh
    · exact notRunning before
    · exact Nat.not_lt_of_le fresh old
  · unfold State.allGroups
    rw [lost, groups, group]
    exact grouped.apart

theorem Grouped.logWrite (grouped : Grouped s) (control : Control s)
    (holds : s.logging o = some b) : Grouped (logWrite s o b) := by
  have running := control.caller o b holds
  refine ⟨?_, grouped.ended, ?_⟩
  · intro change member
    rcases List.mem_append.mp member with member | last
    · exact grouped.begun change member
    · rw [List.mem_singleton.mp last]
      exact control.begun o running
  · have apart := grouped.apart
    unfold State.allGroups at apart ⊢
    rw [List.pairwise_append] at apart ⊢
    refine ⟨apart.1, List.pairwise_singleton _ _, ?_⟩
    rintro group member last isLast change isChange change' isChange'
    rw [List.mem_singleton.mp isLast] at isChange'
    rcases List.mem_append.mp isChange' with old | new
    · exact apart.2.2 group member s.group (List.mem_singleton_self _) change isChange change' old
    · rw [List.mem_singleton.mp new]
      rintro rfl
      exact (grouped.ended group member change isChange).2 running

theorem Grouped.does (grouped : Grouped s) (control : Control s) (does : Does log s e t) :
    Grouped t := by
  cases does with
  | beginOp notBooting next =>
      unfold Log.beginOp at next
      split at next
      · cases next
      split at next
      · cases next
      rcases Option.some.inj next with rfl
      refine grouped.keep ?_ (Nat.le_succ _) rfl rfl rfl
      intro o member
      rcases List.mem_cons.mp member with rfl | member
      · exact .inr (Nat.le_refl _)
      · exact .inl member
  | logWriteTest running outside free run =>
      unfold Log.logWriteTest at run
      split at run
      · cases run
      split at run
      · cases run
      rcases Except.ok.inj run with rfl
      exact grouped.keep (fun _ => .inl) (Nat.le_refl _) rfl rfl rfl
  | logWrite holds => exact grouped.logWrite control holds
  | endOp running outside run =>
      unfold Log.endOp at run
      dsimp only at run
      split at run
      · cases run
      split at run <;> rcases Except.ok.inj run with rfl
      · exact grouped.keep (fun _ member => .inl (List.mem_of_mem_erase member)) (Nat.le_refl _)
          rfl rfl rfl
      · exact grouped.keep (fun _ member => .inl (List.mem_of_mem_erase member)) (Nat.le_refl _)
          rfl rfl rfl
  | proceed next =>
      rcases control.proceed next with ⟨-, idle, idle'⟩
      unfold Log.proceed at next
      split at next <;> rcases next with rfl | rfl
      · exact grouped.keep (fun _ => .inl) (Nat.le_refl _) rfl rfl rfl
      · exact grouped.keep (fun _ => .inl) (Nat.le_refl _) rfl rfl rfl
      · refine grouped.close idle rfl ?_ rfl
        rw [List.append_assoc]
        exact List.Perm.refl _
      · exact grouped.keep (fun _ => .inl) (Nat.le_refl _) rfl rfl rfl
      · exact grouped.keep (fun _ => .inl) (Nat.le_refl _) rfl rfl rfl
      · exact grouped.keep (fun _ => .inl) (Nat.le_refl _) rfl rfl rfl
  | recycle clean free => exact grouped.keep (fun _ => .inl) (Nat.le_refl _) rfl rfl rfl
  | crash =>
      refine grouped.close rfl rfl ?_ rfl
      simp only [crash, List.append_assoc]
      exact List.Perm.append_left _ List.perm_append_comm

theorem groups_does (does : Does log s e t) : s.groups <+: t.groups := by
  cases does with
  | beginOp notBooting next =>
      unfold Log.beginOp at next
      split at next
      · cases next
      split at next
      · cases next
      rcases Option.some.inj next with rfl
      exact List.prefix_rfl
  | logWriteTest running outside free run =>
      unfold Log.logWriteTest at run
      split at run
      · cases run
      split at run
      · cases run
      rcases Except.ok.inj run with rfl
      exact List.prefix_rfl
  | logWrite holds => exact List.prefix_rfl
  | endOp running outside run =>
      unfold Log.endOp at run
      dsimp only at run
      split at run
      · cases run
      split at run <;> rcases Except.ok.inj run with rfl <;> exact List.prefix_rfl
  | proceed next =>
      unfold Log.proceed at next
      split at next <;> rcases next with rfl | rfl
      · exact List.prefix_rfl
      · exact List.prefix_rfl
      · exact List.prefix_append _ _
      · exact List.prefix_rfl
      · exact List.prefix_rfl
      · exact List.prefix_rfl
  | recycle clean free => exact List.prefix_rfl
  | crash => exact List.prefix_rfl

/-! ## Recovery -/

/-- Nothing but recovery, and crashes that interrupt it. -/
def Interrupted (_ : State) (e : Event) : Prop := e = .crash ∨ e = .proceed

/-- The process in `commit` or in `recover_from_log` can run to its end. -/
def Completes (log : Layout) (s : State) : Prop :=
  ∃ t, Reachable (Steps log) (fun _ e => e = .proceed) s t ∧ t.phase = .ready

theorem Completes.after (next : proceed log s = some t) (completes : Completes log t) :
    Completes log s := by
  rcases completes with ⟨u, reach, ready⟩
  have taken : Steps log s .proceed t := by
    unfold Steps step
    rw [next]
    rfl
  exact ⟨u, .head ⟨.proceed, rfl, taken⟩ reach, ready⟩

theorem completes_install {tail : ℕ} (phase : s.phase = .installTrans tail) : Completes log s := by
  generalize left : s.lh.length - tail = passes
  induction passes using Nat.strong_induction_on generalizing s tail with
  | h passes ih =>
      have next : proceed log s = some (installTrans log s tail) := by simp [proceed, phase]
      refine .after next ?_
      by_cases more : tail + 1 < s.lh.length
      · have goesOn : (installTrans log s tail).phase = .installTrans (tail + 1) := by
          simp [installTrans, more]
        have length : (installTrans log s tail).lh.length = s.lh.length := rfl
        exact ih (passes - 1) (by omega) goesOn (by omega)
      · have erase : (installTrans log s tail).phase = .eraseHead := by simp [installTrans, more]
        have next' : proceed log (installTrans log s tail) =
            some (eraseHead log (installTrans log s tail)) := by simp [proceed, erase]
        exact .after next' (.after rfl ⟨_, .refl, rfl⟩)

theorem completes_writeLog {tail : ℕ} (phase : s.phase = .writeLog tail) : Completes log s := by
  generalize left : s.lh.length - tail = passes
  induction passes using Nat.strong_induction_on generalizing s tail with
  | h passes ih =>
      have next : proceed log s = some (writeLog log s tail) := by simp [proceed, phase]
      refine .after next ?_
      by_cases more : tail + 1 < s.lh.length
      · have goesOn : (writeLog log s tail).phase = .writeLog (tail + 1) := by
          simp [writeLog, more]
        have length : (writeLog log s tail).lh.length = s.lh.length := rfl
        exact ih (passes - 1) (by omega) goesOn (by omega)
      · have head : (writeLog log s tail).phase = .writeHead := by simp [writeLog, more]
        have next' : proceed log (writeLog log s tail) =
            some (writeHead log (writeLog log s tail)) := by simp [proceed, head]
        exact .after next' (completes_install rfl)

theorem completes (log : Layout) (s : State) : Completes log s := by
  cases phase : s.phase with
  | ready => exact ⟨s, .refl, phase⟩
  | readHead =>
      have next : proceed log s = some (readHead log s) := by simp [proceed, phase]
      refine .after next ?_
      by_cases empty : decode (s.read log.start) = []
      · have erase : (readHead log s).phase = .eraseHead := by simp [readHead, empty]
        have next' : proceed log (readHead log s) = some (eraseHead log (readHead log s)) := by
          simp [proceed, erase]
        exact .after next' (.after rfl ⟨_, .refl, rfl⟩)
      · have install : (readHead log s).phase = .installTrans 0 := by simp [readHead, empty]
        exact completes_install install
  | writeLog tail => exact completes_writeLog phase
  | writeHead =>
      have next : proceed log s = some (writeHead log s) := by simp [proceed, phase]
      exact .after next (completes_install rfl)
  | installTrans tail => exact completes_install phase
  | eraseHead =>
      have next : proceed log s = some (eraseHead log s) := by simp [proceed, phase]
      exact .after next (.after rfl ⟨_, .refl, rfl⟩)
  | done =>
      have next : proceed log s = some (finish s) := by simp [proceed, phase]
      exact .after next ⟨_, .refl, rfl⟩

/-- Recovery commits nothing. -/
def Recovering (s : State) : Prop :=
  s.running = [] ∧ s.phase ≠ .writeHead ∧ ∀ tail, s.phase ≠ .writeLog tail

theorem Recovering.step (recovering : Recovering s) (interrupted : Interrupted s e)
    (taken : Steps log s e t) : Recovering t ∧ t.groups = s.groups := by
  rcases recovering with ⟨idle, notHead, notLog⟩
  rcases interrupted with rfl | rfl
  · rcases Except.ok.inj (Option.some.inj taken) with rfl
    exact ⟨⟨rfl, (fun impossible => nomatch impossible), fun _ impossible => nomatch impossible⟩,
      rfl⟩
  · rcases Option.map_eq_some_iff.mp taken with ⟨u, next, same⟩
    rcases Except.ok.inj same with rfl
    unfold proceed at next
    split at next <;> rcases next with rfl | rfl
    · refine ⟨⟨idle, ?_, fun tail => ?_⟩, rfl⟩ <;> simp only [readHead] <;> split <;> simp
    · exact absurd ‹_› (notLog _)
    · exact absurd ‹_› notHead
    · refine ⟨⟨idle, ?_, fun tail => ?_⟩, rfl⟩ <;> simp only [installTrans] <;> split <;> simp
    · exact ⟨⟨idle, by simp [eraseHead], by simp [eraseHead]⟩, rfl⟩
    · exact ⟨⟨idle, by simp [finish], by simp [finish]⟩, rfl⟩

theorem Interrupted.fits (interrupted : Interrupted s e) : Fits log s e := by
  rcases interrupted with rfl | rfl <;> trivial

theorem crashInv_of_reach (inv : CrashInv log disk₀ s)
    (reach : Reachable (Steps log) (Fits log) s t) : CrashInv log disk₀ t :=
  reach.invariant (CrashInv log disk₀) inv fun _ inv fits taken => inv.does fits taken.does

theorem CrashInv.recovered (inv : CrashInv log disk₀ s)
    (reach : Reachable (Steps log) Interrupted (Log.crash s) t) (ready : t.phase = .ready) (b : ℕ)
    (home : log.Home b) : t.disk b = s.base disk₀ b := by
  have inv' : CrashInv log disk₀ t :=
    crashInv_of_reach inv.crash (reach.mono fun _ _ interrupted => interrupted.fits)
  have kept : Recovering t ∧ t.groups = s.groups := by
    refine reach.invariant (fun t => Recovering t ∧ t.groups = s.groups) ?_ ?_
    · exact ⟨⟨rfl, (fun impossible => nomatch impossible), fun _ impossible => nomatch impossible⟩,
        rfl⟩
    · intro u e v _ kept interrupted taken
      have step := kept.1.step interrupted taken
      exact ⟨step.1, step.2.trans kept.2⟩
  have empty := (inv'.ready ready).1
  have same := inv'.recoverable.rest b home (by simp [empty])
  rw [same, State.base, kept.2, State.base]

/-- What a crash in this state leaves, after any number of interrupted recoveries. -/
structure CrashAtomic (log : Layout) (disk₀ : ℕ → Block) (s : State) : Prop where
  /-- the home blocks are those of the beginning with the committed changes -/
  recovered : ∀ t, Reachable (Steps log) Interrupted (crash s) t → t.phase = .ready →
    ∀ b, log.Home b → t.disk b = install (updates s.groups.flatten) disk₀ b
  /-- a recovery that is not interrupted comes to its end -/
  completes : ∀ t, Reachable (Steps log) Interrupted (crash s) t → Completes log t
  /-- all changes of an operation are in one group: committed, undone, or not committed yet -/
  oneGroup : s.allGroups.Pairwise Apart
  /-- no change is left when the header has been erased -/
  erased : s.phase = .done → s.group = []
  /-- what is committed stays so, whatever happens -/
  durable : ∀ t, Reachable (Steps log) (Fits log) s t → s.groups <+: t.groups

theorem crash_atomicity (empty : decode (disk₀ log.start) = [])
    (reach : Reachable (Steps log) (Fits log) { disk := disk₀ } s) : CrashAtomic log disk₀ s := by
  have control : Control { disk := disk₀ } :=
    { outstanding := rfl
      nodup := List.nodup_nil
      begun := fun _ member => absurd member List.not_mem_nil
      caller := fun _ _ holds => nomatch holds
      locked := fun _ _ _ holds => nomatch holds
      ready := fun ready => nomatch ready
      busy := fun _ => rfl
      waits := fun _ notBooting => nomatch notBooting }
  have start : CrashInv log disk₀ { disk := disk₀ } :=
    { control := control
      recoverable := .of_clean empty fun _ _ => rfl
      home := fun _ member => absurd member List.not_mem_nil
      room := Nat.zero_le _
      locked := fun _ _ holds => nomatch holds
      clean := fun _ _ cached => nomatch cached
      pinned := fun _ dirty => nomatch dirty
      changed := fun _ member => absurd member List.not_mem_nil
      progress := rfl }
  have inv := crashInv_of_reach start reach
  have grouped : Control s ∧ Grouped s := by
    refine reach.invariant (fun s => Control s ∧ Grouped s) ⟨control, ?_⟩ ?_
    · refine ⟨fun _ member => absurd member List.not_mem_nil, ?_, List.pairwise_singleton _ _⟩
      exact fun _ member => absurd member List.not_mem_nil
    · intro s e t _ kept _ taken
      exact ⟨kept.1.does taken.does, kept.2.does kept.1 taken.does⟩
  refine ⟨?_, fun t _ => completes log t, grouped.2.apart, ?_, ?_⟩
  · exact fun t recovery ready b home => inv.recovered recovery ready b home
  · intro done
    have progress := inv.progress
    rw [done] at progress
    exact progress.1
  · intro t later
    exact later.invariant (fun t => s.groups <+: t.groups) List.prefix_rfl
      fun _ kept _ taken => kept.trans (groups_does taken.does)

/-! ## A sample run -/

instance (log : Layout) (s : State) : (e : Event) → Decidable (Fits log s e)
  | .logWriteTest _ b _ => inferInstanceAs (Decidable (log.Home b))
  | .logWrite o => inferInstanceAs (Decidable (∀ b ∈ s.logging o,
      b ∈ s.lh ∨ s.lh.length < log.size - 1 ∧ s.lh.length < logsize))
  | .beginOp | .endOp _ | .proceed | .recycle _ | .crash => instDecidableTrue

/-- Block 50 gets ones and block 51 twos. -/
def twoWrites : List Event :=
  [.logWriteTest 0 50 fun _ => 1, .logWrite 0, .logWriteTest 0 51 fun _ => 2, .logWrite 0]

/-- An operation has written two blocks, and `commit` has installed one of them. -/
def halfInstalled : State :=
  (runs mkfsLog (Fits mkfsLog) ([.proceed, .proceed, .proceed, .beginOp] ++ twoWrites ++
    [.endOp 0, .proceed, .proceed, .proceed, .proceed]) { disk := zeros }).getD { disk := zeros }

theorem crash_atomicity_halfInstalled : CrashAtomic mkfsLog zeros halfInstalled ∧
    halfInstalled.disk 50 0 = 1 ∧ halfInstalled.disk 51 0 = 0 ∧
    install (updates halfInstalled.groups.flatten) zeros 51 0 = 2 := by
  have done : (runs mkfsLog (Fits mkfsLog) ([.proceed, .proceed, .proceed, .beginOp] ++
      twoWrites ++ [.endOp 0, .proceed, .proceed, .proceed, .proceed])
      { disk := zeros }).isSome = true := by decide +kernel
  rcases Option.isSome_iff_exists.mp done with ⟨s, eq⟩
  have same : halfInstalled = s := by rw [halfInstalled, eq]; rfl
  refine ⟨?_, by decide +kernel, by decide +kernel, by decide +kernel⟩
  rw [same]
  exact crash_atomicity (by decide) (runs_reach eq)

end Xv6.Log
