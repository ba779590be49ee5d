import Xv6.Lib.Monitor
import Xv6.Lib.Ring

/-!
# The console

`consoleintr` and `consoleread` of `console.c`, with the output left out. An interrupt with the
characters that it finds, and what a call of `consoleread` does between two points at which the lock of
the console is free, are one step each. The readers are not killed.

The console also records what has been committed, how much of it the read index has passed, and what
the readers have got.
-/

namespace Xv6.Dev

open Monitor Transition Ring

abbrev Byte := BitVec 8

/-- `INPUT_BUF` -/
abbrev inputBuf : ℕ := 128

def newline : Byte := 0x0a

def carriageReturn : Byte := 0x0d

/-- `C('D')` -/
def ctrlD : Byte := 0x04

/-- `C('H')` -/
def ctrlH : Byte := 0x08

/-- `C('P')` -/
def ctrlP : Byte := 0x10

/-- `C('U')` -/
def ctrlU : Byte := 0x15

def delete : Byte := 0x7f

variable {ι : Type*}

/-- `input`, and the history. -/
structure Console (ι : Type*) where
  buf : Fin inputBuf → Byte := fun _ => 0
  r : BitVec 32 := 0
  w : BitVec 32 := 0
  e : BitVec 32 := 0
  committed : List Byte := []
  taken : ℕ := 0
  delivered : List Byte := []
  returns : List (ι × ℤ) := []

/-- A call of `consoleread` that has `n` of `target` bytes to read. -/
structure Consoleread where
  target : ℕ
  n : ℕ
  deriving DecidableEq

/-- The loop for `C('U')`; it makes at most `input.e - input.w` passes. -/
def killLine : ℕ → Console ι → Console ι
  | 0, s => s
  | passes + 1, s =>
      if s.e ≠ s.w ∧ s.buf (cell inputBuf (s.e - 1)) ≠ newline then
        killLine passes { s with e := s.e - 1 }
      else s

/-- `input.buf[(input.e-1) % INPUT_BUF]` -/
def Console.last (s : Console ι) : Byte := s.buf (cell inputBuf (s.e - 1))

/-- What the source does with a character, and whether it calls `wakeup`. -/
def Console.input (c : Byte) (s : Console ι) : Console ι × Bool :=
  if c = ctrlP then (s, false)
  else if c = ctrlU then (killLine (s.e - s.w).toNat s, false)
  else if c = ctrlH ∨ c = delete then
    (if s.e ≠ s.w then { s with e := s.e - 1 } else s, false)
  else if c ≠ 0 ∧ (s.e - s.r).toNat < inputBuf then
    let c := if c = carriageReturn then newline else c
    let s := { s with buf := Function.update s.buf (cell inputBuf s.e) c, e := s.e + 1 }
    if c = newline ∨ c = ctrlD ∨ s.e = s.r + BitVec.ofNat 32 inputBuf then
      ({ s with
        w := s.e
        committed := s.committed ++ window s.buf s.w (s.e - s.w).toNat }, true)
    else (s, false)
  else (s, false)

/-- `consoleintr`, when `getc` yields these characters. -/
def consoleintr : List Byte → Console ι → Interrupt (Console ι) ι Unit
  | [], s => { shared := s }
  | c :: chars, s =>
      let (s, woken) := s.input c
      let rest := consoleintr chars s
      { shared := rest.shared, wakes := if woken then () :: rest.wakes else rest.wakes }

/-- The loop of `consoleread`. -/
def readLoop (myproc : ι) (target : ℕ) : ℕ → Console ι → Section (Console ι) Unit Consoleread
  | 0, s => { shared := { s with returns := s.returns ++ [(myproc, (target : ℤ))] } }
  | n + 1, s =>
      if s.r = s.w then { shared := s, place := .sleeping () ⟨target, n + 1⟩ }
      else
        let c := s.buf (cell inputBuf s.r)
        let s := { s with r := s.r + 1, taken := s.taken + 1 }
        if c = ctrlD then
          let s := if n + 1 < target then { s with r := s.r - 1, taken := s.taken - 1 } else s
          { shared := { s with returns := s.returns ++ [(myproc, (target : ℤ) - (n + 1 : ℕ))] } }
        else
          let s := { s with delivered := s.delivered ++ [c] }
          if c = newline then { shared := { s with returns := s.returns ++ [(myproc, (target : ℤ) - n)] } }
          else readLoop myproc target n s

/-- `consoleread` -/
def consoleread (myproc : ι) (call : Consoleread) (s : Console ι) :
    Section (Console ι) Unit Consoleread :=
  readLoop myproc call.target call.n s

def consoleCode : Code (Console ι) ι Unit Consoleread (List Byte) where
  body := consoleread
  interrupt := consoleintr

abbrev ConsoleState (ι : Type*) := Monitor.State (Console ι) ι Unit Consoleread

/-- Calls start with everything to read. -/
def ConsoleUse (_ : ConsoleState ι) : Label ι Consoleread (List Byte) → Prop
  | .call _ entry => entry.n = entry.target
  | _ => True

/-- The states of all interleavings. -/
def ConsoleReach [DecidableEq ι] : ConsoleState ι → Prop :=
  Reachable (Step consoleCode) ConsoleUse { shared := {} }

/-! ## The line that is typed -/

variable {s s' : Console ι} {unread edited bytes : List Byte} {c : Byte} {myproc j : ι} {target n : ℕ}

theorem inputBuf_divides : inputBuf ∣ 2 ^ 32 := by decide

theorem inputBuf_small : inputBuf < 2 ^ 32 := by decide

/-- The ring holds what has been committed and not been read, and then what can still be edited. -/
structure Line (s : Console ι) (unread edited : List Byte) : Prop where
  holds : Holds s.buf s.r s.e (unread ++ edited)
  w : s.w = s.r + BitVec.ofNat 32 unread.length
  unread : s.committed.drop s.taken = unread
  noNewline : newline ∉ edited
  taken : s.taken ≤ s.committed.length
  delivered : s.delivered = (s.committed.take s.taken).filter (· ≠ ctrlD)

theorem Line.committed (line : Line s unread edited) : Holds s.buf s.r s.w unread := by
  rw [line.w]
  exact line.holds.split.1

theorem Line.editing (line : Line s unread edited) : Holds s.buf s.w s.e edited := by
  rw [line.w]
  exact line.holds.split.2

/-- The last character is erased. -/
theorem Line.erase (line : Line s unread (edited ++ [c])) :
    s.buf (cell inputBuf (s.e - 1)) = c ∧ Line { s with e := s.e - 1 } unread edited := by
  have holds := line.holds
  rw [← List.append_assoc] at holds
  rcases holds.unpush with ⟨last, rest⟩
  refine ⟨last, rest, line.w, line.unread, fun member => ?_, line.taken, line.delivered⟩
  exact line.noNewline (List.mem_append_left _ member)

/-- What the editor may do: the end of the line goes, the index `e` stays above `w`. -/
structure Erased (edited : List Byte) (s s' : Console ι) (edited' : List Byte) : Prop where
  same : s' = { s with e := s'.e }
  kept : edited' <+: edited

theorem Line.killLine (edited : List Byte) : ∀ {s : Console ι}, Line s unread edited →
    ∃ edited', Line (killLine edited.length s) unread edited' ∧
      Erased edited s (killLine edited.length s) edited' := by
  induction edited using List.reverseRecOn with
  | nil => exact fun line => ⟨[], line, rfl, List.prefix_rfl⟩
  | append_singleton edited c ih =>
      intro s line
      rw [List.length_append, List.length_singleton]
      unfold Dev.killLine
      split
      · rcases ih line.erase.2 with ⟨edited', line', erased⟩
        exact ⟨edited', line', erased.same, erased.kept.trans (List.prefix_append _ _)⟩
      · exact ⟨_, line, rfl, List.prefix_rfl⟩

/-- The line is committed: it can be read from now on. -/
theorem Line.commit (holds : Holds s.buf s.r s.e (unread ++ edited))
    (w : s.w = s.r + BitVec.ofNat 32 unread.length) (isUnread : s.committed.drop s.taken = unread)
    (taken : s.taken ≤ s.committed.length)
    (delivered : s.delivered = (s.committed.take s.taken).filter (· ≠ ctrlD)) :
    window s.buf s.w (s.e - s.w).toNat = edited ∧
    Line { s with
      w := s.e
      committed := s.committed ++ window s.buf s.w (s.e - s.w).toNat } (unread ++ edited) [] := by
  have typed : Holds s.buf s.w s.e edited := by
    rw [w]
    exact holds.split.2
  have isWindow := typed.window_eq inputBuf_small
  refine ⟨isWindow, ?_, holds.stop, ?_, List.not_mem_nil, ?_, ?_⟩
  · rw [List.append_nil]
    exact holds
  · dsimp only
    rw [isWindow, List.drop_append_of_le_length taken, isUnread]
  · dsimp only
    rw [List.length_append]
    exact taken.trans (Nat.le_add_right _ _)
  · dsimp only
    rw [List.take_append_of_le_length taken]
    exact delivered

/-- A character changes the end of the line, or extends it, or commits it. -/
theorem Line.input (line : Line s unread edited) (c : Byte) :
    ∃ more edited', Line (s.input c).1 (unread ++ more) edited' ∧ (s.input c).1.r = s.r ∧
      (s.input c).1.taken = s.taken ∧ (s.input c).1.delivered = s.delivered ∧
      (s.input c).1.returns = s.returns ∧ (s.input c).1.committed = s.committed ++ more := by
  have same : ∃ more edited', Line s (unread ++ more) edited' ∧ s.r = s.r ∧ s.taken = s.taken ∧
      s.delivered = s.delivered ∧ s.returns = s.returns ∧ s.committed = s.committed ++ more :=
    ⟨[], edited, by simpa using line, rfl, rfl, rfl, rfl, by simp⟩
  unfold Console.input
  split
  · exact same
  split
  · have size := line.editing.size inputBuf_small
    dsimp only
    rw [size]
    rcases line.killLine with ⟨edited', line', erased⟩
    rw [erased.same] at line' ⊢
    exact ⟨[], edited', by simpa using line', rfl, rfl, rfl, rfl, by simp⟩
  split
  · dsimp only
    split
    · rename_i notEmpty
      rcases List.eq_nil_or_concat edited with nil | ⟨rest, last, isConcat⟩
      · exact absurd ((line.editing.empty_iff inputBuf_small).2 nil).symm notEmpty
      · rw [List.concat_eq_append] at isConcat
        subst isConcat
        exact ⟨[], rest, by simpa using line.erase.2, rfl, rfl, rfl, rfl, by simp⟩
    · exact same
  split
  · rename_i room
    have size := line.holds.size inputBuf_small
    have less : (unread ++ edited).length < inputBuf := size ▸ room.2
    dsimp only
    generalize (if c = carriageReturn then newline else c) = c
    have pushed := line.holds.push inputBuf_divides less c
    rw [List.append_assoc] at pushed
    split
    · have committed := Line.commit (s := { s with
        buf := Function.update s.buf (cell inputBuf s.e) c, e := s.e + 1 }) pushed line.w line.unread
        line.taken line.delivered
      exact ⟨edited ++ [c], [], committed.2, rfl, rfl, rfl, rfl, congrArg _ committed.1⟩
    · rename_i notCommitted
      refine ⟨[], edited ++ [c], ⟨?_, ?_, ?_, ?_, line.taken, line.delivered⟩, rfl, rfl, rfl, rfl, by simp⟩
      · simpa using pushed
      · simpa using line.w
      · simpa using line.unread
      · intro member
        rcases List.mem_append.1 member with old | new
        · exact line.noNewline old
        · exact notCommitted (.inl (List.mem_singleton.1 new).symm)
  · exact same

/-- An interrupt adds to what can be read, and changes nothing else that readers see. -/
theorem Line.consoleintr (chars : List Byte) : ∀ {s : Console ι} {unread edited}, Line s unread edited →
    ∃ more edited', Line (consoleintr chars s).shared (unread ++ more) edited' ∧
      (consoleintr chars s).shared.r = s.r ∧ (consoleintr chars s).shared.taken = s.taken ∧
      (consoleintr chars s).shared.delivered = s.delivered ∧
      (consoleintr chars s).shared.returns = s.returns ∧
      (consoleintr chars s).shared.committed = s.committed ++ more := by
  induction chars with
  | nil => exact fun line => ⟨[], _, by simpa [Dev.consoleintr] using line, rfl, rfl, rfl, rfl, by simp [Dev.consoleintr]⟩
  | cons c chars ih =>
      intro s unread edited line
      rcases line.input c with ⟨more, edited₁, line₁, r, taken, delivered, returns, committed⟩
      rcases ih line₁ with ⟨more', edited₂, line₂, r', taken', delivered', returns', committed'⟩
      refine ⟨more ++ more', edited₂, ?_, r'.trans r, taken'.trans taken, delivered'.trans delivered,
        returns'.trans returns, ?_⟩
      · rw [← List.append_assoc]
        exact line₂
      · rw [← List.append_assoc, ← committed]
        exact committed'

/-! ## What a reader gets -/

/-- Bytes go to a reader. -/
def Console.deliver (s : Console ι) (bytes : List Byte) : Console ι :=
  { s with
    r := s.r + BitVec.ofNat 32 bytes.length
    taken := s.taken + bytes.length
    delivered := s.delivered ++ bytes }

/-- The return of a call of `consoleread`. -/
def Console.note (s : Console ι) (myproc : ι) (value : ℤ) : Console ι :=
  { s with returns := s.returns ++ [(myproc, value)] }

@[simp]
theorem deliver_nil (s : Console ι) : s.deliver [] = s := by
  simp [Console.deliver]

theorem deliver_cons (s : Console ι) (c : Byte) (bytes : List Byte) :
    (s.deliver [c]).deliver bytes = s.deliver (c :: bytes) := by
  unfold Console.deliver
  congr 1
  · dsimp only
    rw [List.length_singleton, List.length_cons, Nat.add_comm bytes.length 1, BitVec.ofNat_add,
      BitVec.add_assoc]
  · dsimp only
    rw [List.length_singleton, List.length_cons]
    omega
  · simp

/-- How a section of `consoleread` ends that finds `unread`: it has got all that it wants or a whole
line, or it sleeps when it has got all that there is, or it has come to a `^D`, which it takes only if
it has got nothing. -/
inductive ReadEnds (myproc : ι) (target n : ℕ) (s : Console ι) (unread : List Byte) :
    Section (Console ι) Unit Consoleread → Prop
  | returns (bytes rest : List Byte) (isUnread : unread = bytes ++ rest) (noEof : ctrlD ∉ bytes)
      (fits : bytes.length ≤ n) (enough : bytes.length = n ∨ bytes.getLast? = some newline) :
      ReadEnds myproc target n s unread
        { shared := (s.deliver bytes).note myproc (target - (n - bytes.length : ℕ)) }
  | sleeps (noEof : ctrlD ∉ unread) (less : unread.length < n) :
      ReadEnds myproc target n s unread
        { shared := s.deliver unread, place := .sleeping () ⟨target, n - unread.length⟩ }
  | keeps (bytes rest : List Byte) (isUnread : unread = bytes ++ ctrlD :: rest) (noEof : ctrlD ∉ bytes)
      (less : bytes.length < n) (some : n - bytes.length < target) :
      ReadEnds myproc target n s unread
        { shared := (s.deliver bytes).note myproc (target - (n - bytes.length : ℕ)) }
  | eof (rest : List Byte) (isUnread : unread = ctrlD :: rest) (nothing : target ≤ n) :
      ReadEnds myproc target n s unread
        { shared := Console.note { s with r := s.r + 1, taken := s.taken + 1 } myproc (target - n) }

theorem Line.deliver (line : Line s (bytes ++ unread) edited) (noEof : ctrlD ∉ bytes) :
    Line (s.deliver bytes) unread edited := by
  have holds := line.holds
  rw [List.append_assoc] at holds
  have all : bytes.filter (· ≠ ctrlD) = bytes := by
    rw [List.filter_eq_self]
    intro c member
    simp only [decide_eq_true_eq]
    rintro rfl
    exact noEof member
  have passed : s.committed.take (s.taken + bytes.length) = s.committed.take s.taken ++ bytes := by
    rw [List.take_add, line.unread]
    simp
  refine ⟨holds.split.2, ?_, ?_, line.noNewline, ?_, ?_⟩
  · have w := line.w
    rw [List.length_append, BitVec.ofNat_add, ← BitVec.add_assoc] at w
    exact w
  · dsimp only [Console.deliver]
    rw [← List.drop_drop, line.unread, List.drop_left]
  · have length := congrArg List.length line.unread
    rw [List.length_drop, List.length_append] at length
    have taken := line.taken
    dsimp only [Console.deliver]
    omega
  · dsimp only [Console.deliver]
    rw [passed, List.filter_append, all, line.delivered]

/-- A `^D` is passed, and nobody gets it. -/
theorem Line.skip (line : Line s (ctrlD :: unread) edited) :
    Line { s with r := s.r + 1, taken := s.taken + 1 } unread edited := by
  have passed : s.committed.take (s.taken + 1) = s.committed.take s.taken ++ [ctrlD] := by
    rw [List.take_add, line.unread]
    rfl
  refine ⟨line.holds.pop.2, ?_, ?_, line.noNewline, ?_, ?_⟩
  · have w := line.w
    rw [List.length_cons, Nat.add_comm, BitVec.ofNat_add, ← BitVec.add_assoc] at w
    exact w
  · dsimp only
    rw [← List.drop_drop, line.unread]
    rfl
  · have length := congrArg List.length line.unread
    rw [List.length_drop, List.length_cons] at length
    dsimp only
    omega
  · dsimp only
    rw [passed, List.filter_append, line.delivered]
    simp

theorem left_cons (n : ℕ) (c : Byte) (bytes : List Byte) :
    n + 1 - (c :: bytes).length = n - bytes.length := by
  rw [List.length_cons, Nat.add_sub_add_right]

/-- A byte that is neither a newline nor `^D` comes before what the rest of the loop does. -/
theorem ReadEnds.cons {result : Section (Console ι) Unit Consoleread} (notEof : c ≠ ctrlD)
    (less : n < target) (later : ReadEnds myproc target n (s.deliver [c]) unread result) :
    ReadEnds myproc target (n + 1) s (c :: unread) result := by
  have noEof : ∀ {bytes}, ctrlD ∉ bytes → ctrlD ∉ c :: bytes := by
    intro bytes absent member
    rcases List.mem_cons.1 member with same | later
    · exact notEof same.symm
    · exact absent later
  cases later with
  | returns bytes rest isUnread absent fits enough =>
      have ends : ReadEnds myproc target (n + 1) s (c :: unread) _ :=
        .returns (c :: bytes) rest (by rw [isUnread]; rfl) (noEof absent) (Nat.succ_le_succ fits) (by
          rcases enough with all | line
          · exact .inl (congrArg Nat.succ all)
          · exact .inr (by rw [List.getLast?_cons, line]; rfl))
      rwa [left_cons, ← deliver_cons] at ends
  | sleeps absent less =>
      have ends : ReadEnds myproc target (n + 1) s (c :: unread) _ :=
        .sleeps (noEof absent) (Nat.succ_lt_succ less)
      rwa [left_cons, ← deliver_cons] at ends
  | keeps bytes rest isUnread absent less some =>
      have ends : ReadEnds myproc target (n + 1) s (c :: unread) _ :=
        .keeps (c :: bytes) rest (by rw [isUnread]; rfl) (noEof absent) (Nat.succ_lt_succ less) (by
          rw [left_cons]
          exact some)
      rwa [left_cons, ← deliver_cons] at ends
  | eof rest isUnread nothing => exact absurd nothing (Nat.not_le.2 less)

theorem readLoop_ends (myproc : ι) (target n : ℕ) : ∀ {s : Console ι} {unread edited},
    Line s unread edited → n ≤ target →
      ReadEnds myproc target n s unread (readLoop myproc target n s) := by
  induction n with
  | zero =>
      intro s unread edited line _
      have ends : ReadEnds myproc target 0 s unread _ :=
        .returns [] unread rfl List.not_mem_nil le_rfl (.inl rfl)
      simpa [readLoop, Console.note] using ends
  | succ n ih =>
      intro s unread edited line bound
      have empty := line.committed.empty_iff inputBuf_small
      unfold readLoop
      cases unread with
      | nil =>
          rw [if_pos (empty.2 rfl)]
          have ends : ReadEnds myproc target (n + 1) s [] _ :=
            .sleeps List.not_mem_nil (Nat.succ_pos n)
          simpa using ends
      | cons c unread =>
          rw [if_neg fun same => List.cons_ne_nil _ _ (empty.1 same)]
          have first : s.buf (cell inputBuf s.r) = c := line.committed.pop.1
          dsimp only
          rw [first]
          by_cases isEof : c = ctrlD
          · subst isEof
            rw [if_pos rfl]
            by_cases some : n + 1 < target
            · rw [if_pos some]
              have ends : ReadEnds myproc target (n + 1) s (ctrlD :: unread) _ :=
                .keeps [] unread rfl List.not_mem_nil (Nat.succ_pos n) some
              simpa [Console.note] using ends
            · rw [if_neg some]
              exact .eof unread rfl (Nat.not_lt.1 some)
          · rw [if_neg isEof]
            have noEof : ctrlD ∉ [c] := fun member => isEof (List.mem_singleton.1 member).symm
            by_cases isNewline : c = newline
            · rw [if_pos isNewline]
              exact .returns [c] unread rfl noEof (Nat.succ_pos n) (.inr (by rw [isNewline]; rfl))
            · rw [if_neg isNewline]
              have line₁ : Line s ([c] ++ unread) edited := line
              have line' : Line (s.deliver [c]) unread edited := line₁.deliver noEof
              exact (ih line' (Nat.le_of_succ_le bound)).cons isEof bound

theorem ReadEnds.line {result : Section (Console ι) Unit Consoleread} (line : Line s unread edited)
    (ends : ReadEnds myproc target n s unread result) : ∃ rest, Line result.shared rest edited := by
  have noted : ∀ {s : Console ι} {unread value}, Line s unread edited →
      Line (s.note myproc value) unread edited := fun line =>
    ⟨line.holds, line.w, line.unread, line.noNewline, line.taken, line.delivered⟩
  cases ends with
  | returns bytes rest isUnread noEof fits enough =>
      subst isUnread
      exact ⟨rest, noted (line.deliver noEof)⟩
  | sleeps noEof less =>
      rw [← List.append_nil unread] at line
      exact ⟨[], line.deliver noEof⟩
  | keeps bytes rest isUnread noEof less some =>
      subst isUnread
      exact ⟨ctrlD :: rest, noted (line.deliver noEof)⟩
  | eof rest isUnread nothing =>
      subst isUnread
      exact ⟨rest, noted line.skip⟩

/-! ## All interleavings -/

variable [DecidableEq ι] {x y : ConsoleState ι} {label : Label ι Consoleread (List Byte)}

structure ConsoleInv (x : ConsoleState ι) : Prop where
  line : ∃ unread edited, Line x.shared unread edited
  wants : ∀ j call, (x.place j).code? = some call → call.n ≤ call.target

theorem ConsoleInv.step (inv : ConsoleInv x) (admitted : ConsoleUse x label)
    (step : Step consoleCode x label y) : ConsoleInv y := by
  rcases inv.line with ⟨unread, edited, line⟩
  cases step with
  | @call myproc entry outside =>
      refine ⟨inv.line, fun j call is => ?_⟩
      dsimp only at is
      by_cases same : j = myproc
      · subst same
        rw [Function.update_self] at is
        cases is
        exact le_of_eq admitted
      · rw [Function.update_of_ne same] at is
        exact inv.wants j call is
  | @run myproc call ready =>
      have wants := inv.wants myproc call (by rw [ready]; rfl)
      have ends := readLoop_ends myproc call.target call.n line wants
      rcases ends.line line with ⟨rest, line'⟩
      refine ⟨⟨rest, edited, line'⟩, fun j call' is => ?_⟩
      dsimp only at is
      by_cases same : j = myproc
      · subst same
        rw [Function.update_self] at is
        change (readLoop j call.target call.n x.shared).place.code? = _ at is
        generalize readLoop j call.target call.n x.shared = result at ends is
        cases ends with
        | returns bytes rest isUnread noEof fits enough => cases is
        | sleeps noEof less =>
            cases is
            exact (Nat.sub_le _ _).trans wants
        | keeps bytes rest isUnread noEof less some => cases is
        | eof rest isUnread nothing => cases is
      · rw [Function.update_of_ne same, wake_code] at is
        exact inv.wants j call' is
  | interrupt chars =>
      rcases line.consoleintr chars with ⟨more, edited', line', -⟩
      refine ⟨⟨_, edited', line'⟩, fun j call is => ?_⟩
      rw [wake_code] at is
      exact inv.wants j call is

theorem inv_of_consoleReach (reach : ConsoleReach x) : ConsoleInv x := by
  refine Reachable.invariant reach ConsoleInv ⟨⟨[], [], .nil _ _, rfl, rfl, List.not_mem_nil, le_rfl, rfl⟩, nofun⟩ ?_
  exact fun _ inv admitted step => inv.step admitted step

/-- What has been committed and not been read. -/
def Console.readable (s : Console ι) : List Byte := window s.buf s.r (s.w - s.r).toNat

/-- What can be edited. -/
def Console.editable (s : Console ι) : List Byte := window s.buf s.w (s.e - s.w).toNat

/-- The indices stay in order and at most the size of the buffer apart, whatever is typed and read;
there is no newline in what can be erased, and nothing that has been committed is erased or
overwritten before it is read. The readers get what has been committed, in order, without the `^D`s. How
a section of `consoleread` ends is determined by what is unread: a `^D` stops a reader; it stays if the
reader has got anything, and the first reader after that which has got nothing takes it and
returns 0. -/
theorem console_discipline (x : ConsoleState ι) (reach : ConsoleReach x) :
    (x.shared.w - x.shared.r).toNat ≤ (x.shared.e - x.shared.r).toNat ∧
    (x.shared.e - x.shared.r).toNat ≤ inputBuf ∧
    newline ∉ x.shared.editable ∧
    x.shared.readable = x.shared.committed.drop x.shared.taken ∧
    x.shared.delivered = (x.shared.committed.take x.shared.taken).filter (· ≠ ctrlD) ∧
    (∀ chars, ∃ more, (consoleintr chars x.shared).shared.readable = x.shared.readable ++ more ∧
      (consoleintr chars x.shared).shared.committed = x.shared.committed ++ more ∧
      (consoleintr chars x.shared).shared.delivered = x.shared.delivered) ∧
    (∀ j call, x.place j = .ready call →
      ReadEnds j call.target call.n x.shared x.shared.readable (consoleread j call x.shared)) ∧
    ∀ j call rest, x.place j = .ready call → 0 < call.n → x.shared.readable = ctrlD :: rest →
      let passed := if call.n = call.target then
        { x.shared with r := x.shared.r + 1, taken := x.shared.taken + 1 } else x.shared
      consoleread j call x.shared = { shared := passed.note j (call.target - call.n) } := by
  have inv := inv_of_consoleReach reach
  rcases inv.line with ⟨unread, edited, line⟩
  have size := line.holds.size inputBuf_small
  have readable := line.committed.size inputBuf_small
  have isUnread : x.shared.readable = unread := line.committed.window_eq inputBuf_small
  have isEdited : x.shared.editable = edited := line.editing.window_eq inputBuf_small
  refine ⟨?_, ?_, ?_, ?_, line.delivered, fun chars => ?_, fun j call ready => ?_,
    fun j call rest ready wanted next => ?_⟩
  · rw [readable, size, List.length_append]
    exact Nat.le_add_right _ _
  · rw [size]
    exact line.holds.bound
  · rw [isEdited]
    exact line.noNewline
  · rw [isUnread, line.unread]
  · rcases line.consoleintr chars with ⟨more, edited', line', -, -, delivered, -, committed⟩
    refine ⟨more, ?_, committed, delivered⟩
    rw [isUnread]
    exact line'.committed.window_eq inputBuf_small
  · rw [isUnread]
    exact readLoop_ends j call.target call.n line (inv.wants j call (by rw [ready]; rfl))
  · rw [isUnread] at next
    subst next
    have wants := inv.wants j call (by rw [ready]; rfl)
    have ends := readLoop_ends j call.target call.n line wants
    unfold consoleread
    generalize readLoop j call.target call.n x.shared = result at ends ⊢
    cases ends with
    | returns bytes rest' isRest noEof fits enough =>
        exfalso
        cases bytes with
        | nil =>
            rcases enough with none | line
            · exact wanted.ne none
            · cases line
        | cons c bytes =>
            rcases List.cons.inj isRest with ⟨rfl, -⟩
            exact noEof List.mem_cons_self
    | sleeps noEof less => exact absurd (List.mem_cons_self) noEof
    | keeps bytes rest' isRest noEof less some =>
        cases bytes with
        | nil =>
            have more : call.n ≠ call.target := some.ne
            rw [if_neg more, deliver_nil]
            rfl
        | cons c bytes =>
            rcases List.cons.inj isRest with ⟨rfl, -⟩
            exact absurd List.mem_cons_self noEof
    | eof rest' isRest nothing =>
        rw [if_pos (Nat.le_antisymm wants nothing)]

instance (x : ConsoleState ι) (label : Label ι Consoleread (List Byte)) :
    Decidable (ConsoleUse x label) :=
  match label with
  | .call _ entry => inferInstanceAs (Decidable (entry.n = entry.target))
  | .run _ => inferInstanceAs (Decidable True)
  | .interrupt _ => inferInstanceAs (Decidable True)

/-- Process 1 gets the two characters before a `^D`; the `^D` stays for the next reader. -/
theorem console_discipline_eof :
    ∃ x : ConsoleState ℕ, x.shared.returns = [(1, 2)] ∧ x.shared.readable = [ctrlD] ∧
      x.shared.readable = x.shared.committed.drop x.shared.taken := by
  have run : ∃ x : ConsoleState ℕ, runs consoleCode ConsoleUse [.call 1 ⟨9, 9⟩, .run 1,
      .interrupt [0x61, 0x62, 0x63, ctrlH, ctrlD], .run 1] { shared := {} } = some x ∧
      x.shared.returns = [(1, 2)] ∧ x.shared.readable = [ctrlD] := ⟨_, rfl, by decide, by decide⟩
  rcases run with ⟨x, ran, returned, next⟩
  have reach : ConsoleReach x := reachable_of_runs _ .refl ran
  exact ⟨x, returned, next, (console_discipline x reach).2.2.2.1⟩

end Xv6.Dev
