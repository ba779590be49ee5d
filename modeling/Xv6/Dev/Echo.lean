import Xv6.Dev.Console
import Xv6.Dev.Screen

/-!
# The echo

`consoleintr` with its output: what is typed, erased and committed, and what the screen shows of it.
-/

namespace Xv6.Dev

open Terminal Ring

variable {ι : Type*}

/-- The calls of `consputc` in the loop for `C('U')` -/
def killEcho : ℕ → Console ι → List (BitVec 32)
  | 0, _ => []
  | passes + 1, s =>
      if s.e ≠ s.w ∧ s.last ≠ newline then backspace :: killEcho passes { s with e := s.e - 1 } else []

/-- The calls of `consputc` for a character -/
def echo (c : Byte) (s : Console ι) : List (BitVec 32) :=
  if c = ctrlP then []
  else if c = ctrlU then killEcho (s.e - s.w).toNat s
  else if c = ctrlH ∨ c = delete then (if s.e ≠ s.w then [backspace] else [])
  else if c ≠ 0 ∧ (s.e - s.r).toNat < inputBuf then
    [BitVec.setWidth 32 (if c = carriageReturn then newline else c)]
  else []

/-- The calls of `consputc` in `consoleintr` -/
def echoes : List Byte → Console ι → List (BitVec 32)
  | [], _ => []
  | c :: chars, s => echo c s ++ echoes chars (s.input c).1

/-! ## A line on the screen -/

/-- The cell of a byte -/
def cellOf (c : Byte) : Option (BitVec 16) := some (glyph (BitVec.setWidth 32 c))

/-- A text behind which some bytes have been printed -/
def printed (bytes : List Byte) (text : List (Option (BitVec 16))) : List (Option (BitVec 16)) :=
  bytes.foldl (fun text c => if c = newline then pad 80 text else text ++ [cellOf c]) text

/-- The cursor is behind a line that is being edited, and its beginning is still on the screen. -/
structure Typed (p : Paper (BitVec 16)) (base : List (Option (BitVec 16))) (edited : List Byte) : Prop where
  onScreen : p.OnScreen 80 24
  text : p.text = base ++ edited.map cellOf
  begins : 80 * p.top ≤ base.length

variable {s : Console ι} {p : Paper (BitVec 16)} {base : List (Option (BitVec 16))} {unread edited bytes : List Byte}
  {c : Byte}

theorem printed_plain (hbytes : newline ∉ bytes) : printed bytes base = base ++ bytes.map cellOf := by
  induction bytes generalizing base with
  | nil => simp [printed]
  | cons b bytes ih =>
      rw [List.mem_cons, not_or] at hbytes
      have rest := @ih (base ++ [cellOf b]) hbytes.2
      unfold printed at rest ⊢
      rw [List.foldl_cons, if_neg (Ne.symm hbytes.1), rest]
      simp

theorem printed_append (bytes more : List Byte) : printed (bytes ++ more) base = printed more (printed bytes base) := by
  simp [printed]

theorem byte_not_backspace (c : Byte) : BitVec.setWidth 32 c ≠ backspace := by
  have none := byte_printed [c]
  simpa [eq_comm] using none

theorem byte_newline : BitVec.setWidth 32 c = 0x0a ↔ c = newline := by
  constructor
  · intro same
    have value := congrArg BitVec.toNat same
    have bound := c.isLt
    apply BitVec.eq_of_toNat_eq
    simpa [newline, Nat.mod_eq_of_lt (by omega : c.toNat < 4294967296)] using value
  · rintro rfl
    rfl

/-- The last byte of the line goes, and nothing else. -/
theorem Typed.erase (typed : Typed p base (edited ++ [c])) : Typed (put backspace p) base edited := by
  have text := typed.text
  have begins := typed.begins
  have length : p.text.length = base.length + edited.length + 1 := by
    rw [text]
    simp
    omega
  have erases : put backspace p = { p with text := p.text.dropLast } := by
    have line : backspace ≠ 0x0a := by decide
    unfold put Paper.erase
    rw [if_neg line, if_pos rfl, if_pos (by omega)]
  refine ⟨(put_follow typed.onScreen).2.2, ?_, ?_⟩
  · rw [erases, text]
    simp [← List.append_assoc]
  · rw [erases]
    exact begins

/-- A byte is printed behind the line. The line is too short for the screen to lose its beginning. -/
theorem Typed.type (typed : Typed p base edited) (short : edited.length < inputBuf) (hc : c ≠ newline) :
    Typed (put (BitVec.setWidth 32 c) p) base (edited ++ [c]) := by
  have text := typed.text
  have begins := typed.begins
  have follows := put_follow (c := BitVec.setWidth 32 c) typed.onScreen
  have writes : written (BitVec.setWidth 32 c) p = base ++ (edited ++ [c]).map cellOf := by
    unfold written
    rw [if_neg (fun h => hc (byte_newline.1 h)), if_neg (byte_not_backspace c), text]
    simp [cellOf]
  refine ⟨follows.2.2, follows.1.trans writes, ?_⟩
  have bound : edited.length < 128 := short
  rw [follows.2.1, writes]
  split
  · rename_i full
    simp at full
    omega
  · exact begins

theorem Typed.endLine (typed : Typed p base edited) :
    Typed (put (BitVec.setWidth 32 newline) p) (pad 80 (base ++ edited.map cellOf)) [] := by
  have follows := put_follow (c := BitVec.setWidth 32 Dev.newline) typed.onScreen
  have writes : written (BitVec.setWidth 32 Dev.newline) p = pad 80 (base ++ edited.map cellOf) := by
    unfold written
    rw [if_pos (byte_newline.2 rfl), typed.text]
  refine ⟨follows.2.2, ?_, ?_⟩
  · rw [follows.1, writes]
    simp
  · rw [← writes, ← follows.1]
    exact follows.2.2.above

/-- What has been committed cannot be erased any more. -/
theorem Typed.commit (typed : Typed p base edited) : Typed p (base ++ edited.map cellOf) [] := by
  refine ⟨typed.onScreen, by simp [typed.text], ?_⟩
  rw [← typed.text]
  exact typed.onScreen.above

/-! ## What is typed -/

theorem killLine_succ (passes : ℕ) (s : Console ι) :
    killLine (passes + 1) s =
      if s.e ≠ s.w ∧ s.last ≠ newline then killLine passes { s with e := s.e - 1 } else s := rfl

theorem Typed.killLine (edited : List Byte) : ∀ {s : Console ι} {p}, Line s unread edited → Typed p base edited →
    ∃ edited', Line (killLine edited.length s) unread edited' ∧
      (killLine edited.length s).committed = s.committed ∧
      Typed (puts (killEcho edited.length s) p) base edited' := by
  induction edited using List.reverseRecOn with
  | nil => exact fun line typed => ⟨[], line, rfl, typed⟩
  | append_singleton edited c ih =>
      intro s p line typed
      rw [List.length_append, List.length_singleton]
      rw [killLine_succ, killEcho]
      split
      · rcases ih line.erase.2 typed.erase with ⟨edited', line', committed, typed'⟩
        exact ⟨edited', line', committed, typed'⟩
      · exact ⟨_, line, rfl, typed⟩

/-- The screen follows the editor: a byte is printed where it is stored, and erased where it is dropped. -/
theorem Typed.input (line : Line s unread edited) (typed : Typed p base edited) (c : Byte) :
    ∃ more edited', Line (s.input c).1 (unread ++ more) edited' ∧
      (s.input c).1.committed = s.committed ++ more ∧
      Typed (puts (echo c s) p) (printed more base) edited' := by
  have same : ∃ more edited', Line s (unread ++ more) edited' ∧ s.committed = s.committed ++ more ∧
      Typed (puts [] p) (printed more base) edited' :=
    ⟨[], edited, by simpa using line, by simp, typed⟩
  unfold Console.input echo
  by_cases isP : c = ctrlP
  · rw [if_pos isP, if_pos isP]
    exact same
  rw [if_neg isP, if_neg isP]
  by_cases isU : c = ctrlU
  · rw [if_pos isU, if_pos isU]
    have size := line.editing.size inputBuf_small
    rw [size]
    rcases typed.killLine edited line with ⟨edited', line', committed, typed'⟩
    exact ⟨[], edited', by simpa using line', by simpa using committed, typed'⟩
  rw [if_neg isU, if_neg isU]
  by_cases isH : c = ctrlH ∨ c = delete
  · rw [if_pos isH, if_pos isH]
    by_cases some : s.e ≠ s.w
    · rw [if_pos some, if_pos some]
      rcases List.eq_nil_or_concat edited with nil | ⟨rest, last, isConcat⟩
      · exact absurd ((line.editing.empty_iff inputBuf_small).2 nil).symm some
      · rw [List.concat_eq_append] at isConcat
        subst isConcat
        exact ⟨[], rest, by simpa using line.erase.2, by simp, typed.erase⟩
    · rw [if_neg some, if_neg some]
      exact same
  rw [if_neg isH, if_neg isH]
  by_cases room : c ≠ 0 ∧ (s.e - s.r).toNat < inputBuf
  · rw [if_pos room, if_pos room]
    have size := line.holds.size inputBuf_small
    have less : (unread ++ edited).length < inputBuf := size ▸ room.2
    have short : edited.length < inputBuf := by
      rw [List.length_append] at less
      omega
    dsimp only
    generalize (if c = carriageReturn then newline else c) = c
    have pushed := line.holds.push inputBuf_divides less c
    rw [List.append_assoc] at pushed
    split
    · have committed := @Line.commit ι { s with
        buf := Function.update s.buf (cell inputBuf s.e) c, e := s.e + 1 } unread (edited ++ [c]) pushed line.w
        line.unread line.taken line.delivered
      refine ⟨edited ++ [c], [], committed.2, congrArg _ committed.1, ?_⟩
      rw [printed_append, printed_plain line.noNewline]
      by_cases ends : c = newline
      · subst ends
        exact typed.endLine
      · have plain : printed [c] (base ++ edited.map cellOf) = base ++ (edited ++ [c]).map cellOf := by
          simp [printed, ends]
        rw [plain]
        exact (typed.type short ends).commit
    · rename_i notCommitted
      have plain : c ≠ newline := fun ends => notCommitted (.inl ends)
      refine ⟨[], edited ++ [c], ⟨?_, ?_, ?_, ?_, line.taken, line.delivered⟩, by simp, typed.type short plain⟩
      · simpa using pushed
      · simpa using line.w
      · simpa using line.unread
      · intro member
        rcases List.mem_append.1 member with old | new
        · exact line.noNewline old
        · exact plain (List.mem_singleton.1 new).symm
  · rw [if_neg room, if_neg room]
    exact same

theorem Typed.consoleintr (chars : List Byte) : ∀ {s : Console ι} {p base unread edited},
    Line s unread edited → Typed p base edited →
    ∃ more edited', Line (consoleintr chars s).shared (unread ++ more) edited' ∧
      (consoleintr chars s).shared.committed = s.committed ++ more ∧
      Typed (puts (echoes chars s) p) (printed more base) edited' := by
  induction chars with
  | nil =>
      intro s p base unread edited line typed
      exact ⟨[], edited, by simpa [Dev.consoleintr] using line, by simp [Dev.consoleintr], typed⟩
  | cons c chars ih =>
      intro s p base unread edited line typed
      rcases typed.input line c with ⟨more, edited₁, line₁, committed, typed₁⟩
      rcases ih line₁ typed₁ with ⟨more', edited₂, line₂, committed', typed₂⟩
      refine ⟨more ++ more', edited₂, ?_, ?_, ?_⟩
      · rw [← List.append_assoc]
        exact line₂
      · rw [← List.append_assoc, ← committed]
        exact committed'
      · have both : puts (echoes (c :: chars) s) p = puts (echoes chars (s.input c).1) (puts (echo c s) p) := by
          simp [puts, echoes]
        rw [both, printed_append]
        exact typed₂

theorem editable_of_line (line : Line s unread edited) : s.editable = edited :=
  line.editing.window_eq inputBuf_small

/-! ## All interleavings -/

/-- The console and its screen -/
structure EchoState (ι : Type*) where
  console : ConsoleState ι
  screen : Cga

open Monitor Transition

variable [DecidableEq ι]

/-- A step of the console; an interrupt prints what it echoes. No program prints anything. -/
inductive EchoStep : EchoState ι → Label ι Consoleread (List Byte) → EchoState ι → Prop
  | interrupt {s : EchoState ι} {console : ConsoleState ι} {screen : Cga} (chars : List Byte)
      (step : Step consoleCode s.console (.interrupt chars) console)
      (prints : consputs (echoes chars s.console.shared) s.screen = .ok screen) :
      EchoStep s (.interrupt chars) ⟨console, screen⟩
  | call {s : EchoState ι} {console : ConsoleState ι} (myproc : ι) (entry : Consoleread)
      (step : Step consoleCode s.console (.call myproc entry) console) :
      EchoStep s (.call myproc entry) ⟨console, s.screen⟩
  | run {s : EchoState ι} {console : ConsoleState ι} (myproc : ι)
      (step : Step consoleCode s.console (.run myproc) console) : EchoStep s (.run myproc) ⟨console, s.screen⟩

/-- Nobody types `C('P')`, for which `procdump` prints its list. -/
def EchoUse (s : EchoState ι) (label : Label ι Consoleread (List Byte)) : Prop :=
  ConsoleUse s.console label ∧ ∀ chars, label = .interrupt chars → ctrlP ∉ chars

/-- The states of all interleavings of keys and readers, on a screen that shows some text already -/
def EchoReach (screen : Cga) : EchoState ι → Prop := Reachable EchoStep EchoUse ⟨{ shared := {} }, screen⟩

variable {x y : EchoState ι} {label : Label ι Consoleread (List Byte)}

structure EchoInv (base : List (Option (BitVec 16))) (x : EchoState ι) : Prop where
  console : ConsoleInv x.console
  shows : ∃ p, Displays x.screen p ∧ Typed p (printed x.console.shared.committed base) x.console.shared.editable

/-- A reader takes what has been committed; the line and what has been committed so far stay. -/
theorem EchoInv.run {myproc : ι} {console : ConsoleState ι} (inv : EchoInv base x)
    (step : Step consoleCode x.console (.run myproc) console) :
    console.shared.committed = x.console.shared.committed ∧ console.shared.editable = x.console.shared.editable := by
  rcases inv.console.line with ⟨unread, edited, line⟩
  cases step with
  | @run _ call ready =>
      have wants := inv.console.wants myproc call (by rw [ready]; rfl)
      have ends := readLoop_ends myproc call.target call.n line wants
      rcases ends.line line with ⟨rest, line'⟩
      refine ⟨?_, ?_⟩
      · change (readLoop myproc call.target call.n x.console.shared).shared.committed = _
        generalize readLoop myproc call.target call.n x.console.shared = result at ends
        cases ends <;> rfl
      · rw [editable_of_line line]
        exact editable_of_line line'

theorem EchoInv.step (inv : EchoInv base x) (admitted : ConsoleUse x.console label) (step : EchoStep x label y) :
    EchoInv base y := by
  rcases inv.shows with ⟨p, displays, typed⟩
  cases step with
  | interrupt chars step prints =>
      refine ⟨inv.console.step admitted step, ?_⟩
      rcases inv.console.line with ⟨unread, edited, line⟩
      rw [editable_of_line line] at typed
      rcases typed.consoleintr chars line with ⟨more, edited', line', committed, typed'⟩
      rcases displays.consputs (echoes chars x.console.shared) with ⟨screen', prints', displays', -⟩
      rw [prints] at prints'
      cases prints'
      cases step with
      | interrupt =>
          refine ⟨_, displays', ?_⟩
          dsimp only
          change Typed _ (printed (Dev.consoleintr chars x.console.shared).shared.committed base)
            (Dev.consoleintr chars x.console.shared).shared.editable
          rw [editable_of_line line', committed, printed_append]
          exact typed'
  | call myproc entry step =>
      refine ⟨inv.console.step admitted step, p, displays, ?_⟩
      cases step with
      | call _ outside => exact typed
  | run myproc step =>
      have kept := inv.run step
      refine ⟨inv.console.step admitted step, p, displays, ?_⟩
      dsimp only
      rw [kept.1, kept.2]
      exact typed

/-- In every interleaving of keys and readers the screen shows the text that was there, then all that has been
committed, and then the line that can still be edited: what is erased on the screen is what is erased in the buffer,
never what was there before. And the echo of no key makes the screen panic. -/
theorem echo_correct {p : Paper (BitVec 16)} {screen : Cga} (h : Displays screen p) (x : EchoState ι)
    (reach : EchoReach screen x) :
    (∃ p', Displays x.screen p' ∧
      p'.text = printed (x.console.shared.committed ++ x.console.shared.editable) p.text) ∧
    ∀ chars, ∃ screen', consputs (echoes chars x.console.shared) x.screen = .ok screen' := by
  have inv : EchoInv p.text x := by
    refine Reachable.invariant reach (EchoInv p.text) ⟨?_, p, h, h.onScreen, ?_, h.onScreen.above⟩ ?_
    · exact ⟨⟨[], [], .nil _ _, rfl, rfl, List.not_mem_nil, le_rfl, rfl⟩, nofun⟩
    · simp [Console.editable, window, printed]
    · exact fun _ inv admitted step => inv.step admitted.1 step
  rcases inv.console.line with ⟨unread, edited, line⟩
  rcases inv.shows with ⟨p', displays, typed⟩
  refine ⟨⟨p', displays, ?_⟩, ?_⟩
  · have plain : newline ∉ x.console.shared.editable := by
      rw [editable_of_line line]
      exact line.noNewline
    rw [typed.text, printed_append, printed_plain plain]
  · intro chars
    rcases displays.consputs (echoes chars x.console.shared) with ⟨screen', prints, -⟩
    exact ⟨screen', prints⟩

/-- Two letters are typed behind a committed line, and three times the last one is erased. -/
theorem echo_correct_erased :
    ∃ x : EchoState ℕ, x.console.shared.committed = [0x61, newline] ∧ x.console.shared.editable = [] ∧
      ∃ p, Displays x.screen p ∧ p.text = printed [0x61, newline] [] := by
  have typing : ∃ x : ConsoleState ℕ,
      take consoleCode { shared := {} } (.interrupt [0x61, newline, 0x62, 0x63, ctrlH, ctrlH, ctrlH]) = some x ∧
        x.shared.committed = [0x61, newline] ∧ x.shared.editable = [] := ⟨_, rfl, by decide, by decide⟩
  rcases typing with ⟨x, taken, committed, erased⟩
  rcases cleared_displays.consputs
    (echoes [0x61, newline, 0x62, 0x63, ctrlH, ctrlH, ctrlH] ({} : Console ℕ)) with ⟨screen, prints, -⟩
  have admitted : EchoUse (⟨{ shared := {} }, cleared⟩ : EchoState ℕ)
      (.interrupt [0x61, newline, 0x62, 0x63, ctrlH, ctrlH, ctrlH]) := by
    refine ⟨trivial, ?_⟩
    intro chars same
    cases same
    decide
  have reach : EchoReach cleared ⟨x, screen⟩ :=
    Reachable.refl.next admitted (.interrupt _ (step_of_take taken) prints)
  rcases (echo_correct cleared_displays _ reach).1 with ⟨p, shows, text⟩
  rw [committed, erased] at text
  exact ⟨_, committed, erased, p, shows, text⟩

end Xv6.Dev
