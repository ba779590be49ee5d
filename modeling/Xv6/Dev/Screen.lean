import Xv6.Lib.Paper

/-!
# The screen

`cgaputc` of `console.c`: the cells of the CGA memory and the two bytes of the cursor. The screen is the window of a
terminal of 80 columns and 24 rows; a cell of the terminal that nothing was printed to is cleared.
-/

namespace Xv6.Dev

open Terminal

/-- `BACKSPACE` -/
def backspace : BitVec 32 := 0x100

/-- A space, black on white -/
def blank : BitVec 16 := 0x0720

/-- The memory at `crt`, and the registers 14 and 15 behind `CRTPORT` -/
structure Cga where
  crt : ℕ → BitVec 16
  high : BitVec 8
  low : BitVec 8

/-- The position of the cursor, in cells -/
def Cga.pos (s : Cga) : ℕ := s.high.toNat * 256 + s.low.toNat

/-- The cell of a character -/
def glyph (c : BitVec 32) : BitVec 16 := BitVec.setWidth 16 (c &&& 0xff) ||| 0x0700

/-- The first part of `cgaputc`: it prints the character and moves the cursor. -/
def cgaWrite (c : BitVec 32) (crt : ℕ → BitVec 16) (pos : ℕ) : (ℕ → BitVec 16) × ℕ :=
  if c = 0x0a then (crt, pos + (80 - pos % 80))
  else if c = backspace then (crt, if 0 < pos then pos - 1 else pos)
  else (Function.update crt pos (glyph c), pos + 1)

/-- `Scroll up.` -/
def cgaScroll (crt : ℕ → BitVec 16) (pos : ℕ) : (ℕ → BitVec 16) × ℕ :=
  if 24 ≤ pos / 80 then
    let moved := fun i => if i < 23 * 80 then crt (i + 80) else crt i
    (fun i => if pos - 80 ≤ i ∧ i < 24 * 80 then 0 else moved i, pos - 80)
  else (crt, pos)

/-- The last part: it sets the cursor and clears its cell. -/
def cgaCursor (crt : ℕ → BitVec 16) (pos : ℕ) : Cga where
  crt := Function.update crt pos blank
  high := BitVec.ofNat 8 (pos >>> 8)
  low := BitVec.ofNat 8 pos

def cgaputc (c : BitVec 32) (s : Cga) : Except String Cga :=
  let (crt, pos) := cgaWrite c s.crt s.pos
  if 25 * 80 < pos then .error "pos under/overflow"
  else
    let (crt, pos) := cgaScroll crt pos
    .ok (cgaCursor crt pos)

/-- The calls of `cgaputc` that `consputc` makes for the characters -/
def consputs (cs : List (BitVec 32)) (s : Cga) : Except String Cga := cs.foldlM (fun s c => cgaputc c s) s

/-- The loop of `consolewrite` -/
def consolewrite (buf : List (BitVec 8)) (s : Cga) : Except String Cga := consputs (buf.map (BitVec.setWidth 32)) s

/-! ## The terminal that the screen shows -/

/-- What a character does to the text -/
def written (c : BitVec 32) (p : Paper (BitVec 16)) : List (Option (BitVec 16)) :=
  if c = 0x0a then pad 80 p.text
  else if c = backspace then (p.erase 80).text
  else p.text ++ [some (glyph c)]

/-- What a character does to the terminal -/
def put (c : BitVec 32) (p : Paper (BitVec 16)) : Paper (BitVec 16) :=
  if c = 0x0a then p.newline 80 24
  else if c = backspace then p.erase 80
  else p.type 80 24 (glyph c)

/-- A cell of the memory shows one of the terminal. -/
def Shows (cell : BitVec 16) : Option (BitVec 16) → Prop
  | some x => cell = x
  | none => cell = 0 ∨ cell = blank

structure Displays (s : Cga) (p : Paper (BitVec 16)) : Prop where
  onScreen : p.OnScreen 80 24
  cursor : p.text.length = 80 * p.top + s.pos
  cells : ∀ i < 24 * 80, Shows (s.crt i) (p.text.getD (80 * p.top + i) none)

/-- The memory before the screen moves on and the cursor is shown -/
structure Drawn (crt : ℕ → BitVec 16) (pos : ℕ) (text : List (Option (BitVec 16))) (top : ℕ) : Prop where
  cursor : text.length = 80 * top + pos
  room : pos ≤ 24 * 80
  cells : ∀ i < 24 * 80, i ≠ pos → Shows (crt i) (text.getD (80 * top + i) none)

variable {s t : Cga} {p : Paper (BitVec 16)} {c : BitVec 32} {crt : ℕ → BitVec 16} {pos top : ℕ}
  {text : List (Option (BitVec 16))}

theorem put_follow (screen : p.OnScreen 80 24) :
    (put c p).text = written c p ∧
      (put c p).top = (if (written c p).length = 80 * (p.top + 24) then p.top + 1 else p.top) ∧
      (put c p).OnScreen 80 24 := by
  have above := screen.above
  have below := screen.below
  unfold put written
  by_cases line : c = 0x0a
  · have padded := screen.pad (by omega)
    have follows := @Paper.OnScreen.follow _ 80 24 (pad 80 p.text) p (by omega) (by omega) (by omega) padded.2
    simp only [line, if_true]
    exact ⟨rfl, follows⟩
  · by_cases back : c = backspace
    · have erased := screen.erase
      have shorter : (p.erase 80).text.length ≤ p.text.length := by
        unfold Paper.erase
        split <;> simp
      have same : (p.erase 80).top = p.top := by
        unfold Paper.erase
        split <;> rfl
      rw [if_neg line, if_pos back, if_neg line, if_pos back]
      refine ⟨rfl, ?_, erased⟩
      rw [if_neg (by omega), same]
    · have follows := @Paper.OnScreen.follow _ 80 24 (p.text ++ [some (glyph c)]) p (by omega) (by omega)
        (by simp; omega) (by simp; omega)
      simp only [line, back, if_false]
      exact ⟨rfl, follows⟩

theorem Displays.room (h : Displays s p) : s.pos < 24 * 80 := by
  have below := h.onScreen.below
  have cursor := h.cursor
  omega

/-- Printing a character draws the text with it. -/
theorem Displays.drawn (h : Displays s p) (c : BitVec 32) :
    Drawn (cgaWrite c s.crt s.pos).1 (cgaWrite c s.crt s.pos).2 (written c p) p.top := by
  have room := h.room
  have cursor := h.cursor
  unfold cgaWrite written
  by_cases line : c = 0x0a
  · have length := length_pad (by omega : 0 < 80) p.text
    simp only [line, if_true]
    refine ⟨by omega, by omega, ?_⟩
    intro i hi _
    rw [getD_pad]
    exact h.cells i hi
  · by_cases back : c = backspace
    · rw [if_neg line, if_pos back, if_neg line, if_pos back]
      unfold Paper.erase
      by_cases first : 0 < s.pos
      · rw [if_pos first, if_pos (by omega)]
        refine ⟨by simp; omega, by dsimp only; omega, ?_⟩
        intro i hi different
        dsimp only at different
        rw [getD_erase (by simp; omega)]
        exact h.cells i hi
      · rw [if_neg first, if_neg (by omega)]
        exact ⟨cursor, by dsimp only; omega, fun i hi _ => h.cells i hi⟩
    · simp only [line, back, if_false]
      refine ⟨by simp; omega, by omega, ?_⟩
      intro i hi _
      rw [getD_type]
      by_cases here : i = s.pos
      · subst here
        rw [Function.update_self, if_pos cursor.symm]
        rfl
      · rw [Function.update_of_ne here, if_neg (by omega)]
        exact h.cells i hi

/-- The screen moves on when the cursor has left it. -/
theorem Drawn.scroll (h : Drawn crt pos text top) :
    Drawn (cgaScroll crt pos).1 (cgaScroll crt pos).2 text
        (if text.length = 80 * (top + 24) then top + 1 else top) ∧
      (cgaScroll crt pos).2 < 24 * 80 := by
  have cursor := h.cursor
  have room := h.room
  unfold cgaScroll
  by_cases full : pos = 24 * 80
  · subst full
    rw [if_pos (by omega), if_pos (by omega)]
    dsimp only
    refine ⟨⟨by omega, by omega, ?_⟩, by omega⟩
    intro i hi _
    by_cases last : 23 * 80 ≤ i
    · rw [if_pos (by omega), getD_beyond (by omega)]
      exact .inl rfl
    · rw [if_neg (by omega), if_pos (by omega)]
      have cell := h.cells (i + 80) (by omega) (by omega)
      rwa [show 80 * top + (i + 80) = 80 * (top + 1) + i by omega] at cell
  · rw [if_neg (by omega), if_neg (by omega)]
    exact ⟨h, by dsimp only; omega⟩

theorem cursor_registers (hpos : pos < 24 * 80) (crt : ℕ → BitVec 16) :
    (cgaCursor crt pos).pos = pos := by
  simp only [cgaCursor, Cga.pos, BitVec.toNat_ofNat, Nat.shiftRight_eq_div_pow]
  omega

/-- Nothing below the screen is touched. -/
theorem Displays.frame (h : Displays s p) {i : ℕ} (hi : 24 * 80 ≤ i)
    (inside : (cgaScroll (cgaWrite c s.crt s.pos).1 (cgaWrite c s.crt s.pos).2).2 < 24 * 80) :
    (cgaCursor (cgaScroll (cgaWrite c s.crt s.pos).1 (cgaWrite c s.crt s.pos).2).1
      (cgaScroll (cgaWrite c s.crt s.pos).1 (cgaWrite c s.crt s.pos).2).2).crt i = s.crt i := by
  have room := h.room
  have writes : (cgaWrite c s.crt s.pos).1 i = s.crt i := by
    unfold cgaWrite
    split
    · rfl
    · split
      · rfl
      · apply Function.update_of_ne
        omega
  unfold cgaCursor
  dsimp only
  rw [Function.update_of_ne (by omega)]
  unfold cgaScroll
  split
  · dsimp only
    rw [if_neg (by omega), if_neg (by omega), writes]
  · exact writes

theorem Displays.cgaputc (h : Displays s p) (c : BitVec 32) :
    ∃ t, Dev.cgaputc c s = .ok t ∧ Displays t (put c p) ∧ ∀ i, 24 * 80 ≤ i → t.crt i = s.crt i := by
  have drawn := h.drawn c
  rcases drawn.scroll with ⟨scrolled, inside⟩
  rcases put_follow (c := c) h.onScreen with ⟨text, top, screen⟩
  refine ⟨cgaCursor _ _, ?_, ⟨screen, ?_, ?_⟩, fun i hi => h.frame hi inside⟩
  · have room := drawn.room
    simp only [Dev.cgaputc]
    rw [if_neg (by omega)]
  · rw [cursor_registers inside, text, top]
    exact scrolled.cursor
  · intro i hi
    rw [text, top]
    unfold cgaCursor
    dsimp only
    by_cases here : i = (cgaScroll (cgaWrite c s.crt s.pos).1 (cgaWrite c s.crt s.pos).2).2
    · subst here
      rw [Function.update_self, getD_beyond (le_of_eq scrolled.cursor)]
      exact .inr rfl
    · rw [Function.update_of_ne here]
      exact scrolled.cells i hi here

theorem Settled.put (settled : p.Settled 80 24) (printed : c ≠ backspace) : (put c p).Settled 80 24 := by
  unfold Dev.put
  by_cases line : c = 0x0a
  · simp only [line, if_true]
    apply Paper.Settled.follow settled
    simp [pad]
  · simp only [line, printed, if_false]
    apply Paper.Settled.follow settled
    simp

/-- The terminal after some characters -/
def puts (cs : List (BitVec 32)) (p : Paper (BitVec 16)) : Paper (BitVec 16) := cs.foldl (fun p c => put c p) p

theorem Displays.consputs (cs : List (BitVec 32)) : ∀ {s p}, Displays s p →
    ∃ t, Dev.consputs cs s = .ok t ∧ Displays t (puts cs p) ∧ ∀ i, 24 * 80 ≤ i → t.crt i = s.crt i := by
  induction cs with
  | nil => exact fun h => ⟨_, rfl, h, fun _ _ => rfl⟩
  | cons c cs ih =>
      intro s p h
      rcases h.cgaputc c with ⟨s', prints, shows, below⟩
      rcases ih shows with ⟨t, rest, displays, below'⟩
      refine ⟨t, ?_, displays, ?_⟩
      · unfold Dev.consputs at rest ⊢
        rw [List.foldlM_cons, prints]
        exact rest
      · intro i hi
        rw [below' i hi, below i hi]

theorem Settled.puts (cs : List (BitVec 32)) : ∀ {p : Paper (BitVec 16)}, p.Settled 80 24 → backspace ∉ cs →
    (puts cs p).Settled 80 24 := by
  induction cs with
  | nil => exact fun settled _ => settled
  | cons c cs ih =>
      intro p settled printed
      rw [List.mem_cons, not_or] at printed
      exact ih (Settled.put settled (Ne.symm printed.1)) printed.2

/-- No byte that a program writes is a `BACKSPACE`. -/
theorem byte_printed (buf : List (BitVec 8)) : backspace ∉ buf.map (BitVec.setWidth 32) := by
  intro erased
  rcases List.mem_map.1 erased with ⟨b, -, same⟩
  have value := congrArg BitVec.toNat same
  have bound := b.isLt
  simp [backspace] at value
  omega

/-- Whatever is printed, in any order and with any number of characters erased: the screen does not panic, it shows the
part of the terminal that the cursor is on, and leaves the memory below alone. What programs write erases nothing: the
screen goes on to show the last 24 rows of the text. -/
theorem consputs_correct (h : Displays s p) :
    (∀ cs, ∃ t, consputs cs s = .ok t ∧ Displays t (puts cs p) ∧ ∀ i, 24 * 80 ≤ i → t.crt i = s.crt i) ∧
      (p.Settled 80 24 → ∀ buf, ∃ t, consolewrite buf s = .ok t ∧
        Displays t (puts (buf.map (BitVec.setWidth 32)) p) ∧
        (puts (buf.map (BitVec.setWidth 32)) p).Settled 80 24) := by
  refine ⟨fun cs => h.consputs cs, ?_⟩
  intro settled buf
  rcases h.consputs (buf.map (BitVec.setWidth 32)) with ⟨t, prints, displays, -⟩
  exact ⟨t, prints, displays, Settled.puts _ settled (byte_printed buf)⟩

/-- A cleared screen, with the cursor at its beginning -/
def cleared : Cga := ⟨fun _ => blank, 0, 0⟩

theorem cleared_displays : Displays cleared {} :=
  ⟨⟨by simp, by simp⟩, by simp [cleared, Cga.pos], fun i _ => .inr rfl⟩

/-- `ok`, of which one letter is erased, and the end of the line -/
theorem consputs_correct_cleared :
    ∃ t, consputs [0x6f, 0x6b, backspace, 0x0a] cleared = .ok t ∧ t.crt 0 = 0x076f ∧ t.pos = 80 := by
  rcases (consputs_correct cleared_displays).1 [0x6f, 0x6b, backspace, 0x0a] with ⟨t, prints, displays, -⟩
  refine ⟨t, prints, ?_, ?_⟩
  · exact displays.cells 0 (by omega)
  · have cursor := displays.cursor
    have text : (puts [0x6f, 0x6b, backspace, 0x0a] {}).text.length = 80 := rfl
    have top : (puts [0x6f, 0x6b, backspace, 0x0a] {}).top = 0 := rfl
    rw [text, top] at cursor
    omega

end Xv6.Dev
