import Xv6.Lib.Fallible
import Xv6.Lib.Lines
import Xv6.User.Match
import Xv6.User.Memmove

/-!
# The lines of grep

`grep` of `grep.c`. It reads into `buf` behind the line it has begun, writes the lines that match,
and moves what is behind the last newline to the front. Where a read leaves no newline in `buf`, it
starts again at the front and loses what it holds of the line.
-/

namespace Xv6.Grep

open Bytes Fallible Lines

/-- `'\n'` -/
def newline : Byte := 10

/-- `sizeof(buf)` -/
abbrev bufSize : ℕ := 1024

abbrev Buf := ℕ → Byte

inductive Fault where
  /-- a string without a NUL in `buf` -/
  | unterminated
  /-- more lines than there are bytes in `buf` -/
  | endless
  /-- `read` returns more than it is asked for -/
  | overfull
  deriving DecidableEq, Repr

/-- `strchr`, with the bytes that are left in `buf` -/
def strchr (buf : Buf) (c : Byte) : ℕ → ℕ → Except Fault (Option ℕ)
  | 0, _ => .error .unterminated
  | left + 1, s =>
      if buf s = 0 then .ok none
      else if buf s = c then .ok (some s)
      else strchr buf c left (s + 1)

/-- The string at `s`. -/
def stringAt (buf : Buf) : ℕ → ℕ → Except Fault Text
  | 0, _ => .error .unterminated
  | left + 1, s =>
      if buf s = 0 then .ok []
      else do
        let text ← stringAt buf left (s + 1)
        return buf s :: text

/-- The `n` bytes at `p`. -/
def bytesAt (buf : Buf) (p : ℕ) : ℕ → Text
  | 0 => []
  | n + 1 => buf p :: bytesAt buf (p + 1) n

/-- The inner loop, with the position of `p` in `buf`. `written` is what `write` has been given. -/
def lineLoop (pattern : Text) : ℕ → Buf → ℕ → List Text → Except Fault (Buf × ℕ × List Text)
  | 0, _, _, _ => .error .endless
  | lines + 1, buf, p, written => do
      match ← strchr buf newline (bufSize - p) p with
      | none => return (buf, p, written)
      | some q =>
          let buf := Function.update buf q 0
          let text ← stringAt buf (bufSize - p) p
          if matchText pattern text then
            let buf := Function.update buf q newline
            lineLoop pattern lines buf (q + 1) (written ++ [bytesAt buf p (q + 1 - p)])
          else lineLoop pattern lines buf (q + 1) written

/-- The outer loop. The list is what the calls of `read` return; after them it returns 0. -/
def grepLoop (pattern : Text) : List Text → Buf → ℕ → List Text → Except Fault (List Text)
  | [], _, _, written => .ok written
  | chunk :: chunks, buf, m, written =>
      if bufSize - m - 1 < chunk.length then .error .overfull
      else if chunk = [] then .ok written
      else do
        let buf := splice buf m chunk
        let m := m + chunk.length
        let buf := Function.update buf m 0
        let (buf, p, written) ← lineLoop pattern bufSize buf 0 written
        let m := if p = 0 then 0 else m
        if 0 < m then
          let m := m - p
          grepLoop pattern chunks (Ulib.memmove 0 p (BitVec.ofNat 32 m) buf) m written
        else grepLoop pattern chunks buf m written

/-- `grep`, in the order of its calls of `write` -/
def grep (pattern : Text) (buf : Buf) (chunks : List Text) : Except Fault (List Text) :=
  grepLoop pattern chunks buf 0 []

/-! ## What the buffer holds -/

/-- The bytes of a text are at `p`. -/
def Holds (buf : Buf) : ℕ → Text → Prop
  | _, [] => True
  | p, t :: text => buf p = t ∧ Holds buf (p + 1) text

variable {buf buf' : Buf} {p left : ℕ} {text line rest pattern : Text}

theorem holds_nil : Holds buf p [] := trivial

theorem holds_append : Holds buf p (text ++ rest) ↔
    Holds buf p text ∧ Holds buf (p + text.length) rest := by
  induction text generalizing p with
  | nil => simp [Holds]
  | cons t text ih =>
      simp only [List.cons_append, Holds, ih, and_assoc, List.length_cons]
      rw [Nat.add_assoc, Nat.add_comm 1]

theorem holds_iff_getD : Holds buf p text ↔ ∀ i < text.length, buf (p + i) = text.getD i 0 := by
  induction text generalizing p with
  | nil => simp [Holds]
  | cons t text ih =>
      rw [Holds, ih, List.length_cons, Nat.forall_lt_succ_left']
      simp only [Nat.add_zero, List.getD_cons_zero, List.getD_cons_succ, Nat.add_assoc,
        Nat.add_comm 1]

theorem Holds.congr (holds : Holds buf p text)
    (same : ∀ i < text.length, buf' (p + i) = buf (p + i)) : Holds buf' p text := by
  rw [holds_iff_getD] at holds ⊢
  intro i inside
  rw [same i inside, holds i inside]

theorem Holds.update {q : ℕ} {x : Byte} (holds : Holds buf p text)
    (outside : q < p ∨ p + text.length ≤ q) : Holds (Function.update buf q x) p text := by
  apply holds.congr
  intro i inside
  exact Function.update_of_ne (by omega) _ _

theorem Holds.bytesAt (holds : Holds buf p text) : bytesAt buf p text.length = text := by
  induction text generalizing p with
  | nil => rfl
  | cons t text ih => rw [List.length_cons, Grep.bytesAt, holds.1, ih holds.2]

theorem Holds.stringAt (holds : Holds buf p (text ++ [0])) (whole : 0 ∉ text)
    (room : text.length < left) : stringAt buf left p = .ok text := by
  induction text generalizing p left with
  | nil =>
      obtain ⟨left, rfl⟩ := Nat.exists_eq_succ_of_ne_zero room.ne'
      rw [Grep.stringAt, if_pos holds.1]
  | cons t text ih =>
      obtain ⟨left, rfl⟩ := Nat.exists_eq_succ_of_ne_zero (Nat.ne_zero_of_lt room)
      rw [List.mem_cons, not_or] at whole
      have here : buf p ≠ 0 := holds.1 ▸ Ne.symm whole.1
      have rest := ih holds.2 whole.2 (Nat.lt_of_succ_lt_succ room)
      rw [Grep.stringAt, if_neg here, rest, bind_ok, pure_eq, holds.1]

/-- `strchr` finds the first newline. -/
theorem Holds.strchr_some (holds : Holds buf p (line ++ newline :: rest)) (whole : 0 ∉ line)
    (first : newline ∉ line) (room : line.length < left) :
    strchr buf newline left p = .ok (some (p + line.length)) := by
  induction line generalizing p left with
  | nil =>
      obtain ⟨left, rfl⟩ := Nat.exists_eq_succ_of_ne_zero room.ne'
      have here : buf p = newline := holds.1
      simp [strchr, here, newline]
  | cons t line ih =>
      obtain ⟨left, rfl⟩ := Nat.exists_eq_succ_of_ne_zero (Nat.ne_zero_of_lt room)
      rw [List.mem_cons, not_or] at whole first
      have here : buf p ≠ 0 := holds.1 ▸ Ne.symm whole.1
      have other : buf p ≠ newline := holds.1 ▸ Ne.symm first.1
      have later := ih holds.2 whole.2 first.2 (Nat.lt_of_succ_lt_succ room)
      rw [strchr, if_neg here, if_neg other, later, List.length_cons, Nat.add_assoc, Nat.add_comm 1]

theorem Holds.strchr_none (holds : Holds buf p (text ++ [0])) (whole : 0 ∉ text)
    (open_ : newline ∉ text) (room : text.length < left) :
    strchr buf newline left p = .ok none := by
  induction text generalizing p left with
  | nil =>
      obtain ⟨left, rfl⟩ := Nat.exists_eq_succ_of_ne_zero room.ne'
      rw [strchr, if_pos holds.1]
  | cons t text ih =>
      obtain ⟨left, rfl⟩ := Nat.exists_eq_succ_of_ne_zero (Nat.ne_zero_of_lt room)
      rw [List.mem_cons, not_or] at whole open_
      have here : buf p ≠ 0 := holds.1 ▸ Ne.symm whole.1
      have other : buf p ≠ newline := holds.1 ▸ Ne.symm open_.1
      rw [strchr, if_neg here, if_neg other]
      exact ih holds.2 whole.2 open_.2 (Nat.lt_of_succ_lt_succ room)

/-! ## The lines in the buffer -/

/-- Those of the lines that match, with their newlines. -/
def writes (pattern : Text) (lines : List Text) : List Text :=
  (lines.filter (matchText pattern)).map (· ++ [newline])

theorem writes_append (pattern : Text) (lines lines' : List Text) :
    writes pattern (lines ++ lines') = writes pattern lines ++ writes pattern lines' := by
  simp [writes]

/-- The lines of a text that match. -/
def matching (pattern text : Text) : List Text := writes pattern (ended newline text)

theorem matching_append_cons (whole : newline ∉ line) :
    matching pattern (line ++ newline :: rest) =
      (if matchText pattern line then [line ++ [newline]] else []) ++ matching pattern rest := by
  rw [matching, ended_append_cons whole, writes, List.filter_cons]
  split <;> simp [matching, writes]

/-- One pass of the inner loop: the line is written if it matches, and no byte behind it changes. -/
theorem lineLoop_next (pattern : Text) (lines : ℕ) (written : List Text)
    (holds : Holds buf p (line ++ newline :: rest)) (whole : 0 ∉ line) (first : newline ∉ line)
    (room : p + line.length < bufSize) :
    ∃ buf', (∀ i, buf' (p + line.length + 1 + i) = buf (p + line.length + 1 + i)) ∧
      lineLoop pattern (lines + 1) buf p written =
        lineLoop pattern lines buf' (p + line.length + 1)
          (written ++ if matchText pattern line then [line ++ [newline]] else []) := by
  have left : line.length < bufSize - p := by omega
  have found := holds.strchr_some whole first left
  have ⟨front, stop, _⟩ := holds_append.mp holds
  have ends : Holds (Function.update buf (p + line.length) 0) p (line ++ [0]) := by
    refine holds_append.mpr ⟨front.update (.inr le_rfl), ?_, trivial⟩
    exact Function.update_self _ _ _
  have text := ends.stringAt whole left
  by_cases hit : matchText pattern line
  · have whole : Holds (Function.update (Function.update buf (p + line.length) 0)
        (p + line.length) newline) p (line ++ [newline]) := by
      rw [Function.update_idem]
      refine holds_append.mpr ⟨front.update (.inr le_rfl), ?_, trivial⟩
      exact Function.update_self _ _ _
    have out := whole.bytesAt
    rw [List.length_append, List.length_singleton] at out
    refine ⟨Function.update (Function.update buf (p + line.length) 0) (p + line.length) newline,
      fun i => ?_, ?_⟩
    · rw [Function.update_of_ne (by omega), Function.update_of_ne (by omega)]
    · rw [lineLoop, found, bind_ok]
      simp only [text, bind_ok, if_pos hit]
      rw [show p + line.length + 1 - p = line.length + 1 by omega, out]
  · refine ⟨Function.update buf (p + line.length) 0, fun i => ?_, ?_⟩
    · exact Function.update_of_ne (by omega) _ _
    · rw [lineLoop, found, bind_ok]
      simp only [text, bind_ok, if_neg hit]
      simp

/-- The inner loop writes the lines that match, and goes to what is behind the last newline. -/
theorem lineLoop_eq (pattern : Text) (text : Text) :
    ∀ (written : List Text) {lines : ℕ} {buf : Buf} {p : ℕ}, Holds buf p (text ++ [0]) →
      0 ∉ text → p + text.length < bufSize → text.length < lines →
    ∃ buf' q, q + (unended newline text).length = p + text.length ∧
      Holds buf' q (unended newline text) ∧
      lineLoop pattern lines buf p written = .ok (buf', q, written ++ matching pattern text) := by
  induction text using lines_induction newline with
  | last text open_ =>
      intro written lines buf p holds whole room passes
      obtain ⟨lines, rfl⟩ := Nat.exists_eq_succ_of_ne_zero (Nat.ne_zero_of_lt passes)
      have found : strchr buf newline (bufSize - p) p = .ok none :=
        holds.strchr_none whole open_ (by omega)
      refine ⟨buf, p, ?_, ?_, ?_⟩
      · rw [unended_of_notMem open_]
      · rw [unended_of_notMem open_]
        exact (holds_append.mp holds).1
      · rw [lineLoop, found, bind_ok]
        simp [matching, writes, open_]
  | next line rest first ih =>
      intro written lines buf p holds whole room passes
      obtain ⟨lines, rfl⟩ := Nat.exists_eq_succ_of_ne_zero (Nat.ne_zero_of_lt passes)
      simp only [List.length_append, List.length_cons] at room passes
      rw [List.mem_append, List.mem_cons, not_or, not_or] at whole
      rw [List.append_assoc, List.cons_append] at holds
      obtain ⟨buf', same, step⟩ := lineLoop_next pattern lines written holds whole.1 first (by omega)
      have later : Holds buf' (p + line.length + 1) (rest ++ [0]) :=
        (holds_append.mp holds).2.2.congr fun i _ => same i
      have passes : rest.length < lines := by omega
      obtain ⟨final, q, where_, holds, run⟩ :=
        ih _ later whole.2.2 (by omega) passes
      refine ⟨final, q, ?_, ?_, ?_⟩
      · rw [unended_append_cons, where_, List.length_append, List.length_cons]
        omega
      · rwa [unended_append_cons]
      · rw [step, run, matching_append_cons first, List.append_assoc]

/-! ## Reads -/

/-- What is kept of a line after a read, where `carry` was kept before. -/
def carried (carry chunk : Text) : Text :=
  if chunk.contains newline then unended newline (carry ++ chunk) else []

theorem carried_of_mem {chunk : Text} (stopped : newline ∈ chunk) (carry : Text) :
    carried carry chunk = unended newline (carry ++ chunk) := by
  rw [carried, if_pos (List.contains_iff_mem.mpr stopped)]

theorem carried_of_notMem {chunk : Text} (open_ : newline ∉ chunk) (carry : Text) :
    carried carry chunk = [] := by
  rw [carried, if_neg (mt List.contains_iff_mem.mp open_)]

theorem newline_notMem_carried (carry chunk : Text) : newline ∉ carried carry chunk := by
  rw [carried]
  split
  · exact notMem_unended _
  · exact List.not_mem_nil

theorem zero_notMem_carried {carry chunk : Text} (before : 0 ∉ carry) (noNul : 0 ∉ chunk) :
    0 ∉ carried carry chunk := by
  rw [carried]
  split
  · intro inside
    rcases List.mem_append.mp ((unended_suffix _).mem inside) with old | new
    · exact before old
    · exact noNul new
  · exact List.not_mem_nil

/-- What has been read stands behind what was kept, and a NUL behind that. -/
theorem Holds.read {carry : Text} (chunk : Text) (holds : Holds buf 0 carry) :
    Holds (Function.update (splice buf carry.length chunk) (carry.length + chunk.length) 0) 0
      (carry ++ chunk ++ [0]) := by
  refine holds_append.mpr ⟨?_, ?_, trivial⟩
  · refine (holds_append.mpr ⟨?_, ?_⟩).update (.inr ?_)
    · apply holds.congr
      intro i inside
      exact splice_outside (.inl (by omega))
    · rw [holds_iff_getD]
      intro i inside
      rw [Nat.zero_add]
      rw [splice_inside inside, List.getD_eq_getElem _ _ inside]
    · rw [List.length_append]
      omega
  · rw [List.length_append, Nat.zero_add]
    exact Function.update_self _ _ _

/-- One pass of the outer loop. -/
theorem grepLoop_next (pattern : Text) (chunks written : List Text) {carry chunk : Text}
    (holds : Holds buf 0 carry) (before : 0 ∉ carry) (open_ : newline ∉ carry)
    (some : chunk ≠ []) (noNul : 0 ∉ chunk) (room : carry.length + chunk.length < bufSize) :
    ∃ buf', Holds buf' 0 (carried carry chunk) ∧
      grepLoop pattern (chunk :: chunks) buf carry.length written =
        grepLoop pattern chunks buf' (carried carry chunk).length
          (written ++ matching pattern (carry ++ chunk)) := by
  have whole : 0 ∉ carry ++ chunk := List.not_mem_append before noNul
  have length : (carry ++ chunk).length < bufSize := by rwa [List.length_append]
  obtain ⟨after, q, behind, kept, run⟩ := lineLoop_eq pattern (carry ++ chunk) written
    (holds.read chunk) whole (by omega) length
  rw [Nat.zero_add, List.length_append] at behind
  have fits : ¬ bufSize - carry.length - 1 < chunk.length := by omega
  by_cases stopped : newline ∈ chunk
  · have short : (unended newline (carry ++ chunk)).length < (carry ++ chunk).length :=
      length_unended_lt (List.mem_append_right carry stopped)
    rw [List.length_append] at short
    have moved : q ≠ 0 := by omega
    have pos : 0 < carry.length + chunk.length := by omega
    have size : carry.length + chunk.length - q = (unended newline (carry ++ chunk)).length := by
      omega
    rw [carried_of_mem stopped]
    refine ⟨Ulib.memmove 0 q (BitVec.ofNat 32 (unended newline (carry ++ chunk)).length) after,
      ?_, ?_⟩
    · apply holds_iff_getD.mpr
      intro i inside
      have capacity : bufSize = 1024 := rfl
      rw [Ulib.memmove_back (Nat.zero_le q) (by omega) inside]
      exact holds_iff_getD.mp kept i inside
    · rw [grepLoop, if_neg fits, if_neg some]
      simp only [run, bind_ok, if_neg moved, if_pos pos, size]
  · have whole : newline ∉ carry ++ chunk := List.not_mem_append open_ stopped
    rw [unended_of_notMem whole, List.length_append] at behind
    have stays : q = 0 := by omega
    rw [carried_of_notMem stopped]
    refine ⟨after, trivial, ?_⟩
    rw [grepLoop, if_neg fits, if_neg some]
    simp only [run, bind_ok, if_pos stays, lt_irrefl, if_false, List.length_nil]

/-! ## How the stream is cut -/

/-- The lines that are left of the chunks. -/
def cutLines : Text → List Text → List Text
  | _, [] => []
  | carry, chunk :: chunks =>
      ended newline (carry ++ chunk) ++ cutLines (carried carry chunk) chunks

/-- The bytes that a read may return. -/
structure Readable (chunk : Text) : Prop where
  some : chunk ≠ []
  noNul : 0 ∉ chunk

/-- Unless a read returns too much, `grep` writes the lines that are left. -/
theorem grepLoop_eq (pattern : Text) : ∀ (chunks : List Text) {buf : Buf} {carry : Text}
    {written : List Text}, Holds buf 0 carry → 0 ∉ carry → newline ∉ carry →
    (∀ chunk ∈ chunks, Readable chunk) →
    grepLoop pattern chunks buf carry.length written ≠ .error .overfull →
    grepLoop pattern chunks buf carry.length written =
      .ok (written ++ writes pattern (cutLines carry chunks)) := by
  intro chunks
  induction chunks with
  | nil =>
      intro buf carry written _ _ _ _ _
      simp [grepLoop, cutLines, writes]
  | cons chunk chunks ih =>
      intro buf carry written holds before open_ readable asked
      have first := readable chunk List.mem_cons_self
      by_cases tooMuch : bufSize - carry.length - 1 < chunk.length
      · rw [grepLoop, if_pos tooMuch] at asked
        exact absurd rfl asked
      · have := List.length_pos_of_ne_nil first.some
        have room : carry.length + chunk.length < bufSize := by omega
        obtain ⟨buf', kept, step⟩ :=
          grepLoop_next pattern chunks written holds before open_ first.some first.noNul room
        rw [step] at asked ⊢
        rw [ih kept (zero_notMem_carried before first.noNul) (newline_notMem_carried carry chunk)
          (fun chunk among => readable chunk (List.mem_cons_of_mem _ among)) asked, cutLines,
          writes_append, List.append_assoc]
        rfl

/-- Every chunk up to the last newline has a newline. -/
def Stopped (chunks : List Text) : Prop :=
  ∀ before chunk after, chunks = before ++ chunk :: after → newline ∈ after.flatten →
    newline ∈ chunk

theorem stopped_cons {chunk : Text} {chunks : List Text} : Stopped (chunk :: chunks) ↔
    (newline ∈ chunks.flatten → newline ∈ chunk) ∧ Stopped chunks := by
  constructor
  · intro stopped
    refine ⟨stopped [] chunk chunks rfl, fun before other after same => ?_⟩
    exact stopped (chunk :: before) other after (by rw [same, List.cons_append])
  · rintro ⟨first, others⟩ before other after same
    rcases before with _ | ⟨c, before⟩
    · obtain ⟨rfl, rfl⟩ := List.cons.inj same
      exact first
    · obtain ⟨_, rfl⟩ := List.cons.inj same
      exact others before other after rfl

theorem weight_cutLines_le (chunks : List Text) : ∀ {carry : Text}, newline ∉ carry →
    weight (cutLines carry chunks) ≤ weight (ended newline (carry ++ chunks.flatten)) := by
  induction chunks with
  | nil =>
      intro carry open_
      exact Nat.zero_le _
  | cons chunk chunks ih =>
      intro carry open_
      rw [cutLines, List.flatten_cons, ← List.append_assoc, ended_append (carry ++ chunk),
        weight_append, weight_append]
      apply Nat.add_le_add_left
      have rest := ih (newline_notMem_carried carry chunk)
      by_cases stopped : newline ∈ chunk
      · rwa [carried_of_mem stopped] at rest ⊢
      · rw [carried_of_notMem stopped, List.nil_append] at rest
        rw [carried_of_notMem stopped]
        exact rest.trans (weight_ended_le_append (notMem_unended _))

/-- No line is lost exactly when no chunk before a newline is without one. -/
theorem cutLines_eq_iff (chunks : List Text) : ∀ {carry : Text}, newline ∉ carry →
    (∀ chunk ∈ chunks, chunk ≠ []) →
    (cutLines carry chunks = ended newline (carry ++ chunks.flatten) ↔ Stopped chunks) := by
  induction chunks with
  | nil =>
      intro carry open_ _
      refine iff_of_true ?_ ?_
      · rw [cutLines, List.flatten_nil, List.append_nil, ended_of_notMem open_]
      · intro before chunk after same
        simp at same
  | cons chunk chunks ih =>
      intro carry open_ some
      have rest := ih (newline_notMem_carried carry chunk)
        fun chunk among => some chunk (List.mem_cons_of_mem _ among)
      rw [cutLines, List.flatten_cons, ← List.append_assoc, ended_append (carry ++ chunk),
        List.append_cancel_left_eq, stopped_cons]
      by_cases stopped : newline ∈ chunk
      · rw [carried_of_mem stopped] at rest ⊢
        rw [rest]
        exact (and_iff_right fun _ => stopped).symm
      · rw [carried_of_notMem stopped] at rest ⊢
        have whole : newline ∉ carry ++ chunk := List.not_mem_append open_ stopped
        by_cases later : newline ∈ chunks.flatten
        · refine iff_of_false (fun same => ?_) (fun both => stopped (both.1 later))
          have less := weight_cutLines_le chunks (List.not_mem_nil : newline ∉ ([] : Text))
          rw [same, unended_of_notMem whole, weight_ended_append whole later, List.nil_append] at less
          have := List.length_pos_of_ne_nil (some chunk List.mem_cons_self)
          rw [List.length_append] at less
          omega
        · have nothing : newline ∉ unended newline (carry ++ chunk) ++ chunks.flatten :=
            List.not_mem_append (notMem_unended _) later
          rw [List.nil_append, ended_of_notMem later] at rest
          rw [ended_of_notMem nothing, rest]
          exact (and_iff_right fun inside => absurd inside later).symm

theorem grep_eq {chunks : List Text} (readable : ∀ chunk ∈ chunks, Readable chunk)
    (asked : grep pattern buf chunks ≠ .error .overfull) :
    grep pattern buf chunks = .ok (writes pattern (cutLines [] chunks)) :=
  grepLoop_eq pattern chunks holds_nil List.not_mem_nil List.not_mem_nil readable asked

/-! ## Lines that fit -/

/-- Every line has fewer than `n` bytes. -/
def ShortLines (n : ℕ) (text : Text) : Prop :=
  ∀ piece, piece <:+: text → newline ∉ piece → piece.length < n

theorem carried_append_suffix (carry chunk text : Text) :
    carried carry chunk ++ text <:+ carry ++ chunk ++ text := by
  rw [carried]
  split
  · obtain ⟨before, same⟩ : unended newline (carry ++ chunk) <:+ carry ++ chunk :=
      unended_suffix _
    exact ⟨before, by rw [← List.append_assoc, same]⟩
  · exact ⟨carry ++ chunk, by rw [List.nil_append]⟩

/-- With such lines a read always asks for at least 24 bytes. -/
theorem grepLoop_asked (pattern : Text) : ∀ (chunks : List Text) {buf : Buf} {carry : Text}
    {written : List Text}, Holds buf 0 carry → 0 ∉ carry → newline ∉ carry →
    (∀ chunk ∈ chunks, Readable chunk ∧ chunk.length ≤ 24) →
    ShortLines 1000 (carry ++ chunks.flatten) →
    grepLoop pattern chunks buf carry.length written ≠ .error .overfull := by
  intro chunks
  induction chunks with
  | nil =>
      intro buf carry written _ _ _ _ _
      exact nofun
  | cons chunk chunks ih =>
      intro buf carry written holds before open_ readable short
      obtain ⟨first, size⟩ := readable chunk List.mem_cons_self
      have kept := short carry ⟨[], _, rfl⟩ open_
      have capacity : bufSize = 1024 := rfl
      obtain ⟨buf', after, step⟩ := grepLoop_next pattern chunks written holds before open_
        first.some first.noNul (by omega)
      rw [step]
      refine ih after (zero_notMem_carried before first.noNul) (newline_notMem_carried carry chunk)
        (fun chunk among => readable chunk (List.mem_cons_of_mem _ among)) ?_
      intro piece inside
      apply short piece
      rw [List.flatten_cons, ← List.append_assoc]
      exact inside.trans (carried_append_suffix carry chunk chunks.flatten).isInfix

theorem grep_asked {chunks : List Text}
    (readable : ∀ chunk ∈ chunks, Readable chunk ∧ chunk.length ≤ 24)
    (short : ShortLines 1000 chunks.flatten) (pattern : Text) (buf : Buf) :
    grep pattern buf chunks ≠ .error .overfull :=
  grepLoop_asked pattern chunks holds_nil List.not_mem_nil List.not_mem_nil readable short

/-! ## What is written -/

/-- What `grep` writes does not depend on how the stream is cut, and is what it should be, exactly
where every chunk up to the last newline has a newline. -/
theorem grep_eq_matching_iff {chunks : List Text} (readable : ∀ chunk ∈ chunks, Readable chunk)
    (asked : ∀ pattern buf, grep pattern buf chunks ≠ .error .overfull) :
    (∀ pattern buf, grep pattern buf chunks = .ok (matching pattern chunks.flatten)) ↔
      Stopped chunks := by
  have left : cutLines [] chunks = ended newline chunks.flatten ↔ Stopped chunks :=
    cutLines_eq_iff chunks List.not_mem_nil fun chunk among => (readable chunk among).some
  rw [← left]
  constructor
  · intro right
    -- the empty pattern is in every line
    have all (lines : List Text) : writes [] lines = lines.map (· ++ [newline]) := by
      have hit : lines.filter (matchText []) = lines := by
        apply List.filter_eq_self.mpr
        intro line _
        cases line <;> rfl
      rw [writes, hit]
    have same := (grep_eq readable (asked [] 0)).symm.trans (right [] 0)
    rw [Except.ok.injEq, matching, all, all] at same
    exact List.map_injective_iff.mpr (fun line line' => List.append_cancel_right) same
  · intro same pattern buf
    rw [grep_eq readable (asked pattern buf), same, matching]

/-- Two reads of a line each. -/
theorem grep_lines : grep [97] 0 [[97, newline], [98, newline]] = .ok [[97, newline]] := by
  have readable : ∀ chunk ∈ [[97, newline], [98, newline]], Readable chunk ∧ chunk.length ≤ 24 := by
    simp only [List.forall_mem_cons]
    exact ⟨⟨⟨by decide, by decide⟩, by decide⟩, ⟨⟨by decide, by decide⟩, by decide⟩, nofun⟩
  have short : ShortLines 1000 [[97, newline], [98, newline]].flatten := by
    intro piece inside _
    have := inside.length_le
    simp at this
    omega
  have stopped : Stopped [[97, newline], [98, newline]] := by
    simp only [stopped_cons]
    exact ⟨fun _ => by decide, fun _ => by decide, fun before chunk after same => by simp at same⟩
  have written := (grep_eq_matching_iff (fun chunk among => (readable chunk among).1)
    (grep_asked readable short)).mpr stopped [97] 0
  have first : matching [97] [[97, newline], [98, newline]].flatten = [[97, newline]] := by decide
  rw [written, first]

/-- A pipe gives `a` and then `b` with the newline, and the pattern is empty. -/
theorem grep_loses :
    ¬ ∀ (pattern : Text) (buf : Buf) (chunks : List Text), (∀ chunk ∈ chunks, Readable chunk) →
      ShortLines 1000 chunks.flatten → grep pattern buf chunks ≠ .error .overfull →
      grep pattern buf chunks = .ok (matching pattern chunks.flatten) := by
  intro all
  have readable : ∀ chunk ∈ [[97], [98, newline]], Readable chunk := by
    simp only [List.forall_mem_cons]
    exact ⟨⟨by decide, by decide⟩, ⟨by decide, by decide⟩, nofun⟩
  have short : ShortLines 1000 [[97], [98, newline]].flatten := by
    intro piece inside _
    have := inside.length_le
    simp at this
    omega
  have run : grep [] 0 [[97], [98, newline]] = .ok [[98, newline]] := by decide
  have right := all [] 0 _ readable short (by rw [run]; exact nofun)
  rw [run] at right
  exact absurd right (by decide)

end Xv6.Grep
