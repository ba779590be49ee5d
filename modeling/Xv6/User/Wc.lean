import Xv6.User.Printf

/-!
# The counts of wc

`wc` of `wc.c`. The calls of `read` return the text in pieces; a word may begin in one and end in another. The counters
are `int`s, which wrap around.
-/

namespace Xv6.Wc

open Bytes Print

/-- `sizeof(buf)` -/
abbrev bufSize : ℕ := 512

/-- `strchr`; the string from the byte on that it finds -/
def strchr : List Byte → Byte → Option (List Byte)
  | [], _ => none
  | b :: s, c => if b = c then some (b :: s) else strchr s c

/-- The bytes of `" \r\t\n\v"` -/
def spaces : List Byte := [0x20, 0x0d, 0x09, 0x0a, 0x0b]

structure Counts where
  l : BitVec 32 := 0
  w : BitVec 32 := 0
  c : BitVec 32 := 0
  inword : Bool := false
  deriving DecidableEq

/-- The body of the inner loop -/
def count (k : Counts) (b : Byte) : Counts :=
  let k := { k with c := k.c + 1 }
  let k := if b = byte '\n' then { k with l := k.l + 1 } else k
  if (strchr spaces b).isSome then { k with inword := false }
  else if !k.inword then { k with w := k.w + 1, inword := true }
  else k

/-- The outer loop; `none` if `read` returns more than it is asked for. -/
def wcLoop : List (List Byte) → Counts → Option Counts
  | [], k => some k
  | chunk :: chunks, k =>
      if bufSize < chunk.length then none
      else if chunk = [] then some k
      else wcLoop chunks (chunk.foldl count k)

/-- What `wc` prints. The list is what the calls of `read` return; the one after them returns 0, or -1 if it fails.
`name` is the address of a string. -/
def wc (strings : BitVec 32 → List Byte) (chunks : List (List Byte)) (fails : Bool) (name : BitVec 32) :
    Option (List Byte) := do
  let k ← wcLoop chunks {}
  if fails then Ulib.printf strings (fun _ => 0) ("wc: read error\n".toList.map byte)
  else Ulib.printf strings (([k.l, k.w, k.c, name] : List (BitVec 32)).getD · 0) ("%d %d %d %s\n".toList.map byte)

/-! ## What is counted -/

/-- What is read up to the end of the file -/
def readText (chunks : List (List Byte)) : List Byte := (chunks.takeWhile fun chunk => chunk ≠ []).flatten

def isSpace (b : Byte) : Bool := spaces.any (· == b)

/-- The pieces between two spaces that are not empty -/
def nonempty (pieces : List (List Byte)) : ℕ := pieces.countP fun piece => piece ≠ []

/-- The words of a text: the maximal pieces without a space -/
def words (text : List Byte) : ℕ := nonempty (text.splitOnP isSpace)

/-- The words that begin in a text, if a word before it may go on -/
def begun (inword : Bool) (text : List Byte) : ℕ :=
  if inword then nonempty (text.splitOnP isSpace).tail else words text

variable {b : Byte} {text : List Byte} {inword : Bool} {k : Counts} {chunks : List (List Byte)}

theorem strchr_isSome (s : List Byte) (c : Byte) : (strchr s c).isSome = s.any (· == c) := by
  induction s with
  | nil => simp [strchr]
  | cons b s ih =>
      by_cases same : b = c
      · simp [strchr, same]
      · simp [strchr, same, ih]

theorem begun_space (hb : isSpace b = true) : begun inword (b :: text) = begun false text := by
  cases inword <;> simp [begun, words, nonempty, List.splitOnP_cons_eq_if_modifyHead, hb]

/-- A byte that is no space goes on with a word, or begins one. -/
theorem begun_letter (hb : isSpace b = false) :
    begun inword (b :: text) = (if inword then 0 else 1) + begun true text := by
  have split := List.splitOnP_ne_nil isSpace text
  cases pieces : text.splitOnP isSpace with
  | nil => exact absurd pieces split
  | cons piece pieces' =>
      cases inword
      · simp [begun, words, nonempty, List.splitOnP_cons_eq_if_modifyHead, hb, pieces, Nat.add_comm]
      · simp [begun, List.splitOnP_cons_eq_if_modifyHead, hb, pieces]

/-- What one byte does to the counters -/
theorem count_eq (k : Counts) (b : Byte) :
    count k b =
      { l := k.l + BitVec.ofNat 32 (if b = byte '\n' then 1 else 0)
        w := k.w + BitVec.ofNat 32 (if isSpace b || k.inword then 0 else 1)
        c := k.c + 1
        inword := !isSpace b } := by
  unfold count
  rw [show (strchr spaces b).isSome = isSpace b from strchr_isSome spaces b]
  by_cases line : b = byte '\n'
  · subst line
    have space : isSpace (byte '\n') = true := by decide
    simp [space]
  · cases space : isSpace b with
    | true => simp [line]
    | false => cases k.inword <;> simp [line]

/-- The counters after a text -/
theorem foldl_count (text : List Byte) : ∀ k : Counts,
    (text.foldl count k).l = k.l + BitVec.ofNat 32 (text.count (byte '\n')) ∧
      (text.foldl count k).w = k.w + BitVec.ofNat 32 (begun k.inword text) ∧
      (text.foldl count k).c = k.c + BitVec.ofNat 32 text.length := by
  induction text with
  | nil =>
      intro k
      cases k.inword <;> simp [begun, words, nonempty]
  | cons b text ih =>
      intro k
      rcases ih (count k b) with ⟨lines, words, bytes⟩
      have step : begun k.inword (b :: text) =
          (if isSpace b || k.inword then 0 else 1) + begun (!isSpace b) text := by
        cases space : isSpace b with
        | true => simp [begun_space space]
        | false => simp [begun_letter space]
      rw [List.foldl_cons, lines, words, bytes, step, List.count_cons, List.length_cons, count_eq]
      refine ⟨?_, ?_, ?_⟩
      · simp only [beq_iff_eq, Nat.add_comm (List.count _ text), BitVec.ofNat_add, BitVec.add_assoc]
      · simp only [BitVec.ofNat_add, BitVec.add_assoc]
      · simp only [Nat.add_comm text.length, BitVec.ofNat_add, BitVec.add_assoc]
        rfl

/-- The loop counts the text that is read up to the end of the file, however it is cut into pieces. -/
theorem wcLoop_eq (chunks : List (List Byte)) : ∀ k : Counts, (∀ chunk ∈ chunks, chunk.length ≤ bufSize) →
    wcLoop chunks k = some ((readText chunks).foldl count k) := by
  induction chunks with
  | nil => exact fun _ _ => rfl
  | cons chunk chunks ih =>
      intro k hchunks
      have fits := hchunks chunk List.mem_cons_self
      rw [wcLoop, if_neg (Nat.not_lt_of_le fits)]
      by_cases ends : chunk = []
      · simp [ends, readText]
      · rw [if_neg ends, ih _ fun other h => hchunks other (List.mem_cons_of_mem _ h)]
        simp [ends, readText, List.foldl_append]

/-- The format of the result -/
theorem pieces_result : pieces ("%d %d %d %s\n".toList.map byte) =
    [.directive (byte 'd'), .literal (byte ' '), .directive (byte 'd'), .literal (byte ' '), .directive (byte 'd'),
      .literal (byte ' '), .directive (byte 's'), .literal (byte '\n')] := by
  have space : byte ' ' ≠ byte '%' := by decide
  have newline : byte '\n' ≠ byte '%' := by decide
  simp [pieces_directive, pieces_literal space, pieces_literal newline, pieces.eq_1]

/-- `wc` prints the numbers of newlines, words and bytes of what it reads, modulo the width of its counters, whatever
pieces the text comes in; a word that is cut counts once. -/
theorem wc_correct (strings : BitVec 32 → List Byte) (chunks : List (List Byte)) (name : BitVec 32)
    (hname : name ≠ 0) (hread : ∀ chunk ∈ chunks, chunk.length ≤ bufSize) :
    wc strings chunks false name =
      some (decimal (BitVec.ofNat 32 ((readText chunks).count (byte '\n'))).toInt ++ [byte ' '] ++
        decimal (BitVec.ofNat 32 (words (readText chunks))).toInt ++ [byte ' '] ++
        decimal (BitVec.ofNat 32 (readText chunks).length).toInt ++ [byte ' '] ++ strings name ++ [byte '\n']) := by
  rcases foldl_count (readText chunks) {} with ⟨lines, begins, bytes⟩
  unfold wc
  rw [wcLoop_eq chunks {} hread]
  generalize (readText chunks).foldl count {} = k at lines begins bytes ⊢
  simp only [Option.bind_eq_bind, Option.bind_some, Bool.false_eq_true, if_false]
  unfold Ulib.printf
  rw [printfLoop_render ulib_table, pieces_result]
  simp [render, shown_decimal, used_decimal, shown_string _ hname, lines, begins, bytes, begun]

/-- The word `bc` is cut, and the file ends after the second piece. -/
theorem wc_correct_cut :
    wc (fun _ => [byte 'f']) [[byte 'a', byte ' ', byte 'b'], [byte 'c', byte '\n'], []] false 8 =
      some ([byte '1', byte ' ', byte '2', byte ' ', byte '5', byte ' ', byte 'f', byte '\n']) := by
  have text : readText [[byte 'a', byte ' ', byte 'b'], [byte 'c', byte '\n'], []] =
      [byte 'a', byte ' ', byte 'b', byte 'c', byte '\n'] := by simp [readText]
  have lines : [byte 'a', byte ' ', byte 'b', byte 'c', byte '\n'].count (byte '\n') = 1 := by decide
  have both : words [byte 'a', byte ' ', byte 'b', byte 'c', byte '\n'] = 2 := by decide
  rw [wc_correct _ _ _ (by decide) (by decide), text, lines, both]
  simp [decimal, numeral, decimalDigit, byte]

end Xv6.Wc
