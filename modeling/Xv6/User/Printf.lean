import Mathlib
import Xv6.Lib.Bytes

/-!
# Formatted output

`printint` and `cprintf` of `console.c`, `printint` and `printf` of `printf.c`, and `atoi`. A string is the list of
its bytes before the NUL. The kernel looks for the byte after `%` itself, the library has a state for it.
-/

namespace Xv6

open Bytes

/-- The bytes of `"0123456789abcdef"` -/
def Kernel.digits : List Byte := "0123456789abcdef".toList.map fun c => BitVec.ofNat 8 c.toNat

/-- The bytes of `"0123456789ABCDEF"` -/
def Ulib.digits : List Byte := "0123456789ABCDEF".toList.map fun c => BitVec.ofNat 8 c.toNat

namespace Print

def byte (c : Char) : Byte := BitVec.ofNat 8 c.toNat

/-- `buf` in `printint` -/
def bufSize : ℕ := 16

/-- The first loop of `printint`; nothing if it writes behind `buf`. -/
def digitLoop (digits : List Byte) (base : ℕ) : ℕ → ℕ → List Byte → Option (List Byte)
  | 0, _, _ => none
  | room + 1, x, buf =>
      let buf := buf ++ [digits.getD (x % base) 0]
      if x / base ≠ 0 then digitLoop digits base room (x / base) buf else some buf

/-- `printint`; the bytes that it prints. -/
def printint (digits : List Byte) (xx : BitVec 32) (base : ℕ) (sign : Bool) : Option (List Byte) := do
  let neg := sign && decide (xx.toInt < 0)
  let x := if neg then (-xx).toNat else xx.toNat
  let buf ← digitLoop digits base bufSize x []
  if neg then
    if buf.length < bufSize then return (buf ++ [byte '-']).reverse else none
  else return buf.reverse

section

variable (digits : List Byte) (strings : BitVec 32 → List Byte) (argp : ℕ → BitVec 32)

/-- `%s` -/
def text (s : BitVec 32) : List Byte := if s = 0 then "(null)".toList.map byte else strings s

/-- The loop of `cprintf`, with the number of arguments that have been used. -/
def cprintfLoop : List Byte → ℕ → Option (List Byte)
  | [], _ => some []
  | c :: fmt, n =>
      if c ≠ byte '%' then do return c :: (← cprintfLoop fmt n)
      else
        match fmt with
        | [] => some []
        | c :: fmt =>
            if c = byte 'd' then do return (← printint digits (argp n) 10 true) ++ (← cprintfLoop fmt (n + 1))
            else if c = byte 'x' ∨ c = byte 'p' then do
              return (← printint digits (argp n) 16 false) ++ (← cprintfLoop fmt (n + 1))
            else if c = byte 's' then do return text strings (argp n) ++ (← cprintfLoop fmt (n + 1))
            else if c = byte '%' then do return byte '%' :: (← cprintfLoop fmt n)
            else do return byte '%' :: c :: (← cprintfLoop fmt n)

/-- The loop of `printf`; the state tells whether the last byte was a `%`. -/
def printfLoop : List Byte → Bool → ℕ → Option (List Byte)
  | [], _, _ => some []
  | c :: fmt, false, n =>
      if c = byte '%' then printfLoop fmt true n else do return c :: (← printfLoop fmt false n)
  | c :: fmt, true, n =>
      if c = byte 'd' then do return (← printint digits (argp n) 10 true) ++ (← printfLoop fmt false (n + 1))
      else if c = byte 'x' ∨ c = byte 'p' then do
        return (← printint digits (argp n) 16 false) ++ (← printfLoop fmt false (n + 1))
      else if c = byte 's' then do return text strings (argp n) ++ (← printfLoop fmt false (n + 1))
      else if c = byte 'c' then do return BitVec.setWidth 8 (argp n) :: (← printfLoop fmt false (n + 1))
      else if c = byte '%' then do return c :: (← printfLoop fmt false n)
      else do return byte '%' :: c :: (← printfLoop fmt false n)

end

end Print

open Print

/-- `printint` of `console.c` -/
def Kernel.printint : BitVec 32 → ℕ → Bool → Option (List Byte) := Print.printint Kernel.digits

/-- `printint` of `printf.c` -/
def Ulib.printint : BitVec 32 → ℕ → Bool → Option (List Byte) := Print.printint Ulib.digits

def Kernel.cprintf (strings : BitVec 32 → List Byte) (argp : ℕ → BitVec 32) (fmt : List Byte) : Option (List Byte) :=
  cprintfLoop Kernel.digits strings argp fmt 0

def Ulib.printf (strings : BitVec 32 → List Byte) (ap : ℕ → BitVec 32) (fmt : List Byte) : Option (List Byte) :=
  printfLoop Ulib.digits strings ap fmt false 0

/-- The loop of `atoi` -/
def Ulib.atoiLoop : List Byte → BitVec 32 → BitVec 32
  | [], n => n
  | c :: s, n =>
      if byte '0' ≤ c ∧ c ≤ byte '9' then atoiLoop s (n * 10 + (BitVec.setWidth 32 c - BitVec.setWidth 32 (byte '0')))
      else n

def Ulib.atoi (s : List Byte) : BitVec 32 := atoiLoop s 0

namespace Print

/-- The digits of a number, the first one first; `0` has one digit. -/
def numeral (base x : ℕ) : List ℕ := if x = 0 then [0] else (Nat.digits base x).reverse

/-- A digit below ten as a byte -/
def decimalDigit (d : ℕ) : Byte := BitVec.ofNat 8 (48 + d)

/-- An integer in decimal -/
def decimal (z : ℤ) : List Byte :=
  (if z < 0 then [byte '-'] else []) ++ (numeral 10 z.natAbs).map decimalDigit

theorem numeral_lt {base x d : ℕ} (hbase : 1 < base) (hd : d ∈ numeral base x) : d < base := by
  unfold numeral at hd
  split at hd
  · simp at hd
    omega
  · simp only [List.mem_reverse] at hd
    apply Nat.digits_lt_base hbase hd

theorem numeral_length {base x k : ℕ} (hbase : 1 < base) (hk : 0 < k) (hx : x < base ^ k) :
    (numeral base x).length ≤ k := by
  unfold numeral
  split
  · apply hk
  · simp only [List.length_reverse]
    apply (Nat.digits_length_le_iff hbase x).mpr hx

/-- The last digit of a number and the digits of its quotient -/
theorem numeral_step {base x : ℕ} (hbase : 1 < base) (hx : x / base ≠ 0) :
    numeral base x = numeral base (x / base) ++ [x % base] := by
  have positive : x ≠ 0 := fun h => hx (by simp [h])
  simp only [numeral, positive, hx, if_false, Nat.digits_eq_cons_digits_div hbase positive, List.reverse_cons]

theorem numeral_last {base x : ℕ} (hbase : 1 < base) (hx : x / base = 0) : numeral base x = [x % base] := by
  by_cases zero : x = 0
  · simp [numeral, zero]
  · simp [numeral, zero, Nat.digits_eq_cons_digits_div hbase zero, hx]

/-- The loop leaves the digits in the buffer, the last one first. -/
theorem digitLoop_eq (digits : List Byte) {base : ℕ} (hbase : 1 < base) :
    ∀ (room x : ℕ) (buf : List Byte), 0 < room → x < base ^ room →
      digitLoop digits base room x buf =
        some (buf ++ ((numeral base x).map (digits.getD · 0)).reverse) := by
  intro room
  induction room with
  | zero => intro x buf hroom; omega
  | succ room ih =>
      intro x buf _ hx
      unfold digitLoop
      by_cases more : x / base = 0
      · simp [more, numeral_last hbase more]
      · have small : x / base < base ^ room := by
          rw [Nat.div_lt_iff_lt_mul (by omega), ← Nat.pow_succ]
          exact hx
        have hroom : 0 < room := by
          apply Nat.pos_of_ne_zero
          intro none
          subst none
          apply more
          simpa using small
        simp [more, ih _ _ hroom small, numeral_step hbase more]

/-- `-xx` of the smallest integer is its magnitude too. -/
theorem magnitude (xx : BitVec 32) :
    (if xx.toInt < 0 then (-xx).toNat else xx.toNat) = xx.toInt.natAbs := by
  have bound := xx.isLt
  split
  · rename_i negative
    rw [BitVec.toInt_eq_toNat_cond] at negative ⊢
    rw [BitVec.toNat_neg]
    split at negative
    · omega
    · rename_i large
      rw [if_neg large]
      omega
  · rename_i positive
    rw [BitVec.toInt_eq_toNat_cond] at positive ⊢
    split at positive
    · rename_i small
      rw [if_pos small]
      omega
    · omega

variable {digits : List Byte}

theorem printint_unsigned {base : ℕ} (hbase : 4 ≤ base) (xx : BitVec 32) :
    printint digits xx base false = some ((numeral base xx.toNat).map (digits.getD · 0)) := by
  have small : xx.toNat < base ^ bufSize :=
    lt_of_lt_of_le xx.isLt (le_trans (by decide) (Nat.pow_le_pow_left hbase bufSize))
  simp [printint, digitLoop_eq digits (by omega : 1 < base) bufSize _ [] (by decide) small]

theorem natAbs_le (xx : BitVec 32) : xx.toInt.natAbs ≤ 2 ^ 31 := by
  have upper := xx.toInt_lt
  have lower := xx.le_toInt
  omega

/-- The sign goes behind the digits, which are at most ten. -/
theorem printint_signed (hdigits : ∀ d < 10, digits.getD d 0 = decimalDigit d) (xx : BitVec 32) :
    printint digits xx 10 true = some (decimal xx.toInt) := by
  have bound := natAbs_le xx
  have short : (numeral 10 xx.toInt.natAbs).length ≤ 10 := numeral_length (by omega) (by omega) (by omega)
  have bytes : (numeral 10 xx.toInt.natAbs).map (digits.getD · 0) =
      (numeral 10 xx.toInt.natAbs).map decimalDigit :=
    List.map_congr_left fun d hd => hdigits d (numeral_lt (by omega) hd)
  have loop := digitLoop_eq digits (by omega : 1 < 10) bufSize xx.toInt.natAbs [] (by decide)
    (by simp only [bufSize]; omega)
  rw [bytes, List.nil_append] at loop
  have size := magnitude xx
  by_cases negative : xx.toInt < 0
  · have room : (numeral 10 xx.toInt.natAbs).length < bufSize := by simp only [bufSize]; omega
    rw [if_pos negative] at size
    simp [printint, negative, size, loop, room, decimal]
  · rw [if_neg negative] at size
    simp [printint, negative, size, loop, decimal]

theorem decimal_length {z : ℤ} (hz : z.natAbs ≤ 2 ^ 31) : (decimal z).length ≤ 11 := by
  have short : (numeral 10 z.natAbs).length ≤ 10 := numeral_length (by omega) (by omega) (by omega)
  unfold decimal
  split <;> simp <;> omega

/-! ## Reading the number back -/

theorem isDigit {d : ℕ} (hd : d < 10) : byte '0' ≤ decimalDigit d ∧ decimalDigit d ≤ byte '9' := by
  revert d
  decide

theorem atoiLoop_digit {d n : ℕ} (hd : d < 10) (s : List Byte) :
    Ulib.atoiLoop (decimalDigit d :: s) (BitVec.ofNat 32 n) = Ulib.atoiLoop s (BitVec.ofNat 32 (n * 10 + d)) := by
  have value : BitVec.setWidth 32 (decimalDigit d) - BitVec.setWidth 32 (byte '0') = BitVec.ofNat 32 d := by
    revert d
    decide
  rw [Ulib.atoiLoop, if_pos (isDigit hd), value]
  congr 1
  apply BitVec.eq_of_toNat_eq
  simp

theorem atoiLoop_digits {rest : List Byte} : ∀ (ds : List ℕ), (∀ d ∈ ds, d < 10) → ∀ n : ℕ,
    Ulib.atoiLoop (ds.map decimalDigit ++ rest) (BitVec.ofNat 32 n) =
      Ulib.atoiLoop rest (BitVec.ofNat 32 (ds.foldl (fun n d => n * 10 + d) n)) := by
  intro ds
  induction ds with
  | nil => intro _ n; simp
  | cons d ds ih =>
      intro small n
      simp only [List.map_cons, List.cons_append, List.foldl_cons]
      rw [atoiLoop_digit (small d (by simp)), ih (fun e he => small e (by simp [he]))]

theorem numeral_value (x : ℕ) : (numeral 10 x).foldl (fun n d => n * 10 + d) 0 = x := by
  by_cases zero : x = 0
  · simp [numeral, zero]
  · have value := Nat.ofDigits_digits 10 x
    rw [Nat.ofDigits_eq_foldr] at value
    simp only [numeral, zero, if_false, List.foldl_reverse]
    calc _ = List.foldr (fun d n => (d : ℕ) + 10 * n) 0 (Nat.digits 10 x) := by
            congr 1
            funext d n
            omega
      _ = x := by simpa using value

/-- `atoi` stops at the first byte that is no digit. -/
theorem atoiLoop_stop {rest : List Byte} (n : BitVec 32)
    (hrest : ∀ c ∈ rest.head?, ¬ (byte '0' ≤ c ∧ c ≤ byte '9')) : Ulib.atoiLoop rest n = n := by
  cases rest with
  | nil => rfl
  | cons c rest => rw [Ulib.atoiLoop, if_neg (hrest c (by simp))]

theorem atoi_decimal (xx : BitVec 32) {rest : List Byte}
    (hrest : ∀ c ∈ rest.head?, ¬ (byte '0' ≤ c ∧ c ≤ byte '9')) :
    Ulib.atoi (decimal xx.toInt ++ rest) = if xx.toInt < 0 then 0 else xx := by
  have size := magnitude xx
  by_cases negative : xx.toInt < 0
  · have dash : ¬ (byte '0' ≤ byte '-' ∧ byte '-' ≤ byte '9') := by decide
    simp only [decimal, negative, if_true, List.cons_append, Ulib.atoi]
    rw [Ulib.atoiLoop, if_neg dash]
  · rw [if_neg negative] at size
    simp only [decimal, negative, if_false, List.nil_append, Ulib.atoi]
    have small : ∀ d ∈ numeral 10 xx.toInt.natAbs, d < 10 := fun d hd => numeral_lt (by omega) hd
    have read := @atoiLoop_digits rest _ small 0
    refine read.trans ?_
    rw [atoiLoop_stop _ hrest, numeral_value, ← size]
    simp

/-! ## What a format means -/

/-- A part of a format: a byte that is printed, or the byte after a `%` -/
inductive Piece where
  | literal (c : Byte)
  | directive (c : Byte)
  deriving DecidableEq

/-- The parts of a format; a `%` at its end is none. -/
def pieces : List Byte → List Piece
  | [] => []
  | c :: fmt =>
      if c ≠ byte '%' then .literal c :: pieces fmt
      else
        match fmt with
        | [] => []
        | d :: fmt => .directive d :: pieces fmt

section

variable (digits : List Byte) (knowsChar : Bool) (strings : BitVec 32 → List Byte) (argp : ℕ → BitVec 32)

/-- What a directive prints; only the library knows `%c`. -/
def shown (c : Byte) (argument : BitVec 32) : List Byte :=
  if c = byte 'd' then decimal argument.toInt
  else if c = byte 'x' ∨ c = byte 'p' then (numeral 16 argument.toNat).map (digits.getD · 0)
  else if c = byte 's' then text strings argument
  else if c = byte 'c' ∧ knowsChar then [BitVec.setWidth 8 argument]
  else if c = byte '%' then [c]
  else [byte '%', c]

/-- How many arguments a directive uses -/
def used (c : Byte) : ℕ :=
  if c = byte 'd' ∨ c = byte 'x' ∨ c = byte 'p' ∨ c = byte 's' ∨ (c = byte 'c' ∧ knowsChar) then 1 else 0

/-- What a format prints, from argument `n` on -/
def render : List Piece → ℕ → List Byte
  | [], _ => []
  | .literal c :: ps, n => c :: render ps n
  | .directive c :: ps, n => shown digits knowsChar strings c (argp n) ++ render ps (n + used knowsChar c)

end

/-- What both tables of digits satisfy -/
structure Table (digits : List Byte) : Prop where
  decimal : ∀ d < 10, digits.getD d 0 = decimalDigit d

theorem kernel_table : Table Kernel.digits := ⟨by decide⟩

theorem ulib_table : Table Ulib.digits := ⟨by decide⟩

variable {strings : BitVec 32 → List Byte} {argp : ℕ → BitVec 32}

theorem pieces_literal {c : Byte} (hc : c ≠ byte '%') (fmt : List Byte) :
    pieces (c :: fmt) = .literal c :: pieces fmt := by
  rw [pieces.eq_def]
  simp [hc]

theorem pieces_directive (d : Byte) (fmt : List Byte) :
    pieces (byte '%' :: d :: fmt) = .directive d :: pieces fmt := by
  rw [pieces.eq_def]
  simp

theorem cprintfLoop_render (table : Table digits) (fmt : List Byte) : ∀ n : ℕ,
    cprintfLoop digits strings argp fmt n = some (render digits false strings argp (pieces fmt) n) := by
  induction fmt using pieces.induct with
  | case1 => intro n; simp [cprintfLoop, pieces, render]
  | case2 c fmt literal ih =>
      intro n
      rw [pieces_literal literal, cprintfLoop.eq_def]
      simp [literal, render, ih]
  | case3 c percent =>
      intro n
      simp only [not_not] at percent
      simp [cprintfLoop, pieces, percent, render]
  | case4 c percent d fmt ih =>
      intro n
      simp only [not_not] at percent
      subst percent
      rw [pieces_directive]
      simp only [cprintfLoop, ne_eq, not_true, if_false, render, ih, shown, used,
        printint_signed table.decimal, printint_unsigned (by omega : 4 ≤ 16)]
      by_cases decimal : d = byte 'd'
      · simp [decimal]
      by_cases hex : d = byte 'x' ∨ d = byte 'p'
      · simp [decimal, hex]
        simp [← or_assoc, hex]
      by_cases string : d = byte 's'
      · simp +decide [string]
      by_cases literal : d = byte '%'
      · simp +decide [literal]
      · simp [decimal, hex, string, literal]

/-- The library's loop, from where no `%` is pending -/
theorem printfLoop_render (table : Table digits) (fmt : List Byte) : ∀ n : ℕ,
    printfLoop digits strings argp fmt false n = some (render digits true strings argp (pieces fmt) n) := by
  induction fmt using pieces.induct with
  | case1 => intro n; simp [printfLoop, pieces, render]
  | case2 c fmt literal ih =>
      intro n
      rw [pieces_literal literal]
      simp [printfLoop, literal, render, ih]
  | case3 c percent =>
      intro n
      simp only [not_not] at percent
      simp [printfLoop, pieces, percent, render]
  | case4 c percent d fmt ih =>
      intro n
      simp only [not_not] at percent
      subst percent
      rw [pieces_directive]
      simp only [printfLoop, if_true, render, ih, shown, used,
        printint_signed table.decimal, printint_unsigned (by omega : 4 ≤ 16)]
      by_cases decimal : d = byte 'd'
      · simp [decimal]
      by_cases hex : d = byte 'x' ∨ d = byte 'p'
      · simp [decimal, hex]
        simp [← or_assoc, hex]
      by_cases string : d = byte 's'
      · simp +decide [string]
      by_cases char : d = byte 'c'
      · simp +decide [char]
      by_cases literal : d = byte '%'
      · simp +decide [literal]
      · simp [decimal, hex, string, char, literal]

theorem shown_decimal (knowsChar : Bool) (x : BitVec 32) :
    shown digits knowsChar strings (byte 'd') x = decimal x.toInt := by
  simp [shown]

theorem used_decimal (knowsChar : Bool) : used knowsChar (byte 'd') = 1 := by
  simp [used]

theorem shown_string (knowsChar : Bool) {x : BitVec 32} (hx : x ≠ 0) :
    shown digits knowsChar strings (byte 's') x = strings x := by
  have decimal : byte 's' ≠ byte 'd' := by decide
  have hex : ¬ (byte 's' = byte 'x' ∨ byte 's' = byte 'p') := by decide
  simp only [shown, decimal, hex, if_false, if_true]
  apply if_neg hx

/-- The directives that the two printers treat alike -/
def Common (ps : List Piece) : Prop := ∀ c ∈ [byte 'c', byte 'x', byte 'p'], Piece.directive c ∉ ps

theorem render_common {ps : List Piece} (common : Common ps) : ∀ n : ℕ,
    render Kernel.digits false strings argp ps n = render Ulib.digits true strings argp ps n := by
  induction ps with
  | nil => intro n; simp [render]
  | cons p ps ih =>
      intro n
      have rest : Common ps := fun c hc hmem => common c hc (List.mem_cons_of_mem p hmem)
      cases p with
      | literal c => simp [render, ih rest]
      | directive c =>
          have char : c ≠ byte 'c' := fun h => common (byte 'c') (by simp) (by simp [h])
          have hex : ¬ (c = byte 'x' ∨ c = byte 'p') := by
            rintro (h | h)
            · exact common (byte 'x') (by simp) (by simp [h])
            · exact common (byte 'p') (by simp) (by simp [h])
          simp [render, shown, used, char, hex, ih rest]

/-- Each copy of `printint` prints every argument in full: the sign and the decimal digits of a signed one, the
hexadecimal digits of an unsigned one. It never leaves its buffer, and `atoi` reads a printed number back, unless it
has a sign. -/
theorem printint_correct (xx : BitVec 32) :
    Kernel.printint xx 10 true = some (decimal xx.toInt) ∧
      Ulib.printint xx 10 true = some (decimal xx.toInt) ∧
      (decimal xx.toInt).length ≤ 11 ∧
      Kernel.printint xx 16 false = some ((numeral 16 xx.toNat).map (Kernel.digits.getD · 0)) ∧
      Ulib.printint xx 16 false = some ((numeral 16 xx.toNat).map (Ulib.digits.getD · 0)) ∧
      (numeral 16 xx.toNat).length ≤ 8 ∧
      ∀ rest : List Byte, (∀ c ∈ rest.head?, ¬ (byte '0' ≤ c ∧ c ≤ byte '9')) →
        Ulib.atoi (decimal xx.toInt ++ rest) = if xx.toInt < 0 then 0 else xx := by
  refine ⟨printint_signed kernel_table.decimal xx, printint_signed ulib_table.decimal xx,
    decimal_length (natAbs_le xx), printint_unsigned (by omega) xx, printint_unsigned (by omega) xx, ?_, ?_⟩
  · apply numeral_length (by omega) (by omega)
    simpa using xx.isLt
  · intro rest hrest
    apply atoi_decimal xx hrest

/-- `cprintf` and `printf` print what the format means for every format and all arguments, though one looks ahead and
the other keeps a state. They differ in `%c` and in the case of the hexadecimal digits only. -/
theorem printf_correct (strings : BitVec 32 → List Byte) (ap : ℕ → BitVec 32) (fmt : List Byte) :
    Kernel.cprintf strings ap fmt = some (render Kernel.digits false strings ap (pieces fmt) 0) ∧
      Ulib.printf strings ap fmt = some (render Ulib.digits true strings ap (pieces fmt) 0) ∧
      (Common (pieces fmt) → Ulib.printf strings ap fmt = Kernel.cprintf strings ap fmt) := by
  have kernel : Kernel.cprintf strings ap fmt = some (render Kernel.digits false strings ap (pieces fmt) 0) :=
    cprintfLoop_render kernel_table fmt 0
  have library : Ulib.printf strings ap fmt = some (render Ulib.digits true strings ap (pieces fmt) 0) :=
    printfLoop_render ulib_table fmt 0
  refine ⟨kernel, library, ?_⟩
  intro common
  rw [kernel, library, render_common common]

end Print

end Xv6
