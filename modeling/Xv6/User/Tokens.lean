import Xv6.User.Sh

/-!
# The tokens of a line

What `gettoken` and `peek` do, in terms of the tokens that are left.
-/

namespace Xv6.Shell

inductive Token where
  /-- a symbol of one character -/
  | sym (c : Char)
  /-- `>>` -/
  | append
  | word (text : List Char)
  deriving DecidableEq, Repr

/-- A character of a word, before `next` and the tokens from there on. -/
def extend (c : Char) (next : Option Char) (ts : List Token) : List Token :=
  match next.any ordinary, ts with
  | true, .word text :: ts => .word (c :: text) :: ts
  | _, ts => .word [c] :: ts

/-- The symbols and the words of a line, as long as possible. -/
def tokens : List Char → List Token
  | [] => []
  | '>' :: '>' :: cs => .append :: tokens cs
  | c :: cs =>
      if blank c then tokens cs
      else if symbols.contains c then .sym c :: tokens cs
      else extend c cs.head? (tokens cs)

variable {line toks cs text : List Char} {c : Char} {s : ℕ} {t : Token} {ts us : List Token}

theorem tokens_one (notAppend : c = '>' → cs.head? ≠ some '>') :
    tokens (c :: cs) = if blank c then tokens cs
      else if symbols.contains c then .sym c :: tokens cs else extend c cs.head? (tokens cs) := by
  rw [tokens.eq_3]
  rintro cs' rfl rfl
  exact notAppend rfl rfl

theorem tokens_blank (isBlank : blank c = true) : tokens (c :: cs) = tokens cs := by
  rw [tokens_one, if_pos isBlank]
  rintro rfl
  cases isBlank

theorem tokens_symbol (isSymbol : c ∈ symbols) (notAppend : c = '>' → cs.head? ≠ some '>') :
    tokens (c :: cs) = .sym c :: tokens cs := by
  have notBlank : blank c = false := by
    simp only [symbols, List.mem_cons, List.not_mem_nil, or_false] at isSymbol
    rcases isSymbol with rfl | rfl | rfl | rfl | rfl | rfl | rfl <;> rfl
  rw [tokens_one notAppend, if_neg (by simp [notBlank]), if_pos (by simpa using isSymbol)]

theorem ordinary_iff : ordinary c = true ↔ blank c = false ∧ c ∉ symbols := by
  unfold ordinary blank
  simp

theorem tokens_word (notEmpty : text ≠ []) (isWord : ∀ c ∈ text, ordinary c = true)
    (boundary : ∀ c ∈ cs.head?, ordinary c = false) :
    tokens (text ++ cs) = .word text :: tokens cs := by
  induction text with
  | nil => exact absurd rfl notEmpty
  | cons c text ih =>
      have isOrdinary := isWord c List.mem_cons_self
      have notBlank := ordinary_iff.mp isOrdinary
      have notGreater : c ≠ '>' := by
        rintro rfl
        cases isOrdinary
      rw [List.cons_append, tokens_one (fun same => absurd same notGreater),
        if_neg (by simp [notBlank.1]), if_neg (by simpa using notBlank.2)]
      cases text with
      | nil =>
          have stops : cs.head?.any ordinary = false := by
            cases isHead : cs.head? with
            | none => rfl
            | some c' => exact boundary c' isHead
          unfold extend
          rw [List.nil_append, stops]
      | cons c' text =>
          have isNext := isWord c' (by simp)
          rw [ih (by simp) fun c member => isWord c (List.mem_cons_of_mem _ member)]
          unfold extend
          simp [isNext]

theorem boundary_dropWhile (p : Char → Bool) (cs : List Char) :
    ∀ c ∈ (cs.dropWhile p).head?, p c = false := by
  intro c member
  have stops := List.head?_dropWhile_not p cs
  rw [Option.mem_def.mp member] at stops
  simpa using stops

/-- A word goes on as long as its characters are ordinary. -/
theorem tokens_ordinary (isOrdinary : ordinary c = true) :
    tokens (c :: cs) = .word ((c :: cs).takeWhile ordinary) :: tokens ((c :: cs).dropWhile ordinary) := by
  conv_lhs =>
    rw [← List.takeWhile_append_dropWhile (p := ordinary) (l := c :: cs)]
  refine tokens_word ?_ (fun c member => List.mem_takeWhile_imp member) (boundary_dropWhile ordinary _)
  rw [List.takeWhile_cons_of_pos isOrdinary]
  exact List.cons_ne_nil _ _

/-- The token that begins with a character. -/
inductive Lexeme (c : Char) (cs : List Char) : Prop
  | symbol (isSymbol : c ∈ symbols) (notAppend : c = '>' → cs.head? ≠ some '>')
      (eq : tokens (c :: cs) = .sym c :: tokens cs)
  | append (cs' : List Char) (isGreater : c = '>') (isNext : cs = '>' :: cs')
      (eq : tokens (c :: cs) = .append :: tokens cs')
  | word (isOrdinary : ordinary c = true)
      (eq : tokens (c :: cs) =
        .word ((c :: cs).takeWhile ordinary) :: tokens ((c :: cs).dropWhile ordinary))

theorem lexeme (cs : List Char) (notBlank : blank c = false) : Lexeme c cs := by
  by_cases isSymbol : c ∈ symbols
  · by_cases isAppend : c = '>' ∧ cs.head? = some '>'
    · rcases isAppend with ⟨rfl, isHead⟩
      rcases List.head?_eq_some_iff.mp isHead with ⟨cs', rfl⟩
      exact .append cs' rfl rfl rfl
    · have notAppend : c = '>' → cs.head? ≠ some '>' := fun first second => isAppend ⟨first, second⟩
      exact .symbol isSymbol notAppend (tokens_symbol isSymbol notAppend)
  · have isOrdinary : ordinary c = true := ordinary_iff.mpr ⟨notBlank, isSymbol⟩
    exact .word isOrdinary (tokens_ordinary isOrdinary)

theorem tokens_ne_nil (notBlank : blank c = false) : tokens (c :: cs) ≠ [] := by
  rcases lexeme cs notBlank with ⟨-, -, eq⟩ | ⟨cs', -, -, eq⟩ | ⟨-, eq⟩
  · exact eq ▸ List.cons_ne_nil _ _
  · exact eq ▸ List.cons_ne_nil _ _
  · exact eq ▸ List.cons_ne_nil _ _

theorem tokens_dropWhile (cs : List Char) : tokens (cs.dropWhile blank) = tokens cs := by
  induction cs with
  | nil => rfl
  | cons c cs ih =>
      by_cases isBlank : blank c = true
      · rw [List.dropWhile_cons_of_pos isBlank, tokens_blank isBlank, ih]
      · rw [List.dropWhile_cons_of_neg isBlank]

theorem mem_extend {next : Option Char} (member : t ∈ extend c next ts) :
    t ∈ ts ∨ ∃ text, t = .word text := by
  unfold extend at member
  split at member
  · rcases List.mem_cons.mp member with rfl | old
    · exact .inr ⟨_, rfl⟩
    · exact .inl (List.mem_cons_of_mem _ old)
  · rcases List.mem_cons.mp member with rfl | old
    · exact .inr ⟨_, rfl⟩
    · exact .inl old

theorem length_extend (c : Char) (next : Option Char) (ts : List Token) :
    (extend c next ts).length ≤ ts.length + 1 := by
  unfold extend
  split
  · exact Nat.le_succ _
  · exact le_rfl

/-- Only the symbols are tokens of one character that is not a word. -/
theorem mem_symbols (member : .sym c ∈ tokens cs) : c ∈ symbols := by
  fun_induction tokens cs with
  | case1 => exact absurd member List.not_mem_nil
  | case2 cs ih =>
      rcases List.mem_cons.mp member with same | old
      · cases same
      · exact ih old
  | case3 c' cs notAppend isBlank ih => exact ih member
  | case4 c' cs notAppend notBlank isSymbol ih =>
      rcases List.mem_cons.mp member with same | old
      · cases same
        simpa using isSymbol
      · exact ih old
  | case5 c' cs notAppend notBlank notSymbol ih =>
      rcases mem_extend member with old | ⟨text, isWord⟩
      · exact ih old
      · cases isWord

theorem length_tokens (cs : List Char) : (tokens cs).length ≤ cs.length := by
  fun_induction tokens cs with
  | case1 => exact le_rfl
  | case2 cs ih =>
      simp only [List.length_cons]
      omega
  | case3 c' cs notAppend isBlank ih =>
      rw [List.length_cons]
      omega
  | case4 c' cs notAppend notBlank isSymbol ih =>
      simp only [List.length_cons]
      omega
  | case5 c' cs notAppend notBlank notSymbol ih =>
      have atMost := length_extend c' cs.head? (tokens cs)
      rw [List.length_cons]
      omega

/-! ## Positions -/

/-- The tokens from `s` on. -/
structure At (line : List Char) (s : ℕ) (ts : List Token) : Prop where
  left : tokens (line.drop s) = ts
  inside : s ≤ line.length

theorem At.length (here : At line s ts) : ts.length ≤ line.length := by
  have short := length_tokens (line.drop s)
  rw [here.left, List.length_drop] at short
  omega

/-- The loops are long enough for the tokens that are left, and for a part of them. -/
theorem At.passes (here : At line s (ts ++ us)) : ts.length < maxPasses line := by
  have atMost := here.length
  rw [List.length_append] at atMost
  unfold maxPasses
  omega

theorem drop_scan (p : Char → Bool) (line : List Char) (s : ℕ) :
    line.drop (scan p line s) = (line.drop s).dropWhile p := by
  unfold scan
  rw [← List.drop_drop]
  conv_lhs =>
    arg 2
    rw [← List.takeWhile_append_dropWhile (p := p) (l := line.drop s)]
  exact List.drop_left

theorem scan_le {p : Char → Bool} (inside : s ≤ line.length) : scan p line s ≤ line.length := by
  have short := (List.takeWhile_sublist (l := line.drop s) p).length_le
  rw [List.length_drop] at short
  unfold scan
  omega

theorem charAt_eq (line : List Char) (s : ℕ) : charAt line s = (line.drop s).headD '\x00' := by
  unfold charAt
  rw [List.headD_eq_head?_getD, List.head?_drop, List.getD_eq_getElem?_getD]

theorem At.skip (here : At line s ts) : At line (scan blank line s) ts := by
  refine ⟨?_, scan_le here.inside⟩
  rw [drop_scan, tokens_dropWhile]
  exact here.left

/-- What is found after the blanks. -/
theorem At.next (here : At line s ts) (plain : ∀ c ∈ line, c ≠ '\x00') :
    (line.drop (scan blank line s) = [] ∧ ts = []) ∨
      ∃ c cs, line.drop (scan blank line s) = c :: cs ∧ blank c = false ∧ c ≠ '\x00' ∧
        scan blank line s < line.length ∧ tokens (c :: cs) = ts := by
  have left := here.skip.left
  generalize isPlace : scan blank line s = q at left
  have isRest := drop_scan blank line s
  rw [isPlace] at isRest
  cases rest : line.drop q with
  | nil =>
      rw [rest] at left
      exact .inl ⟨rfl, left.symm⟩
  | cons c cs =>
      have notBlank := boundary_dropWhile blank (line.drop s) c
      rw [← isRest, rest] at notBlank
      have member : c ∈ line := List.mem_of_mem_drop (rest ▸ List.mem_cons_self)
      have inside : q < line.length := by
        by_contra outside
        rw [List.drop_of_length_le (by omega)] at rest
        cases rest
      rw [rest] at left
      exact .inr ⟨c, cs, rfl, notBlank rfl, plain c member, inside, left⟩

theorem drop_succ {q : ℕ} (rest : line.drop q = c :: cs) : line.drop (q + 1) = cs := by
  rw [← List.drop_drop, rest]
  rfl

/-! ## `peek` -/

/-- The next token begins with one of the symbols. -/
def starts (toks : List Char) : List Token → Bool
  | .sym c :: _ => toks.contains c
  | .append :: _ => toks.contains '>'
  | _ => false

theorem peek_spec (here : At line s ts) (plain : ∀ c ∈ line, c ≠ '\x00') (sub : toks ⊆ symbols) :
    ∃ s', peek line toks s = (starts toks ts, s') ∧ At line s' ts := by
  refine ⟨scan blank line s, ?_, here.skip⟩
  have isChar := charAt_eq line (scan blank line s)
  unfold peek
  dsimp only
  rw [isChar]
  rcases here.next plain with ⟨rest, rfl⟩ | ⟨c, cs, rest, notBlank, notNul, -, rfl⟩
  · rw [rest]
    rfl
  · rw [rest, List.headD_cons]
    have same : (decide (c ≠ '\x00') && toks.contains c) = toks.contains c := by simp [notNul]
    rw [same]
    rcases lexeme cs notBlank with ⟨-, -, eq⟩ | ⟨cs', rfl, rfl, eq⟩ | ⟨isOrdinary, eq⟩
    · rw [eq]
      rfl
    · rw [eq]
      rfl
    · have notTok : toks.contains c = false := by
        simpa using fun member => (ordinary_iff.mp isOrdinary).2 (sub member)
      rw [eq, notTok]
      rfl

/-! ## `gettoken` -/

/-- What `gettoken` returns for a token. -/
def Token.kind : Token → Char
  | .sym c => c
  | .append => '+'
  | .word _ => 'a'

theorem At.kind (here : At line s (t :: ts)) :
    t.kind ≠ '\x00' ∧ (t.kind = 'a' → ∃ text, t = .word text) := by
  cases t with
  | sym c =>
      have member : .sym c ∈ tokens (line.drop s) := here.left ▸ List.mem_cons_self
      have isSymbol := mem_symbols member
      simp only [symbols, List.mem_cons, List.not_mem_nil, or_false] at isSymbol
      rcases isSymbol with rfl | rfl | rfl | rfl | rfl | rfl | rfl <;> simp [Token.kind]
  | append => simp [Token.kind]
  | word text => exact ⟨by simp [Token.kind], fun _ => ⟨text, rfl⟩⟩

/-- The pair of pointers encloses the word. -/
structure Span (line : List Char) (arg : ℕ × ℕ) (text : List Char) : Prop where
  split : line.drop arg.1 = text ++ line.drop arg.2
  stop : arg.2 = arg.1 + text.length
  isWord : ∀ c ∈ text, ordinary c = true
  boundary : ∀ c ∈ (line.drop arg.2).head?, ordinary c = false
  inside : arg.2 ≤ line.length

/-- The token is the one that `gettoken` finds. -/
structure Gets (line : List Char) (found : Found) (t : Token) (ts : List Token) : Prop where
  ret : found.ret = t.kind
  rest : At line found.s ts
  word : ∀ text, t = .word text → Span line (found.q, found.eq) text

theorem gettoken_nil (here : At line s []) (plain : ∀ c ∈ line, c ≠ '\x00') :
    (gettoken line s).ret = '\x00' ∧ At line (gettoken line s).s [] := by
  have isChar := charAt_eq line (scan blank line s)
  rcases here.next plain with ⟨rest, -⟩ | ⟨c, cs, -, notBlank, -, -, none⟩
  · rw [rest, List.headD_nil] at isChar
    unfold gettoken
    dsimp only
    rw [isChar, if_pos rfl]
    exact ⟨rfl, here.skip.skip⟩
  · exact absurd none (tokens_ne_nil notBlank)

theorem gettoken_cons (here : At line s (t :: ts)) (plain : ∀ c ∈ line, c ≠ '\x00') :
    Gets line (gettoken line s) t ts := by
  have isChar := charAt_eq line (scan blank line s)
  rcases here.next plain with ⟨-, none⟩ | ⟨c, cs, rest, notBlank, notNul, inside, isToken⟩
  · cases none
  · rw [rest, List.headD_cons] at isChar
    have after := drop_succ rest
    rcases lexeme cs notBlank with
      ⟨isSymbol, notAppend, eq⟩ | ⟨cs', rfl, rfl, eq⟩ | ⟨isOrdinary, eq⟩
    · rw [eq] at isToken
      cases isToken
      have found : gettoken line s = ⟨c, scan blank line s, scan blank line s + 1,
          scan blank line (scan blank line s + 1)⟩ := by
        unfold gettoken
        dsimp only
        rw [isChar, if_neg notNul]
        by_cases isGreater : c = '>'
        · have notNext : charAt line (scan blank line s + 1) ≠ '>' := by
            rw [charAt_eq, after]
            intro isNext
            refine notAppend isGreater ?_
            cases cs with
            | nil => cases isNext
            | cons c' cs => exact congrArg some isNext
          rw [if_neg (by simp [isGreater]), if_pos isGreater, if_neg notNext]
        · have isOne : c = '|' ∨ c = '(' ∨ c = ')' ∨ c = ';' ∨ c = '&' ∨ c = '<' := by
            simp only [symbols, List.mem_cons, List.not_mem_nil, or_false] at isSymbol
            tauto
          rw [if_pos isOne]
      have next : At line (scan blank line s + 1) (tokens cs) := ⟨by rw [after], inside⟩
      rw [found]
      refine ⟨rfl, next.skip, fun text isWord => ?_⟩
      cases isWord
    · rw [eq] at isToken
      cases isToken
      have isNext : charAt line (scan blank line s + 1) = '>' := by
        rw [charAt_eq, after]
        rfl
      have after' := drop_succ after
      have inside' : scan blank line s + 1 < line.length := by
        by_contra outside
        rw [List.drop_of_length_le (by omega)] at after
        cases after
      have found : gettoken line s = ⟨'+', scan blank line s, scan blank line s + 1 + 1,
          scan blank line (scan blank line s + 1 + 1)⟩ := by
        unfold gettoken
        simp [isChar, isNext]
      have next : At line (scan blank line s + 1 + 1) (tokens cs') := ⟨by rw [after'], inside'⟩
      rw [found]
      refine ⟨rfl, next.skip, fun text isWord => ?_⟩
      cases isWord
    · rw [eq] at isToken
      cases isToken
      have found : gettoken line s = ⟨'a', scan blank line s, scan ordinary line (scan blank line s),
          scan blank line (scan ordinary line (scan blank line s))⟩ := by
        have notSymbol := (ordinary_iff.mp isOrdinary).2
        simp only [symbols, List.mem_cons, List.not_mem_nil, or_false, not_or] at notSymbol
        unfold gettoken
        dsimp only
        rw [isChar, if_neg notNul, if_neg (by tauto), if_neg (by tauto)]
      have length : scan ordinary line (scan blank line s) =
          scan blank line s + ((c :: cs).takeWhile ordinary).length :=
        congrArg (fun left => scan blank line s + (left.takeWhile ordinary).length) rest
      have stop := drop_scan ordinary line (scan blank line s)
      rw [rest] at stop
      have next : At line (scan ordinary line (scan blank line s))
          (tokens ((c :: cs).dropWhile ordinary)) := ⟨by rw [stop], scan_le inside.le⟩
      rw [found]
      refine ⟨rfl, next.skip, fun text isWord => ?_⟩
      cases isWord
      refine ⟨?_, length, fun c member => List.mem_takeWhile_imp member, ?_, next.inside⟩
      · rw [stop, rest]
        exact List.takeWhile_append_dropWhile.symm
      · rw [stop]
        exact boundary_dropWhile ordinary _

end Xv6.Shell
