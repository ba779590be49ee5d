import Xv6.User.Tokens

/-!
# The grammar of the shell

The parser accepts the lines that the grammar derives, and returns the tree of the derivation.
-/

namespace Xv6.Shell

open Fallible

abbrev Text : Type := List Char

/-- A redirection of a command. -/
structure Redir where
  file : Text
  mode : ℕ
  fd : ℕ

def wrap (cmd : Cmd Text) (redirs : List Redir) : Cmd Text :=
  redirs.foldl (fun cmd redir => .redir cmd redir.file redir.mode redir.fd) cmd

/-- `'<' | '>' | '>>'` -/
inductive Operator : Token → ℕ → ℕ → Prop
  | input : Operator (.sym '<') rdonly 0
  | output : Operator (.sym '>') wronlyCreate 1
  | append : Operator .append wronlyCreate 1

/-- `{redir}` -/
inductive Redirs : List Token → List Redir → Prop
  | nil : Redirs [] []
  | cons {op : Token} {mode fd : ℕ} {file : Text} {ts : List Token} {redirs : List Redir}
      (operator : Operator op mode fd) (rest : Redirs ts redirs) :
      Redirs (op :: .word file :: ts) (⟨file, mode, fd⟩ :: redirs)

/-- `{word {redir}}` -/
inductive Words : List Token → List Text → List Redir → Prop
  | nil : Words [] [] []
  | cons {text : Text} {ts us : List Token} {redirs redirs' : List Redir} {args : List Text}
      (first : Redirs ts redirs) (rest : Words us args redirs') :
      Words (.word text :: ts ++ us) (text :: args) (redirs ++ redirs')

inductive Nonterminal where
  | line
  | pipe
  | exec

/-- The grammar of the shell. -/
inductive Derives : Nonterminal → List Token → Cmd Text → Prop
  | line {ts : List Token} {cmd : Cmd Text} (backs : ℕ) (pipe : Derives .pipe ts cmd) :
      Derives .line (ts ++ List.replicate backs (.sym '&')) (.back^[backs] cmd)
  | list {ts us : List Token} {cmd right : Cmd Text} (backs : ℕ) (pipe : Derives .pipe ts cmd)
      (line : Derives .line us right) :
      Derives .line (ts ++ List.replicate backs (.sym '&') ++ .sym ';' :: us)
        (.list (.back^[backs] cmd) right)
  | last {ts : List Token} {cmd : Cmd Text} (exec : Derives .exec ts cmd) : Derives .pipe ts cmd
  | pipe {ts us : List Token} {cmd right : Cmd Text} (exec : Derives .exec ts cmd)
      (pipe : Derives .pipe us right) : Derives .pipe (ts ++ .sym '|' :: us) (.pipe cmd right)
  | block {ts us : List Token} {cmd : Cmd Text} {redirs : List Redir} (line : Derives .line ts cmd)
      (after : Redirs us redirs) : Derives .exec (.sym '(' :: ts ++ .sym ')' :: us) (wrap cmd redirs)
  | simple {ts us : List Token} {args : List Text} {redirs redirs' : List Redir}
      (before : Redirs ts redirs) (words : Words us args redirs') (few : args.length < maxargs) :
      Derives .exec (ts ++ us) (wrap (.exec args) (redirs ++ redirs'))

/-- The command stands for the tree: each pair of pointers encloses its string. -/
inductive Stands (line : List Char) : Cmd (ℕ × ℕ) → Cmd Text → Prop
  | exec {argv : List (ℕ × ℕ)} {args : List Text} (spans : List.Forall₂ (Span line) argv args) :
      Stands line (.exec argv) (.exec args)
  | redir {cmd : Cmd (ℕ × ℕ)} {tree : Cmd Text} {file : ℕ × ℕ} {text : Text} {mode fd : ℕ}
      (inner : Stands line cmd tree) (span : Span line file text) :
      Stands line (.redir cmd file mode fd) (.redir tree text mode fd)
  | pipe {left right : Cmd (ℕ × ℕ)} {tree tree' : Cmd Text} (first : Stands line left tree)
      (second : Stands line right tree') : Stands line (.pipe left right) (.pipe tree tree')
  | list {left right : Cmd (ℕ × ℕ)} {tree tree' : Cmd Text} (first : Stands line left tree)
      (second : Stands line right tree') : Stands line (.list left right) (.list tree tree')
  | back {cmd : Cmd (ℕ × ℕ)} {tree : Cmd Text} (inner : Stands line cmd tree) :
      Stands line (.back cmd) (.back tree)

variable {line toks : List Char} {s passes calls argc : ℕ} {t op : Token} {ts us used rest : List Token}
  {cmd ret : Cmd (ℕ × ℕ)} {tree tree' : Cmd Text} {n : Nonterminal} {redirs redirs' : List Redir}
  {args before : List Text} {file : Text} {mode fd : ℕ}

/-! ## `parseredirs` -/

theorem Operator.starts (operator : Operator op mode fd) : starts ['<', '>'] (op :: ts) = true := by
  cases operator
  · rfl
  · rfl
  · rfl

theorem operator_of_starts (begins : starts ['<', '>'] ts = true) :
    ∃ op us mode fd, ts = op :: us ∧ Operator op mode fd := by
  cases ts with
  | nil => cases begins
  | cons op us =>
      cases op with
      | sym c =>
          have isOne : c = '<' ∨ c = '>' := by simpa [starts] using begins
          rcases isOne with rfl | rfl
          · exact ⟨_, _, _, _, rfl, .input⟩
          · exact ⟨_, _, _, _, rfl, .output⟩
      | append => exact ⟨_, _, _, _, rfl, .append⟩
      | word text => cases begins

theorem Operator.redirect {α : Type} {cmd : Cmd α} {arg : α} (operator : Operator op mode fd) :
    redirect op.kind cmd arg = .redir cmd arg mode fd := by
  cases operator
  · rfl
  · rfl
  · rfl

theorem parseredirs_stop (plain : ∀ c ∈ line, c ≠ '\x00') (here : At line s ts)
    (none : starts ['<', '>'] ts = false) :
    ∃ s', parseredirs line (passes + 1) cmd s = .ok (cmd, s') ∧ At line s' ts := by
  rcases peek_spec here plain (by decide : ['<', '>'] ⊆ symbols) with ⟨s', peeked, here'⟩
  refine ⟨s', ?_, here'⟩
  unfold parseredirs
  rw [peeked, none]
  rfl

theorem parseredirs_next (plain : ∀ c ∈ line, c ≠ '\x00') (here : At line s (op :: .word file :: ts))
    (operator : Operator op mode fd) :
    ∃ arg s', parseredirs line (passes + 1) cmd s = parseredirs line passes (.redir cmd arg mode fd) s' ∧
      Span line arg file ∧ At line s' ts := by
  rcases peek_spec here plain (by decide : ['<', '>'] ⊆ symbols) with ⟨s', peeked, here'⟩
  have tok := gettoken_cons here' plain
  have name := gettoken_cons tok.rest plain
  refine ⟨_, _, ?_, name.word file rfl, name.rest⟩
  conv_lhs => unfold parseredirs
  rw [peeked, operator.starts]
  dsimp only
  have isWord : ¬(gettoken line (gettoken line s').s).ret ≠ 'a' := not_not.mpr name.ret
  rw [if_pos rfl, if_neg isWord, tok.ret, operator.redirect]

theorem parseredirs_panic (plain : ∀ c ∈ line, c ≠ '\x00') (here : At line s (op :: ts))
    (operator : Operator op mode fd) (noFile : ∀ file us, ts ≠ .word file :: us) :
    parseredirs line (passes + 1) cmd s = .error (.panic "missing file for redirection") := by
  rcases peek_spec here plain (by decide : ['<', '>'] ⊆ symbols) with ⟨s', peeked, here'⟩
  have tok := gettoken_cons here' plain
  have notWord : (gettoken line (gettoken line s').s).ret ≠ 'a' := by
    cases ts with
    | nil =>
        rw [(gettoken_nil tok.rest plain).1]
        decide
    | cons t ts =>
        rw [(gettoken_cons tok.rest plain).ret]
        intro isWord
        rcases tok.rest.kind.2 isWord with ⟨file, rfl⟩
        exact noFile file ts rfl
  unfold parseredirs
  rw [peeked, operator.starts]
  dsimp only
  rw [if_pos rfl, if_pos notWord]

/-- The redirections of the grammar are all taken. -/
theorem parseredirs_complete (plain : ∀ c ∈ line, c ≠ '\x00') (derives : Redirs used redirs)
    (here : At line s (used ++ rest)) (stops : starts ['<', '>'] rest = false)
    (enough : used.length < passes) (stands : Stands line cmd tree) :
    ∃ cmd' s', parseredirs line passes cmd s = .ok (cmd', s') ∧ At line s' rest ∧
      Stands line cmd' (wrap tree redirs) := by
  induction derives generalizing s passes cmd tree with
  | nil =>
      rcases Nat.exists_eq_succ_of_ne_zero (by omega : passes ≠ 0) with ⟨passes, rfl⟩
      rcases parseredirs_stop plain here stops with ⟨s', run, here'⟩
      exact ⟨cmd, s', run, here', stands⟩
  | cons operator derives ih =>
      rcases Nat.exists_eq_succ_of_ne_zero (by omega : passes ≠ 0) with ⟨passes, rfl⟩
      simp only [List.length_cons] at enough
      rcases parseredirs_next plain here operator with ⟨arg, s', run, span, here'⟩
      rw [run]
      exact ih here' (by omega) (.redir stands span)

/-- The result of the parser. -/
inductive Outcome (good : Cmd (ℕ × ℕ) → ℕ → Prop) : Except Fault (Cmd (ℕ × ℕ) × ℕ) → Prop
  | ok {cmd : Cmd (ℕ × ℕ)} {s : ℕ} (holds : good cmd s) : Outcome good (.ok (cmd, s))
  | panic (message : String) : Outcome good (.error (.panic message))

theorem Outcome.bind {good good' : Cmd (ℕ × ℕ) → ℕ → Prop} {first : Except Fault (Cmd (ℕ × ℕ) × ℕ)}
    {next : Cmd (ℕ × ℕ) × ℕ → Except Fault (Cmd (ℕ × ℕ) × ℕ)} (outcome : Outcome good first)
    (rest : ∀ cmd s, good cmd s → Outcome good' (next (cmd, s))) : Outcome good' (first >>= next) := by
  cases outcome with
  | ok holds => exact rest _ _ holds
  | panic message => exact .panic message

theorem Outcome.mono {good good' : Cmd (ℕ × ℕ) → ℕ → Prop} {result : Except Fault (Cmd (ℕ × ℕ) × ℕ)}
    (outcome : Outcome good result) (weaker : ∀ cmd s, good cmd s → good' cmd s) :
    Outcome good' result := by
  cases outcome with
  | ok holds => exact .ok (weaker _ _ holds)
  | panic message => exact .panic message

/-- What is taken are redirections of the grammar. -/
theorem parseredirs_sound (plain : ∀ c ∈ line, c ≠ '\x00') (here : At line s ts)
    (enough : ts.length < passes) (stands : Stands line cmd tree) :
    Outcome (fun cmd' s' => ∃ used rest redirs, ts = used ++ rest ∧ At line s' rest ∧
      Redirs used redirs ∧ Stands line cmd' (wrap tree redirs)) (parseredirs line passes cmd s) := by
  induction passes generalizing s ts cmd tree with
  | zero => omega
  | succ passes ih =>
      cases begins : starts ['<', '>'] ts with
      | false =>
          rcases parseredirs_stop plain here begins with ⟨s', run, here'⟩
          rw [run]
          exact .ok ⟨[], ts, [], rfl, here', .nil, stands⟩
      | true =>
          rcases operator_of_starts begins with ⟨op, us, mode, fd, rfl, operator⟩
          by_cases hasFile : ∃ file vs, us = .word file :: vs
          · rcases hasFile with ⟨file, vs, rfl⟩
            simp only [List.length_cons] at enough
            rcases parseredirs_next plain here operator with ⟨arg, s', run, span, here'⟩
            rw [run]
            refine (ih here' (by omega) (.redir stands span)).mono ?_
            rintro cmd' s'' ⟨used, rest, redirs, rfl, here'', derives, stands'⟩
            exact ⟨_, rest, _, rfl, here'', .cons operator derives, stands'⟩
          · push Not at hasFile
            rw [parseredirs_panic plain here operator hasFile]
            exact .panic _

/-! ## `parseexec` -/

/-- The symbols after a nonterminal. -/
def followers : Nonterminal → List Char
  | .exec => ['|', '&', ';', ')']
  | .pipe => ['&', ';', ')']
  | .line => [')']

/-- Nothing is left, or one of the symbols. -/
def Follow (n : Nonterminal) (rest : List Token) : Prop :=
  rest = [] ∨ ∃ c ts, rest = .sym c :: ts ∧ c ∈ followers n

theorem Follow.starts (follow : Follow n rest) (apart : ∀ c ∈ followers n, c ∉ toks) :
    starts toks rest = false := by
  rcases follow with rfl | ⟨c, ts, rfl, member⟩
  · rfl
  · simpa [Shell.starts] using apart c member

theorem wrap_append (cmd : Cmd Text) (redirs redirs' : List Redir) :
    wrap (wrap cmd redirs) redirs' = wrap cmd (redirs ++ redirs') := List.foldl_append.symm

theorem addArg_wrap (text : Text) (cmd : Cmd Text) (redirs : List Redir) :
    (wrap cmd redirs).addArg text = wrap (cmd.addArg text) redirs := by
  induction redirs generalizing cmd with
  | nil => rfl
  | cons redir redirs ih => exact ih _

theorem Stands.addArg {arg : ℕ × ℕ} {text : Text} (stands : Stands line cmd tree)
    (span : Span line arg text) : Stands line (cmd.addArg arg) (tree.addArg text) := by
  induction stands with
  | exec spans => exact .exec (List.rel_append spans (.cons span .nil))
  | redir inner file ih => exact .redir ih file
  | pipe first second => exact .pipe first second
  | list first second => exact .list first second
  | back inner => exact .back inner

theorem parseargs_stop (plain : ∀ c ∈ line, c ≠ '\x00') (here : At line s ts)
    (follow : Follow .exec ts) :
    ∃ s', parseargs line (passes + 1) argc ret s = .ok (ret, s') ∧ At line s' ts := by
  rcases peek_spec here plain (by decide : ['|', ')', '&', ';'] ⊆ symbols) with ⟨s', peeked, here'⟩
  rcases follow with rfl | ⟨c, ts, rfl, member⟩
  · rcases gettoken_nil here' plain with ⟨isNul, here''⟩
    refine ⟨_, ?_, here''⟩
    unfold parseargs
    rw [peeked]
    dsimp only
    rw [if_neg (by simp [starts]), if_pos isNul]
  · have begins : starts ['|', ')', '&', ';'] (.sym c :: ts) = true := by
      simp only [followers, List.mem_cons, List.not_mem_nil, or_false] at member
      rcases member with rfl | rfl | rfl | rfl <;> rfl
    refine ⟨s', ?_, here'⟩
    unfold parseargs
    rw [peeked, begins]
    rfl

theorem parseargs_word {text : Text} (plain : ∀ c ∈ line, c ≠ '\x00')
    (here : At line s (.word text :: ts)) :
    ∃ arg s', Span line arg text ∧ At line s' ts ∧
      parseargs line (passes + 1) argc ret s =
        if argc + 1 ≥ maxargs then .error (.panic "too many args")
        else parseredirs line (maxPasses line) (ret.addArg arg) s' >>= fun result =>
          parseargs line passes (argc + 1) result.1 result.2 := by
  rcases peek_spec here plain (by decide : ['|', ')', '&', ';'] ⊆ symbols) with ⟨s', peeked, here'⟩
  have tok := gettoken_cons here' plain
  have notNul : (gettoken line s').ret ≠ '\x00' := by
    rw [tok.ret]
    exact here'.kind.1
  have isWord : ¬(gettoken line s').ret ≠ 'a' := not_not.mpr tok.ret
  refine ⟨_, _, tok.word text rfl, tok.rest, ?_⟩
  conv_lhs => unfold parseargs
  rw [peeked]
  dsimp only
  rw [if_neg (by simp [starts]), if_neg notNul, if_neg isWord]

theorem parseargs_panic (plain : ∀ c ∈ line, c ≠ '\x00') (here : At line s (t :: ts))
    (noWord : ∀ text, t ≠ .word text) (noFollow : ¬Follow .exec (t :: ts)) :
    parseargs line (passes + 1) argc ret s = .error (.panic "syntax") := by
  rcases peek_spec here plain (by decide : ['|', ')', '&', ';'] ⊆ symbols) with ⟨s', peeked, here'⟩
  have tok := gettoken_cons here' plain
  have notNul : (gettoken line s').ret ≠ '\x00' := by
    rw [tok.ret]
    exact here'.kind.1
  have notWord : (gettoken line s').ret ≠ 'a' := by
    rw [tok.ret]
    intro isWord
    rcases here'.kind.2 isWord with ⟨text, rfl⟩
    exact noWord text rfl
  have notFound : starts ['|', ')', '&', ';'] (t :: ts) = false := by
    cases t with
    | sym c =>
        by_contra found
        have member : c ∈ ['|', ')', '&', ';'] := by
          simpa only [starts, List.contains_iff_mem, Bool.not_eq_false] using found
        simp only [List.mem_cons, List.not_mem_nil, or_false] at member
        refine noFollow (.inr ⟨c, ts, rfl, ?_⟩)
        simp only [followers, List.mem_cons, List.not_mem_nil, or_false]
        tauto
    | append => rfl
    | word text => rfl
  unfold parseargs
  rw [peeked, notFound]
  dsimp only
  rw [if_neg Bool.false_ne_true, if_neg notNul, if_pos notWord]

theorem Words.starts (words : Words used args redirs) (follow : Follow .exec rest) :
    starts ['<', '>'] (used ++ rest) = false := by
  cases words with
  | nil => exact follow.starts (by simp [followers])
  | cons => rfl

/-- The words of the grammar are all taken. -/
theorem parseargs_complete (plain : ∀ c ∈ line, c ≠ '\x00') (derives : Words used args redirs)
    (here : At line s (used ++ rest)) (follow : Follow .exec rest)
    (few : argc + args.length < maxargs) (enough : used.length < passes)
    (stands : Stands line ret (wrap (.exec before) redirs')) :
    ∃ ret' s', parseargs line passes argc ret s = .ok (ret', s') ∧ At line s' rest ∧
      Stands line ret' (wrap (.exec (before ++ args)) (redirs' ++ redirs)) := by
  induction derives generalizing s argc passes ret before redirs' with
  | nil =>
      rcases Nat.exists_eq_succ_of_ne_zero (by omega : passes ≠ 0) with ⟨passes, rfl⟩
      rcases parseargs_stop plain here follow with ⟨s', run, here'⟩
      refine ⟨ret, s', run, here', ?_⟩
      simpa using stands
  | @cons text ts us first rest' args first' words ih =>
      rcases Nat.exists_eq_succ_of_ne_zero (by omega : passes ≠ 0) with ⟨passes, rfl⟩
      simp only [List.cons_append, List.length_cons, List.length_append, List.append_assoc] at here enough
      rw [List.length_cons] at few
      rcases parseargs_word plain here with ⟨arg, s', span, here', run⟩
      have stands' := stands.addArg span
      rw [addArg_wrap] at stands'
      rcases parseredirs_complete plain first' here' (words.starts follow) here'.passes stands' with
        ⟨ret', s'', run', here'', stands''⟩
      rw [wrap_append] at stands''
      have few' : argc + 1 + args.length < maxargs := by omega
      have enough' : us.length < passes := by omega
      have rest := ih here'' few' enough' stands''
      rw [run, if_neg (by omega), run', bind_ok]
      simpa only [List.append_assoc, List.singleton_append] using rest

/-- What is taken are words of the grammar. -/
theorem parseargs_sound (plain : ∀ c ∈ line, c ≠ '\x00') (here : At line s ts)
    (few : argc < maxargs) (enough : ts.length < passes)
    (stands : Stands line ret (wrap (.exec before) redirs')) :
    Outcome (fun ret' s' => ∃ used rest args redirs, ts = used ++ rest ∧ At line s' rest ∧
      Words used args redirs ∧ argc + args.length < maxargs ∧
      Stands line ret' (wrap (.exec (before ++ args)) (redirs' ++ redirs)))
      (parseargs line passes argc ret s) := by
  induction passes generalizing s ts argc ret before redirs' with
  | zero => omega
  | succ passes ih =>
      by_cases follow : Follow .exec ts
      · rcases parseargs_stop plain here follow with ⟨s', run, here'⟩
        rw [run]
        exact .ok ⟨[], ts, [], [], rfl, here', .nil, few, by simpa using stands⟩
      · cases ts with
        | nil => exact absurd (.inl rfl) follow
        | cons t ts =>
            by_cases hasText : ∃ text, t = .word text
            · rcases hasText with ⟨text, rfl⟩
              rcases parseargs_word plain here with ⟨arg, s', span, here', run⟩
              rw [run]
              split
              · exact .panic _
              · rename_i notTooMany
                rw [List.length_cons] at enough
                have short : ts.length < maxPasses line := Nat.lt_succ_of_le here'.length
                have stands' := stands.addArg span
                rw [addArg_wrap] at stands'
                refine (parseredirs_sound plain here' short stands').bind ?_
                rintro ret' s₁ ⟨used, rest, redirs, rfl, here'', derives, stands''⟩
                rw [wrap_append] at stands''
                rw [List.length_append] at enough
                refine (ih here'' (by omega) (by omega) stands'').mono ?_
                rintro cmd s₂ ⟨used', rest', args, redirs'', rfl, last, words, few', stands₂⟩
                refine ⟨.word text :: used ++ used', rest', text :: args, redirs ++ redirs'', by simp,
                  last, .cons derives words, ?_, ?_⟩
                · rw [List.length_cons]
                  omega
                · simpa using stands₂
            · push Not at hasText
              rw [parseargs_panic plain here hasText follow]
              exact .panic _

/-! ## The other functions -/

/-- `peek` for one symbol, and `gettoken` after it. -/
theorem peek_one {c : Char} (plain : ∀ c ∈ line, c ≠ '\x00') (here : At line s ts)
    (isSymbol : c ∈ symbols) (notGreater : c ≠ '>') :
    (∃ us s', ts = .sym c :: us ∧ peek line [c] s = (true, s') ∧ At line s' ts ∧
      At line (gettoken line s').s us) ∨
    starts [c] ts = false ∧ ∃ s', peek line [c] s = (false, s') ∧ At line s' ts := by
  have sub : [c] ⊆ symbols := List.cons_subset.mpr ⟨isSymbol, List.nil_subset _⟩
  rcases peek_spec here plain sub with ⟨s', peeked, here'⟩
  cases begins : starts [c] ts with
  | false => exact .inr ⟨rfl, s', begins ▸ peeked, here'⟩
  | true =>
      cases ts with
      | nil => cases begins
      | cons t us =>
          have next := (gettoken_cons here' plain).rest
          cases t with
          | sym c' =>
              have same : c' = c := by simpa [starts] using begins
              subst same
              exact .inl ⟨us, s', rfl, begins ▸ peeked, here', next⟩
          | append =>
              have same : '>' = c := by simpa [starts] using begins
              exact absurd same.symm notGreater
          | word text => cases begins

theorem parsebacks_spec (plain : ∀ c ∈ line, c ≠ '\x00') (backs : ℕ)
    (here : At line s (List.replicate backs (.sym '&') ++ rest)) (stops : starts ['&'] rest = false)
    (enough : backs < passes) (stands : Stands line cmd tree) :
    ∃ cmd' s', parsebacks line passes cmd s = .ok (cmd', s') ∧ At line s' rest ∧
      Stands line cmd' (.back^[backs] tree) := by
  induction backs generalizing s passes cmd tree with
  | zero =>
      rcases Nat.exists_eq_succ_of_ne_zero (by omega : passes ≠ 0) with ⟨passes, rfl⟩
      rcases peek_one plain here (by decide : '&' ∈ symbols) (by decide) with
        ⟨us, s', rfl, -⟩ | ⟨-, s', peeked, here'⟩
      · cases stops
      · refine ⟨cmd, s', ?_, here', stands⟩
        unfold parsebacks
        rw [peeked]
        rfl
  | succ backs ih =>
      rcases Nat.exists_eq_succ_of_ne_zero (by omega : passes ≠ 0) with ⟨passes, rfl⟩
      rcases peek_one plain here (by decide : '&' ∈ symbols) (by decide) with
        ⟨us, s', split, peeked, -, here'⟩ | ⟨none, -⟩
      · cases split
        have less : backs < passes := by omega
        rcases ih here' less (.back stands) with ⟨cmd', s'', run, here'', stands'⟩
        refine ⟨cmd', s'', ?_, here'', stands'⟩
        unfold parsebacks
        rw [peeked]
        exact run
      · cases none

theorem split_backs (ts : List Token) :
    ∃ backs rest, ts = List.replicate backs (.sym '&') ++ rest ∧ starts ['&'] rest = false := by
  induction ts with
  | nil => exact ⟨0, [], rfl, rfl⟩
  | cons t ts ih =>
      by_cases isBack : t = .sym '&'
      · rcases ih with ⟨backs, rest, rfl, stops⟩
        exact ⟨backs + 1, rest, by rw [isBack]; rfl, stops⟩
      · refine ⟨0, t :: ts, rfl, ?_⟩
        cases t with
        | sym c => simpa [starts] using fun same => isBack (congrArg _ same)
        | append => rfl
        | word text => rfl

/-- The command that is returned is derived from the tokens that are taken. -/
def Sound (line : List Char) (n : Nonterminal) (ts : List Token)
    (result : Except Fault (Cmd (ℕ × ℕ) × ℕ)) : Prop :=
  Outcome (fun cmd s' => ∃ used rest tree, ts = used ++ rest ∧ At line s' rest ∧
    Derives n used tree ∧ Stands line cmd tree) result

/-- The functions are sound if so many calls may be nested. -/
structure Parses (line : List Char) (calls : ℕ) : Prop where
  lines : ∀ s ts, At line s ts → 4 * ts.length + 4 ≤ calls → Sound line .line ts (parseline line calls s)
  pipes : ∀ s ts, At line s ts → 4 * ts.length + 3 ≤ calls → Sound line .pipe ts (parsepipe line calls s)
  execs : ∀ s ts, At line s ts → 4 * ts.length + 2 ≤ calls → Sound line .exec ts (parseexec line calls s)
  blocks : ∀ s ts, At line s (.sym '(' :: ts) → 4 * ts.length + 5 ≤ calls →
    Sound line .exec (.sym '(' :: ts) (parseblock line calls s)

theorem Parses.parseline (parses : Parses line calls) (plain : ∀ c ∈ line, c ≠ '\x00')
    (here : At line s ts) (enough : 4 * ts.length + 4 ≤ calls + 1) :
    Sound line .line ts (parseline line (calls + 1) s) := by
  rw [Shell.parseline]
  refine (parses.pipes s ts here (by omega)).bind ?_
  rintro cmd s₁ ⟨used, left, tree, rfl, here₁, pipe, stands⟩
  rcases split_backs left with ⟨backs, rest, rfl, stops⟩
  have short : backs < maxPasses line := by simpa using here₁.passes
  rcases parsebacks_spec plain backs here₁ stops short stands with ⟨cmd', s₂, run, here₂, stands'⟩
  dsimp only
  rw [run, bind_ok]
  dsimp only
  rcases peek_one plain here₂ (by decide : ';' ∈ symbols) (by decide) with
    ⟨us, s₃, rfl, peeked, -, here₃⟩ | ⟨-, s₃, peeked, here₃⟩
  · rw [peeked]
    simp only [List.length_append, List.length_cons] at enough
    refine (parses.lines _ us here₃ (by omega)).bind ?_
    rintro right s₄ ⟨used', rest, tree', rfl, here₄, line', stands''⟩
    exact .ok ⟨_, rest, _, by simp, here₄, .list backs pipe line', .list stands' stands''⟩
  · rw [peeked]
    exact .ok ⟨_, rest, _, by simp, here₃, .line backs pipe, stands'⟩

theorem Parses.parsepipe (parses : Parses line calls) (plain : ∀ c ∈ line, c ≠ '\x00')
    (here : At line s ts) (enough : 4 * ts.length + 3 ≤ calls + 1) :
    Sound line .pipe ts (parsepipe line (calls + 1) s) := by
  rw [Shell.parsepipe]
  refine (parses.execs s ts here (by omega)).bind ?_
  rintro cmd s₁ ⟨used, left, tree, rfl, here₁, exec, stands⟩
  dsimp only
  rcases peek_one plain here₁ (by decide : '|' ∈ symbols) (by decide) with
    ⟨us, s₂, rfl, peeked, -, here₂⟩ | ⟨-, s₂, peeked, here₂⟩
  · rw [peeked]
    simp only [List.length_append, List.length_cons] at enough
    refine (parses.pipes _ us here₂ (by omega)).bind ?_
    rintro right s₃ ⟨used', rest, tree', rfl, here₃, pipe, stands'⟩
    exact .ok ⟨_, rest, _, by simp, here₃, .pipe exec pipe, .pipe stands stands'⟩
  · rw [peeked]
    exact .ok ⟨used, left, tree, rfl, here₂, .last exec, stands⟩

theorem Parses.parseblock (parses : Parses line calls) (plain : ∀ c ∈ line, c ≠ '\x00')
    (here : At line s (.sym '(' :: ts)) (enough : 4 * ts.length + 5 ≤ calls + 1) :
    Sound line .exec (.sym '(' :: ts) (parseblock line (calls + 1) s) := by
  rw [Shell.parseblock]
  rcases peek_one plain here (by decide : '(' ∈ symbols) (by decide) with
    ⟨us, s₁, split, peeked, -, here₁⟩ | ⟨none, -⟩
  · cases split
    rw [peeked]
    dsimp only
    rw [if_neg (by simp)]
    refine (parses.lines _ ts here₁ (by omega)).bind ?_
    rintro cmd s₂ ⟨used, left, tree, rfl, here₂, line', stands⟩
    dsimp only
    rcases peek_one plain here₂ (by decide : ')' ∈ symbols) (by decide) with
      ⟨us, s₃, rfl, peeked', -, here₃⟩ | ⟨-, s₃, peeked', -⟩
    · rw [peeked']
      dsimp only
      rw [if_neg (by simp)]
      have short : us.length < maxPasses line := Nat.lt_succ_of_le here₃.length
      refine (parseredirs_sound plain here₃ short stands).mono ?_
      rintro cmd' s₄ ⟨used', rest, redirs, rfl, here₄, after, stands'⟩
      exact ⟨_, rest, _, by simp, here₄, .block line' after, stands'⟩
    · rw [peeked']
      exact .panic _
  · cases none

theorem Parses.parseexec (parses : Parses line calls) (plain : ∀ c ∈ line, c ≠ '\x00')
    (here : At line s ts) (enough : 4 * ts.length + 2 ≤ calls + 1) :
    Sound line .exec ts (parseexec line (calls + 1) s) := by
  rw [Shell.parseexec]
  rcases peek_one plain here (by decide : '(' ∈ symbols) (by decide) with
    ⟨us, s₁, rfl, peeked, here₁, -⟩ | ⟨-, s₁, peeked, here₁⟩
  · rw [peeked]
    rw [List.length_cons] at enough
    exact parses.blocks s₁ us here₁ (by omega)
  · rw [peeked]
    have short : ts.length < maxPasses line := Nat.lt_succ_of_le here₁.length
    have empty : Stands line (.exec []) (wrap (.exec []) []) := .exec .nil
    refine (parseredirs_sound plain here₁ short empty).bind ?_
    rintro ret s₂ ⟨used, left, redirs, rfl, here₂, before, stands⟩
    rw [wrap_append] at stands
    rw [List.length_append] at short
    refine (parseargs_sound plain here₂ (by decide) (by omega) stands).mono ?_
    rintro cmd s₃ ⟨used', rest, args, redirs', rfl, here₃, words, few, stands'⟩
    refine ⟨used ++ used', rest, _, by simp, here₃, .simple before words (by omega), ?_⟩
    simpa using stands'

theorem parses (plain : ∀ c ∈ line, c ≠ '\x00') (calls : ℕ) : Parses line calls := by
  induction calls with
  | zero =>
      refine ⟨fun s ts _ enough => ?_, fun s ts _ enough => ?_, fun s ts _ enough => ?_,
        fun s ts _ enough => ?_⟩
      all_goals omega
  | succ calls ih =>
      exact ⟨fun s ts here enough => ih.parseline plain here enough,
        fun s ts here enough => ih.parsepipe plain here enough,
        fun s ts here enough => ih.parseexec plain here enough,
        fun s ts here enough => ih.parseblock plain here enough⟩

/-! ## All lines of the grammar are accepted -/

theorem Follow.mono {m : Nonterminal} (follow : Follow n rest) (sub : followers n ⊆ followers m) :
    Follow m rest := by
  rcases follow with rfl | ⟨c, ts, rfl, member⟩
  · exact .inl rfl
  · exact .inr ⟨c, ts, rfl, sub member⟩

theorem follow_backs (backs : ℕ) (follow : Follow .pipe rest) :
    Follow .pipe (List.replicate backs (.sym '&') ++ rest) := by
  cases backs with
  | zero => exact follow
  | succ backs => exact .inr ⟨'&', _, rfl, by simp [followers]⟩

theorem Redirs.starts (derives : Redirs used redirs) (none : starts ['('] rest = false) :
    starts ['('] (used ++ rest) = false := by
  cases derives with
  | nil => exact none
  | cons operator =>
      cases operator
      · rfl
      · rfl
      · rfl

theorem Words.notBlock (words : Words used args redirs) (follow : Follow .exec rest) :
    Shell.starts ['('] (used ++ rest) = false := by
  cases words with
  | nil => exact follow.starts (by simp [followers])
  | cons => rfl

/-- The function for a nonterminal. -/
def parse : Nonterminal → List Char → ℕ → ℕ → Except Fault (Cmd (ℕ × ℕ) × ℕ)
  | .line => parseline
  | .pipe => parsepipe
  | .exec => parseexec

/-- The number of calls that are nested if no token is left. -/
def needed : Nonterminal → ℕ
  | .line => 4
  | .pipe => 3
  | .exec => 2

/-- What is derived is taken, and the command stands for the tree. -/
def Complete (line : List Char) (n : Nonterminal) (used : List Token) (tree : Cmd Text) : Prop :=
  ∀ s rest calls, At line s (used ++ rest) → Follow n rest → 4 * (used ++ rest).length + needed n ≤ calls →
    ∃ cmd s', parse n line calls s = .ok (cmd, s') ∧ At line s' rest ∧ Stands line cmd tree

theorem complete_line (plain : ∀ c ∈ line, c ≠ '\x00') (backs : ℕ) (pipe : Complete line .pipe ts tree) :
    Complete line .line (ts ++ List.replicate backs (.sym '&')) (.back^[backs] tree) := by
  intro s rest calls here follow enough
  rw [List.append_assoc] at here enough
  simp only [needed] at enough
  rcases Nat.exists_eq_succ_of_ne_zero (by omega : calls ≠ 0) with ⟨calls, rfl⟩
  have follow' : Follow .pipe rest := follow.mono (by simp [followers])
  rcases pipe _ _ calls here (follow_backs backs follow') (by simp only [needed]; omega) with
    ⟨cmd, s₁, run, here₁, stands⟩
  have short : backs < maxPasses line := by simpa using here₁.passes
  rcases parsebacks_spec plain backs here₁ (follow.starts (by simp [followers])) short stands with
    ⟨cmd', s₂, run', here₂, stands'⟩
  have noList : starts [';'] rest = false := follow.starts (by simp [followers])
  rcases peek_one plain here₂ (by decide : ';' ∈ symbols) (by decide) with
    ⟨us, s₃, rfl, -⟩ | ⟨-, s₃, peeked, here₃⟩
  · cases noList
  · refine ⟨cmd', s₃, ?_, here₃, stands'⟩
    change parseline line (calls + 1) s = _
    change parsepipe line calls s = _ at run
    rw [Shell.parseline, run, bind_ok]
    dsimp only
    rw [run', bind_ok]
    dsimp only
    rw [peeked]
    rfl

theorem complete_list (plain : ∀ c ∈ line, c ≠ '\x00') (backs : ℕ) (pipe : Complete line .pipe ts tree)
    (more : Complete line .line us tree') :
    Complete line .line (ts ++ List.replicate backs (.sym '&') ++ .sym ';' :: us)
      (.list (.back^[backs] tree) tree') := by
  intro s rest calls here follow enough
  simp only [List.append_assoc, List.cons_append] at here enough
  simp only [needed] at enough
  rcases Nat.exists_eq_succ_of_ne_zero (by omega : calls ≠ 0) with ⟨calls, rfl⟩
  have follow' : Follow .pipe (Token.sym ';' :: (us ++ rest)) := .inr ⟨';', _, rfl, by simp [followers]⟩
  rcases pipe _ _ calls here (follow_backs backs follow') (by simp only [needed]; omega) with
    ⟨cmd, s₁, run, here₁, stands⟩
  have short : backs < maxPasses line := by simpa using here₁.passes
  simp only [List.length_append, List.length_cons, List.length_replicate] at enough
  rcases parsebacks_spec plain backs here₁ rfl short stands with ⟨cmd', s₂, run', here₂, stands'⟩
  rcases peek_one plain here₂ (by decide : ';' ∈ symbols) (by decide) with
    ⟨vs, s₃, same, peeked, -, here₃⟩ | ⟨none, -⟩
  · cases same
    have enough' : 4 * (us ++ rest).length + 4 ≤ calls := by
      rw [List.length_append]
      omega
    rcases more _ _ calls here₃ follow enough' with ⟨cmd'', s₄, run'', here₄, stands''⟩
    refine ⟨.list cmd' cmd'', s₄, ?_, here₄, .list stands' stands''⟩
    change parseline line (calls + 1) s = _
    change parsepipe line calls s = _ at run
    change parseline line calls _ = _ at run''
    rw [Shell.parseline, run, bind_ok]
    dsimp only
    rw [run', bind_ok]
    dsimp only
    rw [peeked]
    dsimp only
    rw [if_pos rfl, run'', bind_ok]
    rfl
  · cases none

theorem complete_last (plain : ∀ c ∈ line, c ≠ '\x00') (exec : Complete line .exec ts tree) :
    Complete line .pipe ts tree := by
  intro s rest calls here follow enough
  simp only [needed] at enough
  rcases Nat.exists_eq_succ_of_ne_zero (by omega : calls ≠ 0) with ⟨calls, rfl⟩
  have follow' : Follow .exec rest := follow.mono (by simp [followers])
  rcases exec _ _ calls here follow' (by simp only [needed]; omega) with ⟨cmd, s₁, run, here₁, stands⟩
  have noPipe : starts ['|'] rest = false := follow.starts (by simp [followers])
  rcases peek_one plain here₁ (by decide : '|' ∈ symbols) (by decide) with
    ⟨us, s₂, rfl, -⟩ | ⟨-, s₂, peeked, here₂⟩
  · cases noPipe
  · refine ⟨cmd, s₂, ?_, here₂, stands⟩
    change parsepipe line (calls + 1) s = _
    change parseexec line calls s = _ at run
    rw [Shell.parsepipe, run, bind_ok]
    dsimp only
    rw [peeked]
    rfl

theorem complete_pipe (plain : ∀ c ∈ line, c ≠ '\x00') (exec : Complete line .exec ts tree)
    (more : Complete line .pipe us tree') :
    Complete line .pipe (ts ++ .sym '|' :: us) (.pipe tree tree') := by
  intro s rest calls here follow enough
  simp only [List.append_assoc, List.cons_append] at here enough
  simp only [needed] at enough
  rcases Nat.exists_eq_succ_of_ne_zero (by omega : calls ≠ 0) with ⟨calls, rfl⟩
  have follow' : Follow .exec (Token.sym '|' :: (us ++ rest)) := .inr ⟨'|', _, rfl, by simp [followers]⟩
  rcases exec _ _ calls here follow' (by simp only [needed]; omega) with ⟨cmd, s₁, run, here₁, stands⟩
  rw [List.length_append, List.length_cons] at enough
  rcases peek_one plain here₁ (by decide : '|' ∈ symbols) (by decide) with
    ⟨vs, s₂, same, peeked, -, here₂⟩ | ⟨none, -⟩
  · cases same
    rcases more _ _ calls here₂ follow (by simp only [needed]; omega) with ⟨cmd', s₃, run', here₃, stands'⟩
    refine ⟨.pipe cmd cmd', s₃, ?_, here₃, .pipe stands stands'⟩
    change parsepipe line (calls + 1) s = _
    change parseexec line calls s = _ at run
    change parsepipe line calls _ = _ at run'
    rw [Shell.parsepipe, run, bind_ok]
    dsimp only
    rw [peeked]
    dsimp only
    rw [if_pos rfl, run', bind_ok]
    rfl
  · cases none

theorem complete_block (plain : ∀ c ∈ line, c ≠ '\x00') (more : Complete line .line ts tree)
    (after : Redirs us redirs) :
    Complete line .exec (.sym '(' :: ts ++ .sym ')' :: us) (wrap tree redirs) := by
  intro s rest calls here follow enough
  simp only [List.append_assoc, List.cons_append] at here enough
  simp only [needed, List.length_cons] at enough
  rcases Nat.exists_eq_succ_of_ne_zero (by omega : calls ≠ 0) with ⟨calls, rfl⟩
  rcases Nat.exists_eq_succ_of_ne_zero (by omega : calls ≠ 0) with ⟨calls, rfl⟩
  rcases peek_one plain here (by decide : '(' ∈ symbols) (by decide) with
    ⟨vs, s₁, same, peeked, here₁, -⟩ | ⟨none, -⟩
  · cases same
    rcases peek_one plain here₁ (by decide : '(' ∈ symbols) (by decide) with
      ⟨vs, s₂, same, peeked', -, here₂⟩ | ⟨none, -⟩
    · cases same
      have follow' : Follow .line (Token.sym ')' :: (us ++ rest)) :=
        .inr ⟨')', _, rfl, by simp [followers]⟩
      rcases more _ _ calls here₂ follow' (by simp only [needed]; omega) with ⟨cmd, s₃, run, here₃, stands⟩
      rcases peek_one plain here₃ (by decide : ')' ∈ symbols) (by decide) with
        ⟨vs, s₄, same, peeked'', -, here₄⟩ | ⟨none, -⟩
      · cases same
        have stops : starts ['<', '>'] rest = false := follow.starts (by simp [followers])
        rcases parseredirs_complete plain after here₄ stops here₄.passes stands with
          ⟨cmd', s₅, run', here₅, stands'⟩
        refine ⟨cmd', s₅, ?_, here₅, stands'⟩
        change parseexec line (calls + 1 + 1) s = _
        change parseline line calls _ = _ at run
        rw [Shell.parseexec, peeked]
        dsimp only
        rw [if_pos rfl, Shell.parseblock, peeked']
        dsimp only
        rw [if_neg (by simp), run, bind_ok]
        dsimp only
        rw [peeked'']
        exact run'
      · cases none
    · cases none
  · cases none

theorem complete_simple (plain : ∀ c ∈ line, c ≠ '\x00') (before : Redirs ts redirs)
    (words : Words us args redirs') (few : args.length < maxargs) :
    Complete line .exec (ts ++ us) (wrap (.exec args) (redirs ++ redirs')) := by
  intro s rest calls here follow enough
  simp only [List.append_assoc] at here enough
  simp only [needed] at enough
  rcases Nat.exists_eq_succ_of_ne_zero (by omega : calls ≠ 0) with ⟨calls, rfl⟩
  have noBlock := before.starts (words.notBlock follow)
  rcases peek_one plain here (by decide : '(' ∈ symbols) (by decide) with
    ⟨vs, s₁, same, -⟩ | ⟨-, s₁, peeked, here₁⟩
  · rw [same] at noBlock
    cases noBlock
  · have empty : Stands line (.exec []) (wrap (.exec []) []) := .exec .nil
    rcases parseredirs_complete plain before here₁ (words.starts follow) here₁.passes empty with
      ⟨ret, s₂, run, here₂, stands⟩
    rw [wrap_append, List.nil_append] at stands
    have few' : 0 + args.length < maxargs := by omega
    rcases parseargs_complete plain words here₂ follow few' here₂.passes stands with
      ⟨ret', s₃, run', here₃, stands'⟩
    refine ⟨ret', s₃, ?_, here₃, stands'⟩
    change parseexec line (calls + 1) s = _
    rw [Shell.parseexec, peeked]
    dsimp only
    rw [if_neg Bool.false_ne_true, run, bind_ok]
    exact run'

theorem Derives.complete (plain : ∀ c ∈ line, c ≠ '\x00') (derives : Derives n used tree) :
    Complete line n used tree := by
  induction derives with
  | line backs _ pipe => exact complete_line plain backs pipe
  | list backs _ _ pipe more => exact complete_list plain backs pipe more
  | last _ exec => exact complete_last plain exec
  | pipe _ _ exec more => exact complete_pipe plain exec more
  | block _ after more => exact complete_block plain more after
  | simple before words few => exact complete_simple plain before words few

end Xv6.Shell
