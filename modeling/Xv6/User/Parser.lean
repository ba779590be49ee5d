import Xv6.User.Grammar

/-!
# The strings of a command

`nulterminate` writes a NUL after each string of the command. Those places are not in any word, so that
each string is then its word.
-/

namespace Xv6.Shell

open Fallible

/-- The C string at `q`. -/
def cstring (mem : List Char) (q : ℕ) : Text := (mem.drop q).takeWhile fun c => c ≠ '\x00'

/-- The command with its strings in place of the pointers. -/
def Cmd.map {α β : Type} (f : α → β) : Cmd α → Cmd β
  | .exec argv => .exec (argv.map f)
  | .redir cmd file mode fd => .redir (cmd.map f) (f file) mode fd
  | .pipe left right => .pipe (left.map f) (right.map f)
  | .list left right => .list (left.map f) (right.map f)
  | .back cmd => .back (cmd.map f)

def strings (mem : List Char) (cmd : Cmd (ℕ × ℕ)) : Cmd Text := cmd.map fun arg => cstring mem arg.1

/-- All strings of a command. -/
def Cmd.args {α : Type} : Cmd α → List α
  | .exec argv => argv
  | .redir cmd file _ _ => cmd.args ++ [file]
  | .pipe left right => left.args ++ right.args
  | .list left right => left.args ++ right.args
  | .back cmd => cmd.args

variable {line mem : List Char} {s q i stop : ℕ} {arg : ℕ × ℕ} {cmd : Cmd (ℕ × ℕ)} {tree : Cmd Text}
  {text : Text} {c : Char}

/-! ## C strings -/

theorem cstring_nul (isNul : charAt mem q = '\x00') : cstring mem q = [] := by
  rw [charAt_eq] at isNul
  unfold cstring
  cases rest : mem.drop q with
  | nil => rfl
  | cons c cs =>
      rw [rest] at isNul
      rw [List.takeWhile_cons_of_neg (by simpa using isNul)]

theorem cstring_cons (notNul : charAt mem q ≠ '\x00') :
    cstring mem q = charAt mem q :: cstring mem (q + 1) := by
  rw [charAt_eq] at *
  unfold cstring
  cases rest : mem.drop q with
  | nil =>
      rw [rest] at notNul
      exact absurd rfl notNul
  | cons c cs =>
      rw [rest, List.headD_cons] at notNul
      rw [drop_succ rest, List.headD_cons, List.takeWhile_cons_of_pos (by simpa using notNul)]

/-- A word is a C string if it is kept and ends with a NUL. -/
theorem cstring_word (plain : ∀ c ∈ line, c ≠ '\x00') (split : line.drop q = text ++ line.drop stop)
    (length : stop = q + text.length) (isWord : ∀ c ∈ text, ordinary c = true)
    (kept : ∀ i c, (line.drop i).head? = some c → ordinary c = true → charAt mem i = c)
    (isNul : charAt mem stop = '\x00') : cstring mem q = text := by
  induction text generalizing q with
  | nil =>
      rw [List.length_nil, Nat.add_zero] at length
      exact cstring_nul (length ▸ isNul)
  | cons c text ih =>
      have inRest : c ∈ line.drop q := by
        rw [split]
        exact List.mem_cons_self
      have notNul := plain c (List.mem_of_mem_drop inRest)
      have isChar := kept q c (by rw [split]; rfl) (isWord c List.mem_cons_self)
      rw [List.length_cons] at length
      have rest := ih (drop_succ split) (by omega) fun c member => isWord c (List.mem_cons_of_mem _ member)
      rw [cstring_cons (isChar ▸ notNul), isChar, rest]

/-! ## `nulterminate` -/

theorem charAt_set (mem : List Char) (q i : ℕ) :
    charAt (mem.set q '\x00') i = if i = q then '\x00' else charAt mem i := by
  unfold charAt
  rw [List.getD_eq_getElem?_getD, List.getD_eq_getElem?_getD, List.getElem?_set]
  by_cases same : q = i
  · subst same
    rw [if_pos rfl, if_pos rfl]
    split
    · rfl
    · rfl
  · rw [if_neg same, if_neg (Ne.symm same)]

theorem charAt_foldl (args : List (ℕ × ℕ)) (mem : List Char) (i : ℕ) :
    charAt (args.foldl (fun mem arg => mem.set arg.2 '\x00') mem) i =
      if i ∈ args.map Prod.snd then '\x00' else charAt mem i := by
  induction args generalizing mem with
  | nil => rfl
  | cons arg args ih =>
      rw [List.foldl_cons, ih, charAt_set, List.map_cons]
      by_cases later : i ∈ args.map Prod.snd
      · rw [if_pos later, if_pos (List.mem_cons_of_mem _ later)]
      · rw [if_neg later]
        simp only [List.mem_cons, later, or_false]

theorem nulterminate_eq (cmd : Cmd (ℕ × ℕ)) (mem : List Char) :
    nulterminate cmd mem = cmd.args.foldl (fun mem arg => mem.set arg.2 '\x00') mem := by
  induction cmd generalizing mem with
  | exec argv => rfl
  | redir cmd file mode fd ih =>
      rw [nulterminate, Cmd.args, List.foldl_append, ih]
      rfl
  | pipe left right ih ih' => rw [nulterminate, Cmd.args, List.foldl_append, ih, ih']
  | list left right ih ih' => rw [nulterminate, Cmd.args, List.foldl_append, ih, ih']
  | back cmd ih => rw [nulterminate, Cmd.args, ih]

/-- `nulterminate` writes after the strings. -/
theorem charAt_nulterminate (cmd : Cmd (ℕ × ℕ)) (mem : List Char) (i : ℕ) :
    charAt (nulterminate cmd mem) i =
      if i ∈ cmd.args.map Prod.snd then '\x00' else charAt mem i := by
  rw [nulterminate_eq, charAt_foldl]

theorem Stands.span (stands : Stands line cmd tree) (member : arg ∈ cmd.args) :
    ∃ text, Span line arg text := by
  induction stands with
  | exec spans =>
      rcases List.forall₂_iff_get.mp spans with ⟨length, each⟩
      rcases List.mem_iff_get.mp member with ⟨i, rfl⟩
      exact ⟨_, each i i.isLt (length ▸ i.isLt)⟩
  | redir inner span ih =>
      rcases List.mem_append.mp member with inside | isFile
      · exact ih inside
      · exact ⟨_, List.mem_singleton.mp isFile ▸ span⟩
  | pipe first second ih ih' =>
      rcases List.mem_append.mp member with inside | inside
      · exact ih inside
      · exact ih' inside
  | list first second ih ih' =>
      rcases List.mem_append.mp member with inside | inside
      · exact ih inside
      · exact ih' inside
  | back inner ih => exact ih member

theorem Stands.map (stands : Stands line cmd tree) (f : ℕ × ℕ → Text)
    (each : ∀ arg ∈ cmd.args, ∀ text, Span line arg text → f arg = text) : cmd.map f = tree := by
  induction stands with
  | exec spans =>
      refine congrArg Cmd.exec ?_
      induction spans with
      | nil => rfl
      | cons span spans ih =>
          rw [List.map_cons, each _ List.mem_cons_self _ span,
            ih fun arg member => each arg (List.mem_cons_of_mem _ member)]
  | redir inner span ih =>
      rw [Cmd.map, ih fun arg member => each arg (List.mem_append_left _ member),
        each _ (List.mem_append_right _ List.mem_cons_self) _ span]
  | pipe first second ih ih' =>
      rw [Cmd.map, ih fun arg member => each arg (List.mem_append_left _ member),
        ih' fun arg member => each arg (List.mem_append_right _ member)]
  | list first second ih ih' =>
      rw [Cmd.map, ih fun arg member => each arg (List.mem_append_left _ member),
        ih' fun arg member => each arg (List.mem_append_right _ member)]
  | back inner ih => rw [Cmd.map, ih each]

/-- After `nulterminate` the strings of each part of the command are those of its tree. -/
theorem Stands.strings_part {whole : Cmd (ℕ × ℕ)} {wholeTree : Cmd Text}
    (plain : ∀ c ∈ line, c ≠ '\x00') (all : Stands line whole wholeTree)
    (stands : Stands line cmd tree) (part : cmd.args ⊆ whole.args) :
    Shell.strings (nulterminate whole (line ++ ['\x00'])) cmd = tree := by
  refine stands.map _ fun arg member text span => ?_
  refine cstring_word plain span.split span.stop span.isWord (fun i c isHead isOrdinary => ?_) ?_
  · have notEnd : i ∉ whole.args.map Prod.snd := by
      intro isEnd
      rcases List.mem_map.mp isEnd with ⟨other, member', rfl⟩
      rcases all.span member' with ⟨text', span'⟩
      rw [span'.boundary c isHead] at isOrdinary
      cases isOrdinary
    rw [charAt_nulterminate, if_neg notEnd]
    have inLine : (line)[i]? = some c := by rw [← List.head?_drop, isHead]
    unfold charAt
    rw [List.getD_eq_getElem?_getD, List.getElem?_append_left, inLine]
    · rfl
    · exact (List.getElem?_eq_some_iff.mp inLine).1
  · rw [charAt_nulterminate, if_pos (List.mem_map_of_mem (part member))]

theorem Stands.strings (plain : ∀ c ∈ line, c ≠ '\x00') (stands : Stands line cmd tree) :
    strings (nulterminate cmd (line ++ ['\x00'])) cmd = tree :=
  stands.strings_part plain stands (List.Subset.refl _)

/-! ## `parsecmd` -/

theorem At.ends (here : At line s []) (plain : ∀ c ∈ line, c ≠ '\x00') :
    scan blank line s = line.length := by
  have inside := here.skip.inside
  rcases here.next plain with ⟨rest, -⟩ | ⟨c, cs, -, notBlank, -, -, none⟩
  · have short := List.drop_eq_nil_iff.mp rest
    omega
  · exact absurd none (tokens_ne_nil notBlank)

theorem parsecmd_eq (line : List Char) :
    parsecmd line = parseline line (maxCalls line) 0 >>= fun result =>
      if scan blank line result.2 ≠ line.length then .error (.panic "syntax")
      else .ok (result.1, nulterminate result.1 (line ++ ['\x00'])) := rfl

theorem at_zero (line : List Char) : At line 0 (tokens line) := ⟨rfl, Nat.zero_le _⟩

theorem enough_calls (line : List Char) : 4 * (tokens line).length + 4 ≤ maxCalls line := by
  have atMost := (at_zero line).length
  unfold maxCalls
  omega

theorem parsecmd_sound (plain : ∀ c ∈ line, c ≠ '\x00') :
    (∃ message, parsecmd line = .error (.panic message)) ∨
      ∃ cmd mem, parsecmd line = .ok (cmd, mem) ∧ Derives .line (tokens line) (strings mem cmd) := by
  have sound := (parses plain (maxCalls line)).lines 0 (tokens line) (at_zero line) (enough_calls line)
  rw [parsecmd_eq]
  generalize parseline line (maxCalls line) 0 = result at sound
  cases sound with
  | panic message => exact .inl ⟨message, rfl⟩
  | @ok cmd s holds =>
      rcases holds with ⟨used, rest, tree, split, here, derives, stands⟩
      rw [bind_ok]
      dsimp only
      split
      · exact .inl ⟨_, rfl⟩
      · rename_i atEnd
        refine .inr ⟨cmd, _, rfl, ?_⟩
        have noRest : rest = [] := by
          rw [← here.skip.left, not_not.mp atEnd, List.drop_length]
          rfl
        rw [noRest, List.append_nil] at split
        rw [stands.strings plain, split]
        exact derives

theorem parsecmd_complete (plain : ∀ c ∈ line, c ≠ '\x00') (derives : Derives .line (tokens line) tree) :
    ∃ cmd mem, parsecmd line = .ok (cmd, mem) ∧ strings mem cmd = tree := by
  have here : At line 0 (tokens line ++ []) := by
    rw [List.append_nil]
    exact at_zero line
  have enough := enough_calls line
  rw [← List.append_nil (tokens line)] at enough
  rcases derives.complete plain _ _ _ here (.inl rfl) enough with ⟨cmd, s, run, here', stands⟩
  refine ⟨cmd, _, ?_, stands.strings plain⟩
  change parseline line (maxCalls line) 0 = _ at run
  rw [parsecmd_eq, run, bind_ok]
  dsimp only
  rw [if_neg (not_not.mpr (here'.ends plain))]

/-- `parsecmd` returns or calls `panic`. It returns for the lines of the grammar, and the strings of the
command are then those of the tree that the grammar gives. -/
theorem parsecmd_correct (plain : ∀ c ∈ line, c ≠ '\x00') :
    ((∃ result, parsecmd line = .ok result) ∨ ∃ message, parsecmd line = .error (.panic message)) ∧
      ∀ tree, Derives .line (tokens line) tree ↔
        ∃ cmd mem, parsecmd line = .ok (cmd, mem) ∧ strings mem cmd = tree := by
  have sound := parsecmd_sound plain
  refine ⟨?_, fun tree => ⟨fun derives => parsecmd_complete plain derives, ?_⟩⟩
  · rcases sound with ⟨message, run⟩ | ⟨cmd, mem, run, -⟩
    · exact .inr ⟨message, run⟩
    · exact .inl ⟨_, run⟩
  · rintro ⟨cmd, mem, run, rfl⟩
    rcases sound with ⟨message, run'⟩ | ⟨cmd', mem', run', derives⟩
    · rw [run] at run'
      cases run'
    · rw [run] at run'
      cases run'
      exact derives

/-- `a>b` -/
theorem parsecmd_correct_redirection :
    ∃ cmd mem, parsecmd ['a', '>', 'b'] = .ok (cmd, mem) ∧
      strings mem cmd = .redir (.exec [['a']]) ['b'] wronlyCreate 1 := by
  have words : Words [.word ['a'], .sym '>', .word ['b']] [['a']] [⟨['b'], wronlyCreate, 1⟩] :=
    .cons (.cons .output .nil) .nil
  have exec : Derives .exec [.word ['a'], .sym '>', .word ['b']]
      (.redir (.exec [['a']]) ['b'] wronlyCreate 1) := .simple .nil words (by decide)
  have plain : ∀ c ∈ ['a', '>', 'b'], c ≠ '\x00' := by simp
  exact ((parsecmd_correct plain).2 _).mp (.line 0 (.last exec))

end Xv6.Shell
