import Xv6.User.Parser

/-!
# The commands of the shell

`runcmd` of `sh.c`. Every process of a command has a history, the calls that it and the processes it
has been forked from have made. `runcmd` gives the histories of all processes, and what the system
answers to a call may depend on the history before it.
-/

namespace Xv6.Shell

open Fallible

/-- What a descriptor refers to. -/
inductive Target where
  /-- something that was open before -/
  | inherited (n : ℕ)
  | file (name : Text) (mode : ℕ)
  /-- an end of the pipe that is made after so many calls -/
  | pipe (write : Bool) (calls : ℕ)
  deriving DecidableEq

/-- The open files of a process, by descriptor. -/
abbrev Fds := List (Option Target)

inductive Event where
  | close (fd : ℕ)
  | open (file : Text) (mode fd : ℕ)
  | exec (argv : List Text) (fds : Fds)
  | pipe
  | dup (fd : ℕ)
  /-- `fork` in the parent -/
  | fork
  /-- `fork` in the child -/
  | child
  | wait
  /-- a message -/
  | print (words : List Text)
  | exit
  deriving DecidableEq

abbrev History := List Event

/-- What the system answers. -/
structure System where
  opens : History → Text → ℕ → Bool
  /-- whether any other call succeeds -/
  works : History → Bool

def Fds.close (fds : Fds) (fd : ℕ) : Fds := fds.set fd none

/-- A new descriptor is the lowest that is free. -/
def Fds.alloc (fds : Fds) (target : Option Target) : Option (ℕ × Fds) :=
  (fds.idxOf? none).map fun fd => (fd, fds.set fd target)

def Fds.dup (fds : Fds) (fd : ℕ) : Fds :=
  match fds.alloc (fds.getD fd none) with
  | some (_, fds) => fds
  | none => fds

def Fds.pipe (fds : Fds) (calls : ℕ) : Option (ℕ × ℕ × Fds) := do
  let (p₀, fds) ← fds.alloc (some (.pipe false calls))
  let (p₁, fds) ← fds.alloc (some (.pipe true calls))
  return (p₀, p₁, fds)

/-- The end of the history of a process that calls `panic`. -/
def panic (message : String) : History := [.print [message.toList], .exit]

variable (system : System)

/-- The child of `PIPE` that has the end `mine` of the pipe for `fd`. -/
def pipeChild (fds : Fds) (p₀ p₁ mine fd : ℕ) : Fds :=
  (((fds.close fd).dup mine).close p₀).close p₁

def runcmd : Cmd Text → Fds → History → List History
  | .exec argv, fds, past =>
      match argv with
      | [] => [past ++ [.exit]]
      | name :: _ =>
          if system.works past then [past ++ [.exec argv fds]]
          else [past ++ [.print ["exec".toList, name, "failed".toList], .exit]]
  | .redir cmd file mode fd, fds, past =>
      let fds := fds.close fd
      let past := past ++ [.close fd]
      match if system.opens past file mode then fds.alloc (some (.file file mode)) else none with
      | none => [past ++ [.print ["open".toList, file, "failed".toList], .exit]]
      | some (fd, fds) => runcmd cmd fds (past ++ [.open file mode fd])
  | .list left right, fds, past =>
      if system.works past then
        runcmd left fds (past ++ [.child]) ++ runcmd right fds (past ++ [.fork, .wait])
      else [past ++ panic "fork"]
  | .pipe left right, fds, past =>
      match if system.works past then fds.pipe past.length else none with
      | none => [past ++ panic "pipe"]
      | some (p₀, p₁, fds) =>
          let past := past ++ [.pipe]
          if system.works past then
            runcmd left (pipeChild fds p₀ p₁ p₁ 1)
              (past ++ [.child, .close 1, .dup p₁, .close p₀, .close p₁]) ++
            let past := past ++ [.fork]
            if system.works past then
              runcmd right (pipeChild fds p₀ p₁ p₀ 0)
                (past ++ [.child, .close 0, .dup p₀, .close p₀, .close p₁]) ++
              [past ++ [.fork, .close p₀, .close p₁, .wait, .wait, .exit]]
            else [past ++ panic "fork"]
          else [past ++ panic "fork"]
  | .back cmd, fds, past =>
      if system.works past then
        runcmd cmd fds (past ++ [.child]) ++ [past ++ [.fork, .exit]]
      else [past ++ panic "fork"]

/-! ## Descriptors 0 and 1 -/

/-- The standard input and output are open. -/
def Fds.Ready (fds : Fds) : Prop := ∃ input output rest, fds = some input :: some output :: rest

variable {system} {fds : Fds} {past : History} {tree inner cmd : Cmd Text} {redir : Redir}
  {redirs order : List Redir} {file : Text} {mode fd : ℕ}

/-- A standard descriptor that has been closed is the next one that is given out. -/
theorem Fds.Ready.alloc_close (ready : fds.Ready) (standard : fd < 2) (target : Option Target) :
    (fds.close fd).alloc target = some (fd, fds.set fd target) := by
  obtain ⟨input, output, rest, rfl⟩ := ready
  interval_cases fd
  · simp [close, alloc, List.idxOf?, List.findIdx?_cons]
  · simp [close, alloc, List.idxOf?, List.findIdx?_cons]

theorem Fds.Ready.set (ready : fds.Ready) (fd : ℕ) (target : Target) :
    Fds.Ready (List.set fds fd (some target)) := by
  obtain ⟨input, output, rest, rfl⟩ := ready
  rcases fd with _ | _ | fd
  · exact ⟨target, output, rest, rfl⟩
  · exact ⟨input, target, rest, rfl⟩
  · exact ⟨input, output, rest.set fd (some target), rfl⟩

theorem Fds.Ready.lt_length (ready : fds.Ready) (standard : fd < 2) : fd < fds.length := by
  obtain ⟨input, output, rest, rfl⟩ := ready
  simp only [List.length_cons]
  omega

/-! ## Redirections -/

/-- The calls of `runcmd` for a redirection. -/
def Redir.events (redir : Redir) : History :=
  [.close redir.fd, .open redir.file redir.mode redir.fd]

def Fds.redirect (fds : Fds) (redir : Redir) : Fds :=
  fds.set redir.fd (some (.file redir.file redir.mode))

/-- The redirections are of the standard descriptors, and their files can be opened. -/
def Openable (system : System) (redirs : List Redir) : Prop :=
  ∀ redir ∈ redirs, redir.fd < 2 ∧ ∀ past, system.opens past redir.file redir.mode = true

theorem runcmd_redir (ready : fds.Ready) (standard : fd < 2)
    (opens : system.opens (past ++ [.close fd]) file mode = true) :
    runcmd system (.redir cmd file mode fd) fds past =
      runcmd system cmd (fds.set fd (some (.file file mode)))
        (past ++ [.close fd, .open file mode fd]) := by
  rw [runcmd]
  simp only [opens, if_true, ready.alloc_close standard, List.append_assoc, List.singleton_append]

/-- The redirection around all others is made first. -/
theorem runcmd_wrap (redirs : List Redir) : ∀ {fds : Fds} {past : History}, fds.Ready →
    Openable system redirs →
    runcmd system (wrap inner redirs) fds past =
      runcmd system inner (redirs.reverse.foldl Fds.redirect fds)
        (past ++ redirs.reverse.flatMap Redir.events) := by
  induction redirs using List.reverseRecOn with
  | nil =>
      intro fds past ready openable
      rw [List.reverse_nil, List.flatMap_nil, List.append_nil]
      rfl
  | append_singleton redirs last ih =>
      intro fds past ready openable
      obtain ⟨standard, opens⟩ := openable last (by simp)
      have outside : wrap inner (redirs ++ [last]) =
          .redir (wrap inner redirs) last.file last.mode last.fd := by
        simp [wrap]
      have others : Openable system redirs :=
        fun redir member => openable redir (List.mem_append_left _ member)
      rw [outside, runcmd_redir ready standard (opens _), ih (ready.set _ _) others,
        List.reverse_append, List.append_assoc]
      rfl

theorem Fds.Ready.redirects (ready : fds.Ready) (order : List Redir) :
    Fds.Ready (order.foldl Fds.redirect fds) := by
  induction order generalizing fds with
  | nil => exact ready
  | cons redir order ih => exact ih (ready.set _ _)

/-- A descriptor refers to the file of the last redirection for it. -/
theorem getD_redirects (ready : fds.Ready) (order : List Redir)
    (standard : ∀ redir ∈ order, redir.fd < 2) (fd : ℕ) :
    (order.foldl Fds.redirect fds).getD fd none =
      match order.reverse.find? (fun redir => redir.fd = fd) with
      | some redir => some (.file redir.file redir.mode)
      | none => fds.getD fd none := by
  induction order using List.reverseRecOn with
  | nil => rfl
  | append_singleton order last ih =>
      have rest := ih fun redir member => standard redir (List.mem_append_left _ member)
      have inside := (ready.redirects order).lt_length (standard last (by simp))
      rw [List.foldl_append, List.foldl_cons, List.foldl_nil, List.reverse_append,
        List.reverse_singleton, List.singleton_append, List.find?_cons, Fds.redirect,
        List.getD_eq_getElem?_getD, List.getElem?_set]
      by_cases here : last.fd = fd
      · subst here
        simp [inside]
      · simp only [here, decide_false, if_false]
        rw [← List.getD_eq_getElem?_getD, rest]

/-- The files are opened in this order, and `inner` is then run with the descriptors as the last
redirections leave them. -/
def RunsAfter (system : System) (tree inner : Cmd Text) (order : List Redir) (fds : Fds)
    (past : History) : Prop :=
  ∃ fds' : Fds,
    runcmd system tree fds past = runcmd system inner fds' (past ++ order.flatMap Redir.events) ∧
      ∀ fd, fds'.getD fd none =
        match order.reverse.find? (fun redir => redir.fd = fd) with
        | some redir => some (.file redir.file redir.mode)
        | none => fds.getD fd none

theorem runsAfter_wrap (ready : fds.Ready) (openable : Openable system redirs) :
    RunsAfter system (wrap inner redirs) inner redirs.reverse fds past := by
  refine ⟨redirs.reverse.foldl Fds.redirect fds, runcmd_wrap redirs ready openable, ?_⟩
  apply getD_redirects ready
  intro redir member
  exact (openable redir (List.mem_reverse.mp member)).1

/-! ## The trees of the parser -/

/-- A simple command or a block, what it runs, and its redirections from left to right. -/
inductive Command : List Token → Cmd Text → List Redir → Prop
  | simple {ts us : List Token} {args : List Text} {redirs redirs' : List Redir}
      (before : Redirs ts redirs) (words : Words us args redirs') (few : args.length < maxargs) :
      Command (ts ++ us) (.exec args) (redirs ++ redirs')
  | block {ts us : List Token} {cmd : Cmd Text} {redirs : List Redir} (line : Derives .line ts cmd)
      (after : Redirs us redirs) : Command (.sym '(' :: ts ++ .sym ')' :: us) cmd redirs

variable {line : List Char} {used rest : List Token} {s calls : ℕ}

theorem Command.derives (command : Command used inner redirs) :
    Derives .exec used (wrap inner redirs) := by
  cases command with
  | simple before words few => exact .simple before words few
  | block line after => exact .block line after

theorem Redirs.standard {ts : List Token} (derives : Redirs ts redirs) :
    ∀ redir ∈ redirs, redir.fd < 2 := by
  induction derives with
  | nil => exact nofun
  | cons operator _ ih =>
      rw [List.forall_mem_cons]
      refine ⟨?_, ih⟩
      cases operator
      · exact Nat.zero_lt_two
      · exact Nat.one_lt_two
      · exact Nat.one_lt_two

theorem Words.standard {ts : List Token} {args : List Text} (words : Words ts args redirs) :
    ∀ redir ∈ redirs, redir.fd < 2 := by
  induction words with
  | nil => exact nofun
  | cons first _ ih =>
      intro redir member
      rcases List.mem_append.mp member with here | later
      · exact first.standard redir here
      · exact ih redir later

theorem Command.standard (command : Command used inner redirs) :
    ∀ redir ∈ redirs, redir.fd < 2 := by
  cases command with
  | simple before words few =>
      intro redir member
      rcases List.mem_append.mp member with front | back
      · exact before.standard redir front
      · exact words.standard redir back
  | block line after => exact after.standard

theorem parsecmd_stands (plain : ∀ c ∈ line, c ≠ '\x00') {whole : Cmd (ℕ × ℕ)} {mem : List Char}
    (accepted : parsecmd line = .ok (whole, mem)) :
    mem = nulterminate whole (line ++ ['\x00']) ∧ ∃ tree, Stands line whole tree := by
  have sound := (parses plain (maxCalls line)).lines 0 (tokens line) (at_zero line)
    (enough_calls line)
  rw [parsecmd_eq] at accepted
  generalize parseline line (maxCalls line) 0 = result at sound accepted
  cases sound with
  | panic message => cases accepted
  | ok holds =>
      obtain ⟨_, _, tree, _, _, _, stands⟩ := holds
      rw [bind_ok] at accepted
      dsimp only at accepted
      split at accepted
      · cases accepted
      · cases accepted
        exact ⟨rfl, tree, stands⟩

/-! ## Programs start with descriptors 0 and 1 open -/

/-- Every redirection is of a standard descriptor. -/
def Cmd.Standard {α : Type} : Cmd α → Prop
  | .exec _ => True
  | .redir cmd _ _ fd => fd < 2 ∧ cmd.Standard
  | .pipe left right => left.Standard ∧ right.Standard
  | .list left right => left.Standard ∧ right.Standard
  | .back cmd => cmd.Standard

theorem Cmd.Standard.wrap (standard : inner.Standard) (redirs : List Redir)
    (each : ∀ redir ∈ redirs, redir.fd < 2) : (Shell.wrap inner redirs).Standard := by
  induction redirs generalizing inner with
  | nil => exact standard
  | cons redir redirs ih =>
      rw [List.forall_mem_cons] at each
      exact ih ⟨each.1, standard⟩ each.2

theorem Cmd.Standard.backs (standard : inner.Standard) (backs : ℕ) :
    (Cmd.back^[backs] inner).Standard := by
  induction backs generalizing inner with
  | zero => exact standard
  | succ backs ih => exact ih standard

theorem Derives.standard {n : Nonterminal} {ts : List Token} (derives : Derives n ts tree) :
    tree.Standard := by
  induction derives with
  | line backs _ pipe => exact pipe.backs backs
  | list backs _ _ pipe more => exact ⟨pipe.backs backs, more⟩
  | last _ exec => exact exec
  | pipe _ _ exec more => exact ⟨exec, more⟩
  | block _ after more => exact more.wrap _ after.standard
  | @simple ts us args redirs redirs' before words few =>
      have plain : (Cmd.exec args).Standard := trivial
      exact plain.wrap _ (Command.simple before words few).standard

/-- The programs of a history are started with the standard descriptors. -/
def ExecsReady (history : History) : Prop := ∀ argv fds, .exec argv fds ∈ history → Fds.Ready fds

theorem ExecsReady.append {more : History} (ready : ExecsReady past)
    (quiet : ∀ argv fds, Event.exec argv fds ∉ more) : ExecsReady (past ++ more) := by
  intro argv fds member
  rcases List.mem_append.mp member with before | after
  · exact ready argv fds before
  · exact absurd after (quiet argv fds)

/-- A process that ends here without a program. -/
theorem ExecsReady.ends {more : History} (ready : ExecsReady past)
    (quiet : ∀ argv fds, Event.exec argv fds ∉ more) :
    ∀ history ∈ [past ++ more], ExecsReady history := by
  rw [List.forall_mem_singleton]
  exact ready.append quiet

theorem Fds.Ready.alloc {target : Target} {fds' : Fds} (ready : fds.Ready)
    (allocated : fds.alloc (some target) = some (fd, fds')) : fds'.Ready ∧ 2 ≤ fd := by
  obtain ⟨k, found, same⟩ := Option.map_eq_some_iff.mp allocated
  cases same
  refine ⟨ready.set _ _, ?_⟩
  obtain ⟨input, output, rest, rfl⟩ := ready
  simp only [List.idxOf?, List.findIdx?_cons] at found
  simp at found
  omega

theorem Fds.Ready.close (ready : fds.Ready) (other : 2 ≤ fd) : (fds.close fd).Ready := by
  obtain ⟨input, output, rest, rfl⟩ := ready
  obtain ⟨k, rfl⟩ := Nat.exists_eq_add_of_le' other
  exact ⟨input, output, rest.set k none, rfl⟩

/-- A child of a pipe has its end of it in place of the standard descriptor. -/
theorem Fds.Ready.pipeChild {p₀ p₁ mine : ℕ} {target : Target} (ready : fds.Ready)
    (standard : fd < 2) (first : 2 ≤ p₀) (second : 2 ≤ p₁)
    (isMine : fds[mine]? = some (some target)) (other : fd ≠ mine) :
    (Shell.pipeChild fds p₀ p₁ mine fd).Ready := by
  have held : (fds.close fd).getD mine none = some target := by
    rw [Fds.close, List.getD_eq_getElem?_getD, List.getElem?_set_ne other, isMine]
    rfl
  have replaced : (fds.close fd).dup mine = fds.set fd (some target) := by
    rw [Fds.dup, held, ready.alloc_close standard]
  rw [Shell.pipeChild, replaced]
  exact ((ready.set fd target).close first).close second

/-- A new descriptor refers to its target, and the others to theirs. -/
theorem alloc_getElem? {target : Target} {fds' : Fds}
    (allocated : fds.alloc (some target) = some (fd, fds')) :
    fds'[fd]? = some (some target) ∧
      ∀ (k : ℕ) (held : Target), fds[k]? = some (some held) → fds'[k]? = some (some held) := by
  obtain ⟨k, found, same⟩ := Option.map_eq_some_iff.mp allocated
  cases same
  obtain ⟨inside, free, _⟩ := List.findIdx?_eq_some_iff_getElem.mp found
  refine ⟨List.getElem?_set_self inside, fun j held here => ?_⟩
  have apart : fd ≠ j := by
    rintro rfl
    rw [List.getElem?_eq_getElem inside] at here
    simp only [Option.some.injEq] at here
    rw [here] at free
    cases free
  rwa [List.getElem?_set_ne apart]

theorem Fds.Ready.pipe {calls p₀ p₁ : ℕ} {fds' : Fds} (ready : fds.Ready)
    (made : fds.pipe calls = some (p₀, p₁, fds')) :
    fds'.Ready ∧ 2 ≤ p₀ ∧ 2 ≤ p₁ ∧ fds'[p₀]? = some (some (.pipe false calls)) ∧
      fds'[p₁]? = some (some (.pipe true calls)) := by
  obtain ⟨⟨first, between⟩, one, made⟩ := Option.bind_eq_some_iff.mp made
  obtain ⟨⟨second, last⟩, two, same⟩ := Option.bind_eq_some_iff.mp made
  cases same
  obtain ⟨ready₁, above₁⟩ := ready.alloc one
  obtain ⟨ready₂, above₂⟩ := ready₁.alloc two
  obtain ⟨here₁, _⟩ := alloc_getElem? one
  obtain ⟨here₂, kept⟩ := alloc_getElem? two
  exact ⟨ready₂, above₁, above₂, kept _ _ here₁, here₂⟩

theorem execsReady_exec (argv : List Text) (ready : fds.Ready) (before : ExecsReady past) :
    ∀ history ∈ runcmd system (.exec argv) fds past, ExecsReady history := by
  intro history member
  cases argv with
  | nil =>
      exact before.ends (by simp) history member
  | cons name args =>
      rw [runcmd] at member
      split at member
      · rw [List.mem_singleton.mp member]
        intro argv fds' inside
        rcases List.mem_append.mp inside with old | new
        · exact before argv fds' old
        · cases List.mem_singleton.mp new
          exact ready
      · exact before.ends (by simp) history member

/-- Every program that is run by a command starts with the standard descriptors. -/
theorem runcmd_execsReady (standard : cmd.Standard) : ∀ {fds : Fds} {past : History}, fds.Ready →
    ExecsReady past → ∀ history ∈ runcmd system cmd fds past, ExecsReady history := by
  induction cmd with
  | exec argv => exact execsReady_exec argv
  | redir cmd file mode fd ih =>
      intro fds past ready before history member
      rw [runcmd] at member
      have closed : ExecsReady (past ++ [.close fd]) := before.append (by simp)
      by_cases opens : system.opens (past ++ [.close fd]) file mode = true
      · simp only [opens, if_true, ready.alloc_close standard.1] at member
        exact ih standard.2 (ready.set _ _) (closed.append (by simp)) history member
      · simp only [opens] at member
        exact closed.ends (by simp) history member
  | list left right ih ih' =>
      intro fds past ready before history member
      rw [runcmd] at member
      split at member
      · rcases List.mem_append.mp member with inLeft | inRight
        · exact ih standard.1 ready (before.append (by simp)) history inLeft
        · exact ih' standard.2 ready (before.append (by simp)) history inRight
      · exact before.ends (by simp [panic]) history member
  | back cmd ih =>
      intro fds past ready before history member
      rw [runcmd] at member
      split at member
      · rcases List.mem_append.mp member with inChild | inParent
        · exact ih standard ready (before.append (by simp)) history inChild
        · exact before.ends (by simp) history inParent
      · exact before.ends (by simp [panic]) history member
  | pipe left right ih ih' =>
      intro fds past ready before history member
      rw [runcmd] at member
      split at member
      · exact before.ends (by simp [panic]) history member
      · rename_i p₀ p₁ fds' made
        have made : fds.pipe past.length = some (p₀, p₁, fds') := by
          split at made
          · exact made
          · cases made
        obtain ⟨ready', first, second, read, write⟩ := ready.pipe made
        have piped : ExecsReady (past ++ [.pipe]) := before.append (by simp)
        have forked : ExecsReady (past ++ [.pipe] ++ [.fork]) := piped.append (by simp)
        have inLeft := ready'.pipeChild Nat.one_lt_two first second write (by omega)
        have inRight := ready'.pipeChild Nat.zero_lt_two first second read (by omega)
        dsimp only at member
        split at member
        · rcases List.mem_append.mp member with child | rest
          · exact ih standard.1 inLeft (piped.append (by simp)) history child
          · split at rest
            · rcases List.mem_append.mp rest with child | parent
              · exact ih' standard.2 inRight (forked.append (by simp)) history child
              · exact forked.ends (by simp) history parent
            · exact forked.ends (by simp [panic]) history rest
        · exact piped.ends (by simp [panic]) history member

/-! ## The start of the shell -/

/-- `O_RDWR` -/
abbrev rdwr : ℕ := 0x002

/-- `console`, as it is opened -/
def console : Target := .file "console".toList rdwr

/-- The first loop of `main`, where `console` can be opened as long as a descriptor is free. -/
def openConsole : ℕ → Fds → Fds
  | 0, fds => fds
  | passes + 1, fds =>
      match fds.alloc (some console) with
      | none => fds
      | some (fd, fds) => if fd ≥ 3 then fds.close fd else openConsole passes fds

theorem openConsole_next {passes k : ℕ} (found : List.idxOf? none fds = some k) (low : k < 3) :
    openConsole (passes + 1) fds = openConsole passes (fds.set k (some console)) := by
  have below : ¬ k ≥ 3 := by omega
  simp only [openConsole, Fds.alloc, found, Option.map_some, if_neg below]

section

variable (passes : ℕ) (a b c : Target) (first second third : Option Target) (rest : Fds)

theorem openConsole_full :
    (openConsole (passes + 1) (some a :: some b :: some c :: rest)).Ready := by
  rw [openConsole, Fds.alloc]
  rcases found : List.idxOf? none (some a :: some b :: some c :: rest) with _ | k
  · exact ⟨a, b, _, rfl⟩
  · have above : 3 ≤ k := by
      simp only [List.idxOf?, List.findIdx?_cons] at found
      simp at found
      omega
    obtain ⟨k, rfl⟩ := Nat.exists_eq_add_of_le' above
    simp only [Option.map_some, ge_iff_le, above, if_true]
    exact ⟨a, b, _, rfl⟩

theorem openConsole_third :
    (openConsole (passes + 2) (some a :: some b :: third :: rest)).Ready := by
  cases third with
  | some c => exact openConsole_full (passes + 1) a b c rest
  | none =>
      have found : List.idxOf? none (some a :: some b :: none :: rest) = some 2 := by
        simp [List.idxOf?, List.findIdx?_cons]
      rw [openConsole_next found (by omega)]
      exact openConsole_full passes a b console rest

theorem openConsole_second :
    (openConsole (passes + 3) (some a :: second :: third :: rest)).Ready := by
  cases second with
  | some b => exact openConsole_third (passes + 1) a b third rest
  | none =>
      have found : List.idxOf? none (some a :: none :: third :: rest) = some 1 := by
        simp [List.idxOf?, List.findIdx?_cons]
      rw [openConsole_next found (by omega)]
      exact openConsole_third passes a console third rest

/-- The loop leaves the standard descriptors open. -/
theorem openConsole_ready :
    (openConsole (passes + 4) (first :: second :: third :: rest)).Ready := by
  cases first with
  | some a => exact openConsole_second (passes + 1) a second third rest
  | none =>
      have found : List.idxOf? none (none :: second :: third :: rest) = some 0 := by
        simp [List.idxOf?, List.findIdx?_cons]
      rw [openConsole_next found (by omega)]
      exact openConsole_second passes console second third rest

end

/-! ## The order of the redirections -/

/-- The files of a command are opened from right to left, so that the first redirection of a
descriptor is the one that stays. -/
theorem runcmd_parseexec (plain : ∀ c ∈ line, c ≠ '\x00') (command : Command used inner redirs)
    (here : At line s (used ++ rest)) (follow : Follow .exec rest)
    (enough : 4 * (used ++ rest).length + 2 ≤ calls) :
    ∃ cmd s', parseexec line calls s = .ok (cmd, s') ∧
      ∀ whole mem, parsecmd line = .ok (whole, mem) → cmd.args ⊆ whole.args →
        ∀ (system : System) (fds : Fds) (past : History), fds.Ready →
          (∀ redir ∈ redirs, ∀ past, system.opens past redir.file redir.mode = true) →
          RunsAfter system (strings mem cmd) inner redirs.reverse fds past := by
  obtain ⟨cmd, s', run, _, stands⟩ := command.derives.complete plain s rest calls here follow enough
  refine ⟨cmd, s', run, ?_⟩
  intro whole mem accepted part system fds past ready opens
  obtain ⟨rfl, wholeTree, all⟩ := parsecmd_stands plain accepted
  rw [all.strings_part plain stands part]
  exact runsAfter_wrap ready fun redir member => ⟨command.standard redir member, opens redir member⟩

/-- `a>x>y` -/
def twice : List Char := ['a', '>', 'x', '>', 'y']

theorem command_twice :
    Command (tokens twice) (.exec [['a']]) [⟨['x'], wronlyCreate, 1⟩, ⟨['y'], wronlyCreate, 1⟩] :=
  .simple .nil (.cons (.cons .output (.cons .output .nil)) .nil) (by decide)

theorem plain_twice : ∀ c ∈ twice, c ≠ '\x00' := by simp [twice]

theorem at_whole (line : List Char) : At line 0 (tokens line ++ []) := by
  rw [List.append_nil]
  exact at_zero line

theorem enough_whole (line : List Char) : 4 * (tokens line ++ []).length + 2 ≤ maxCalls line := by
  have enough := enough_calls line
  rw [List.append_nil]
  omega

theorem parseexec_twice : parseexec twice (maxCalls twice) 0 =
    .ok (.redir (.redir (.exec [(0, 1)]) (2, 3) wronlyCreate 1) (4, 5) wronlyCreate 1, 5) := by decide

theorem parsecmd_twice : parsecmd twice =
    .ok (.redir (.redir (.exec [(0, 1)]) (2, 3) wronlyCreate 1) (4, 5) wronlyCreate 1,
      ['a', '\x00', 'x', '\x00', 'y', '\x00']) := by decide

/-- Where all files can be opened. -/
def allOpen : System := ⟨fun _ _ _ => true, fun _ => true⟩

theorem ready_inherited : Fds.Ready [some (.inherited 0), some (.inherited 1)] := ⟨_, _, _, rfl⟩

theorem runcmd_parseexec_twice :
    ∃ cmd s' whole mem, parseexec twice (maxCalls twice) 0 = .ok (cmd, s') ∧
      parsecmd twice = .ok (whole, mem) ∧ cmd.args ⊆ whole.args ∧
      RunsAfter allOpen (strings mem cmd) (.exec [['a']])
        [⟨['y'], wronlyCreate, 1⟩, ⟨['x'], wronlyCreate, 1⟩]
        [some (.inherited 0), some (.inherited 1)] [] := by
  obtain ⟨cmd, s', built, runs⟩ :=
    runcmd_parseexec plain_twice command_twice (at_whole twice) (.inl rfl) (enough_whole twice)
  rw [parseexec_twice] at built
  cases built
  exact ⟨_, _, _, _, parseexec_twice, parsecmd_twice, List.Subset.refl _,
    runs _ _ parsecmd_twice (List.Subset.refl _) allOpen _ [] ready_inherited fun _ _ _ => rfl⟩

/-- From left to right it would be `x` that is opened first. -/
theorem runcmd_parseexec_rightmost_first :
    ¬ ∀ (line : List Char) (used rest : List Token) (inner : Cmd Text) (redirs : List Redir)
      (s calls : ℕ), (∀ c ∈ line, c ≠ '\x00') → Command used inner redirs →
      At line s (used ++ rest) → Follow .exec rest → 4 * (used ++ rest).length + 2 ≤ calls →
      ∃ cmd s', parseexec line calls s = .ok (cmd, s') ∧
        ∀ whole mem, parsecmd line = .ok (whole, mem) → cmd.args ⊆ whole.args →
          ∀ (system : System) (fds : Fds) (past : History), fds.Ready →
            (∀ redir ∈ redirs, ∀ past, system.opens past redir.file redir.mode = true) →
            RunsAfter system (strings mem cmd) inner redirs fds past := by
  intro all
  obtain ⟨cmd, s', built, runs⟩ := all twice _ [] _ _ 0 (maxCalls twice) plain_twice command_twice
    (at_whole twice) (.inl rfl) (enough_whole twice)
  rw [parseexec_twice] at built
  cases built
  have standard := command_twice.standard
  obtain ⟨fds', run, _⟩ := runs _ _ parsecmd_twice (List.Subset.refl _) allOpen _ [] ready_inherited
    fun _ _ _ => rfl
  rw [show strings _ _ = wrap (.exec [['a']]) [⟨['x'], wronlyCreate, 1⟩, ⟨['y'], wronlyCreate, 1⟩]
    by decide, runcmd_wrap _ ready_inherited fun redir member => ⟨standard redir member, fun _ => rfl⟩] at run
  simp [runcmd, Redir.events, allOpen] at run

end Xv6.Shell
