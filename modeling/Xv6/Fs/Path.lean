import Xv6.Fs.Directory

/-!
# Path names

`skipelem`, `namex`, `namei` and `nameiparent`. A path is the list of its bytes before the NUL, and every
step from a directory to the next hands one reference over.
-/

namespace Xv6.Fs

open Bytes SlotTable

/-! ## Components -/

/-- `skipelem`; nothing for 0. The buffer for the name has room for `DIRSIZ` bytes. -/
def skipelem (path : List Byte) (name : ℕ → Byte) : Option (List Byte × (ℕ → Byte)) :=
  let path := path.dropWhile (· = slash)
  if path = [] then none
  else
    let s := path
    let path := path.dropWhile (· ≠ slash)
    let len := s.length - path.length
    let name := if dirsiz ≤ len then splice name 0 (s.take dirsiz) else splice (splice name 0 (s.take len)) len [0]
    some (path.dropWhile (· = slash), name)

/-- The names of repeated calls, until one yields 0; nothing if that takes more calls. -/
def skipelems : ℕ → List Byte → (ℕ → Byte) → Option (List (List Byte))
  | 0, _, _ => none
  | calls + 1, path, name =>
      match skipelem path name with
      | none => some []
      | some (path, name) => (skipelems calls path name).map (key name :: ·)

/-- The parts of a path between slashes that are not empty. -/
def components (path : List Byte) : List (List Byte) := (path.splitOn slash).filter (· ≠ [])

/-- The names of the components. -/
def namesOf (path : List Byte) : List (List Byte) := (components path).map (·.take dirsiz)

variable {path rest : List Byte} {name name' : ℕ → Byte}

theorem components_slash (path : List Byte) : components (slash :: path) = components path := by
  have noSlash : slash ∉ ([] : List Byte) := List.not_mem_nil
  have isSplit : (slash :: path).splitOn slash = [] :: path.splitOn slash :=
    List.splitOn_append_cons_self_of_not_mem noSlash path
  unfold components
  rw [isSplit]
  rfl

theorem components_skip (path : List Byte) : components (path.dropWhile (· = slash)) = components path := by
  induction path with
  | nil => rfl
  | cons byte path ih =>
      rw [List.dropWhile_cons]
      split
      · rename_i isSlash
        rw [ih, of_decide_eq_true isSlash, components_slash]
      · rfl

/-- A word before a slash, or at the end of the path, is a component. -/
theorem components_word {word : List Byte} (notEmpty : word ≠ []) (noSlash : slash ∉ word)
    (starts : rest = [] ∨ rest.head? = some slash) : components (word ++ rest) = word :: components rest := by
  have keep : decide (word ≠ []) = true := decide_eq_true notEmpty
  rcases starts with rfl | isSlash
  · have isSplit : word.splitOn slash = [word] := List.splitOn_eq_singleton noSlash
    have isRest : components [] = [] := rfl
    rw [isRest, List.append_nil]
    unfold components
    rw [isSplit]
    exact List.filter_cons_of_pos keep
  · rcases rest with _ | ⟨byte, rest⟩
    · cases isSlash
    · rw [List.head?_cons, Option.some_inj] at isSlash
      subst isSlash
      have isSplit : (word ++ slash :: rest).splitOn slash = word :: rest.splitOn slash :=
        List.splitOn_append_cons_self_of_not_mem noSlash rest
      rw [components_slash]
      unfold components
      rw [isSplit]
      exact List.filter_cons_of_pos keep

theorem nameAt_eq (n : ℕ) : ∀ (word : List Byte) (p : ℕ → Byte), 0 ∉ word → word.length ≤ n →
    (∀ m < word.length, p m = word.getD m 0) → (word.length < n → p word.length = 0) → nameAt n p = word := by
  induction n with
  | zero =>
      intro word p _ bound _ _
      rw [List.eq_nil_of_length_eq_zero (Nat.le_zero.1 bound)]
      rfl
  | succ n ih =>
      intro word p noNul bound same ends
      rcases word with _ | ⟨byte, word⟩
      · exact if_pos (ends (Nat.succ_pos n))
      · rw [List.mem_cons, not_or] at noNul
        rw [List.length_cons] at bound same ends
        have first : p 0 = byte := same 0 (Nat.succ_pos _)
        rw [nameAt, first, if_neg (Ne.symm noNul.1)]
        congr 1
        exact ih word _ noNul.2 (by omega) (fun m less => same (m + 1) (by omega)) fun less => ends (by omega)

/-- What `skipelem` copies is the first bytes of the component, and a NUL if there is room. -/
theorem key_copied {word : List Byte} (name : ℕ → Byte) (noNul : 0 ∉ word) :
    key (if dirsiz ≤ word.length then splice name 0 (word.take dirsiz)
      else splice (splice name 0 word) word.length [0]) = word.take dirsiz := by
  refine nameAt_eq dirsiz _ _ (fun member => noNul (List.mem_of_mem_take member)) ?_ (fun m less => ?_) fun less => ?_
  · exact List.length_take_le _ _
  · split
    · exact if_pos ⟨Nat.zero_le m, (Nat.zero_add _).symm ▸ less⟩
    · rename_i short
      rw [List.take_of_length_le (Nat.not_le.1 short).le] at less ⊢
      unfold splice
      rw [if_neg (by omega), if_pos ⟨Nat.zero_le m, (Nat.zero_add _).symm ▸ less⟩]
      rfl
  · rw [List.length_take] at less
    have short : word.length < dirsiz := by omega
    rw [if_neg (Nat.not_le.2 short), List.take_of_length_le short.le]
    unfold splice
    rw [if_pos ⟨le_rfl, Nat.lt_succ_self _⟩, Nat.sub_self]
    rfl

/-- One call takes one component off. -/
theorem skipelem_some (noNul : 0 ∉ path) (isSkip : skipelem path name = some (rest, name')) :
    ∃ word, components path = word :: components rest ∧ key name' = word.take dirsiz ∧
      rest.length < path.length ∧ 0 ∉ rest ∧ rest.head? ≠ some slash := by
  unfold skipelem at isSkip
  dsimp only at isSkip
  split at isSkip
  · cases isSkip
  · rename_i notEnd
    have skipped := components_skip path
    have shorter : (path.dropWhile (· = slash)).length ≤ path.length := (List.dropWhile_suffix _).length_le
    have noNul₁ : 0 ∉ path.dropWhile (· = slash) := fun member => noNul ((List.dropWhile_suffix _).subset member)
    have starts : ∀ byte ∈ (path.dropWhile (· = slash)).head?, byte ≠ slash := by
      intro byte isHead
      have notSlash := List.head?_dropWhile_not (fun byte => decide (byte = slash)) path
      rw [isHead] at notSlash
      exact of_decide_eq_false notSlash
    generalize path.dropWhile (· = slash) = s at *
    have isSplit : s.takeWhile (· ≠ slash) ++ s.dropWhile (· ≠ slash) = s := List.takeWhile_append_dropWhile
    have noSlash : slash ∉ s.takeWhile (· ≠ slash) := by
      intro member
      have other := List.mem_takeWhile_imp member
      rw [decide_eq_true_eq] at other
      exact other rfl
    have ends : s.dropWhile (· ≠ slash) = [] ∨ (s.dropWhile (· ≠ slash)).head? = some slash := by
      have isSlash := List.head?_dropWhile_not (fun byte => decide (byte ≠ slash)) s
      generalize s.dropWhile (· ≠ slash) = tail at isSlash
      rcases tail with _ | ⟨byte, tail⟩
      · exact .inl rfl
      · rw [List.head?_cons] at isSlash ⊢
        exact .inr (congrArg some (not_not.1 (of_decide_eq_false isSlash)))
    have notEmpty : s.takeWhile (· ≠ slash) ≠ [] := by
      rcases s with _ | ⟨byte, tail⟩
      · exact absurd rfl notEnd
      · rw [List.takeWhile_cons, if_pos (decide_eq_true (starts byte rfl))]
        exact List.cons_ne_nil _ _
    generalize s.takeWhile (· ≠ slash) = word at *
    generalize s.dropWhile (· ≠ slash) = tail at *
    subst isSplit
    have isLength : (word ++ tail).length - tail.length = word.length := by
      rw [List.length_append, Nat.add_sub_cancel]
    have isName : (if dirsiz ≤ word.length then splice name 0 ((word ++ tail).take dirsiz)
          else splice (splice name 0 ((word ++ tail).take word.length)) word.length [0]) =
        if dirsiz ≤ word.length then splice name 0 (word.take dirsiz)
          else splice (splice name 0 word) word.length [0] := by
      rw [List.take_left]
      split
      · rename_i long
        rw [List.take_append_of_le_length long]
      · rfl
    rw [isLength, isName, Option.some.injEq, Prod.mk.injEq] at isSkip
    rcases isSkip with ⟨rfl, rfl⟩
    have isTail : (tail.dropWhile (· = slash)).length ≤ tail.length := (List.dropWhile_suffix _).length_le
    refine ⟨word, ?_, key_copied name fun member => noNul₁ (List.mem_append_left _ member), ?_, fun member => ?_,
      fun isSlash => ?_⟩
    · rw [← skipped, components_word notEmpty noSlash ends, components_skip]
    · have positive := List.length_pos_iff.2 notEmpty
      rw [List.length_append] at shorter
      omega
    · exact noNul₁ (List.mem_append_right _ ((List.dropWhile_suffix _).subset member))
    · have notSlash := List.head?_dropWhile_not (fun byte => decide (byte = slash)) tail
      rw [isSlash] at notSlash
      exact of_decide_eq_false notSlash rfl

theorem skipelem_none (isSkip : skipelem path name = none) : components path = [] := by
  unfold skipelem at isSkip
  dsimp only at isSkip
  split at isSkip
  · rename_i none
    rw [← components_skip, none]
    rfl
  · cases isSkip

/-- Repeated calls end, and yield the components. -/
theorem skipelems_eq (calls : ℕ) : ∀ path name, 0 ∉ path → path.length < calls →
    skipelems calls path name = some (namesOf path) := by
  induction calls with
  | zero => exact fun path name _ less => absurd less (Nat.not_lt_zero _)
  | succ calls ih =>
      intro path name noNul less
      rw [skipelems]
      unfold namesOf
      rcases isSkip : skipelem path name with _ | ⟨rest, name'⟩
      · rw [skipelem_none isSkip]
        rfl
      · rcases skipelem_some noNul isSkip with ⟨word, isWord, isName, shorter, noNul', -⟩
        dsimp only
        rw [ih rest name' noNul' (by omega), isWord, isName]
        rfl

theorem components_ne_nil (notEmpty : rest ≠ []) (noSlash : rest.head? ≠ some slash) : components rest ≠ [] := by
  rcases rest with _ | ⟨byte, tail⟩
  · exact absurd rfl notEmpty
  · have notSlash : byte ≠ slash := fun isSlash => noSlash (congrArg some isSlash)
    have isSplit : (byte :: tail).splitOn slash = (tail.splitOn slash).modifyHead (byte :: ·) := by
      rw [List.splitOn_cons_eq_if_modifyHead, if_neg fun isSlash => notSlash (beq_iff_eq.1 isSlash)]
    unfold components
    rw [isSplit]
    rcases isTail : tail.splitOn slash with _ | ⟨word, words⟩
    · exact absurd isTail (List.splitOn_ne_nil slash tail)
    · intro isNil
      have member : byte :: word ∈ ((byte :: word) :: words).filter (· ≠ []) :=
        List.mem_filter.2 ⟨List.mem_cons_self, rfl⟩
      rw [List.modifyHead_cons] at isNil
      rw [isNil] at member
      cases member

/-! ## Walking along a path -/

/-- The end of `namex`. -/
def namexEnd (sb : Superblock) (parent : Bool) (name : ℕ → Byte) (ip : Fin ninode) (s : Itable) :
    Except Stop (Option (Fin ninode) × (ℕ → Byte) × Itable) :=
  if parent then do
    let s ← s.iput sb ip
    return (none, name, s)
  else return (some ip, name, s)

/-- The loop of `namex`; every pass makes the path shorter. -/
def namexLoop (devsw : Devsw) (sb : Superblock) (parent : Bool) : ℕ → List Byte → (ℕ → Byte) → Fin ninode →
    Itable → Except Stop (Option (Fin ninode) × (ℕ → Byte) × Itable)
  | 0, _, name, ip, s => namexEnd sb parent name ip s
  | passes + 1, path, name, ip, s =>
      match skipelem path name with
      | none => namexEnd sb parent name ip s
      | some (path, name) => do
          let s ← s.ilock sb ip
          if (s.inode ip).ip.type ≠ tDir then
            let s ← s.iunlockput sb ip
            return (none, name, s)
          else if parent = true ∧ path = [] then
            let s ← s.iunlock ip
            return (some ip, name, s)
          else
            let (next, s) ← dirlookup devsw sb s ip name
            match next with
            | none =>
                let s ← s.iunlockput sb ip
                return (none, name, s)
            | some (next, _) =>
                let s ← s.iunlockput sb ip
                namexLoop devsw sb parent passes path name next s

/-- `namex`, with `myproc()->cwd`; it yields the inode, the name and the state. -/
def namex (devsw : Devsw) (sb : Superblock) (path : List Byte) (parent : Bool) (name : ℕ → Byte)
    (cwd : Fin ninode) (s : Itable) : Except Stop (Option (Fin ninode) × (ℕ → Byte) × Itable) := do
  let (ip, s) ← if path.head? = some slash then s.iget rootino else pure (cwd, s.idup cwd)
  namexLoop devsw sb parent path.length path name ip s

/-- `namei`; the buffer for the names is its own, with any content. -/
def namei (devsw : Devsw) (sb : Superblock) (path : List Byte) (name : ℕ → Byte) (cwd : Fin ninode) (s : Itable) :
    Except Stop (Option (Fin ninode) × (ℕ → Byte) × Itable) :=
  namex devsw sb path false name cwd s

/-- `nameiparent` -/
def nameiparent (devsw : Devsw) (sb : Superblock) (path : List Byte) (name : ℕ → Byte) (cwd : Fin ninode)
    (s : Itable) : Except Stop (Option (Fin ninode) × (ℕ → Byte) × Itable) :=
  namex devsw sb path true name cwd s

/-- The entries of directories name inodes that are allocated and stay so: they have links or are in use.
The root is one of them. -/
structure Graph (sb : Superblock) (s : Itable) (named : Set ℕ) (data : ℕ → List Byte) : Prop where
  root : rootino ∈ named
  allocated : ∀ m ∈ named, (readInode sb s.image m).type ≠ 0
  kept : ∀ m ∈ named, (readInode sb s.image m).nlink ≠ 0 ∨ ∃ i, 0 < (s.inode i).ref ∧ (s.inode i).inum = m
  directory : ∀ m ∈ named, (readInode sb s.image m).type = tDir → Directory (readInode sb s.image m) s.image (data m)
  entries : ∀ m ∈ named, (readInode sb s.image m).type = tDir →
    ∀ k name v, HasPair (slotsOf (data m)) k name v → v ∈ named

/-- Where the names lead to from an inode, one directory after the other. -/
def walk (sb : Superblock) (image : ℕ → Block) (data : ℕ → List Byte) : ℕ → List (List Byte) → Option ℕ
  | m, [] => some m
  | m, name :: names =>
      if (readInode sb image m).type = tDir then
        (toMap (slotsOf (data m)) name).bind fun v => walk sb image data v names
      else none

/-- The directory for the last of the names. -/
def walkParent (sb : Superblock) (image : ℕ → Block) (data : ℕ → List Byte) (m : ℕ) (names : List (List Byte)) :
    Option ℕ :=
  if names = [] then none
  else (walk sb image data m names.dropLast).filter fun v => (readInode sb image v).type = tDir

/-- Two entries of the cache are unused. -/
def Spare (s : Itable) : Prop := ∃ a b, a ≠ b ∧ (s.inode a).ref = 0 ∧ (s.inode b).ref = 0

/-- A call has found the inode and taken one reference to it, or has found nothing and taken none. -/
inductive Resolved (sb : Superblock) (s₀ : Itable) : Option ℕ → Option (Fin ninode) → Itable → Prop where
  | found {i : Fin ninode} {s : Itable} : Itable.Holding sb s₀ s (Pi.single i 1) ∅ →
      Resolved sb s₀ (some (s.inode i).inum) (some i) s
  | absent {s : Itable} : Itable.Holding sb s₀ s 0 ∅ → Resolved sb s₀ none none s

/-- The inode has no entry in the cache, and no entry is unused, except for one that `namex` has taken for the
directory before it. -/
def Crowded (s : Itable) (before : Option ℕ) (v : ℕ) : Prop :=
  (∀ k, 0 < (s.inode k).ref → (s.inode k).inum ≠ v) ∧
  ∃ i, (∀ k ≠ i, 0 < (s.inode k).ref) ∧
    (0 < (s.inode i).ref ∨ ∃ u, before = some u ∧ ∀ k, 0 < (s.inode k).ref → (s.inode k).inum ≠ u)

/-- An inode on the way from `m` cannot get an entry. -/
def NoEntry (sb : Superblock) (s : Itable) (data : ℕ → List Byte) (m : ℕ) (names : List (List Byte)) : Prop :=
  Crowded s none m ∨ ∃ n < names.length, ∃ u v, walk sb s.image data m (names.take n) = some u ∧
    walk sb s.image data m (names.take (n + 1)) = some v ∧ Crowded s (some u) v

/-- What `namex` should do, given where the names lead to from `m`. It panics only if an inode on the way cannot get
an entry of the cache. -/
def NamexCorrect (sb : Superblock) (s₀ : Itable) (data : ℕ → List Byte) (parent : Bool) (m : ℕ)
    (names : List (List Byte)) (target : Option ℕ)
    (result : Except Stop (Option (Fin ninode) × (ℕ → Byte) × Itable)) : Prop :=
  (result = .error (.panic "iget: no inodes") ∧ NoEntry sb s₀ data m names) ∨
  ∃ found name s, result = .ok (found, name, s) ∧ Resolved sb s₀ target found s ∧
    (parent = true → found ≠ none → names.getLast? = some (key name))

/-- What is left of that where only the number of unused entries is known. -/
def NamexEnds (sb : Superblock) (s₀ : Itable) (parent : Bool) (names : List (List Byte)) (target : Option ℕ)
    (result : Except Stop (Option (Fin ninode) × (ℕ → Byte) × Itable)) : Prop :=
  (result = .error (.panic "iget: no inodes") ∧ ¬Spare s₀) ∨
  ∃ found name s, result = .ok (found, name, s) ∧ Resolved sb s₀ target found s ∧
    (parent = true → found ≠ none → names.getLast? = some (key name))

variable {devsw : Devsw} {sb : Superblock} {s₀ s s' : Itable} {named : Set ℕ} {data : ℕ → List Byte}
  {i j cwd : Fin ninode} {m v passes : ℕ} {parent : Bool} {names : List (List Byte)}

theorem Crowded.not_spare {before : Option ℕ} (crowded : Crowded s before v) : ¬Spare s := by
  rintro ⟨a, b, different, unusedA, unusedB⟩
  rcases crowded with ⟨-, i, others, -⟩
  have isI : ∀ k, (s.inode k).ref = 0 → k = i := by
    intro k unused
    by_contra other
    exact (others k other).ne' unused
  exact different ((isI a unusedA).trans (isI b unusedB).symm)

/-- Two unused entries are enough. -/
theorem NoEntry.not_spare (noEntry : NoEntry sb s data m names) : ¬Spare s := by
  rcases noEntry with crowded | ⟨n, -, u, v, -, -, crowded⟩
  · exact crowded.not_spare
  · exact crowded.not_spare

theorem NamexCorrect.ends {target : Option ℕ} {result : Except Stop (Option (Fin ninode) × (ℕ → Byte) × Itable)}
    (correct : NamexCorrect sb s data parent m names target result) : NamexEnds sb s parent names target result :=
  correct.imp_left fun ⟨isPanic, noEntry⟩ => ⟨isPanic, noEntry.not_spare⟩

theorem NoEntry.cons {word : List Byte} (noEntry : NoEntry sb s data v names)
    (isDir : (readInode sb s.image m).type = tDir) (isMap : toMap (slotsOf (data m)) word = some v) :
    NoEntry sb s data m (word :: names) := by
  have isStep : ∀ names, walk sb s.image data m (word :: names) = walk sb s.image data v names := by
    intro names
    rw [walk, if_pos isDir, isMap]
    rfl
  rcases noEntry with ⟨absent, i, others, isUsed⟩ | ⟨n, less, u, v', isU, isV, crowded⟩
  · refine .inr ⟨0, Nat.succ_pos _, m, v, rfl, isStep [], absent, i, others, .inl ?_⟩
    rcases isUsed with used | ⟨u, impossible, -⟩
    · exact used
    · cases impossible
  · refine .inr ⟨n + 1, Nat.succ_lt_succ less, u, v', ?_, ?_, crowded⟩
    · rw [List.take_succ_cons, isStep]
      exact isU
    · rw [List.take_succ_cons, isStep]
      exact isV

/-- The entry that a walk cannot get, when it holds the directory `i`. -/
theorem Itable.Holding.crowded (holding : Itable.Holding sb s₀ s (Pi.single i 1) {i}) (full : ¬s.Room v) :
    Crowded s₀ (some (s.inode i).inum) v := by
  have isUsed : ∀ k, 0 < (s.inode k).ref ∧ (s.inode k).inum ≠ v := by
    intro k
    constructor
    · by_contra unused
      exact full ⟨k, .inr (Nat.eq_zero_of_not_pos unused)⟩
    · intro isV
      by_cases used : (s.inode k).ref = 0
      · exact full ⟨k, .inr used⟩
      · exact full ⟨k, .inl ⟨Nat.pos_of_ne_zero used, isV⟩⟩
  refine ⟨fun k used => ?_, i, fun k other => ?_, ?_⟩
  · rw [← holding.inum k used]
    exact (isUsed k).2
  · have used := (isUsed k).1
    rw [holding.ref, Pi.single_eq_of_ne other, Nat.add_zero] at used
    exact used
  · by_cases used : 0 < (s₀.inode i).ref
    · exact .inl used
    · refine .inr ⟨_, rfl, fun k usedK same => used ?_⟩
      rw [← holding.inum k usedK] at same
      rw [← holding.ok.unique k i (isUsed k).1 (isUsed i).1 same]
      exact usedK

theorem walkParent_single (m : ℕ) (word : List Byte) : walkParent sb s.image data m [word] =
    if (readInode sb s.image m).type = tDir then some m else none := by
  unfold walkParent
  rw [if_neg (List.cons_ne_nil _ _)]
  change (some m).filter _ = _
  rw [Option.filter_some]
  simp only [decide_eq_true_eq]

theorem walkParent_cons (m : ℕ) (word : List Byte) (more : names ≠ []) :
    walkParent sb s.image data m (word :: names) = if (readInode sb s.image m).type = tDir then
      (toMap (slotsOf (data m)) word).bind fun v => walkParent sb s.image data v names else none := by
  unfold walkParent
  rw [if_neg (List.cons_ne_nil _ _), List.dropLast_cons_of_ne_nil more, walk]
  simp only [if_neg more]
  split
  · rcases toMap (slotsOf (data m)) word with _ | v
    · rfl
    · rfl
  · rfl

theorem Graph.stays (graph : Graph sb s₀ named data) {e : Fin ninode → ℕ} {held : Set (Fin ninode)}
    (holding : Itable.Holding sb s₀ s e held) (used : 0 < (s.inode i).ref) (member : (s.inode i).inum ∈ named) :
    (readInode sb s.image (s.inode i).inum).nlink ≠ 0 ∨ 0 < (s₀.inode i).ref := by
  rw [holding.image]
  rcases graph.kept _ member with linked | ⟨k, usedK, same⟩
  · exact .inl linked
  · refine .inr ?_
    have isI := holding.ok.unique k i (holding.keeps usedK) used ((holding.inum k usedK).trans same)
    exact isI ▸ usedK

/-- Where the names lead to for `namei`, and for `nameiparent`. -/
def resolve (sb : Superblock) (image : ℕ → Block) (data : ℕ → List Byte) (parent : Bool) (m : ℕ)
    (names : List (List Byte)) : Option ℕ :=
  if parent then walkParent sb image data m names else walk sb image data m names

theorem resolve_notDirectory (word : List Byte) (names : List (List Byte))
    (notDir : (readInode sb s.image m).type ≠ tDir) : resolve sb s.image data parent m (word :: names) = none := by
  unfold resolve
  split
  · rcases names with _ | ⟨word', names⟩
    · rw [walkParent_single, if_neg notDir]
    · rw [walkParent_cons m word (List.cons_ne_nil _ _), if_neg notDir]
  · rw [walk, if_neg notDir]

theorem resolve_next {word : List Byte} (isDir : (readInode sb s.image m).type = tDir)
    (more : ¬(parent = true ∧ names = [])) : resolve sb s.image data parent m (word :: names) =
      (toMap (slotsOf (data m)) word).bind fun v => resolve sb s.image data parent v names := by
  unfold resolve
  split
  · rename_i isParent
    rw [walkParent_cons m word fun none => more ⟨isParent, none⟩, if_pos isDir]
  · rw [walk, if_pos isDir]

theorem Graph.namexEnd (graph : Graph sb s₀ named data) (name : ℕ → Byte)
    (holding : Itable.Holding sb s₀ s (Pi.single i 1) ∅) (member : (s.inode i).inum ∈ named) :
    NamexCorrect sb s₀ data parent (s.inode i).inum [] (resolve sb s₀.image data parent (s.inode i).inum [])
      (Fs.namexEnd sb parent name i s) := by
  have stays := graph.stays holding holding.used_single member
  rw [← zero_add (Pi.single i 1)] at holding
  unfold Fs.namexEnd resolve
  rcases parent with _ | _
  · rw [zero_add] at holding
    exact .inr ⟨some i, name, s, rfl, .found holding, fun isParent => absurd isParent Bool.false_ne_true⟩
  · rcases holding.exists_iput (Set.notMem_empty i) stays with ⟨s', isPut, holding', -⟩
    refine .inr ⟨none, name, s', ?_, .absent holding', fun _ notNone => absurd rfl notNone⟩
    rw [if_pos rfl, isPut]
    rfl

theorem NamexCorrect.cons {target : Option ℕ} {result : Except Stop (Option (Fin ninode) × (ℕ → Byte) × Itable)}
    {word : List Byte} (correct : NamexCorrect sb s₀ data parent v names target result)
    (isDir : (readInode sb s₀.image m).type = tDir) (isMap : toMap (slotsOf (data m)) word = some v) :
    NamexCorrect sb s₀ data parent m (word :: names) target result := by
  rcases correct with ⟨isPanic, noEntry⟩ | ⟨found, name, s, isResult, resolved, isLast⟩
  · exact .inl ⟨isPanic, noEntry.cons isDir isMap⟩
  · refine .inr ⟨found, name, s, isResult, resolved, fun isParent notNone => ?_⟩
    rw [List.getLast?_cons, isLast isParent notNone]
    rfl

/-- There is an entry for the next inode if two entries were unused. -/
theorem Itable.Holding.room (holding : Itable.Holding sb s₀ s (Pi.single i 1) {i}) (spare : Spare s₀) (v : ℕ) :
    s.Room v := by
  have isFree : ∀ k ≠ i, (s₀.inode k).ref = 0 → s.Room v := by
    intro k isOther unused
    refine ⟨k, .inr ?_⟩
    rw [holding.ref, Pi.single_eq_of_ne isOther, unused, Nat.add_zero]
  rcases spare with ⟨a, b, different, unusedA, unusedB⟩
  by_cases isI : a = i
  · exact isFree b (fun isI' => different (isI.trans isI'.symm)) unusedB
  · exact isFree a isI unusedA

/-- An inode that has been found is locked. -/
theorem Graph.lock (graph : Graph sb s₀ named data) (holding : Itable.Holding sb s₀ s (Pi.single i 1) ∅)
    (member : (s.inode i).inum ∈ named) : ∃ s', s.ilock sb i = .ok s' ∧
      Itable.Holding sb s₀ s' (Pi.single i 1) {i} ∧ (s'.inode i).ip = readInode sb s₀.image (s.inode i).inum ∧
      ∀ k, (s'.inode k).inum = (s.inode k).inum := by
  have hasType := graph.allocated _ member
  rw [← holding.image] at hasType ⊢
  rcases holding.exists_ilock holding.used_single (Set.notMem_empty i) hasType with ⟨s', isLock, holding', isIp, inums⟩
  rw [insert_empty_eq] at holding'
  exact ⟨s', isLock, holding', isIp, inums⟩

/-- It is given up. -/
theorem Graph.giveUp (graph : Graph sb s₀ named data) (holding : Itable.Holding sb s₀ s (Pi.single i 1) {i})
    (member : (s.inode i).inum ∈ named) : ∃ s', s.iunlockput sb i = .ok s' ∧ Itable.Holding sb s₀ s' 0 ∅ := by
  have stays := graph.stays holding holding.used_single member
  rw [← zero_add (Pi.single i 1)] at holding
  rcases holding.iunlockput rfl stays with ⟨s', isPut, holding', -⟩
  rw [Set.sdiff_self] at holding'
  exact ⟨s', isPut, holding'⟩

/-- It is given up for the next one. -/
theorem Graph.descend (graph : Graph sb s₀ named data) (holding : Itable.Holding sb s₀ s (Pi.single i 1) {i})
    (member : (s.inode i).inum ∈ named) (got : s.Got v j s') : ∃ s'', s'.iunlockput sb i = .ok s'' ∧
      Itable.Holding sb s₀ s'' (Pi.single j 1) ∅ ∧ (s''.inode j).inum = v := by
  have used := holding.used_single
  have used' : 0 < (s'.inode i).ref := by
    rw [got.ref]
    exact used.trans_le (Nat.le_add_right _ _)
  have member' : (s'.inode i).inum ∈ named := (got.stays used).1.symm ▸ member
  have holding' := holding.got got
  have stays : (readInode sb s'.image (s'.inode i).inum).nlink ≠ 0 ∨
      0 < (s₀.inode i).ref + (Pi.single j 1 : Fin ninode → ℕ) i :=
    (graph.stays holding' used' member').imp_right fun positive => positive.trans_le (Nat.le_add_right _ _)
  rw [add_comm] at holding'
  rcases holding'.iunlockput rfl stays with ⟨s'', isPut, holding'', inums⟩
  rw [Set.sdiff_self] at holding''
  exact ⟨s'', isPut, holding'', (inums j).trans got.inum⟩

/-- The loop of `namex` follows the names. -/
theorem Graph.namexLoop (graph : Graph sb s₀ named data) (devsw : Devsw) (parent : Bool) (passes : ℕ) : ∀ path name i s,
    path.length ≤ passes → 0 ∉ path → Itable.Holding sb s₀ s (Pi.single i 1) ∅ → (s.inode i).inum ∈ named →
    NamexCorrect sb s₀ data parent (s.inode i).inum (namesOf path)
      (resolve sb s₀.image data parent (s.inode i).inum (namesOf path)) (Fs.namexLoop devsw sb parent passes path name i s) := by
  induction passes with
  | zero =>
      intro path name i s short _ holding member
      rw [List.eq_nil_of_length_eq_zero (Nat.le_zero.1 short)]
      exact graph.namexEnd name holding member
  | succ passes ih =>
      intro path name i s short noNul holding member
      rw [Fs.namexLoop]
      rcases isSkip : skipelem path name with _ | ⟨rest, name'⟩
      · have isNames : namesOf path = [] := by
          unfold namesOf
          rw [skipelem_none isSkip]
          rfl
        rw [isNames]
        exact graph.namexEnd name holding member
      · rcases skipelem_some noNul isSkip with ⟨word, isWord, isName, shorter, noNul', noSlash⟩
        have isNames : namesOf path = key name' :: namesOf rest := by
          unfold namesOf
          rw [isWord, isName]
          rfl
        have isEnd : namesOf rest = [] ↔ rest = [] := by
          constructor
          · intro none
            by_contra notEmpty
            exact components_ne_nil notEmpty noSlash (List.map_eq_nil_iff.1 none)
          · rintro rfl
            rfl
        rcases graph.lock holding member with ⟨s₁, isLock, holding₁, isIp, inum₁⟩
        have member₁ : (s₁.inode i).inum ∈ named := (inum₁ i).symm ▸ member
        rw [isNames]
        dsimp only
        rw [isLock]
        change NamexCorrect _ _ _ _ _ _ _ (if (s₁.inode i).ip.type ≠ tDir then _ else _)
        rw [isIp]
        -- the exits that give up the inode
        rcases graph.giveUp holding₁ member₁ with ⟨s₂, isPut, holding₂⟩
        have absent : NamexCorrect sb s₀ data parent (s.inode i).inum (key name' :: namesOf rest) none (do
            let s ← s₁.iunlockput sb i
            return (none, name', s)) := by
          refine .inr ⟨none, name', s₂, ?_, .absent holding₂, fun _ notNone => absurd rfl notNone⟩
          rw [isPut]
          rfl
        split
        · rename_i notDir
          rw [resolve_notDirectory _ _ notDir]
          exact absent
        · rename_i isDir
          rw [not_not] at isDir
          split
          · rename_i isLast
            rcases isLast with ⟨rfl, rfl⟩
            rcases holding₁.exists_iunlock holding₁.used_single (Set.mem_singleton i) with ⟨s₃, isUnlock, holding₃, inum₃⟩
            rw [Set.sdiff_self] at holding₃
            have isTarget : resolve sb s₀.image data true (s.inode i).inum [key name'] =
                some (s₃.inode i).inum := by
              unfold resolve
              rw [if_pos rfl, walkParent_single, if_pos isDir, inum₃, inum₁]
            rw [isEnd.2 rfl, isTarget]
            refine .inr ⟨some i, name', s₃, ?_, .found holding₃, fun _ _ => rfl⟩
            rw [isUnlock]
            rfl
          · rename_i notLast
            have directory := graph.directory _ member isDir
            rw [← isIp, ← holding₁.image] at directory
            rw [directory.dirlookup, resolve_next isDir fun both => notLast ⟨both.1, isEnd.1 both.2⟩]
            rcases isMap : toMap (slotsOf (data (s.inode i).inum)) (key name') with _ | v
            · rw [scan_absent isMap]
              exact absent
            · rcases scan_present isMap with ⟨k, isScan, holds⟩
              have member' : v ∈ named := graph.entries _ member isDir k _ v holds
              rw [isScan, lookupResult]
              rcases isGet : s₁.iget v with stop | ⟨j, s₃⟩
              · rcases Itable.iget_full isGet with ⟨rfl, full⟩
                refine .inl ⟨rfl, .inr ⟨0, Nat.succ_pos _, (s.inode i).inum, v, rfl, ?_, ?_⟩⟩
                · rw [List.take_succ_cons, walk, if_pos isDir, isMap]
                  rfl
                · rw [← inum₁ i]
                  exact holding₁.crowded full
              · have got := Itable.iget_got isGet
                rcases graph.descend holding₁ member₁ got with ⟨s₄, isPut₄, holding₄, isInum⟩
                have later := ih rest name' j s₄ (by omega) noNul' holding₄ (isInum.symm ▸ member')
                rw [isInum] at later
                change NamexCorrect _ _ _ _ _ _ _ (s₃.iunlockput sb i >>= _)
                rw [isPut₄]
                exact later.cons isDir isMap

theorem Itable.Holding.start (ok : s.Ok) (coherent : s.Coherent sb) (free : ∀ i, (s.inode i).locked = false) :
    Itable.Holding sb s s 0 ∅ :=
  ⟨ok, coherent, fun _ => rfl, fun _ _ => rfl, fun k => iff_of_false (by rw [free k]; exact Bool.false_ne_true)
    (Set.notMem_empty k), rfl⟩

/-- `idup` -/
theorem Itable.idup_got (s : Itable) (used : 0 < (s.inode i).ref) : s.Got (s.inode i).inum i (s.idup i) :=
  .again used rfl

/-- Where a path starts: at the root, or at the directory of the process. -/
def startOf (s : Itable) (path : List Byte) (cwd : Fin ninode) : ℕ :=
  if path.head? = some slash then rootino else (s.inode cwd).inum

/-- `namex` follows the names of a path. -/
theorem Graph.namex (graph : Graph sb s named data) (devsw : Devsw) (parent : Bool) (ok : s.Ok) (coherent : s.Coherent sb)
    (free : ∀ i, (s.inode i).locked = false) (used : 0 < (s.inode cwd).ref) (member : (s.inode cwd).inum ∈ named)
    (noNul : 0 ∉ path) (name : ℕ → Byte) : NamexCorrect sb s data parent (startOf s path cwd) (namesOf path)
      (resolve sb s.image data parent (startOf s path cwd) (namesOf path))
      (Fs.namex devsw sb path parent name cwd s) := by
  have holding := Itable.Holding.start ok coherent free
  unfold Fs.namex startOf
  split
  · rcases isGet : s.iget rootino with stop | ⟨i, s₁⟩
    · rcases Itable.iget_full isGet with ⟨rfl, full⟩
      have isUsed : ∀ k, 0 < (s.inode k).ref := by
        intro k
        by_contra unused
        exact full ⟨k, .inr (Nat.eq_zero_of_not_pos unused)⟩
      refine .inl ⟨rfl, .inl ⟨fun k used isRoot => full ⟨k, .inl ⟨used, isRoot⟩⟩, 0, fun k _ => isUsed k, .inl (isUsed 0)⟩⟩
    · have got := Itable.iget_got isGet
      have holding₁ := holding.got got
      rw [zero_add] at holding₁
      have later := graph.namexLoop devsw parent path.length path name i s₁ le_rfl noNul holding₁
        (got.inum.symm ▸ graph.root)
      rw [got.inum] at later
      exact later
  · have got := s.idup_got used
    have holding₁ := holding.got got
    rw [zero_add] at holding₁
    have later := graph.namexLoop devsw parent path.length path name cwd _ le_rfl noNul holding₁
      (got.inum.symm ▸ member)
    rw [got.inum] at later
    exact later

end Xv6.Fs
