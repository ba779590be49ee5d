import Xv6.Fs.Append

/-!
# The image that `mkfs` writes

What the inodes hold after each input file, and after the size of the root directory is rounded up.
-/

namespace Xv6.Fs

open Bytes

variable {s s' : Mkfs} {dinode : ℕ → Dinode} {content : ℕ → List Byte} {files : List Input} {file : Input}
  {i j k type y : ℕ}

/-- A new inode holds no bytes. -/
theorem Stored.ialloc (stored : Stored s dinode content) (positive : 1 ≤ s.freeinode) {d : Dinode}
    (none : d.addrs = fun _ => 0) (fits : d.Fits) (new : s'.freeinode = s.freeinode + 1)
    (image : s'.image = s.image) (freeblock : s'.freeblock = s.freeblock) :
    Stored s' (Function.update dinode s.freeinode d) (Function.update content s.freeinode []) := by
  have cases : ∀ i ∈ inodes s', i = s.freeinode ∨ i ∈ inodes s ∧ i ≠ s.freeinode := by
    rintro i ⟨above, below⟩
    rw [new] at below
    by_cases isNew : i = s.freeinode
    · exact .inl isNew
    · exact .inr ⟨⟨above, by omega⟩, isNew⟩
  have older : ∀ i ∈ inodes s, i ∈ inodes s' ∧ i ≠ s.freeinode := fun i member =>
    ⟨⟨member.1, member.2.trans (by omega)⟩, member.2.ne⟩
  have empty : ∀ k, slot s.image (Function.update dinode s.freeinode d s.freeinode) k = 0 := by
    intro k
    rw [Function.update_self]
    exact slot_none none
  have isAllocated : allocated s' = allocated s := by
    unfold allocated
    rw [freeblock]
  refine ⟨⟨⟨fun x => ?_, fun i isInode j isInode' k bound l bound' same has => ?_⟩, fun i isInode k less => ?_,
    fun i isInode => ?_, ?_, ?_, fun i isInode => ?_⟩, ⟨fun i isInode m less => ?_, fun i isInode m less => ?_,
    fun i isInode => ?_⟩, fun i isInode k less has => ?_⟩
  · rw [isAllocated, stored.laid.mapping.used, image]
    refine and_congr_right fun notZero => ⟨?_, ?_⟩
    · rintro ⟨i, isInode, k, bound, isX⟩
      refine ⟨i, (older i isInode).1, k, bound, ?_⟩
      rw [Function.update_of_ne (older i isInode).2]
      exact isX
    · rintro ⟨i, isInode, k, bound, isX⟩
      rcases cases i isInode with rfl | ⟨isOld, different⟩
      · rw [empty] at isX
        exact absurd isX.symm notZero
      · rw [Function.update_of_ne different] at isX
        exact ⟨i, isOld, k, bound, isX⟩
  · rw [image] at same has
    rcases cases i isInode with rfl | ⟨isOld, different⟩
    · exact absurd (empty k) has
    · rcases cases j isInode' with rfl | ⟨isOld', different'⟩
      · rw [empty] at same
        exact absurd same has
      · rw [Function.update_of_ne different] at same has
        rw [Function.update_of_ne different'] at same
        exact stored.laid.mapping.single i isOld j isOld' k bound l bound' same has
  · rw [image]
    rcases cases i isInode with rfl | ⟨isOld, different⟩
    · rw [empty, Function.update_self]
      simp
    · rw [Function.update_of_ne different, Function.update_of_ne different]
      exact stored.laid.data i isOld k less
  · rcases cases i isInode with rfl | ⟨isOld, different⟩
    · rw [Function.update_self, Function.update_self]
      unfold Dinode.addr
      rw [none]
      simp
    · rw [Function.update_of_ne different, Function.update_of_ne different]
      exact stored.laid.indirect i isOld
  · rw [image, freeblock]
    exact stored.laid.fresh
  · rw [freeblock, new, Finset.sum_Ico_succ_top positive, Function.update_self, stored.laid.count]
    refine congrArg (nmeta + ·) (Eq.symm ?_)
    have zero : needed ([] : List Byte).length = 0 := by decide
    rw [zero, Nat.add_zero]
    refine Finset.sum_congr rfl fun i isInode => ?_
    rw [Function.update_of_ne (Finset.mem_Ico.1 isInode).2.ne]
  · rcases cases i isInode with rfl | ⟨isOld, different⟩
    · rw [Function.update_self]
      exact fits
    · rw [Function.update_of_ne different]
      exact stored.laid.fits i isOld
  · rcases cases i isInode with rfl | ⟨isOld, different⟩
    · rw [Function.update_self] at less
      exact absurd less (Nat.not_lt_zero _)
    · rw [Function.update_of_ne different] at less
      rw [image, Function.update_of_ne different]
      exact stored.contents.mapped i isOld m less
  · rcases cases i isInode with rfl | ⟨isOld, different⟩
    · rw [Function.update_self] at less
      exact absurd less (Nat.not_lt_zero _)
    · rw [Function.update_of_ne different] at less
      rw [image, Function.update_of_ne different, Function.update_of_ne different]
      exact stored.contents.bytes i isOld m less
  · rcases cases i isInode with rfl | ⟨isOld, different⟩
    · rw [Function.update_self]
      exact Nat.zero_le _
    · rw [Function.update_of_ne different]
      exact stored.contents.bound i isOld
  · rw [image] at has ⊢
    rcases cases i isInode with rfl | ⟨isOld, different⟩
    · exact absurd (empty k) has
    · rw [Function.update_of_ne different] at has ⊢
      rw [Function.update_of_ne different]
      exact stored.tails i isOld k less has

/-- `ialloc` takes the next inode. -/
theorem Holds.ialloc (holds : Holds s dinode content) (positive : 1 ≤ s.freeinode)
    (room : s.freeinode ≤ ninodes) (type : ℕ) (small : type < 256 ^ 2) :
    (s.ialloc type).1 = s.freeinode ∧
    Holds (s.ialloc type).2 (Function.update dinode s.freeinode { type, nlink := 1 })
      (Function.update content s.freeinode []) ∧
    (s.ialloc type).2.freeinode = s.freeinode + 1 ∧
    ∀ y < sb.inodestart, (s.ialloc type).2.image y = s.image y := by
  have fits : ({ type, nlink := 1 } : Dinode).Fits :=
    ⟨small, by norm_num, by norm_num, by norm_num, by norm_num, fun _ => by norm_num⟩
  refine ⟨rfl, ⟨?_, fun i isInode => ?_, fun i isInode => ?_, fun i few isFree => ?_, Nat.succ_le_succ room⟩, rfl,
    fun y less => ?_⟩
  · refine Stored.winode ?_ room
    exact holds.stored.ialloc positive rfl fits rfl rfl rfl
  · by_cases isNew : i = s.freeinode
    · subst isNew
      rw [Function.update_self]
      exact rinode_winode fits
    · rw [Function.update_of_ne isNew]
      have isOld : i ∈ inodes s := ⟨isInode.1, (Nat.le_of_lt_succ isInode.2).lt_of_ne isNew⟩
      exact (rinode_winode_other isNew).trans (holds.onDisk i isOld)
  · rw [Function.update_apply, Function.update_apply]
    by_cases isNew : i = s.freeinode
    · rw [if_pos isNew, if_pos isNew]
      rfl
    · rw [if_neg isNew, if_neg isNew]
      exact holds.size i ⟨isInode.1, (Nat.le_of_lt_succ isInode.2).lt_of_ne isNew⟩
  · have isNew : i ≠ s.freeinode := by
      rintro rfl
      exact isFree ⟨positive, Nat.lt_succ_self _⟩
    have isFree' : i ∉ inodes s := fun isInode => isFree ⟨isInode.1, isInode.2.trans (Nat.lt_succ_self _)⟩
    exact (rinode_winode_other isNew).trans (holds.free i few isFree')
  · exact Function.update_of_ne (less.trans_le (iblock_bounds room).1).ne _ _

/-! ## What `main` makes -/

/-- The bytes of an input file. -/
def Input.bytes (file : Input) : List Byte := file.reads.flatten

/-- The entries of the root directory. -/
def entries (files : List Input) : List (ℕ × List Byte) :=
  [(rootino, [dot]), (rootino, [dot, dot])] ++
    files.mapIdx fun k file => (k + 2, skipUnderscore file.name)

/-- The bytes of the root directory. -/
def rootBytes (files : List Input) : List Byte := (entries files).flatMap fun entry => dirent entry.1 entry.2

/-- The bytes of the inode `i`. -/
def contentOf (files : List Input) : ℕ → List Byte
  | 0 => []
  | 1 => rootBytes files
  | k + 2 => ((files[k]?).map Input.bytes).getD []

theorem length_dirent (inum : ℕ) (name : List Byte) : (dirent inum name).length = 16 := by
  unfold dirent padName dirsiz
  rw [List.length_cons, List.length_cons, List.length_append, List.length_take, List.length_replicate]
  omega

theorem length_rootBytes (files : List Input) : (rootBytes files).length = 16 * (files.length + 2) := by
  have sum : ∀ list : List (ℕ × List Byte),
      (list.flatMap fun entry => dirent entry.1 entry.2).length = 16 * list.length := by
    intro list
    induction list with
    | nil => rfl
    | cons entry list ih =>
        rw [List.flatMap_cons, List.length_append, ih, length_dirent, List.length_cons]
        omega
  unfold rootBytes entries
  rw [sum, List.length_append, List.length_mapIdx]
  exact congrArg (16 * ·) (Nat.add_comm _ _)

theorem entries_append : entries (files ++ [file]) =
    entries files ++ [(files.length + 2, skipUnderscore file.name)] := by
  unfold entries
  rw [List.mapIdx_append, ← List.append_assoc, List.mapIdx_cons, List.mapIdx_nil, Nat.zero_add]

theorem rootBytes_append : rootBytes (files ++ [file]) =
    rootBytes files ++ dirent (files.length + 2) (skipUnderscore file.name) := by
  unfold rootBytes
  rw [entries_append, List.flatMap_append, List.flatMap_singleton]

/-- After the first input files. -/
structure Made (s : Mkfs) (files : List Input) : Prop where
  holds : ∃ dinode, Holds s dinode (contentOf files) ∧ (dinode rootino).type = tDir ∧
    ∀ k < files.length, (dinode (k + 2)).type = tFile
  freeinode : s.freeinode = files.length + 2
  superblock : s.image 1 = Mkfs.superblock

theorem contentOf_append : contentOf (files ++ [file]) =
    Function.update (Function.update (contentOf files) rootino (rootBytes (files ++ [file])))
      (files.length + 2) file.bytes := by
  funext i
  rw [Function.update_apply, Function.update_apply]
  match i with
  | 0 => rfl
  | 1 => rfl
  | k + 2 =>
      have notRoot : k + 2 ≠ rootino := by
        unfold rootino
        omega
      rw [if_neg notRoot]
      unfold contentOf
      dsimp only
      by_cases isNew : k = files.length
      · rw [if_pos (congrArg (· + 2) isNew), isNew, List.getElem?_concat_length]
        rfl
      · rw [if_neg (by omega), List.getElem?_append]
        split
        · rfl
        · rename_i more
          rw [List.getElem?_eq_none (Nat.not_lt.1 more), List.getElem?_eq_none]
          rw [List.length_singleton]
          omega

/-- One more input file. -/
theorem Made.addFile (made : Made s files) (noSlash : slash ∉ file.name) (room : files.length + 2 ≤ ninodes)
    (small : file.bytes.length ≤ maxfile * bsize) :
    ∃ s', s.addFile file = some s' ∧ Made s' (files ++ [file]) := by
  rcases made.holds with ⟨dinode, holds, isDir, isFile⟩
  have isNew := made.freeinode
  have rootNe : rootino ≠ s.freeinode := by
    rw [isNew]
    unfold rootino
    omega
  rcases holds.ialloc (by omega) (by omega) tFile (by decide) with ⟨isInum, holds₁, freeinode₁, head₁⟩
  have isRoot : rootino ∈ inodes (s.ialloc tFile).2 := ⟨le_rfl, by
    rw [freeinode₁, isNew]
    unfold rootino
    omega⟩
  have isContent : Function.update (contentOf files) s.freeinode [] rootino = rootBytes files :=
    Function.update_of_ne rootNe _ _
  generalize isAlloc : s.ialloc tFile = allocated at *
  rcases holds₁.iappend isRoot (dirent s.freeinode (skipUnderscore file.name)) (by
    rw [isContent, length_rootBytes, length_dirent]
    unfold maxfile ndirect nindirect bsize
    unfold ninodes at room
    omega) with ⟨d₂, s₂, isCode₂, entry⟩
  have isFile' : s.freeinode ∈ inodes s₂ := ⟨by omega, by
    rw [entry.freeinode, freeinode₁]
    exact Nat.lt_succ_self _⟩
  have isEmpty : Function.update (Function.update (contentOf files) s.freeinode []) rootino
      (Function.update (contentOf files) s.freeinode [] rootino ++
        dirent s.freeinode (skipUnderscore file.name)) s.freeinode = [] := by
    rw [Function.update_of_ne rootNe.symm, Function.update_self]
  rcases entry.holds.reads file.reads isFile' (by
    rw [isEmpty, List.length_nil, Nat.zero_add]
    exact small) with ⟨d₃, s₃, isCode₃, bytes⟩
  have holds₃ := bytes.holds
  have isContent' : Function.update (Function.update (Function.update (contentOf files) s.freeinode []) rootino
      (rootBytes files ++ dirent s.freeinode (skipUnderscore file.name))) s.freeinode file.reads.flatten =
        contentOf (files ++ [file]) := by
    rw [Function.update_comm rootNe.symm, Function.update_idem, contentOf_append, rootBytes_append, ← isNew]
    rfl
  rw [isEmpty, isContent, List.nil_append, isContent'] at holds₃
  refine ⟨s₃, ?_, ⟨_, holds₃, ?_, fun k less => ?_⟩, ?_, ?_⟩
  · unfold Mkfs.addFile
    rw [if_neg noSlash, isAlloc]
    dsimp only
    rw [isInum, isCode₂]
    exact isCode₃
  · rw [Function.update_of_ne rootNe, Function.update_self]
    have isType := entry.type
    rw [Function.update_of_ne rootNe] at isType
    exact isType.trans isDir
  · rw [List.length_append, List.length_singleton] at less
    have notRoot : k + 2 ≠ rootino := by
      unfold rootino
      omega
    by_cases isThis : k + 2 = s.freeinode
    · rw [isThis, Function.update_self]
      have isType := bytes.type
      rw [Function.update_of_ne rootNe.symm, Function.update_self] at isType
      exact isType
    · rw [Function.update_of_ne isThis, Function.update_of_ne notRoot, Function.update_of_ne isThis]
      exact isFile k (by omega)
  · rw [bytes.freeinode, entry.freeinode, freeinode₁, isNew, List.length_append, List.length_singleton]
  · have first : 1 < sb.inodestart := by decide
    rw [bytes.head 1 first, entry.head 1 first, head₁ 1 first]
    exact made.superblock

/-- All input files. -/
theorem Made.addFiles (rest : List Input) : ∀ {s : Mkfs} {files : List Input}, Made s files →
    (∀ file ∈ rest, slash ∉ file.name) → files.length + rest.length + 1 ≤ ninodes →
    (∀ file ∈ rest, file.bytes.length ≤ maxfile * bsize) →
    ∃ s', rest.foldlM (fun s file => s.addFile file) s = some s' ∧ Made s' (files ++ rest) := by
  induction rest with
  | nil =>
      intro s files made _ _ _
      rw [List.append_nil]
      exact ⟨s, rfl, made⟩
  | cons file rest ih =>
      intro s files made noSlash room small
      rw [List.length_cons] at room
      rcases made.addFile (noSlash file (List.mem_cons_self ..)) (by omega)
        (small file (List.mem_cons_self ..)) with ⟨s₁, isCode, made₁⟩
      rcases ih made₁ (fun other isOther => noSlash other (List.mem_cons_of_mem _ isOther)) (by
        rw [List.length_append, List.length_singleton]
        omega) (fun other isOther => small other (List.mem_cons_of_mem _ isOther)) with ⟨s', isCode', made'⟩
      refine ⟨s', ?_, ?_⟩
      · rw [List.foldlM_cons, isCode]
        exact isCode'
      · rw [List.append_assoc] at made'
        exact made'

/-- The first image: the superblock, and no inodes. -/
theorem holds_superblock : Holds (Mkfs.wsect {} 1 Mkfs.superblock) (fun _ => {}) fun _ => [] := by
  have isInodes : inodes (Mkfs.wsect {} 1 Mkfs.superblock) = ∅ := by
    ext i
    refine ⟨fun member => ?_, fun member => absurd member (Set.notMem_empty i)⟩
    have both : 1 ≤ i ∧ i < 1 := member
    omega
  have none : ∀ i, i ∉ inodes (Mkfs.wsect {} 1 Mkfs.superblock) := by
    intro i
    rw [isInodes]
    exact Set.notMem_empty i
  have isAllocated : ∀ x, x ∉ allocated (Mkfs.wsect {} 1 Mkfs.superblock) := by
    intro x member
    have both : nmeta ≤ x ∧ x < nmeta := member
    omega
  have zero : ∀ x ≠ 1, (Mkfs.wsect {} 1 Mkfs.superblock).image x = zeroes :=
    fun x other => Function.update_of_ne other _ _
  refine ⟨⟨⟨⟨fun x => ⟨fun member => absurd member (isAllocated x), ?_⟩, fun i isInode => absurd isInode (none i)⟩,
    fun i isInode => absurd isInode (none i), fun i isInode => absurd isInode (none i), fun x above m _ => ?_, ?_,
    fun i isInode => absurd isInode (none i)⟩, ⟨fun i isInode => absurd isInode (none i),
    fun i isInode => absurd isInode (none i), fun i isInode => absurd isInode (none i)⟩,
    fun i isInode => absurd isInode (none i)⟩, fun i isInode => absurd isInode (none i),
    fun i isInode => absurd isInode (none i), fun i few _ => ?_, by decide⟩
  · rintro ⟨_, i, isInode, _⟩
    exact absurd isInode (none i)
  · have isAbove : nmeta ≤ x := above
    have one : 1 < nmeta := by decide
    rw [zero x (one.trans_le isAbove).ne']
    rfl
  · rfl
  · unfold Mkfs.rinode
    have one : 1 < sb.inodestart := by decide
    rw [zero _ (one.trans_le (iblock_bounds few).1).ne']
    have none : ∀ width offset, get zeroes width offset = 0 := fun width offset => get_zero width fun _ _ => rfl
    unfold dinodeAt
    simp only [none]

/-- The root directory with its first two entries. -/
theorem made_makeRoot : ∃ s, Mkfs.makeRoot = some s ∧ Made s [] := by
  rcases holds_superblock.ialloc le_rfl (by decide) tDir (by decide) with
    ⟨isInum, holds, freeinode, head⟩
  rw [show (Mkfs.wsect {} 1 Mkfs.superblock).freeinode = rootino from rfl] at isInum holds freeinode
  rw [Function.update_eq_self] at holds
  generalize isAllocated : Mkfs.ialloc (Mkfs.wsect {} 1 Mkfs.superblock) tDir = allocated at *
  have isCode : Mkfs.makeRoot = (if allocated.1 = rootino then do
      let s ← allocated.2.iappend rootino (dirent rootino [dot])
      s.iappend rootino (dirent rootino [dot, dot])
      else none) := by
    rw [← isAllocated]
    rfl
  have isRoot : rootino ∈ inodes allocated.2 := ⟨le_rfl, by
    rw [freeinode]
    exact Nat.lt_succ_self _⟩
  rcases holds.iappend isRoot (dirent rootino [dot]) (by decide) with ⟨d₁, s₁, isCode₁, first⟩
  have isRoot₁ : rootino ∈ inodes s₁ := inodes_congr first.freeinode ▸ isRoot
  have holds₁ := first.holds
  rw [List.nil_append] at holds₁
  rcases holds₁.iappend isRoot₁ (dirent rootino [dot, dot]) (by
    rw [Function.update_self]
    decide) with ⟨d₂, s₂, isCode₂, second⟩
  have holds₂ := second.holds
  have isContent : Function.update (Function.update (fun _ => []) rootino (dirent rootino [dot])) rootino
      (dirent rootino [dot] ++ dirent rootino [dot, dot]) = contentOf [] := by
    funext i
    rw [Function.update_idem, Function.update_apply]
    rcases i with _ | _ | k
    · rfl
    · rfl
    · rfl
  rw [Function.update_self, isContent] at holds₂
  refine ⟨s₂, ?_, ⟨_, holds₂, ?_, fun k less => absurd less (Nat.not_lt_zero k)⟩, ?_, ?_⟩
  · rw [isCode, if_pos isInum, isCode₁]
    exact isCode₂
  · have isType := second.type
    rw [Function.update_self, first.type, Function.update_self] at isType
    rw [Function.update_self]
    exact isType
  · rw [second.freeinode, first.freeinode, freeinode]
    rfl
  · have one : 1 < sb.inodestart := by decide
    rw [second.head 1 one, first.head 1 one, head 1 one]
    unfold Mkfs.wsect
    dsimp only
    rw [Function.update_self]

end Xv6.Fs
