import Xv6.Fs.Freeing

/-!
# Removed names

`sys_unlink`. The entry is erased first; then the link counts are lowered, and the inode is freed with the last
`iput` if nothing is left that refers to it. `begin_op` and `end_op` are left out.
-/

namespace Xv6.Fs

open Bytes SlotTable

/-- The names `.` and `..` -/
def dotName : List Byte := [dot]

def dotdotName : List Byte := [dot, dot]

/-- The string constant with these characters. -/
def literal (text : List Byte) (m : ℕ) : Byte := text.getD m 0

/-- The loop of `isdirempty`, for so many entries at most. -/
def isdiremptyLoop (devsw : Devsw) (sb : Superblock) (dp : Fin ninode) :
    ℕ → ℕ → Itable → Except Stop (Bool × Itable)
  | 0, _, s => .ok (true, s)
  | passes + 1, off, s =>
      if off < (s.inode dp).ip.size then do
        let (result, s) ← s.readi devsw sb dp off 16
        match result with
        | none => .error (.panic "isdirempty: readi")
        | some de =>
            if de.length ≠ 16 then .error (.panic "isdirempty: readi")
            else if inumOf de ≠ 0 then .ok (false, s)
            else isdiremptyLoop devsw sb dp passes (off + 16) s
      else .ok (true, s)

/-- `isdirempty` -/
def isdirempty (devsw : Devsw) (sb : Superblock) (s : Itable) (dp : Fin ninode) : Except Stop (Bool × Itable) :=
  isdiremptyLoop devsw sb dp (s.inode dp).ip.size 32 s

/-- What `sys_unlink` does after `bad`. -/
def unlinkBad (sb : Superblock) (dp : Fin ninode) (s : Itable) : Except Stop (ℤ × Itable) := do
  let s ← s.iunlockput sb dp
  return (-1, s)

/-- The part of `sys_unlink` that cannot fail any more. -/
def unlinkErase (devsw : Devsw) (sb : Superblock) (dp ip : Fin ninode) (off : ℕ) (s : Itable) :
    Except Stop (ℤ × Itable) := do
  let s ← eraseEntry devsw sb s dp off
  let s := if (s.inode ip).ip.type = tDir then s.addLinks sb dp (2 ^ 16 - 1) else s
  let s ← s.iunlockput sb dp
  let s := s.addLinks sb ip (2 ^ 16 - 1)
  let s ← s.iunlockput sb ip
  return (0, s)

/-- `!(ip->type == T_DIR && !isdirempty(ip))` -/
def mayUnlink (devsw : Devsw) (sb : Superblock) (ip : Fin ninode) (s : Itable) : Except Stop (Bool × Itable) :=
  if (s.inode ip).ip.type = tDir then isdirempty devsw sb s ip else .ok (true, s)

/-- The part of `sys_unlink` that has found the entry. -/
def unlinkFound (devsw : Devsw) (sb : Superblock) (dp ip : Fin ninode) (off : ℕ) (s : Itable) :
    Except Stop (ℤ × Itable) := do
  let s ← s.ilock sb ip
  if shortOf (s.inode ip).ip.nlink < 1 then .error (.panic "unlink: nlink < 1")
  else
    let (may, s) ← mayUnlink devsw sb ip s
    if may then unlinkErase devsw sb dp ip off s
    else
      let s ← s.iunlockput sb ip
      unlinkBad sb dp s

/-- The part of `sys_unlink` that has found the directory. -/
def unlinkIn (devsw : Devsw) (sb : Superblock) (dp : Fin ninode) (name : ℕ → Byte) (s : Itable) :
    Except Stop (ℤ × Itable) := do
  let s ← s.ilock sb dp
  if namecmp name (literal dotName) = 0 ∨ namecmp name (literal dotdotName) = 0 then unlinkBad sb dp s
  else
    let (found, s) ← dirlookup devsw sb s dp name
    match found with
    | none => unlinkBad sb dp s
    | some (ip, off) => unlinkFound devsw sb dp ip off s

/-- `sys_unlink`; the argument is missing if `argstr` fails, and the buffer for the name holds anything. -/
def sys_unlink (devsw : Devsw) (sb : Superblock) (path : Option (List Byte)) (buffer : ℕ → Byte)
    (cwd : Fin ninode) (s : Itable) : Except Stop (ℤ × Itable) :=
  match path with
  | none => .ok (-1, s)
  | some path => do
      let (parent, name, s) ← nameiparent devsw sb path buffer cwd s
      match parent with
      | none => return (-1, s)
      | some dp => unlinkIn devsw sb dp name s

variable {devsw : Devsw} {sb : Superblock} {s s' s'' s₀ s₂ : Itable} {inodes named : Set ℕ} {data : ℕ → List Byte}
  {i j k dp cwd : Fin ninode} {e : Fin ninode → ℕ} {held : Set (Fin ninode)} {image : ℕ → Block}
  {content path last : List Byte} {name : ℕ → Byte} {d v l m n : ℕ}

/-! ## Empty directories -/

/-- Nothing is in the slots behind those for `.` and `..`. -/
def noneBehindDots (slots : List (Option (List Byte × ℕ))) : Bool := (slots.drop 2).all Option.isNone

theorem Directory.isdiremptyLoop (directory : Directory (s.inode dp).ip s.image content) (devsw : Devsw)
    (sb : Superblock) (passes : ℕ) : ∀ k, content.length ≤ 16 * k + passes →
    Fs.isdiremptyLoop devsw sb dp passes (16 * k) s = .ok (((slotsOf content).drop k).all Option.isNone, s) := by
  have whole := directory.whole
  have atEnd : ∀ k, content.length ≤ 16 * k → ((slotsOf content).drop k).all Option.isNone = true := by
    intro k beyond
    rw [List.drop_of_length_le]
    · rfl
    · rw [length_slotsOf]
      omega
  induction passes with
  | zero =>
      intro k enough
      rw [atEnd k enough]
      rfl
  | succ passes ih =>
      intro k enough
      rw [Fs.isdiremptyLoop, directory.regular.size]
      by_cases less : 16 * k < content.length
      · have next := ih (k + 1) (by omega)
        rw [Nat.mul_add_one] at next
        rcases directory.readi devsw sb less with ⟨isRead, isLength⟩
        rw [if_pos less, isRead, drop_slotsOf less whole]
        generalize (content.drop (16 * k)).take 16 = de at isLength
        change (if de.length ≠ 16 then _ else _) = _
        rw [if_neg (not_not_intro isLength), slotOf, List.all_cons]
        split
        · rfl
        · rename_i isEmpty
          rw [if_pos (not_not.1 isEmpty), next]
          rfl
      · rw [if_neg less, atEnd k (Nat.not_lt.1 less)]

theorem Directory.isdirempty (directory : Directory (s.inode dp).ip s.image content) (devsw : Devsw) (sb : Superblock) :
    Fs.isdirempty devsw sb s dp = .ok (noneBehindDots (slotsOf content), s) := by
  unfold Fs.isdirempty
  rw [directory.regular.size]
  exact directory.isdiremptyLoop devsw sb _ 2 (by omega)

/-! ## Consistent link counts -/

/-- What the link counts are for: an entry other than `.` and `..` leads to another inode, which has a link, and a
directory with such an entry for a directory has two. -/
def Counted (sb : Superblock) (s : Itable) (named : Set ℕ) (data : ℕ → List Byte) : Prop :=
  ∀ d ∈ named, (readInode sb s.image d).type = tDir → ∀ k name v, HasPair (slotsOf (data d)) k name v →
    name ≠ dotName → name ≠ dotdotName → v ≠ d ∧ 0 < (readInode sb s.image v).nlink ∧
    ((readInode sb s.image v).type = tDir → 2 ≤ (readInode sb s.image d).nlink)

/-- There is another reference to the inode. -/
def Referenced (s : Itable) (v : ℕ) : Prop := ∃ k, 0 < (s.inode k).ref ∧ (s.inode k).inum = v

/-- `sys_unlink` has removed one entry, for the inode `v`, from the directory `d`. -/
structure Unlinking (sb : Superblock) (s s' : Itable) (inodes : Set ℕ) (data : ℕ → List Byte) (v d : ℕ)
    (name : List Byte) : Prop where
  holding : Itable.Holding sb { s with image := s'.image } s' 0 ∅
  entry : ∃ k content, HasPair (slotsOf (data d)) k name v ∧ Directory (readInode sb s'.image d) s'.image content ∧
    slotsOf content = put (slotsOf (data d)) k none ∧
    toMap (slotsOf content) = Function.update (toMap (slotsOf (data d))) name none
  parent : (readInode sb s'.image d).nlink =
    (readInode sb s.image d).nlink - if (readInode sb s.image v).type = tDir then 1 else 0
  kept : (readInode sb s.image v).nlink ≠ 1 ∨ Referenced s v →
    readInode sb s'.image v = withLinks (readInode sb s.image v) ((readInode sb s.image v).nlink - 1) ∧
    SameBlocks (readInode sb s.image v) s.image s'.image
  freed : (readInode sb s.image v).nlink = 1 → ¬Referenced s v →
    (readInode sb s'.image v).type = 0 ∧ ∀ k ≤ maxfile, slot s.image (readInode sb s.image v) k ≠ 0 →
      inUse sb s'.image (slot s.image (readInode sb s.image v) k) = false
  others : ∀ n ∈ inodes, n ≠ v → n ≠ d → Untouched sb n (readInode sb s.image n) s.image s'.image
  files : Files sb inodes (readInode sb s'.image) s'.image

/-- The path names an entry that `sys_unlink` should remove. -/
structure Removable (sb : Superblock) (s : Itable) (data : ℕ → List Byte) (cwd : Fin ninode) (path : List Byte)
    (v d : ℕ) (name : List Byte) : Prop where
  parent : walkParent sb s.image data (startOf s path cwd) (namesOf path) = some d
  last : (namesOf path).getLast? = some name
  notDot : name ≠ dotName
  notDotdot : name ≠ dotdotName
  entry : toMap (slotsOf (data d)) name = some v
  empty : (readInode sb s.image v).type = tDir → noneBehindDots (slotsOf (data v)) = true

/-! ## The entry is removed -/

/-- `sys_unlink` holds the directory `j` and the inode `i` that its entry leads to, both locked. -/
structure Found (sb : Superblock) (s : Itable) (named : Set ℕ) (data : ℕ → List Byte) (name : ℕ → Byte) (i j : Fin ninode)
    (k : ℕ) (s' : Itable) : Prop where
  holding : Itable.Holding sb s s' (Pi.single i 1 + Pi.single j 1) {i, j}
  directory : (s'.inode j).inum ∈ named
  isDir : (readInode sb s.image (s'.inode j).inum).type = tDir
  opened : OpenDirectory sb s' j (data (s'.inode j).inum)
  entry : HasPair (slotsOf (data (s'.inode j).inum)) k (key name) (s'.inode i).inum
  child : (s'.inode i).inum ∈ named
  ne : (s'.inode i).inum ≠ (s'.inode j).inum
  isParent : (s'.inode j).ip = readInode sb s.image (s'.inode j).inum
  isChild : (s'.inode i).ip = readInode sb s.image (s'.inode i).inum
  valid : (s'.inode i).valid = true

/-- The entry has been erased on the disk. -/
theorem System.erase (system : System sb s inodes named data) (found : Found sb s named data name i j l s')
    (devsw : Devsw) : ∃ s₁ content, eraseEntry devsw sb s' j (16 * l) = .ok s₁ ∧
    Itable.Holding sb { s with image := s₁.image } s₁ (Pi.single i 1 + Pi.single j 1) {i, j} ∧
    (∀ k, (s₁.inode k).inum = (s'.inode k).inum) ∧ s₁.inode i = s'.inode i ∧
    (s₁.inode j).ip = readInode sb s₁.image (s'.inode j).inum ∧
    Changed sb inodes (s'.inode j).inum s.image s₁.image ∧
    (readInode sb s₁.image (s'.inode j).inum).nlink = (readInode sb s.image (s'.inode j).inum).nlink ∧
    Directory (readInode sb s₁.image (s'.inode j).inum) s₁.image content ∧
    slotsOf content = put (slotsOf (data (s'.inode j).inum)) l none ∧
    toMap (slotsOf content) = Function.update (toMap (slotsOf (data (s'.inode j).inum))) (key name) none := by
  have within := system.within found.directory
  have isImage : s'.image = s.image := found.holding.image
  rcases found.opened.erased devsw found.entry with ⟨ip, image, isErase, rewritten, wrote⟩
  rw [found.isParent, isImage] at wrote
  rcases wrote.disk (fits_readInode sb s.image _) rfl with ⟨-, isInode⟩
  have untouched : ∀ n ∈ inodes, n ≠ (s'.inode j).inum → Untouched sb n (readInode sb s.image n) s.image image :=
    fun n other different => system.files.untouched within wrote.change other different
  have isInodes : ∀ n ∈ inodes, readInode sb image n = Function.update (readInode sb s.image) (s'.inode j).inum ip n := by
    intro n other
    rw [Function.update_apply]
    split
    · rename_i same
      rw [same]
      exact isInode
    · rename_i different
      exact (untouched n other different).inode
  have files := (system.files.change within wrote.file wrote.change).congr isInodes
  have isMember : ∀ k, 0 < (s'.inode k).ref → (s'.inode k).inum ∈ inodes := by
    intro k used
    by_cases isI : k = i
    · rw [isI]
      exact system.within found.child
    · by_cases isJ : k = j
      · rw [isJ]
        exact within
      · rw [found.holding.ref, Pi.add_apply, Pi.single_eq_of_ne isI, Pi.single_eq_of_ne isJ] at used
        rw [found.holding.inum k used]
        exact system.cached k used
  have holding := found.holding.rewrite found.opened.used isInode fun k used different => by
    rw [isImage]
    exact (untouched _ (isMember k used) different).inode
  have notJ : i ≠ j := by
    rintro rfl
    exact found.ne rfl
  have erasable := (found.opened.erasable found.entry).2.2
  have slots := rewritten.slots
  rw [slotOf_zeroes] at erasable slots
  have directory := rewritten.dir.directory
  rw [Itable.set_self] at directory
  refine ⟨_, _, isErase, holding, Itable.set_field s' j { s'.inode j with ip } CachedInode.inum rfl,
    Itable.set_other notJ, ?_, ⟨untouched, files⟩, ?_, ?_, slots, ?_⟩
  · refine (congrArg CachedInode.ip (Itable.set_self s' j _)).trans ?_
    exact isInode.symm
  · change (readInode sb image _).nlink = _
    rw [isInode, wrote.fields]
  · change Directory (readInode sb image _) image _
    rw [isInode]
    exact directory
  · rw [slots]
    exact erasable

theorem Changed.trans {image' image'' : ℕ → Block} (first : Changed sb inodes m image image')
    (second : Changed sb inodes m image' image'') : Changed sb inodes m image image'' :=
  ⟨fun n other different => (first.others n other different).trans (second.others n other different),
    second.files⟩

theorem Itable.addLinks_other (different : k ≠ j) (n : ℕ) : (s.addLinks sb j n).inode k = s.inode k := by
  unfold Itable.addLinks
  exact Itable.set_other different

theorem Itable.addLinks_valid (n : ℕ) : ((s.addLinks sb j n).inode j).valid = (s.inode j).valid := by
  unfold Itable.addLinks
  dsimp only
  rw [Itable.set_self]

/-- The link count of a locked inode is lowered. -/
theorem Itable.Holding.lower (holding : Itable.Holding sb s₀ s e held) (used : 0 < (s.inode j).ref)
    (isIp : (s.inode j).ip = readInode sb s.image (s.inode j).inum)
    (files : Files sb inodes (readInode sb s.image) s.image) (member : (s.inode j).inum ∈ inodes)
    (positive : 0 < (readInode sb s.image (s.inode j).inum).nlink) : ∃ s', s.addLinks sb j (2 ^ 16 - 1) = s' ∧
    Itable.Holding sb { s₀ with image := s'.image } s' e held ∧ (∀ k, (s'.inode k).inum = (s.inode k).inum) ∧
    (∀ k ≠ j, s'.inode k = s.inode k) ∧ (s'.inode j).valid = (s.inode j).valid ∧
    Changed sb inodes (s.inode j).inum s.image s'.image ∧
    readInode sb s'.image (s.inode j).inum = withLinks (readInode sb s.image (s.inode j).inum)
      ((readInode sb s.image (s.inode j).inum).nlink - 1) ∧
    ∀ n ∈ inodes, SameBlocks (readInode sb s.image n) s.image s'.image := by
  have small : (readInode sb s.image (s.inode j).inum).nlink < 256 ^ 2 := (fits_readInode sb s.image _).nlink
  have isCount : ((readInode sb s.image (s.inode j).inum).nlink + (2 ^ 16 - 1)) % 2 ^ 16 =
      (readInode sb s.image (s.inode j).inum).nlink - 1 := by omega
  rcases holding.addLinks used isIp isCount with ⟨s', isAdd, isImage, holding', inums, -⟩
  rcases files.relinked member (by omega) isImage with ⟨changed, inode, blocks⟩
  have others : ∀ k ≠ j, s'.inode k = s.inode k := by
    intro k different
    rw [← isAdd]
    exact Itable.addLinks_other different _
  have isValid : (s'.inode j).valid = (s.inode j).valid := by
    rw [← isAdd]
    exact Itable.addLinks_valid _
  exact ⟨s', isAdd, holding', inums, others, isValid, changed, inode, blocks⟩

/-- The directory when `sys_unlink` is done with it. -/
structure Erased (sb : Superblock) (s : Itable) (inodes : Set ℕ) (data : ℕ → List Byte) (v d : ℕ) (name : List Byte)
    (k : ℕ) (image : ℕ → Block) : Prop where
  changed : Changed sb inodes d s.image image
  nlink : (readInode sb image d).nlink =
    (readInode sb s.image d).nlink - if (readInode sb s.image v).type = tDir then 1 else 0
  content : ∃ content, Directory (readInode sb image d) image content ∧
    slotsOf content = put (slotsOf (data d)) k none ∧
    toMap (slotsOf content) = Function.update (toMap (slotsOf (data d))) name none

theorem System.unlinkParent (system : System sb s inodes named data)
    (found : Found sb s named data name i j l s') (counted : Counted sb s named data)
    (notDot : key name ≠ dotName) (notDotdot : key name ≠ dotdotName) (devsw : Devsw) : ∃ s₁ s₂,
    eraseEntry devsw sb s' j (16 * l) = .ok s₁ ∧
    (if (s₁.inode i).ip.type = tDir then s₁.addLinks sb j (2 ^ 16 - 1) else s₁).iunlockput sb j = .ok s₂ ∧
    Itable.Holding sb { s with image := s₂.image } s₂ (Pi.single i 1) {i} ∧ s₂.inode i = s'.inode i ∧
    (∀ k, (s₂.inode k).inum = (s'.inode k).inum) ∧
    Erased sb s inodes data (s'.inode i).inum (s'.inode j).inum (key name) l s₂.image := by
  rcases system.erase found devsw with
    ⟨s₁, content, isErase, holding₁, inums₁, same₁, isIp₁, changed₁, nlink₁, directory₁, slots₁, map₁⟩
  rcases counted _ found.directory found.isDir l (key name) _ found.entry notDot notDotdot with
    ⟨-, positive, enough⟩
  have notJ : i ≠ j := by
    rintro rfl
    exact found.ne rfl
  have within := system.within found.directory
  have lowered : ∃ s₂, (if (s₁.inode i).ip.type = tDir then s₁.addLinks sb j (2 ^ 16 - 1) else s₁) = s₂ ∧
      Itable.Holding sb { s with image := s₂.image } s₂ (Pi.single i 1 + Pi.single j 1) {i, j} ∧
      s₂.inode i = s'.inode i ∧ (∀ k, (s₂.inode k).inum = (s'.inode k).inum) ∧
      Erased sb s inodes data (s'.inode i).inum (s'.inode j).inum (key name) l s₂.image := by
    rw [same₁, found.isChild]
    by_cases isDir : (readInode sb s.image (s'.inode i).inum).type = tDir
    · rw [if_pos isDir]
      have isIp : (s₁.inode j).ip = readInode sb s₁.image (s₁.inode j).inum := by rw [inums₁, isIp₁]
      have two := enough isDir
      have some : 0 < (readInode sb s₁.image (s₁.inode j).inum).nlink := by
        rw [inums₁, nlink₁]
        omega
      rcases holding₁.lower (holding₁.used_last) isIp changed₁.files (by rw [inums₁]; exact within) some with
        ⟨s₂, isAdd, holding₂, inums₂, others₂, -, changed₂, inode₂, blocks₂⟩
      rw [inums₁] at changed₂ inode₂
      refine ⟨s₂, isAdd, holding₂, (others₂ i notJ).trans same₁, fun k => (inums₂ k).trans (inums₁ k),
        changed₁.trans changed₂, ?_, content, ?_, slots₁, map₁⟩
      · rw [inode₂, if_pos isDir, ← nlink₁]
        rfl
      · rw [inode₂]
        exact directory₁.congr (blocks₂ _ within) rfl rfl rfl
    · rw [if_neg isDir]
      refine ⟨s₁, rfl, holding₁, same₁, inums₁, changed₁, ?_, content, directory₁, slots₁, map₁⟩
      rw [if_neg isDir]
      exact nlink₁
  rcases lowered with ⟨s₂, isLower, holding₂, same₂, inums₂, erased⟩
  have stays : (readInode sb s₂.image (s₂.inode j).inum).nlink ≠ 0 ∨
      0 < (s.inode j).ref + (Pi.single i 1 : Fin ninode → ℕ) j := by
    rw [inums₂, erased.nlink]
    by_cases isDir : (readInode sb s.image (s'.inode i).inum).type = tDir
    · have two := enough isDir
      rw [if_pos isDir]
      exact .inl (by omega)
    · rw [if_neg isDir, Nat.sub_zero]
      refine (system.graph.kept _ found.directory).imp_right ?_
      rintro ⟨k, used, isInum⟩
      have isJ : k = j := found.holding.same found.opened.used used isInum
      exact (isJ ▸ used).trans_le (Nat.le_add_right _ _)
  rcases holding₂.iunlockput (.inr rfl) stays with ⟨s₃, isPut, holding₃, inums₃⟩
  have heldOnly : ({i, j} : Set (Fin ninode)) \ {j} = {i} := by
    ext k
    simp only [Set.mem_sdiff, Set.mem_insert_iff, Set.mem_singleton_iff]
    refine ⟨fun both => both.1.resolve_right both.2, ?_⟩
    rintro rfl
    exact ⟨.inl rfl, notJ⟩
  rw [heldOnly] at holding₃
  have isImage : s₃.image = s₂.image := holding₃.image
  refine ⟨s₁, s₃, isErase, ?_, ?_, (Itable.iunlockput_other isPut notJ).trans same₂,
    fun k => (inums₃ k).trans (inums₂ k), ?_⟩
  · rw [isLower]
    exact isPut
  · rw [isImage]
    exact holding₃
  · rw [isImage]
    exact erased

theorem Itable.Holding.used_first (holding : Itable.Holding sb s₀ s (Pi.single i 1 + e) held) : 0 < (s.inode i).ref := by
  refine holding.used ?_
  rw [Pi.add_apply, Pi.single_eq_same]
  exact Nat.lt_add_right _ Nat.one_pos

/-- `ilock` touches no other entry of the cache. -/
theorem Itable.Holding.ilock_valid (holding : Itable.Holding sb s₀ s e held) (used : 0 < (s.inode i).ref)
    (notHeld : i ∉ held) (hasType : (readInode sb s.image (s.inode i).inum).type ≠ 0) : ∃ s', s.ilock sb i = .ok s' ∧
    Itable.Holding sb s₀ s' e (insert i held) ∧ (s'.inode i).ip = readInode sb s.image (s.inode i).inum ∧
    (s'.inode i).valid = true ∧ (∀ k, (s'.inode k).inum = (s.inode k).inum) ∧ ∀ k ≠ i, s'.inode k = s.inode k := by
  rcases holding.ilock used notHeld hasType with ⟨isLock, holding'⟩
  refine ⟨_, isLock, holding', ?_, ?_, Itable.set_field s i _ CachedInode.inum rfl,
    fun k different => Itable.set_other different⟩
  · rw [Itable.set_self]
  · rw [Itable.set_self]

/-- What is left to do is to give up the inode that the entry led to. -/
theorem Erased.unlinking (erased : Erased sb s inodes data v d last l image) (entry : HasPair (slotsOf (data d)) l last v)
    (holding : Itable.Holding sb { s with image := s'.image } s' 0 ∅) (changed : Changed sb inodes v image s'.image)
    (directory : d ∈ inodes) (ne : v ≠ d)
    (kept : (readInode sb s.image v).nlink ≠ 1 ∨ Referenced s v →
      readInode sb s'.image v = withLinks (readInode sb s.image v) ((readInode sb s.image v).nlink - 1) ∧
      SameBlocks (readInode sb s.image v) s.image s'.image)
    (freed : (readInode sb s.image v).nlink = 1 → ¬Referenced s v →
      (readInode sb s'.image v).type = 0 ∧ ∀ k ≤ maxfile, slot s.image (readInode sb s.image v) k ≠ 0 →
        inUse sb s'.image (slot s.image (readInode sb s.image v) k) = false) :
    Unlinking sb s s' inodes data v d last := by
  rcases erased.content with ⟨content, isDirectory, slots, map⟩
  have stays := changed.others d directory ne.symm
  refine ⟨holding, ⟨l, content, entry, isDirectory.untouched rfl stays, slots, map⟩, ?_, kept, freed,
    fun n other notFile notDir => ?_, changed.files⟩
  · rw [stays.inode]
    exact erased.nlink
  · exact (erased.changed.others n other notDir).trans (changed.others n other notFile)

theorem System.unlinkChild (system : System sb s inodes named data) (found : Found sb s named data name i j l s')
    (positive : 0 < (readInode sb s.image (s'.inode i).inum).nlink)
    (holding : Itable.Holding sb { s with image := s₂.image } s₂ (Pi.single i 1) {i}) (same : s₂.inode i = s'.inode i)
    (erased : Erased sb s inodes data (s'.inode i).inum (s'.inode j).inum (key name) l s₂.image) : ∃ s'',
    (s₂.addLinks sb i (2 ^ 16 - 1)).iunlockput sb i = .ok s'' ∧
    Unlinking sb s s'' inodes data (s'.inode i).inum (s'.inode j).inum (key name) := by
  have child := system.within found.child
  have directory := system.within found.directory
  have untouched := erased.changed.others _ child found.ne
  have isInum : (s₂.inode i).inum = (s'.inode i).inum := congrArg CachedInode.inum same
  have isIp : (s₂.inode i).ip = readInode sb s₂.image (s₂.inode i).inum := by
    rw [same, found.isChild, untouched.inode]
  have some : 0 < (readInode sb s₂.image (s₂.inode i).inum).nlink := by
    rw [isInum, untouched.inode]
    exact positive
  rcases holding.lower holding.used_single isIp erased.changed.files (isInum ▸ child) some with
    ⟨s₃, isAdd, holding₃, inums₃, -, valid₃, changed₃, inode₃, blocks₃⟩
  rw [isInum] at changed₃ inode₃
  rw [untouched.inode] at inode₃
  have isInum₃ : (s₃.inode i).inum = (s'.inode i).inum := (inums₃ i).trans isInum
  have sameBlocks := blocks₃ _ child
  rw [untouched.inode] at sameBlocks
  have both := untouched.sameBlocks.trans sameBlocks
  have isOld : ∀ k, 0 < (s.inode k).ref → (s.inode k).inum = (s'.inode i).inum → k = i := by
    intro k usedK isV
    exact found.holding.same found.holding.used_first usedK isV
  rw [← zero_add (Pi.single i 1)] at holding₃
  rw [isAdd]
  by_cases stays : (readInode sb s.image (s'.inode i).inum).nlink ≠ 1 ∨ Referenced s (s'.inode i).inum
  · have notLast : (readInode sb s₃.image (s₃.inode i).inum).nlink ≠ 0 ∨
        0 < (s.inode i).ref + (0 : Fin ninode → ℕ) i := by
      rw [isInum₃, inode₃]
      rcases stays with more | ⟨k, usedK, isV⟩
      · left
        change (readInode sb s.image (s'.inode i).inum).nlink - 1 ≠ 0
        omega
      · right
        rw [← isOld k usedK isV]
        exact usedK.trans_le (Nat.le_add_right _ _)
    rcases holding₃.iunlockput rfl notLast with ⟨s₄, isPut, holding₄, -⟩
    rw [Set.sdiff_self] at holding₄
    have isImage : s₄.image = s₃.image := holding₄.image
    rw [← isImage] at holding₄ changed₃ inode₃ both
    refine ⟨s₄, isPut, erased.unlinking found.entry holding₄ changed₃ directory found.ne (fun _ => ⟨inode₃, both⟩) ?_⟩
    intro one notReferenced
    exact absurd stays (not_or_intro (not_not_intro one) notReferenced)
  · rw [not_or, not_not] at stays
    rcases stays with ⟨one, notReferenced⟩
    have unused : (s.inode i).ref = 0 := by
      by_contra used
      have positive := Nat.pos_of_ne_zero used
      exact notReferenced ⟨i, positive, (found.holding.inum i positive).symm⟩
    have isValid : (s₃.inode i).valid = true := by
      rw [valid₃, same]
      exact found.valid
    have unlinked : (readInode sb s₃.image (s₃.inode i).inum).nlink = 0 := by
      rw [isInum₃, inode₃]
      change (readInode sb s.image (s'.inode i).inum).nlink - 1 = 0
      omega
    have cached : ∀ k, 0 < (s₃.inode k).ref → (s₃.inode k).inum ∈ inodes := by
      intro k used
      by_cases isI : k = i
      · rw [isI, isInum₃]
        exact child
      · rw [holding₃.ref, Pi.add_apply, Pi.single_eq_of_ne isI] at used
        rw [holding₃.inum k used]
        exact system.cached k used
    rcases holding₃.iunlockput_last rfl isValid unlinked unused changed₃.files cached with
      ⟨s₄, isPut, holding₄, released⟩
    rw [Set.sdiff_self] at holding₄
    rw [isInum₃] at released
    refine ⟨s₄, isPut, erased.unlinking found.entry holding₄ (changed₃.trans released.changed) directory found.ne ?_ ?_⟩
    · intro kept
      exact absurd kept (not_or_intro (not_not_intro one) notReferenced)
    · refine fun _ _ => ⟨?_, fun k bound has => ?_⟩
      · rw [released.inode]
      · have isSlot : slot s₃.image (readInode sb s₃.image (s'.inode i).inum) k =
            slot s.image (readInode sb s.image (s'.inode i).inum) k := by
          rw [inode₃]
          exact both.slots k bound
        rw [← isSlot] at has ⊢
        rcases changed₃.files.blocks _ child k bound has with ⟨less, -, -⟩
        refine Bool.eq_false_of_not_eq_true fun marked => ?_
        exact ((released.bits _ less).1 marked).2 k bound has rfl

/-! ## `sys_unlink` -/

theorem shortOf_pos (positive : 0 < n) (few : n < 2 ^ 15) : ¬shortOf n < 1 := by
  unfold shortOf
  rw [BitVec.toInt_eq_toNat_cond, BitVec.toNat_ofNat]
  split
  · omega
  · omega

/-- `sys_unlink` has locked the directory, which has an entry of the name. -/
structure Searched (sb : Superblock) (s : Itable) (named : Set ℕ) (data : ℕ → List Byte) (d : ℕ) (j : Fin ninode)
    (s' : Itable) : Prop where
  holding : Itable.Holding sb s s' (Pi.single j 1) {j}
  inum : (s'.inode j).inum = d
  directory : d ∈ named
  isDir : (readInode sb s.image d).type = tDir
  isIp : (s'.inode j).ip = readInode sb s.image d

theorem Searched.opened (searched : Searched sb s named data d j s') (system : System sb s inodes named data) :
    OpenDirectory sb s' j (data d) := by
  have isImage : s'.image = s.image := searched.holding.image
  have directory := system.graph.directory d searched.directory searched.isDir
  refine ⟨searched.holding.ok, searched.holding.used_single, (searched.holding.locked j).2 rfl, ?_, ?_, directory.whole,
    ?_, system.distinct d searched.directory searched.isDir⟩
  · rw [searched.isIp]
    exact searched.isDir
  · rw [searched.isIp]
    exact directory.regular.size
  · rw [searched.isIp, isImage, searched.inum]
    exact system.files.file (system.within searched.directory) directory.regular

/-- `bad` -/
theorem Searched.unlinkBad (searched : Searched sb s named data d j s') (system : System sb s inodes named data) :
    ∃ s'', Fs.unlinkBad sb j s' = .ok (-1, s'') ∧ Itable.Holding sb s s'' 0 ∅ := by
  rcases system.graph.giveUp searched.holding (searched.inum ▸ searched.directory) with ⟨s'', isPut, holding⟩
  refine ⟨s'', ?_, holding⟩
  unfold Fs.unlinkBad
  rw [isPut]
  rfl

/-- The inode that the entry leads to is locked, too. -/
theorem Searched.found (searched : Searched sb s named data d j s') (system : System sb s inodes named data)
    (entry : HasPair (slotsOf (data d)) l (key name) v) (ne : v ≠ d) (got : s'.Got v i s₂) : ∃ s'',
    s₂.ilock sb i = .ok s'' ∧ Found sb s named data name i j l s'' ∧ (s''.inode i).inum = v ∧
    (s''.inode j).inum = d := by
  have opened := searched.opened system
  have child := system.graph.entries d searched.directory searched.isDir l (key name) v entry
  have isParent := (got.stays opened.used).1.trans searched.inum
  have isParentIp := (got.stays opened.used).2.2.trans searched.isIp
  have isChild : (s₂.inode i).inum = v := got.inum
  have notJ : i ≠ j := by
    rintro rfl
    exact ne (isChild.symm.trans isParent)
  have holding := searched.holding.got got
  rw [add_comm] at holding
  have isImage : s₂.image = s.image := holding.image
  have hasType : (readInode sb s₂.image (s₂.inode i).inum).type ≠ 0 := by
    rw [isImage, isChild]
    exact system.graph.allocated v child
  have notHeld : i ∉ ({j} : Set (Fin ninode)) := notJ
  rcases holding.ilock_valid holding.used_first notHeld hasType with ⟨s'', isLock, holding', isIp, isValid, inums, others⟩
  rw [isImage, isChild] at isIp
  have isDirectory := (inums j).trans isParent
  have isFile := (inums i).trans isChild
  have same := others j notJ.symm
  have isImage' : s''.image = s'.image := holding'.image.trans searched.holding.image.symm
  refine ⟨s'', isLock, ⟨holding', ?_, ?_, ?_, ?_, ?_, ?_, ?_, ?_, isValid⟩, isFile, isDirectory⟩
  · rw [isDirectory]
    exact searched.directory
  · rw [isDirectory]
    exact searched.isDir
  · rw [isDirectory]
    refine opened.congr holding'.ok ?_ ?_ (isDirectory.trans searched.inum.symm) ?_ isImage'
    · rw [same, got.ref]
      exact opened.used.trans_le (Nat.le_add_right _ _)
    · rw [same]
      exact got.locked j
    · rw [same]
      exact (got.stays opened.used).2.2
  · rw [isDirectory, isFile]
    exact entry
  · rw [isFile]
    exact child
  · rw [isDirectory, isFile]
    exact ne
  · rw [same, isParent]
    exact isParentIp
  · rw [isFile]
    exact isIp

/-- Both are locked; a directory that is not empty stays. -/
theorem System.unlinkFound (system : System sb s inodes named data) (counted : Counted sb s named data)
    (searched : Searched sb s named data d j s') (devsw : Devsw) (entry : HasPair (slotsOf (data d)) l (key name) v)
    (notDot : key name ≠ dotName) (notDotdot : key name ≠ dotdotName) (got : s'.Got v i s₂) : ∃ s'',
    ((readInode sb s.image v).type = tDir → noneBehindDots (slotsOf (data v)) = true) ∧
      Fs.unlinkFound devsw sb j i (16 * l) s₂ = .ok (0, s'') ∧ Unlinking sb s s'' inodes data v d (key name) ∨
    ¬((readInode sb s.image v).type = tDir → noneBehindDots (slotsOf (data v)) = true) ∧
      Fs.unlinkFound devsw sb j i (16 * l) s₂ = .ok (-1, s'') ∧ Itable.Holding sb s s'' 0 ∅ := by
  rcases counted d searched.directory searched.isDir l (key name) v entry notDot notDotdot with ⟨ne, positive, -⟩
  rcases searched.found system entry ne got with ⟨s₃, isLock, found, rfl, rfl⟩
  have isImage : s₃.image = s.image := found.holding.image
  have few := system.links _ found.child
  have isMay : mayUnlink devsw sb i s₃ = .ok (decide ((readInode sb s.image (s₃.inode i).inum).type = tDir →
      noneBehindDots (slotsOf (data (s₃.inode i).inum)) = true), s₃) := by
    unfold mayUnlink
    rw [found.isChild]
    by_cases isDir : (readInode sb s.image (s₃.inode i).inum).type = tDir
    · have directory := system.graph.directory _ found.child isDir
      rw [← found.isChild, ← isImage] at directory
      rw [if_pos isDir, directory.isdirempty devsw sb]
      simp only [isDir, forall_const, Bool.decide_eq_true]
    · rw [if_neg isDir, decide_eq_true fun absurdity => absurd absurdity isDir]
  have isCount : ¬shortOf (s₃.inode i).ip.nlink < 1 := by
    rw [found.isChild]
    exact shortOf_pos positive few
  have isFound : Fs.unlinkFound devsw sb j i (16 * l) s₂ =
      if (readInode sb s.image (s₃.inode i).inum).type = tDir →
        noneBehindDots (slotsOf (data (s₃.inode i).inum)) = true then Fs.unlinkErase devsw sb j i (16 * l) s₃
      else s₃.iunlockput sb i >>= Fs.unlinkBad sb j := by
    unfold Fs.unlinkFound
    rw [isLock]
    change (if shortOf (s₃.inode i).ip.nlink < 1 then _ else _) = _
    rw [if_neg isCount]
    rw [isMay]
    change (if decide _ = true then _ else _) = _
    simp only [decide_eq_true_eq]
  rw [isFound]
  by_cases empty : (readInode sb s.image (s₃.inode i).inum).type = tDir →
      noneBehindDots (slotsOf (data (s₃.inode i).inum)) = true
  · rw [if_pos empty]
    rcases system.unlinkParent found counted notDot notDotdot devsw with
      ⟨s₄, s₅, isErase, isPut, holding₅, same₅, -, erased⟩
    rcases system.unlinkChild found positive holding₅ same₅ erased with ⟨s₆, isPut₆, unlinking⟩
    refine ⟨s₆, .inl ⟨empty, ?_, unlinking⟩⟩
    unfold Fs.unlinkErase
    rw [isErase]
    change ((if (s₄.inode i).ip.type = tDir then s₄.addLinks sb j (2 ^ 16 - 1) else s₄).iunlockput sb j >>= _) = _
    rw [isPut]
    change ((s₅.addLinks sb i (2 ^ 16 - 1)).iunlockput sb i >>= _) = _
    rw [isPut₆]
    rfl
  · rw [if_neg empty]
    have holding := found.holding
    rw [add_comm] at holding
    have stays : (readInode sb s₃.image (s₃.inode i).inum).nlink ≠ 0 ∨
        0 < (s.inode i).ref + (Pi.single j 1 : Fin ninode → ℕ) i := by
      rw [isImage]
      exact .inl positive.ne'
    rcases holding.iunlockput (.inl rfl) stays with ⟨s₄, isPut, holding₄, inums₄⟩
    have notJ : j ≠ i := by
      rintro rfl
      exact ne rfl
    have heldOnly : ({i, j} : Set (Fin ninode)) \ {i} = {j} := by
      rw [Set.insert_sdiff_of_mem _ (Set.mem_singleton i), Set.sdiff_singleton_eq_self]
      exact notJ.symm
    rw [heldOnly] at holding₄
    have isIp : (s₄.inode j).ip = readInode sb s.image (s₃.inode j).inum := by
      rw [Itable.iunlockput_other isPut notJ]
      exact found.isParent
    have searched' : Searched sb s named data (s₃.inode j).inum j s₄ :=
      ⟨holding₄, inums₄ j, searched.directory, searched.isDir, isIp⟩
    rcases searched'.unlinkBad system with ⟨s₅, isBad, holding₅⟩
    refine ⟨s₅, .inr ⟨empty, ?_, holding₅⟩⟩
    rw [isPut]
    exact isBad

/-- The call has removed the entry that the path names, or there is none to remove and nothing has changed. -/
def UnlinkCorrect (sb : Superblock) (s : Itable) (inodes : Set ℕ) (data : ℕ → List Byte) (cwd : Fin ninode)
    (path : List Byte) (result : Except Stop (ℤ × Itable)) : Prop :=
  (∃ s' v d name, Removable sb s data cwd path v d name ∧ result = .ok (0, s') ∧
    Unlinking sb s s' inodes data v d name) ∨
  ∃ s', (∀ v d name, ¬Removable sb s data cwd path v d name) ∧ result = .ok (-1, s') ∧ Itable.Holding sb s s' 0 ∅

/-- The directory is locked, and is searched for the name. -/
theorem System.unlinkIn (system : System sb s inodes named data) (counted : Counted sb s named data)
    (searched : Searched sb s named data d j s') (spare : Spare s) (devsw : Devsw)
    (isParent : walkParent sb s.image data (startOf s path cwd) (namesOf path) = some d)
    (isLast : (namesOf path).getLast? = some (key name)) (isLock : s₂.ilock sb j = .ok s') :
    UnlinkCorrect sb s inodes data cwd path (Fs.unlinkIn devsw sb j name s₂) := by
  have opened := searched.opened system
  have isDot : key (literal dotName) = dotName := by decide
  have isDotdot : key (literal dotdotName) = dotdotName := by decide
  have only : ∀ v d' last, Removable sb s data cwd path v d' last → d' = d ∧ last = key name := by
    intro v d' last removable
    exact ⟨Option.some_inj.1 (removable.parent.symm.trans isParent),
      Option.some_inj.1 (removable.last.symm.trans isLast)⟩
  have refused : (∀ v, ¬Removable sb s data cwd path v d (key name)) →
      Fs.unlinkIn devsw sb j name s₂ = Fs.unlinkBad sb j s' →
      UnlinkCorrect sb s inodes data cwd path (Fs.unlinkIn devsw sb j name s₂) := by
    intro none isBad
    rcases searched.unlinkBad system with ⟨s'', isResult, holding⟩
    refine .inr ⟨s'', fun v d' last removable => ?_, isBad.trans isResult, holding⟩
    rcases only v d' last removable with ⟨rfl, rfl⟩
    exact none v removable
  have unfolded : Fs.unlinkIn devsw sb j name s₂ = if key name = dotName ∨ key name = dotdotName then
      Fs.unlinkBad sb j s' else (do
        let (found, s) ← lookupResult s' (scan (slotsOf (data d)) 0 (key name))
        match found with
        | none => Fs.unlinkBad sb j s
        | some (ip, off) => Fs.unlinkFound devsw sb j ip off s) := by
    unfold Fs.unlinkIn
    rw [isLock]
    change (if namecmp _ _ = 0 ∨ namecmp _ _ = 0 then _ else _) = _
    simp only [namecmp_eq_zero, isDot, isDotdot]
    rw [opened.directory.dirlookup devsw sb name]
  by_cases dots : key name = dotName ∨ key name = dotdotName
  · rw [if_pos dots] at unfolded
    refine refused (fun v removable => ?_) unfolded
    exact dots.elim removable.notDot removable.notDotdot
  · rw [if_neg dots] at unfolded
    rw [not_or] at dots
    rcases isMap : toMap (slotsOf (data d)) (key name) with _ | v
    · rw [scan_absent isMap] at unfolded
      refine refused (fun v removable => ?_) unfolded
      have isEntry := removable.entry
      rw [isMap] at isEntry
      cases isEntry
    · rcases scan_present isMap with ⟨l, isScan, entry⟩
      rcases Itable.iget_ok_iff.2 (searched.holding.room spare v) with ⟨i, s₃, isGet⟩
      have isResult : Fs.unlinkIn devsw sb j name s₂ = Fs.unlinkFound devsw sb j i (16 * l) s₃ := by
        rw [unfolded, isScan]
        have isLookup : lookupResult s' (some (v, 16 * l)) = .ok (some (i, 16 * l), s₃) := by
          unfold lookupResult
          dsimp only
          rw [isGet]
          rfl
        rw [isLookup]
        rfl
      rw [isResult]
      rcases system.unlinkFound counted searched devsw entry dots.1 dots.2 (Itable.iget_got isGet) with
        ⟨s'', ⟨empty, isOk, unlinking⟩ | ⟨notEmpty, isBad, holding⟩⟩
      · exact .inl ⟨s'', v, d, key name, ⟨isParent, isLast, dots.1, dots.2, isMap, empty⟩, isOk, unlinking⟩
      · refine .inr ⟨s'', fun v' d' last removable => ?_, isBad, holding⟩
        rcases only v' d' last removable with ⟨rfl, rfl⟩
        have isEntry := removable.entry
        rw [isMap, Option.some_inj] at isEntry
        rw [isEntry] at notEmpty
        exact notEmpty removable.empty

theorem System.unlink (system : System sb s inodes named data) (devsw : Devsw) (counted : Counted sb s named data)
    (spare : Spare s) (used : 0 < (s.inode cwd).ref) (member : (s.inode cwd).inum ∈ named) (noNul : 0 ∉ path)
    (buffer : ℕ → Byte) :
    UnlinkCorrect sb s inodes data cwd path (sys_unlink devsw sb (some path) buffer cwd s) := by
  have start := system.graph.start member path
  have correct : NamexEnds sb s true (namesOf path) (walkParent sb s.image data (startOf s path cwd) (namesOf path))
      (nameiparent devsw sb path buffer cwd s) :=
    (system.graph.namex devsw true system.ok system.coherent system.unlocked used member noNul buffer).ends
  rcases correct with ⟨-, full⟩ | ⟨parent, name, s₁, isResult, resolved, isLast⟩
  · exact absurd spare full
  · unfold sys_unlink
    dsimp only
    rw [isResult]
    generalize isParent : walkParent sb s.image data (startOf s path cwd) (namesOf path) = target at resolved
    cases resolved with
    | absent holding =>
        refine .inr ⟨s₁, fun v d last removable => ?_, rfl, holding⟩
        have isFound := removable.parent
        rw [isParent] at isFound
        cases isFound
    | @found j _ holding =>
        rcases (system.graph.walkParent_congr (fun _ _ => rfl) (namesOf path) start).2 _ isParent with
          ⟨directory, isDir⟩
        rcases system.graph.lock holding directory with ⟨s₂, isLock, holding', isIp, inums⟩
        have searched : Searched sb s named data (s₁.inode j).inum j s₂ :=
          ⟨holding', inums j, directory, isDir, isIp⟩
        exact system.unlinkIn counted searched spare devsw isParent (isLast rfl fun none => by cases none) isLock

/-- `sys_unlink` removes the entry that the path names, if it is not `.` or `..` and does not lead to a directory with
other entries than those, and else changes nothing. -/
theorem sys_unlink_correct (devsw : Devsw) (system : System sb s inodes named data) (counted : Counted sb s named data)
    (spare : Spare s) (used : 0 < (s.inode cwd).ref) (member : (s.inode cwd).inum ∈ named) (noNul : 0 ∉ path)
    (buffer : ℕ → Byte) :
    UnlinkCorrect sb s inodes data cwd path (sys_unlink devsw sb (some path) buffer cwd s) :=
  system.unlink devsw counted spare used member noNul buffer

/-- The disk with the names `.` and `f` in the root, and removing `/f`. -/
theorem sys_unlink_correct_file : ∃ image data, System (sizedDisk 16) ⟨rootCached, image⟩ {1, 2} {1, 2} data ∧
    UnlinkCorrect (sizedDisk 16) ⟨rootCached, image⟩ {1, 2} data 0 (inRoot 0x66)
      (sys_unlink ⟨fun _ _ => none, fun _ _ => none⟩ (sizedDisk 16) (some (inRoot 0x66)) (fun _ => 0) 0
        ⟨rootCached, image⟩) := by
  rcases twoNames_system with ⟨image, data, system, -, isMap, -, isDir, isFile, oneLink⟩
  have counted : Counted (sizedDisk 16) ⟨rootCached, image⟩ {1, 2} data := by
    rintro d (rfl | rfl) isDir' k name v entry notDot -
    · have isEntry := (system.distinct 1 (.inl rfl) isDir).toMap_iff.2 ⟨k, entry⟩
      have notFirst : name ≠ [dot] := notDot
      rw [isMap, Function.update_apply, Function.update_apply, if_neg notFirst] at isEntry
      split at isEntry
      · cases isEntry
        refine ⟨by decide, ?_, fun isDir₂ => absurd isDir₂ isFile⟩
        change 0 < (readInode (sizedDisk 16) image 2).nlink
        rw [oneLink]
        exact Nat.one_pos
      · cases isEntry
    · exact absurd isDir' isFile
  exact ⟨image, data, system, sys_unlink_correct ⟨fun _ _ => none, fun _ _ => none⟩ system counted
    (rootCached_spare image).spare (rootCached_used image).1 (rootCached_used image).2 (by decide) _⟩

end Xv6.Fs
