import Xv6.Fs.Unlink

/-!
# New inodes

`ialloc` and `create`, and `sys_mkdir` and `sys_mknod` over them. `begin_op` and `end_op` are left out.
-/

namespace Xv6.Fs

open Bytes SlotTable

/-- The loop of `ialloc`, for so many inodes at most. -/
def iallocLoop (sb : Superblock) (type : ℕ) : ℕ → ℕ → Itable → Except Stop (Fin ninode × Itable)
  | 0, _, _ => .error (.panic "ialloc: no inodes")
  | passes + 1, inum, s =>
      if inum < sb.ninodes then
        if (readInode sb s.image inum).type = 0 then
          { s with image := iupdate sb inum { type } s.image }.iget inum
        else iallocLoop sb type passes (inum + 1) s
      else .error (.panic "ialloc: no inodes")

/-- `ialloc` -/
def ialloc (sb : Superblock) (s : Itable) (type : ℕ) : Except Stop (Fin ninode × Itable) :=
  iallocLoop sb type sb.ninodes 1 s

/-- `ip->major`, `ip->minor` and `ip->nlink` of a new inode, and `iupdate(ip)` -/
def Itable.initInode (sb : Superblock) (s : Itable) (i : Fin ninode) (major minor : ℕ) : Itable :=
  let ip := { (s.inode i).ip with major, minor, nlink := 1 }
  { s.set i { s.inode i with ip } with image := iupdate sb (s.inode i).inum ip s.image }

/-- The entries `.` and `..` of a new directory. -/
def createDots (devsw : Devsw) (sb : Superblock) (type : ℕ) (dp ip : Fin ninode) (s : Itable) : Except Stop Itable :=
  if type = tDir then do
    let s := s.addLinks sb dp 1
    let (result, s) ← dirlink devsw sb s ip (literal dotName) (s.inode ip).inum
    if result < 0 then .error (.panic "create dots")
    else
      let (result, s) ← dirlink devsw sb s ip (literal dotdotName) (s.inode dp).inum
      if result < 0 then .error (.panic "create dots") else return s
  else .ok s

/-- The part of `create` that has not found the name. -/
def createNew (devsw : Devsw) (sb : Superblock) (type major minor : ℕ) (dp : Fin ninode) (name : ℕ → Byte)
    (s : Itable) : Except Stop (Option (Fin ninode) × Itable) := do
  let (ip, s) ← ialloc sb s type
  let s ← s.ilock sb ip
  let s := s.initInode sb ip major minor
  let s ← createDots devsw sb type dp ip s
  let (result, s) ← dirlink devsw sb s dp name (s.inode ip).inum
  if result < 0 then .error (.panic "create: dirlink")
  else
    let s ← s.iunlockput sb dp
    return (some ip, s)

/-- The part of `create` that has found the name. -/
def createFound (sb : Superblock) (type : ℕ) (dp ip : Fin ninode) (s : Itable) :
    Except Stop (Option (Fin ninode) × Itable) := do
  let s ← s.iunlockput sb dp
  let s ← s.ilock sb ip
  if type = tFile ∧ (s.inode ip).ip.type = tFile then return (some ip, s)
  else
    let s ← s.iunlockput sb ip
    return (none, s)

/-- The part of `create` that has found the directory. -/
def createIn (devsw : Devsw) (sb : Superblock) (type major minor : ℕ) (dp : Fin ninode) (name : ℕ → Byte)
    (s : Itable) : Except Stop (Option (Fin ninode) × Itable) := do
  let s ← s.ilock sb dp
  let (found, s) ← dirlookup devsw sb s dp name
  match found with
  | some (ip, _) => createFound sb type dp ip s
  | none => createNew devsw sb type major minor dp name s

/-- `create`; the inode that it returns is locked. -/
def create (devsw : Devsw) (sb : Superblock) (path : List Byte) (type major minor : ℕ) (buffer : ℕ → Byte)
    (cwd : Fin ninode) (s : Itable) : Except Stop (Option (Fin ninode) × Itable) := do
  let (parent, name, s) ← nameiparent devsw sb path buffer cwd s
  match parent with
  | none => return (none, s)
  | some dp => createIn devsw sb type major minor dp name s

/-- `sys_mkdir` and `sys_mknod`, for the arguments of `create`. -/
def makeNode (devsw : Devsw) (sb : Superblock) (type : ℕ) (args : Option (List Byte × ℕ × ℕ)) (buffer : ℕ → Byte)
    (cwd : Fin ninode) (s : Itable) : Except Stop (ℤ × Itable) :=
  match args with
  | none => .ok (-1, s)
  | some (path, major, minor) => do
      let (made, s) ← create devsw sb path type major minor buffer cwd s
      match made with
      | none => return (-1, s)
      | some ip =>
          let s ← s.iunlockput sb ip
          return (0, s)

/-- `sys_mkdir` -/
def sys_mkdir (devsw : Devsw) (sb : Superblock) (path : Option (List Byte)) (buffer : ℕ → Byte) (cwd : Fin ninode)
    (s : Itable) : Except Stop (ℤ × Itable) :=
  makeNode devsw sb tDir (path.map fun path => (path, 0, 0)) buffer cwd s

/-- A number as a `short`, which has two bytes. -/
def toShort (n : ℤ) : ℕ := (BitVec.ofInt 16 n).toNat

/-- `sys_mknod` -/
def sys_mknod (devsw : Devsw) (sb : Superblock) (path : Option (List Byte)) (major minor : Option ℤ)
    (buffer : ℕ → Byte) (cwd : Fin ninode) (s : Itable) : Except Stop (ℤ × Itable) :=
  makeNode devsw sb tDev (do return (← path, toShort (← major), toShort (← minor))) buffer cwd s

variable {devsw : Devsw} {sb : Superblock} {s s' s'' s₀ s₂ : Itable} {inodes named : Set ℕ} {data : ℕ → List Byte}
  {i j k dp cwd : Fin ninode} {e : Fin ninode → ℕ} {held : Set (Fin ninode)} {image image' : ℕ → Block}
  {content content' path last : List Byte} {name : ℕ → Byte} {dinode : ℕ → Dinode} {ip : Dinode}
  {d v l m n type major minor : ℕ}

/-! ## `ialloc` -/

/-- The inode that `ialloc` takes. -/
structure FirstFree (sb : Superblock) (image : ℕ → Block) (m : ℕ) : Prop where
  pos : 0 < m
  bound : m < sb.ninodes
  free : (readInode sb image m).type = 0
  first : ∀ n, 0 < n → n < m → (readInode sb image n).type ≠ 0

theorem FirstFree.iallocLoop (firstFree : FirstFree sb s.image m) (type passes : ℕ) : ∀ inum, 0 < inum → inum ≤ m →
    m < inum + passes → Fs.iallocLoop sb type passes inum s =
      { s with image := iupdate sb m { type } s.image }.iget m := by
  induction passes with
  | zero =>
      intro inum _ le less
      omega
  | succ passes ih =>
      intro inum pos le less
      have bound := firstFree.bound
      rw [Fs.iallocLoop, if_pos (by omega)]
      rcases le.eq_or_lt with rfl | before
      · rw [if_pos firstFree.free]
      · rw [if_neg (firstFree.first inum pos before)]
        exact ih (inum + 1) (Nat.succ_pos _) before (by omega)

theorem FirstFree.ialloc (firstFree : FirstFree sb s.image m) (type : ℕ) :
    Fs.ialloc sb s type = { s with image := iupdate sb m { type } s.image }.iget m := by
  have bound := firstFree.bound
  exact firstFree.iallocLoop type sb.ninodes 1 Nat.one_pos firstFree.pos (by omega)

theorem iallocLoop_none (type passes : ℕ) : ∀ inum, (∀ n, inum ≤ n → n < sb.ninodes → (readInode sb s.image n).type ≠ 0) →
    Fs.iallocLoop sb type passes inum s = .error (.panic "ialloc: no inodes") := by
  induction passes with
  | zero => exact fun _ _ => rfl
  | succ passes ih =>
      intro inum taken
      rw [Fs.iallocLoop]
      split
      · rename_i less
        rw [if_neg (taken inum le_rfl less)]
        exact ih (inum + 1) fun n le => taken n (by omega)
      · rfl

/-- There is a free inode, or none is free. -/
theorem exists_firstFree (sb : Superblock) (image : ℕ → Block) :
    (∃ m, FirstFree sb image m) ∨ ∀ n, 0 < n → n < sb.ninodes → (readInode sb image n).type ≠ 0 := by
  by_cases some : ∃ m, 0 < m ∧ m < sb.ninodes ∧ (readInode sb image m).type = 0
  · refine .inl ⟨Nat.find some, ?_⟩
    rcases Nat.find_spec some with ⟨pos, bound, free⟩
    refine ⟨pos, bound, free, fun n pos' less isFree => ?_⟩
    exact Nat.find_min some less ⟨pos', less.trans bound, isFree⟩
  · refine .inr fun n pos less isFree => ?_
    exact some ⟨n, pos, less, isFree⟩

/-- An inode is written that has no blocks. -/
theorem Files.clear (files : Files sb inodes (readInode sb image) image) (member : m ∈ inodes) (fits : ip.Fits)
    (noBlocks : ip.addrs = fun _ => 0) : Changed sb inodes m image (Fs.iupdate sb m ip image) ∧
      readInode sb (Fs.iupdate sb m ip image) m = ip := by
  have isInode : readInode sb (Fs.iupdate sb m ip image) m = ip := readInode_iupdate fits
  have uses : ∀ b < sb.size, inUse sb (Fs.iupdate sb m ip image) b = inUse sb image b :=
    fun b less => inUse_iupdate (files.apart m member b less)
  have others : ∀ n ∈ inodes, n ≠ m → Untouched sb n (readInode sb image n) image (Fs.iupdate sb m ip image) := by
    intro n other different
    have same := files.iupdate_blocks member other ip
    exact ⟨readInode_iupdate_other different, same.slots, same.blocks⟩
  have slots : ∀ n ∈ inodes, ∀ k ≤ maxfile,
      slot (Fs.iupdate sb m ip image) (readInode sb (Fs.iupdate sb m ip image) n) k ≠ 0 →
      n ≠ m ∧ slot (Fs.iupdate sb m ip image) (readInode sb (Fs.iupdate sb m ip image) n) k =
        slot image (readInode sb image n) k := by
    intro n other k bound has
    have different : n ≠ m := by
      rintro rfl
      rw [isInode] at has
      exact has (slot_none noBlocks)
    rw [(others n other different).inode]
    exact ⟨different, (others n other different).slots k bound⟩
  refine ⟨⟨others, files.small, files.apart, fun b less isMeta => ?_, fun n other k bound has => ?_,
    {x | x ≠ 0 ∧ ∃ n ∈ inodes, ∃ k ≤ maxfile, slot (Fs.iupdate sb m ip image)
      (readInode sb (Fs.iupdate sb m ip image) n) k = x}, fun x => Iff.rfl,
    fun a isA b isB k bound l bound' same has => ?_⟩, isInode⟩
  · rw [uses b less]
    exact files.metadata b less isMeta
  · rcases slots n other k bound has with ⟨-, isSlot⟩
    rw [isSlot] at has ⊢
    rcases files.blocks n other k bound has with ⟨less, marked, notMeta⟩
    rw [uses _ less]
    exact ⟨less, marked, notMeta⟩
  · rcases files.mapping with ⟨used, mapping⟩
    have second := (slots b isB l bound' (same ▸ has)).2
    have first := (slots a isA k bound has).2
    rw [first] at same has
    rw [second] at same
    exact mapping.single a isA b isB k bound l bound' same has

/-! ## Changes while locks are held -/

/-- In the middle of a call that has taken `e` references and holds these locks, the inodes are consistent. -/
structure Stable (sb : Superblock) (s₀ s : Itable) (inodes : Set ℕ) (e : Fin ninode → ℕ) (held : Set (Fin ninode)) :
    Prop where
  holding : Itable.Holding sb { s₀ with image := s.image } s e held
  files : Files sb inodes (readInode sb s.image) s.image
  cached : ∀ k, 0 < (s.inode k).ref → (s.inode k).inum ∈ inodes

/-- The inode `m` has been changed, on the disk and in its entry of the cache. -/
structure Edited (sb : Superblock) (s₀ s s' : Itable) (inodes : Set ℕ) (e : Fin ninode → ℕ) (held : Set (Fin ninode))
    (j : Fin ninode) (m : ℕ) : Prop where
  stable : Stable sb s₀ s' inodes e held
  inum : ∀ k, (s'.inode k).inum = (s.inode k).inum
  others : ∀ k ≠ j, s'.inode k = s.inode k
  isIp : (s'.inode j).ip = readInode sb s'.image m
  changed : Changed sb inodes m s.image s'.image

theorem Stable.edit (stable : Stable sb s₀ s inodes e held) (used : 0 < (s.inode j).ref) (isInum : (s.inode j).inum = m)
    (isInode : readInode sb image m = ip) (changed : Changed sb inodes m s.image image) :
    Edited sb s₀ s { s.set j { s.inode j with ip } with image } inodes e held j m := by
  have inums := Itable.set_field s j { s.inode j with ip } CachedInode.inum rfl
  have refs := Itable.set_field s j { s.inode j with ip } CachedInode.ref rfl
  subst isInum
  refine ⟨⟨stable.holding.rewrite used isInode fun k usedK different => ?_, changed.files, fun k usedK => ?_⟩, inums,
    fun k different => Itable.set_other different, ?_, changed⟩
  · exact (changed.others _ (stable.cached k usedK) different).inode
  · change 0 < ((s.set j { s.inode j with ip }).inode k).ref at usedK
    rw [refs] at usedK
    exact (inums k).symm ▸ stable.cached k usedK
  · change ((s.set j { s.inode j with ip }).inode j).ip = readInode sb image _
    rw [Itable.set_self, isInode]

/-- `addLinks` -/
theorem Stable.addLinks (stable : Stable sb s₀ s inodes e held) (used : 0 < (s.inode j).ref)
    (isInum : (s.inode j).inum = m) (isIp : (s.inode j).ip = readInode sb s.image m) (member : m ∈ inodes)
    (isCount : ((readInode sb s.image m).nlink + n) % 2 ^ 16 = l) : ∃ s', s.addLinks sb j n = s' ∧
    Edited sb s₀ s s' inodes e held j m ∧ readInode sb s'.image m = withLinks (readInode sb s.image m) l ∧
    SameBlocks (readInode sb s.image m) s.image s'.image ∧ free sb s'.image = free sb s.image := by
  have small : l < 256 ^ 2 := by omega
  rcases stable.files.relinked member small rfl with ⟨changed, inode, blocks⟩
  have isState : s.addLinks sb j n = { s.set j { s.inode j with ip := withLinks (readInode sb s.image m) l } with
      image := iupdate sb m (withLinks (readInode sb s.image m) l) s.image } := by
    unfold Itable.addLinks
    rw [isIp, isCount, isInum]
    rfl
  exact ⟨_, isState, stable.edit used isInum inode changed, inode, blocks m member,
    stable.files.free_iupdate member _⟩

theorem Stable.opened (stable : Stable sb s₀ s inodes e held) (used : 0 < (s.inode j).ref) (isHeld : j ∈ held)
    (isInum : (s.inode j).inum = m) (isIp : (s.inode j).ip = readInode sb s.image m) (member : m ∈ inodes)
    (directory : Directory (readInode sb s.image m) s.image content) (distinct : Distinct (slotsOf content)) :
    OpenDirectory sb s j content := by
  refine ⟨stable.holding.ok, used, (stable.holding.locked j).2 isHeld, ?_, ?_, directory.whole, ?_, distinct⟩
  · rw [isIp]
    exact directory.isDir
  · rw [isIp]
    exact directory.regular.size
  · rw [isIp, isInum]
    exact stable.files.file member directory.regular

/-- A directory has a new entry. -/
structure Enlarged (sb : Superblock) (image image' : ℕ → Block) (m : ℕ) (content content' last : List Byte) (v : ℕ) :
    Prop where
  fields : ∃ size addrs, readInode sb image' m = { readInode sb image m with size, addrs }
  directory : Directory (readInode sb image' m) image' content'
  slots : slotsOf content' = SlotTable.insert (slotsOf content) last v
  distinct : Distinct (slotsOf content')
  map : toMap (slotsOf content') = Function.update (toMap (slotsOf content)) last (some v)
  length : content'.length ≤ content.length + 16
  free : free sb image ≤ free sb image' + 2

/-- `dirlink` -/
theorem Stable.dirlink (stable : Stable sb s₀ s inodes e held) (used : 0 < (s.inode j).ref) (isHeld : j ∈ held)
    (isInum : (s.inode j).inum = m) (isIp : (s.inode j).ip = readInode sb s.image m) (member : m ∈ inodes)
    (directory : Directory (readInode sb s.image m) s.image content) (distinct : Distinct (slotsOf content))
    (absent : toMap (slotsOf content) (key name) = none) (pos : 0 < v) (small : v < 2 ^ 16)
    (room : firstEmpty (slotsOf content) < (slotsOf content).length ∨ content.length + 16 ≤ maxfile * bsize)
    (enough : 2 ≤ free sb s.image) (devsw : Devsw) : ∃ s' content', Fs.dirlink devsw sb s j name v = .ok (0, s') ∧
    Edited sb s₀ s s' inodes e held j m ∧ Enlarged sb s.image s'.image m content content' (key name) v := by
  have opened := stable.opened used isHeld isInum isIp member directory distinct
  have hasRoom : HasRoom sb s j content :=
    room.imp_right fun inside => ⟨inside, (missing_entry directory.whole).trans enough⟩
  rcases opened.linked devsw absent pos small hasRoom with ⟨ip, image, isLink, rewritten, wrote⟩
  rw [isInum, isIp] at wrote
  rcases wrote.disk (fits_readInode sb s.image m) rfl with ⟨-, isInode⟩
  have isEntry := length_newEntry name v
  have bound := firstEmpty_le (slotsOf content)
  have whole := directory.whole
  have untouched : ∀ n ∈ inodes, n ≠ m → Untouched sb n (readInode sb s.image n) s.image image :=
    fun n other different => stable.files.untouched member wrote.change other different
  have isInodes : ∀ n ∈ inodes, readInode sb image n = Function.update (readInode sb s.image) m ip n := by
    intro n other
    rw [Function.update_apply]
    split
    · rename_i same
      rw [same]
      exact isInode
    · rename_i different
      exact (untouched n other different).inode
  have files := (stable.files.change member wrote.file wrote.change).congr isInodes
  have slots := rewritten.slots.trans (opened.newPair absent pos small).1
  have newDirectory := rewritten.dir.directory
  rw [Itable.set_self] at newDirectory
  have few : missing s.image (readInode sb s.image m) (places (16 * firstEmpty (slotsOf content)) 16) ≤ 2 :=
    missing_entry (Dvd.intro _ rfl)
  have isFree := wrote.free
  rw [isEntry] at isFree
  rw [length_slotsOf] at bound
  refine ⟨_, _, isLink, stable.edit used isInum isInode ⟨untouched, files⟩, ⟨ip.size, ip.addrs, ?_⟩, ?_, slots,
    rewritten.dir.distinct, ?_, ?_, ?_⟩
  · change readInode sb image m = _
    rw [isInode]
    exact wrote.fields
  · change Directory (readInode sb image m) image _
    rw [isInode]
    exact newDirectory
  · rw [slots]
    exact distinct.toMap_insert absent v
  · rw [length_patch _ (by omega), isEntry]
    omega
  · change _ ≤ Fs.free sb image + 2
    omega

/-- An inode is written that is not in the cache. -/
theorem Stable.uncached (stable : Stable sb s₀ s inodes e held) (changed : Changed sb inodes m s.image image)
    (notCached : ∀ k, 0 < (s.inode k).ref → (s.inode k).inum ≠ m) :
    Stable sb s₀ { s with image } inodes e held := by
  have holding := stable.holding
  refine ⟨⟨⟨holding.ok.unique, holding.ok.idle⟩, fun k used isValid => ?_, holding.ref, holding.inum, holding.locked,
    rfl⟩, changed.files, stable.cached⟩
  change (s.inode k).ip = readInode sb image (s.inode k).inum
  rw [(changed.others _ (stable.cached k used) (notCached k used)).inode]
  exact holding.coherent k used isValid

theorem Stable.got (stable : Stable sb s₀ s inodes e held) (got : s.Got m i s') (member : m ∈ inodes) :
    Stable sb s₀ s' inodes (e + Pi.single i 1) held := by
  have holding := stable.holding.got got
  have files := stable.files
  rw [← got.image] at holding files
  refine ⟨holding, files, fun k used => ?_⟩
  by_cases isI : k = i
  · rw [isI, got.inum]
    exact member
  · rw [got.others isI] at used ⊢
    exact stable.cached k used

theorem Stable.ilock (stable : Stable sb s₀ s inodes e held) (used : 0 < (s.inode i).ref) (notHeld : i ∉ held)
    (hasType : (readInode sb s.image (s.inode i).inum).type ≠ 0) : ∃ s', s.ilock sb i = .ok s' ∧
    Stable sb s₀ s' inodes e (insert i held) ∧ (s'.inode i).ip = readInode sb s.image (s.inode i).inum ∧
    (∀ k, (s'.inode k).inum = (s.inode k).inum) ∧ (∀ k ≠ i, s'.inode k = s.inode k) ∧ s'.image = s.image := by
  rcases stable.holding.ilock_valid used notHeld hasType with ⟨s', isLock, holding, isIp, -, inums, others⟩
  have isImage : s'.image = s.image := holding.image
  have files := stable.files
  rw [← isImage] at holding files
  refine ⟨s', isLock, ⟨holding, files, fun k usedK => ?_⟩, isIp, inums, others, isImage⟩
  rw [inums]
  rw [holding.ref, ← stable.holding.ref] at usedK
  exact stable.cached k usedK

/-! ## A free inode is taken -/

/-- All inodes of the disk are consistent, the cache holds none that is free, and there are blocks for three entries. -/
structure Creatable (sb : Superblock) (s : Itable) (inodes : Set ℕ) : Prop where
  inodes : ∀ m, 0 < m → m < sb.ninodes → m ∈ inodes
  few : sb.ninodes ≤ 2 ^ 16
  cached : ∀ k, 0 < (s.inode k).ref → (readInode sb s.image (s.inode k).inum).type ≠ 0
  blocks : 6 ≤ free sb s.image

/-- `create` holds the directory `d` and the new inode `m`. -/
structure Filled (sb : Superblock) (s s' : Itable) (inodes : Set ℕ) (data : ℕ → List Byte) (i j : Fin ninode)
    (m d type major minor : ℕ) : Prop where
  stable : Stable sb s s' inodes (Pi.single i 1 + Pi.single j 1) {i, j}
  isNew : (s'.inode i).inum = m
  isParent : (s'.inode j).inum = d
  isIp : (s'.inode j).ip = readInode sb s'.image d
  fields : ∃ size addrs, readInode sb s'.image m = { type, major, minor, nlink := 1, size, addrs }
  empty : type ≠ tDir → readInode sb s'.image m = { type, major, minor, nlink := 1 }
  dots : type = tDir → ∃ content, Directory (readInode sb s'.image m) s'.image content ∧
    slotsOf content = [some (dotName, m), some (dotdotName, d)]
  parent : readInode sb s'.image d = withLinks (readInode sb s.image d)
    ((readInode sb s.image d).nlink + if type = tDir then 1 else 0)
  directory : Directory (readInode sb s'.image d) s'.image (data d)
  others : ∀ n ∈ inodes, n ≠ m → n ≠ d → Untouched sb n (readInode sb s.image n) s.image s'.image
  free : free sb s.image ≤ free sb s'.image + 4

theorem Searched.stable (searched : Searched sb s named data d j s') (system : System sb s inodes named data) :
    Stable sb s s' inodes (Pi.single j 1) {j} := by
  have isImage : s'.image = s.image := searched.holding.image
  refine ⟨?_, ?_, fun k used => ?_⟩
  · rw [isImage]
    exact searched.holding
  · rw [isImage]
    exact system.files
  · by_cases isJ : k = j
    · rw [isJ, searched.inum]
      exact system.within searched.directory
    · rw [searched.holding.ref, Pi.single_eq_of_ne isJ] at used
      rw [searched.holding.inum k used]
      exact system.cached k used

/-- `ialloc`, `ilock` and the new fields. -/
theorem Searched.allocated (searched : Searched sb s named data d j s') (system : System sb s inodes named data)
    (spare : Spare s) (creatable : Creatable sb s inodes) (firstFree : FirstFree sb s.image m) (hasType : type ≠ 0)
    (small : type < 2 ^ 16) (smallMajor : major < 2 ^ 16) (smallMinor : minor < 2 ^ 16) : ∃ i s₁ s₂ s₃,
    Fs.ialloc sb s' type = .ok (i, s₁) ∧ s₁.ilock sb i = .ok s₂ ∧ s₂.initInode sb i major minor = s₃ ∧
    Stable sb s s₃ inodes (Pi.single i 1 + Pi.single j 1) {i, j} ∧ i ≠ j ∧ (s₃.inode i).inum = m ∧
    (s₃.inode i).ip = readInode sb s₃.image m ∧ s₃.inode j = s'.inode j ∧ Changed sb inodes m s.image s₃.image ∧
    readInode sb s₃.image m = { type, major, minor, nlink := 1 } ∧ free sb s₃.image = free sb s.image := by
  have isImage : s'.image = s.image := searched.holding.image
  have member := creatable.inodes m firstFree.pos firstFree.bound
  have stable := searched.stable system
  have notD : m ≠ d := by
    rintro rfl
    exact system.graph.allocated _ searched.directory firstFree.free
  have notCached : ∀ k, 0 < (s'.inode k).ref → (s'.inode k).inum ≠ m := by
    intro k used isM
    by_cases isJ : k = j
    · rw [isJ, searched.inum] at isM
      exact notD isM.symm
    · rw [searched.holding.ref, Pi.single_eq_of_ne isJ] at used
      rw [searched.holding.inum k used] at isM
      exact creatable.cached k used (isM ▸ firstFree.free)
  have fits : ∀ nlink < 256 ^ 2, ∀ major < 2 ^ 16, ∀ minor < 2 ^ 16, ({ type, major, minor, nlink } : Dinode).Fits :=
    fun nlink few major few' minor few'' =>
      ⟨small, few', few'', few, Nat.pow_pos (by decide), fun _ => Nat.pow_pos (by decide)⟩
  have marked := system.files.clear member (fits 0 (by decide) 0 (by decide) 0 (by decide)) rfl
  have isAlloc := (isImage ▸ firstFree : FirstFree sb s'.image m).ialloc type
  rw [isImage] at isAlloc
  have changed₁ := marked.1
  rw [← isImage] at changed₁
  have stable₁ := stable.uncached changed₁ notCached
  rw [isImage] at stable₁
  have room : Itable.Room { s' with image := Fs.iupdate sb m { type } s.image } m := searched.holding.room spare m
  rcases Itable.iget_ok_iff.2 room with ⟨i, s₁, isGet⟩
  have got := Itable.iget_got isGet
  have stable₂ := stable₁.got got member
  have isImage₁ : s₁.image = Fs.iupdate sb m { type } s.image := got.image
  have notJ : i ≠ j := by
    rintro rfl
    have same := (got.stays searched.holding.used_single).1
    rw [got.inum] at same
    exact notCached i searched.holding.used_single same.symm
  rw [add_comm] at stable₂
  have hasType₁ : (readInode sb s₁.image (s₁.inode i).inum).type ≠ 0 := by
    rw [isImage₁, got.inum, marked.2]
    exact hasType
  rcases stable₂.ilock stable₂.holding.used_first notJ hasType₁ with
    ⟨s₂, isLock, stable₃, isIp₂, inums₂, others₂, isImage₂⟩
  have isNew : (s₂.inode i).inum = m := (inums₂ i).trans got.inum
  rw [isImage₁, got.inum, marked.2] at isIp₂
  have made := stable₃.files.clear member (fits 1 (by decide) major smallMajor minor smallMinor) rfl
  have isInit : s₂.initInode sb i major minor = { s₂.set i { s₂.inode i with
      ip := ({ type, major, minor, nlink := 1 } : Dinode) } with
      image := Fs.iupdate sb m { type, major, minor, nlink := 1 } s₂.image } := by
    unfold Itable.initInode
    rw [isIp₂, isNew]
  have edited := stable₃.edit stable₃.holding.used_first isNew made.2 made.1
  have bothFree : free sb (Fs.iupdate sb m { type, major, minor, nlink := 1 } s₂.image) = free sb s.image := by
    rw [stable₃.files.free_iupdate member, isImage₂, isImage₁, system.files.free_iupdate member]
  rw [← isInit] at edited
  refine ⟨i, s₁, s₂, _, isAlloc.trans isGet, isLock, rfl, edited.stable, notJ, (edited.inum i).trans isNew, edited.isIp,
    ?_, ?_, ?_, ?_⟩
  · rw [edited.others j notJ.symm, others₂ j notJ.symm, got.others notJ.symm]
  · have first := marked.1
    rw [← isImage₁, ← isImage₂] at first
    exact first.trans edited.changed
  · rw [isInit]
    exact made.2
  · rw [isInit]
    exact bothFree

theorem toMap_nil (last : List Byte) : toMap (slotsOf []) last = none := rfl

theorem empty_directory (isInode : readInode sb image m = { type := tDir, major, minor, nlink := n }) :
    Directory (readInode sb image m) image [] := by
  rw [isInode]
  have notDevice : tDir ≠ tDev := by decide
  exact ⟨rfl, ⟨notDevice, rfl, fun _ less => absurd less (Nat.not_lt_zero _),
    fun _ less => absurd less (Nat.not_lt_zero _), Nat.zero_le _⟩, dvd_zero 16⟩

theorem distinct_nil : Distinct (slotsOf []) := by
  rintro i j name v w ⟨⟩

/-- The entries `.` and `..` of a directory that is empty. -/
theorem insert_dots (m d : ℕ) : SlotTable.insert (SlotTable.insert (slotsOf []) dotName m) dotdotName d =
    [some (dotName, m), some (dotdotName, d)] := rfl

/-- `create` has taken the inode `m`, which has no entries yet. -/
structure Taken (sb : Superblock) (s s' : Itable) (inodes : Set ℕ) (i j : Fin ninode) (m d type major minor : ℕ) :
    Prop where
  stable : Stable sb s s' inodes (Pi.single i 1 + Pi.single j 1) {i, j}
  notJ : i ≠ j
  isNew : (s'.inode i).inum = m
  isParent : (s'.inode j).inum = d
  newIp : (s'.inode i).ip = readInode sb s'.image m
  parentIp : (s'.inode j).ip = readInode sb s'.image d
  changed : Changed sb inodes m s.image s'.image
  made : readInode sb s'.image m = { type, major, minor, nlink := 1 }
  free : free sb s'.image = free sb s.image

/-- Nothing is entered in an inode that is not a directory. -/
theorem Taken.filled_node (taken : Taken sb s s' inodes i j m d type major minor) (ne : d ≠ m) (member : d ∈ inodes)
    (directory : Directory (readInode sb s.image d) s.image (data d)) (notDir : type ≠ tDir) :
    Filled sb s s' inodes data i j m d type major minor := by
  have untouched := taken.changed.others d member ne
  refine ⟨taken.stable, taken.isNew, taken.isParent, taken.parentIp, ⟨0, _, taken.made⟩, fun _ => taken.made,
    fun isDir => absurd isDir notDir, ?_, directory.untouched rfl untouched,
    fun n other notNew _ => taken.changed.others n other notNew, ?_⟩
  · rw [untouched.inode, if_neg notDir]
    rfl
  · rw [taken.free]
    exact Nat.le_add_right _ _

/-- The entries `.` and `..` of a directory. -/
theorem Taken.filled_directory (taken : Taken sb s s' inodes i j m d tDir major minor) (ne : d ≠ m) (member : d ∈ inodes)
    (member' : m ∈ inodes) (directory : Directory (readInode sb s.image d) s.image (data d))
    (few : (readInode sb s.image d).nlink < 2 ^ 15) (smallNew : 0 < m ∧ m < 2 ^ 16) (smallParent : 0 < d ∧ d < 2 ^ 16)
    (enough : 6 ≤ Fs.free sb s.image) (devsw : Devsw) : ∃ s'', createDots devsw sb tDir j i s' = .ok s'' ∧
    Filled sb s s'' inodes data i j m d tDir major minor := by
  have untouched₁ := taken.changed.others d member ne
  have isCount : ((readInode sb s'.image d).nlink + 1) % 2 ^ 16 = (readInode sb s.image d).nlink + 1 := by
    rw [untouched₁.inode]
    omega
  rcases taken.stable.addLinks taken.stable.holding.used_last taken.isParent taken.parentIp member isCount with
    ⟨s₂, isAdd, edited₂, inode₂, blocks₂, free₂⟩
  have untouchedNew := edited₂.changed.others m member' ne.symm
  have isNew₂ : (s₂.inode i).inum = m := (edited₂.inum i).trans taken.isNew
  have isParent₂ : (s₂.inode j).inum = d := (edited₂.inum j).trans taken.isParent
  have made₂ := untouchedNew.inode.trans taken.made
  have newIp₂ : (s₂.inode i).ip = readInode sb s₂.image m := by
    rw [edited₂.others i taken.notJ, taken.newIp, untouchedNew.inode]
  have isDot : key (literal dotName) = dotName := by decide
  have isDotdot : key (literal dotdotName) = dotdotName := by decide
  rcases edited₂.stable.dirlink edited₂.stable.holding.used_first (.inl rfl) isNew₂ newIp₂ member'
    (empty_directory made₂) distinct_nil (toMap_nil (key (literal dotName))) smallNew.1 smallNew.2
    (.inr (by decide)) (by rw [free₂, taken.free]; omega) devsw with ⟨s₃, content₃, isLink₃, edited₃, extended₃⟩
  have isNew₃ := (edited₃.inum i).trans isNew₂
  have free₃ := extended₃.free
  have length₃ := extended₃.length
  have absent₃ : toMap (slotsOf content₃) (key (literal dotdotName)) = none := by
    rw [extended₃.map, isDot, isDotdot]
    exact Function.update_of_ne (by decide) _ _
  have room₃ : content₃.length + 16 ≤ maxfile * bsize := (Nat.add_le_add_right length₃ 16).trans (by decide)
  rcases edited₃.stable.dirlink edited₃.stable.holding.used_first (.inl rfl) isNew₃ edited₃.isIp member'
    extended₃.directory extended₃.distinct absent₃ smallParent.1 smallParent.2 (.inr room₃)
    (by rw [free₂, taken.free] at free₃; omega) devsw with ⟨s₄, content₄, isLink₄, edited₄, extended₄⟩
  have free₄ := extended₄.free
  have changed := edited₃.changed.trans edited₄.changed
  have untouched₂ := changed.others d member ne
  have same₄ : s₄.inode j = s₂.inode j :=
    (edited₄.others j taken.notJ.symm).trans (edited₃.others j taken.notJ.symm)
  refine ⟨s₄, ?_, edited₄.stable, (edited₄.inum i).trans isNew₃, ?_, ?_, ?_, fun notDir => absurd rfl notDir,
    fun _ => ⟨content₄, extended₄.directory, ?_⟩, ?_, ?_, fun n other notNew notParent => ?_, ?_⟩
  · unfold createDots
    dsimp only
    rw [if_pos rfl, isAdd, isNew₂, isLink₃]
    change (do
      let (result, s) ← dirlink devsw sb s₃ i (literal dotdotName) (s₃.inode j).inum
      if result < 0 then .error (.panic "create dots") else return s) = _
    rw [edited₃.inum, isParent₂, isLink₄]
    rfl
  · rw [same₄]
    exact isParent₂
  · rw [same₄, edited₂.isIp, untouched₂.inode]
  · rcases extended₃.fields with ⟨size₃, addrs₃, isInode₃⟩
    rcases extended₄.fields with ⟨size₄, addrs₄, isInode₄⟩
    refine ⟨size₄, addrs₄, ?_⟩
    rw [isInode₄, isInode₃, made₂]
  · rw [extended₄.slots, extended₃.slots, isDot, isDotdot]
    exact insert_dots m d
  · rw [untouched₂.inode, inode₂, untouched₁.inode, if_pos rfl]
  · have first := directory.untouched rfl untouched₁
    have second : Directory (readInode sb s₂.image d) s₂.image (data d) := by
      rw [inode₂]
      exact first.congr blocks₂ rfl rfl rfl
    exact second.untouched rfl untouched₂
  · have first := taken.changed.others n other notNew
    have second := edited₂.changed.others n other notParent
    exact (first.trans second).trans (changed.others n other notNew)
  · rw [free₂, taken.free] at free₃
    omega

/-- `create` has made the inode `m` and an entry for it in the directory `d`. -/
structure Created (sb : Superblock) (s s' : Itable) (inodes : Set ℕ) (data : ℕ → List Byte) (e : Fin ninode → ℕ)
    (held : Set (Fin ninode)) (m d : ℕ) (name : List Byte) (type major minor : ℕ) : Prop where
  holding : Itable.Holding sb { s with image := s'.image } s' e held
  firstFree : FirstFree sb s.image m
  absent : toMap (slotsOf (data d)) name = none
  fields : ∃ size addrs, readInode sb s'.image m = { type, major, minor, nlink := 1, size, addrs }
  empty : type ≠ tDir → readInode sb s'.image m = { type, major, minor, nlink := 1 }
  dots : type = tDir → ∃ content, Directory (readInode sb s'.image m) s'.image content ∧
    slotsOf content = [some (dotName, m), some (dotdotName, d)]
  parent : (readInode sb s'.image d).nlink = (readInode sb s.image d).nlink + if type = tDir then 1 else 0
  entry : ∃ content, Directory (readInode sb s'.image d) s'.image content ∧
    slotsOf content = SlotTable.insert (slotsOf (data d)) name m ∧ Distinct (slotsOf content) ∧
    toMap (slotsOf content) = Function.update (toMap (slotsOf (data d))) name (some m)
  others : ∀ n ∈ inodes, n ≠ m → n ≠ d → Untouched sb n (readInode sb s.image n) s.image s'.image
  files : Files sb inodes (readInode sb s'.image) s'.image

/-- The new entry in the directory. -/
theorem Filled.created (filled : Filled sb s s' inodes data i j m d type major minor)
    (system : System sb s inodes named data) (directory : d ∈ named)
    (isDir : (readInode sb s.image d).type = tDir) (firstFree : FirstFree sb s.image m) (ne : d ≠ m) (member : m ∈ inodes)
    (small : m < 2 ^ 16) (absent : toMap (slotsOf (data d)) (key name) = none)
    (room : firstEmpty (slotsOf (data d)) < (slotsOf (data d)).length ∨ (data d).length + 16 ≤ maxfile * bsize)
    (enough : 6 ≤ Fs.free sb s.image) (devsw : Devsw) : ∃ s₂ s₃, Fs.dirlink devsw sb s' j name m = .ok (0, s₂) ∧
    s₂.iunlockput sb j = .ok s₃ ∧ (s₃.inode i).inum = m ∧
    Created sb s s₃ inodes data (Pi.single i 1) {i} m d (key name) type major minor := by
  have within := system.within directory
  have isFree := filled.free
  have used := filled.stable.holding.used_last
  rcases filled.stable.dirlink used (.inr rfl) filled.isParent filled.isIp within filled.directory
    (system.distinct d directory isDir) absent firstFree.pos small room (by omega) devsw with
    ⟨s₂, content, isLink, edited, extended⟩
  have notJ : i ≠ j := by
    rintro rfl
    exact ne (filled.isParent.symm.trans filled.isNew)
  have isParent := (edited.inum j).trans filled.isParent
  rcases extended.fields with ⟨size, addrs, isInode⟩
  have isCount : (readInode sb s₂.image d).nlink = (readInode sb s.image d).nlink + if type = tDir then 1 else 0 := by
    rw [isInode, filled.parent]
    rfl
  have holding := edited.stable.holding
  have stays : (readInode sb s₂.image (s₂.inode j).inum).nlink ≠ 0 ∨
      0 < (s.inode j).ref + (Pi.single i 1 : Fin ninode → ℕ) j := by
    rw [isParent, isCount]
    rcases system.graph.kept d directory with linked | ⟨k, usedK, isD⟩
    · exact .inl (by omega)
    · have isJ : k = j := holding.same holding.used_last usedK (isD.trans isParent.symm)
      exact .inr ((isJ ▸ usedK).trans_le (Nat.le_add_right _ _))
  rcases holding.iunlockput (.inr rfl) stays with ⟨s₃, isPut, holding₃, inums₃⟩
  have heldOnly : ({i, j} : Set (Fin ninode)) \ {j} = {i} := by
    rw [Set.pair_comm, Set.insert_sdiff_of_mem _ (Set.mem_singleton j), Set.sdiff_singleton_eq_self]
    exact notJ.symm
  rw [heldOnly] at holding₃
  have isImage : s₃.image = s₂.image := holding₃.image
  have untouched := edited.changed.others m member ne.symm
  refine ⟨s₂, s₃, isLink, isPut, (inums₃ i).trans ((edited.inum i).trans filled.isNew), ?_⟩
  rw [← isImage] at holding₃ isCount extended untouched
  refine ⟨holding₃, firstFree, absent, ?_, fun notDir => ?_,
    fun isNewDir => ?_, isCount, ⟨content, extended.directory, extended.slots, extended.distinct, extended.map⟩,
    fun n other notNew notParent => ?_, ?_⟩
  · rw [untouched.inode]
    exact filled.fields
  · rw [untouched.inode]
    exact filled.empty notDir
  · rcases filled.dots isNewDir with ⟨dots, newDirectory, slots⟩
    exact ⟨dots, newDirectory.untouched rfl untouched, slots⟩
  · have last := edited.changed.others n other notParent
    rw [← isImage] at last
    exact (filled.others n other notNew notParent).trans last
  · rw [isImage]
    exact edited.stable.files

/-- The numbers that a new inode gets. -/
structure ShortFields (type major minor : ℕ) : Prop where
  hasType : type ≠ 0
  type : type < 2 ^ 16
  major : major < 2 ^ 16
  minor : minor < 2 ^ 16

/-- `create` has not found the name. -/
theorem Searched.createNew (searched : Searched sb s named data d j s') (system : System sb s inodes named data)
    (spare : Spare s) (creatable : Creatable sb s inodes) (firstFree : FirstFree sb s.image m)
    (short : ShortFields type major minor) (absent : toMap (slotsOf (data d)) (key name) = none)
    (room : firstEmpty (slotsOf (data d)) < (slotsOf (data d)).length ∨ (data d).length + 16 ≤ maxfile * bsize)
    (devsw : Devsw) : ∃ i s'', Fs.createNew devsw sb type major minor j name s' = .ok (some i, s'') ∧
    (s''.inode i).inum = m ∧
    Created sb s s'' inodes data (Pi.single i 1) {i} m d (key name) type major minor := by
  have member := creatable.inodes m firstFree.pos firstFree.bound
  have small := firstFree.bound.trans_le creatable.few
  have within := system.within searched.directory
  have directory := system.graph.directory d searched.directory searched.isDir
  have ne : d ≠ m := by
    rintro rfl
    exact system.graph.allocated _ searched.directory firstFree.free
  rcases searched.allocated system spare creatable firstFree short.hasType short.type short.major short.minor with
    ⟨i, s₁, s₂, s₃, isAlloc, isLock, isInit, stable, notJ, isNew, newIp, same, changed, made, isFree⟩
  have untouched := changed.others d within ne
  have taken : Taken sb s s₃ inodes i j m d type major minor := by
    refine ⟨stable, notJ, isNew, ?_, newIp, ?_, changed, made, isFree⟩
    · rw [same]
      exact searched.inum
    · rw [same, untouched.inode]
      exact searched.isIp
  have exists_filled : ∃ s₄, createDots devsw sb type j i s₃ = .ok s₄ ∧
      Filled sb s s₄ inodes data i j m d type major minor := by
    by_cases isDir : type = tDir
    · subst isDir
      exact taken.filled_directory ne within member directory (system.links d searched.directory)
        ⟨firstFree.pos, small⟩ (system.range d searched.directory) creatable.blocks devsw
    · refine ⟨s₃, ?_, taken.filled_node ne within directory isDir⟩
      unfold createDots
      rw [if_neg isDir]
  rcases exists_filled with ⟨s₄, isDots, filled⟩
  rcases filled.created system searched.directory searched.isDir firstFree ne member small absent room creatable.blocks
    devsw with ⟨s₅, s₆, isLink, isPut, isNew₆, created⟩
  refine ⟨i, s₆, ?_, isNew₆, created⟩
  unfold Fs.createNew
  rw [isAlloc]
  change (s₁.ilock sb i >>= _) = _
  rw [isLock]
  change (createDots devsw sb type j i (s₂.initInode sb i major minor) >>= _) = _
  rw [isInit, isDots]
  change (Fs.dirlink devsw sb s₄ j name (s₄.inode i).inum >>= _) = _
  rw [filled.isNew, isLink]
  change (s₅.iunlockput sb j >>= _) = _
  rw [isPut]
  rfl

/-! ## `create` -/

/-- The path leads to the directory `d` and the name in it. -/
structure Target (sb : Superblock) (s : Itable) (data : ℕ → List Byte) (cwd : Fin ninode) (path : List Byte) (d : ℕ)
    (name : List Byte) : Prop where
  parent : walkParent sb s.image data (startOf s path cwd) (namesOf path) = some d
  last : (namesOf path).getLast? = some name

theorem Target.unique (target : Target sb s data cwd path d last) {d' : ℕ} {last' : List Byte}
    (target' : Target sb s data cwd path d' last') : d' = d ∧ last' = last :=
  ⟨Option.some_inj.1 (target'.parent.symm.trans target.parent),
    Option.some_inj.1 (target'.last.symm.trans target.last)⟩

/-- What `create` should do for each path. -/
inductive CreateCorrect (sb : Superblock) (s : Itable) (inodes : Set ℕ) (data : ℕ → List Byte) (cwd : Fin ninode)
    (path : List Byte) (type major minor : ℕ) : Except Stop (Option (Fin ninode) × Itable) → Prop where
  | absent {s' : Itable} : (∀ d name, ¬Target sb s data cwd path d name) → Itable.Holding sb s s' 0 ∅ →
      CreateCorrect sb s inodes data cwd path type major minor (.ok (none, s'))
  | refused {s' : Itable} {v d : ℕ} {name : List Byte} : Target sb s data cwd path d name →
      toMap (slotsOf (data d)) name = some v → ¬(type = tFile ∧ (readInode sb s.image v).type = tFile) →
      Itable.Holding sb s s' 0 ∅ → CreateCorrect sb s inodes data cwd path type major minor (.ok (none, s'))
  | opened {s' : Itable} {i : Fin ninode} {v d : ℕ} {name : List Byte} : Target sb s data cwd path d name →
      toMap (slotsOf (data d)) name = some v → type = tFile ∧ (readInode sb s.image v).type = tFile →
      (s'.inode i).inum = v → Itable.Holding sb s s' (Pi.single i 1) {i} →
      CreateCorrect sb s inodes data cwd path type major minor (.ok (some i, s'))
  | created {s' : Itable} {i : Fin ninode} {m d : ℕ} {name : List Byte} : Target sb s data cwd path d name →
      (s'.inode i).inum = m → Created sb s s' inodes data (Pi.single i 1) {i} m d name type major minor →
      CreateCorrect sb s inodes data cwd path type major minor (.ok (some i, s'))
  | full {d : ℕ} {name : List Byte} : Target sb s data cwd path d name → toMap (slotsOf (data d)) name = none →
      (∀ n, 0 < n → n < sb.ninodes → (readInode sb s.image n).type ≠ 0) →
      CreateCorrect sb s inodes data cwd path type major minor (.error (.panic "ialloc: no inodes"))

/-- The directory has room for the name, if it is not there. -/
def CreateFits (sb : Superblock) (s : Itable) (data : ℕ → List Byte) (cwd : Fin ninode) (path : List Byte) : Prop :=
  ∀ d name, Target sb s data cwd path d name → toMap (slotsOf (data d)) name = none →
    firstEmpty (slotsOf (data d)) < (slotsOf (data d)).length ∨ (data d).length + 16 ≤ maxfile * bsize

theorem System.createIn (system : System sb s inodes named data) (searched : Searched sb s named data d j s')
    (spare : Spare s) (creatable : Creatable sb s inodes) (short : ShortFields type major minor)
    (fits : CreateFits sb s data cwd path) (target : Target sb s data cwd path d (key name))
    (isLock : s₂.ilock sb j = .ok s') (devsw : Devsw) :
    CreateCorrect sb s inodes data cwd path type major minor
      (Fs.createIn devsw sb type major minor j name s₂) := by
  have isImage : s'.image = s.image := searched.holding.image
  have opened := searched.opened system
  have unfolded : Fs.createIn devsw sb type major minor j name s₂ = (do
      let (found, s) ← lookupResult s' (scan (slotsOf (data d)) 0 (key name))
      match found with
      | some (ip, _) => createFound sb type j ip s
      | none => Fs.createNew devsw sb type major minor j name s) := by
    unfold Fs.createIn
    rw [isLock]
    change (Fs.dirlookup devsw sb s' j name >>= _) = _
    rw [opened.directory.dirlookup devsw sb name]
  rw [unfolded]
  rcases isMap : toMap (slotsOf (data d)) (key name) with _ | v
  · rw [scan_absent isMap]
    change CreateCorrect sb s inodes data cwd path type major minor
      (Fs.createNew devsw sb type major minor j name s')
    rcases exists_firstFree sb s.image with ⟨m, firstFree⟩ | taken
    · rcases searched.createNew system spare creatable firstFree short isMap (fits d _ target isMap) devsw with
        ⟨i, s'', isNew, isNum, created⟩
      rw [isNew]
      exact .created target isNum created
    · have noInode : ialloc sb s' type = .error (.panic "ialloc: no inodes") := by
        refine iallocLoop_none type sb.ninodes 1 fun n le less => ?_
        rw [isImage]
        exact taken n le less
      unfold Fs.createNew
      rw [noInode]
      exact .full target isMap taken
  · rcases scan_present isMap with ⟨l, isScan, entry⟩
    have child := system.graph.entries d searched.directory searched.isDir l (key name) v entry
    rcases Itable.iget_ok_iff.2 (searched.holding.room spare v) with ⟨i, s₃, isGet⟩
    have isLookup : lookupResult s' (some (v, 16 * l)) = .ok (some (i, 16 * l), s₃) := by
      unfold lookupResult
      dsimp only
      rw [isGet]
      rfl
    rw [isScan, isLookup]
    change CreateCorrect sb s inodes data cwd path type major minor (createFound sb type j i s₃)
    rcases system.graph.descend searched.holding (searched.inum ▸ searched.directory) (Itable.iget_got isGet) with
      ⟨s₄, isPut, holding₄, isV⟩
    rcases system.graph.lock holding₄ (isV ▸ child) with ⟨s₅, isLock₅, holding₅, isIp₅, inums₅⟩
    have isV₅ : (s₅.inode i).inum = v := (inums₅ i).trans isV
    rw [isV] at isIp₅
    have isFound : createFound sb type j i s₃ = if type = tFile ∧ (readInode sb s.image v).type = tFile then
        .ok (some i, s₅) else (do
          let s ← s₅.iunlockput sb i
          return (none, s)) := by
      unfold createFound
      rw [isPut]
      change (s₄.ilock sb i >>= _) = _
      rw [isLock₅]
      change (if type = tFile ∧ (s₅.inode i).ip.type = tFile then _ else _) = _
      rw [isIp₅]
      rfl
    rw [isFound]
    by_cases both : type = tFile ∧ (readInode sb s.image v).type = tFile
    · rw [if_pos both]
      exact .opened target isMap both isV₅ holding₅
    · rcases system.graph.giveUp holding₅ (isV₅ ▸ child) with ⟨s₆, isPut₆, holding₆⟩
      rw [if_neg both, isPut₆]
      exact .refused target isMap both holding₆

theorem System.create (system : System sb s inodes named data) (devsw : Devsw) (spare : Spare s)
    (creatable : Creatable sb s inodes) (short : ShortFields type major minor) (fits : CreateFits sb s data cwd path)
    (used : 0 < (s.inode cwd).ref) (member : (s.inode cwd).inum ∈ named) (noNul : 0 ∉ path) (buffer : ℕ → Byte) :
    CreateCorrect sb s inodes data cwd path type major minor
      (Fs.create devsw sb path type major minor buffer cwd s) := by
  have start := system.graph.start member path
  have correct : NamexEnds sb s true (namesOf path) (walkParent sb s.image data (startOf s path cwd) (namesOf path))
      (nameiparent devsw sb path buffer cwd s) :=
    (system.graph.namex devsw true system.ok system.coherent system.unlocked used member noNul buffer).ends
  rcases correct with ⟨-, full⟩ | ⟨parent, name, s₁, isResult, resolved, isLast⟩
  · exact absurd spare full
  · unfold Fs.create
    rw [isResult]
    generalize isParent : walkParent sb s.image data (startOf s path cwd) (namesOf path) = target at resolved
    cases resolved with
    | absent holding =>
        refine .absent (fun d name found => ?_) holding
        have isFound := found.parent
        rw [isParent] at isFound
        cases isFound
    | @found j _ holding =>
        rcases (system.graph.walkParent_congr (fun _ _ => rfl) (namesOf path) start).2 _ isParent with
          ⟨directory, isDir⟩
        rcases system.graph.lock holding directory with ⟨s₂, isLock, holding', isIp, inums⟩
        have searched : Searched sb s named data (s₁.inode j).inum j s₂ :=
          ⟨holding', inums j, directory, isDir, isIp⟩
        exact system.createIn searched spare creatable short fits ⟨isParent, isLast rfl fun none => by cases none⟩
          isLock devsw

/-- `create` makes a new inode of the type with an entry for it, and for a directory the entries `.` and `..`; if the
name is there, it opens a file for a file, and else changes nothing. -/
theorem create_correct (devsw : Devsw) (system : System sb s inodes named data) (spare : Spare s)
    (creatable : Creatable sb s inodes) (short : ShortFields type major minor) (fits : CreateFits sb s data cwd path)
    (used : 0 < (s.inode cwd).ref) (member : (s.inode cwd).inum ∈ named) (noNul : 0 ∉ path) (buffer : ℕ → Byte) :
    CreateCorrect sb s inodes data cwd path type major minor
      (create devsw sb path type major minor buffer cwd s) :=
  system.create devsw spare creatable short fits used member noNul buffer

end Xv6.Fs
