import Xv6.Fs.Path

/-!
# Links

`sys_link`. The link count is raised and written before the directory for the new name is looked up, and
lowered again if that fails. `begin_op` and `end_op` are left out.
-/

namespace Xv6.Fs

open Bytes SlotTable

/-- `ip->nlink += n` and `iupdate(ip)`, in two bytes -/
def Itable.addLinks (sb : Superblock) (s : Itable) (i : Fin ninode) (n : ℕ) : Itable :=
  let ip := { (s.inode i).ip with nlink := ((s.inode i).ip.nlink + n) % 2 ^ 16 }
  { s.set i { s.inode i with ip } with image := iupdate sb (s.inode i).inum ip s.image }

/-- What `sys_link` does after `bad`. -/
def linkBad (sb : Superblock) (ip : Fin ninode) (s : Itable) : Except Stop (ℤ × Itable) := do
  let s ← s.ilock sb ip
  let s := s.addLinks sb ip (2 ^ 16 - 1)
  let s ← s.iunlockput sb ip
  return (-1, s)

/-- The part of `sys_link` that has found the directory. -/
def linkInto (devsw : Devsw) (sb : Superblock) (ip dp : Fin ninode) (name : ℕ → Byte) (s : Itable) :
    Except Stop (ℤ × Itable) := do
  let s ← s.ilock sb dp
  let (result, s) ← dirlink devsw sb s dp name (s.inode ip).inum
  let s ← s.iunlockput sb dp
  if result < 0 then linkBad sb ip s
  else
    let s ← s.iput sb ip
    return (0, s)

/-- `sys_link`; an argument is missing if `argstr` fails, and the buffers for names hold anything. -/
def sys_link (devsw : Devsw) (sb : Superblock) (old new : Option (List Byte)) (buffer name : ℕ → Byte)
    (cwd : Fin ninode) (s : Itable) : Except Stop (ℤ × Itable) :=
  match old, new with
  | some old, some new => do
      let (found, _, s) ← namei devsw sb old buffer cwd s
      match found with
      | none => return (-1, s)
      | some ip =>
          let s ← s.ilock sb ip
          if (s.inode ip).ip.type = tDir then
            let s ← s.iunlockput sb ip
            return (-1, s)
          else
            let s := s.addLinks sb ip 1
            let s ← s.iunlock ip
            let (parent, name, s) ← nameiparent devsw sb new name cwd s
            match parent with
            | none => linkBad sb ip s
            | some dp => linkInto devsw sb ip dp name s
  | _, _ => .ok (-1, s)

variable {devsw : Devsw} {sb : Superblock} {s s' s'' s₀ : Itable} {inodes named : Set ℕ} {data : ℕ → List Byte}
  {dinode : ℕ → Dinode} {i j k cwd : Fin ninode} {e e' : Fin ninode → ℕ} {held : Set (Fin ninode)}
  {ip ip' d : Dinode} {image image' image'' : ℕ → Block} {content : List Byte} {m n inum : ℕ}
  {old new : List Byte} {name : ℕ → Byte}

/-! ## Changes on the disk -/

namespace Itable

/-- What has been taken since a state that something had been taken in. -/
theorem Holding.trans (first : Holding sb s₀ s e ∅) (second : Holding sb s s' e' held) :
    Holding sb s₀ s' (e + e') held := by
  refine ⟨second.ok, second.coherent, fun k => ?_, fun k used => ?_, second.locked, second.image.trans first.image⟩
  · rw [second.ref, first.ref, Pi.add_apply, Nat.add_assoc]
  · rw [second.inum k (first.keeps used), first.inum k used]

theorem Holding.unchanged (holding : Holding sb s₀ s e held) (unchanged : s.Unchanged s') :
    Holding sb s₀ s' e held := by
  refine ⟨unchanged.ok holding.ok, fun k used isValid => ?_, fun k => ?_, fun k used => ?_, fun k => ?_,
    unchanged.image.trans holding.image⟩
  · rw [unchanged.ref] at used
    rw [unchanged.used k used] at isValid ⊢
    rw [unchanged.image]
    exact holding.coherent k used isValid
  · rw [unchanged.ref]
    exact holding.ref k
  · rw [unchanged.used k (holding.keeps used)]
    exact holding.inum k used
  · rw [unchanged.locked]
    exact holding.locked k

/-- An inode is changed, in the cache and on the disk. -/
theorem Holding.rewrite (holding : Holding sb s₀ s e held) (used : 0 < (s.inode i).ref)
    (isInode : readInode sb image (s.inode i).inum = ip)
    (others : ∀ k, 0 < (s.inode k).ref → (s.inode k).inum ≠ (s.inode i).inum →
      readInode sb image (s.inode k).inum = readInode sb s.image (s.inode k).inum) :
    Holding sb { s₀ with image } { s.set i { s.inode i with ip } with image } e held := by
  have only : OnlyContent s i { s.set i { s.inode i with ip } with image } := onlyContent_set s i ip image
  have same := fun k => only.field CachedInode.ref (fun _ _ => rfl) k
  have sameInum := fun k => only.field CachedInode.inum (fun _ _ => rfl) k
  refine ⟨only.ok holding.ok, fun k usedK isValid => ?_, fun k => ?_, fun k usedK => ?_, fun k => ?_, rfl⟩
  · change 0 < ((s.set i { s.inode i with ip }).inode k).ref at usedK
    change ((s.set i { s.inode i with ip }).inode k).valid = true at isValid
    change ((s.set i { s.inode i with ip }).inode k).ip =
      readInode sb image ((s.set i { s.inode i with ip }).inode k).inum
    by_cases isI : k = i
    · subst isI
      rw [set_self]
      exact isInode.symm
    · rw [set_other isI] at usedK isValid ⊢
      rw [others k usedK fun isInum => isI (holding.ok.unique k i usedK used isInum)]
      exact holding.coherent k usedK isValid
  · exact (same k).trans (holding.ref k)
  · exact (sameInum k).trans (holding.inum k usedK)
  · rw [only.field CachedInode.locked fun _ _ => rfl]
    exact holding.locked k

end Itable

theorem fits_readInode (sb : Superblock) (image : ℕ → Block) (inum : ℕ) : (readInode sb image inum).Fits :=
  ⟨get_lt 2 _, get_lt 2 _, get_lt 2 _, get_lt 2 _, get_lt 4 _, fun _ => get_lt 4 _⟩

theorem readInode_iupdate_other (different : n ≠ inum) :
    readInode sb (iupdate sb inum ip image) n = readInode sb image n := by
  unfold readInode iupdate
  by_cases same : iblock n sb = iblock inum sb
  · rw [same, Function.update_self]
    refine dinodeAt_setDinode_other fun sameIndex => different ?_
    unfold iblock at same
    unfold ipb bsize at *
    omega
  · rw [Function.update_of_ne same]

theorem readInode_iupdate_eq (fits : ip.Fits) :
    readInode sb (iupdate sb inum ip image) = Function.update (readInode sb image) inum ip := by
  funext n
  rw [Function.update_apply]
  split
  · rename_i same
    rw [same, readInode_iupdate fits]
  · rename_i different
    exact readInode_iupdate_other different

/-- The blocks of an inode are where they were, and hold what they held. -/
structure SameBlocks (d : Dinode) (image image' : ℕ → Block) : Prop where
  slots : ∀ k ≤ maxfile, slot image' d k = slot image d k
  blocks : ∀ k ≤ maxfile, slot image d k ≠ 0 → image' (slot image d k) = image (slot image d k)

theorem SameBlocks.trans (first : SameBlocks d image image') (second : SameBlocks d image' image'') :
    SameBlocks d image image'' := by
  refine ⟨fun k bound => (second.slots k bound).trans (first.slots k bound), fun k bound has => ?_⟩
  have same := first.slots k bound
  have later := second.blocks k bound (same.symm ▸ has)
  rw [same] at later
  exact later.trans (first.blocks k bound has)

theorem SameBlocks.congr (same : SameBlocks d image image') (isAddrs : ip.addrs = d.addrs) :
    SameBlocks ip image image' := by
  refine ⟨fun k bound => ?_, fun k bound has => ?_⟩
  · rw [slot_addrs isAddrs, slot_addrs isAddrs]
    exact same.slots k bound
  · rw [slot_addrs isAddrs] at has ⊢
    exact same.blocks k bound has

theorem Untouched.sameBlocks (untouched : Untouched sb n d image image') : SameBlocks d image image' :=
  ⟨untouched.slots, untouched.blocks⟩

/-- Writing an inode keeps the blocks of the inodes. -/
theorem Files.iupdate_blocks (files : Files sb inodes dinode image) (member : inum ∈ inodes) (other : n ∈ inodes)
    (ip : Dinode) : SameBlocks (dinode n) image (iupdate sb inum ip image) := by
  have blocks : ∀ k ≤ maxfile, slot image (dinode n) k ≠ 0 →
      iupdate sb inum ip image (slot image (dinode n) k) = image (slot image (dinode n) k) := by
    intro k bound has
    refine Function.update_of_ne (fun isInode => ?_) _ _
    exact (files.blocks n other k bound has).2.2 (.inr (.inl ⟨inum, member, isInode⟩))
  refine ⟨fun k _ => slot_congr fun has => ?_, blocks⟩
  rw [← slot_indirect image] at has ⊢
  exact blocks maxfile le_rfl has

theorem Files.iupdate (files : Files sb inodes dinode image) (member : inum ∈ inodes)
    (isAddrs : ip.addrs = (dinode inum).addrs) :
    Files sb inodes (Function.update dinode inum ip) (Fs.iupdate sb inum ip image) := by
  have slots : ∀ n ∈ inodes, ∀ k ≤ maxfile,
      slot (Fs.iupdate sb inum ip image) (Function.update dinode inum ip n) k = slot image (dinode n) k := by
    intro n other k bound
    by_cases same : n = inum
    · subst same
      rw [Function.update_self]
      exact (slot_addrs isAddrs).trans ((files.iupdate_blocks member other ip).slots k bound)
    · rw [Function.update_of_ne same]
      exact (files.iupdate_blocks member other ip).slots k bound
  have uses : ∀ b < sb.size, inUse sb (Fs.iupdate sb inum ip image) b = inUse sb image b :=
    fun b less => inUse_iupdate (files.apart inum member b less)
  refine ⟨files.small, files.apart, fun b less isMeta => ?_, fun n other k bound has => ?_, ?_⟩
  · rw [uses b less]
    exact files.metadata b less isMeta
  · rw [slots n other k bound] at has ⊢
    rcases files.blocks n other k bound has with ⟨less, marked, notMeta⟩
    rw [uses _ less]
    exact ⟨less, marked, notMeta⟩
  · rcases files.mapping with ⟨used, mapping⟩
    exact ⟨used, mapping.congr slots⟩

theorem Files.free_iupdate (files : Files sb inodes dinode image) (member : inum ∈ inodes) (ip : Dinode) :
    free sb (Fs.iupdate sb inum ip image) = free sb image :=
  free_congr fun b less => inUse_iupdate (files.apart inum member b less)

/-- An entry needs two blocks at most. -/
theorem missing_entry (aligned : 16 ∣ n) : missing image ip (places n 16) ≤ 2 := by
  have isPlaces : places n 16 = touched (n / bsize) := places_block (by decide) (by
    unfold bsize
    omega)
  refine (Finset.card_filter_le _ _).trans ?_
  rw [isPlaces]
  unfold touched
  split
  · rw [Finset.card_singleton]
    decide
  · exact Finset.card_le_two

theorem Directory.congr {content : List Byte} (directory : Directory d image content)
    (same : SameBlocks d image image') (isAddrs : ip.addrs = d.addrs) (isType : ip.type = d.type)
    (isSize : ip.size = d.size) : Directory ip image' content := by
  have holds := directory.regular.holds
  have place : ∀ m < content.length, m / bsize < maxfile := by
    intro m less
    exact div_lt_maxfile (less.trans_le holds.bound)
  refine ⟨isType.trans directory.isDir, ⟨?_, isSize.trans directory.regular.size, fun m less => ?_, fun m less => ?_,
    holds.bound⟩, directory.whole⟩
  · rw [isType]
    exact directory.regular.notDevice
  · rw [slot_addrs isAddrs, same.slots _ (place m less).le]
    exact holds.mapped m less
  · rw [slot_addrs isAddrs, same.slots _ (place m less).le, same.blocks _ (place m less).le (holds.mapped m less)]
    exact holds.bytes m less

/-! ## Consistent file systems -/

/-- A file system that no system call is busy with. The inodes have different blocks, the names of a directory
are different, and link counts are not negative. -/
structure System (sb : Superblock) (s : Itable) (inodes named : Set ℕ) (data : ℕ → List Byte) : Prop where
  ok : s.Ok
  coherent : s.Coherent sb
  unlocked : ∀ i, (s.inode i).locked = false
  files : Files sb inodes (readInode sb s.image) s.image
  graph : Graph sb s named data
  within : named ⊆ inodes
  cached : ∀ i, 0 < (s.inode i).ref → (s.inode i).inum ∈ inodes
  distinct : ∀ m ∈ named, (readInode sb s.image m).type = tDir → Distinct (slotsOf (data m))
  range : ∀ m ∈ named, 0 < m ∧ m < 2 ^ 16
  links : ∀ m ∈ named, (readInode sb s.image m).nlink < 2 ^ 15

/-- Three entries of the cache are unused. -/
def SpareThree (s : Itable) : Prop :=
  ∃ a b c, a ≠ b ∧ a ≠ c ∧ b ≠ c ∧ (s.inode a).ref = 0 ∧ (s.inode b).ref = 0 ∧ (s.inode c).ref = 0

theorem SpareThree.spare (three : SpareThree s) : Spare s := by
  rcases three with ⟨a, b, c, different, -, -, unusedA, unusedB, -⟩
  exact ⟨a, b, different, unusedA, unusedB⟩

/-- One reference leaves two entries unused. -/
theorem Itable.Holding.spare (holding : Itable.Holding sb s₀ s (Pi.single i 1) held) (three : SpareThree s₀) :
    Spare s := by
  have stays : ∀ k ≠ i, (s₀.inode k).ref = 0 → (s.inode k).ref = 0 := by
    intro k isOther unused
    rw [holding.ref, Pi.single_eq_of_ne isOther, unused, Nat.add_zero]
  rcases three with ⟨a, b, c, ab, ac, bc, unusedA, unusedB, unusedC⟩
  by_cases isA : a = i
  · subst isA
    exact ⟨b, c, bc, stays b ab.symm unusedB, stays c ac.symm unusedC⟩
  · by_cases isB : b = i
    · subst isB
      exact ⟨a, c, ac, stays a isA unusedA, stays c bc.symm unusedC⟩
    · exact ⟨a, b, ab, stays a isA unusedA, stays b isB unusedB⟩

/-- The names lead to named inodes, and do not depend on more than the types. -/
theorem Graph.walk_congr (graph : Graph sb s named data)
    (types : ∀ m ∈ named, (readInode sb image m).type = (readInode sb s.image m).type)
    (names : List (List Byte)) : ∀ m ∈ named, walk sb image data m names = walk sb s.image data m names ∧
      ∀ v, walk sb s.image data m names = some v → v ∈ named := by
  induction names with
  | nil =>
      intro m member
      refine ⟨rfl, fun v isEnd => ?_⟩
      cases isEnd
      exact member
  | cons name names ih =>
      intro m member
      rw [walk, walk, types m member]
      split
      · rename_i isDir
        rcases isMap : toMap (slotsOf (data m)) name with _ | next
        · exact ⟨rfl, fun v none => by cases none⟩
        · rcases toMap_some isMap with ⟨k, -, holds⟩
          exact ih next (graph.entries m member isDir k name next holds)
      · exact ⟨rfl, fun v none => by cases none⟩

theorem Graph.walkParent_congr (graph : Graph sb s named data)
    (types : ∀ m ∈ named, (readInode sb image m).type = (readInode sb s.image m).type) (names : List (List Byte))
    (member : m ∈ named) : walkParent sb image data m names = walkParent sb s.image data m names ∧
      ∀ v, walkParent sb s.image data m names = some v → v ∈ named ∧ (readInode sb s.image v).type = tDir := by
  rcases graph.walk_congr types names.dropLast m member with ⟨same, leads⟩
  unfold walkParent
  split
  · exact ⟨rfl, fun v none => by cases none⟩
  · rw [same]
    rcases isEnd : walk sb s.image data m names.dropLast with _ | v
    · exact ⟨rfl, fun v none => by cases none⟩
    · have member' := leads v isEnd
      rw [Option.filter_some, Option.filter_some, types v member']
      refine ⟨rfl, fun w isDir => ?_⟩
      split at isDir
      · rename_i isType
        cases isDir
        exact ⟨member', of_decide_eq_true isType⟩
      · cases isDir

/-- The inode with another link count. -/
def withLinks (d : Dinode) (nlink : ℕ) : Dinode := { d with nlink }

theorem fits_withLinks (fits : d.Fits) (small : n < 256 ^ 2) : (withLinks d n).Fits :=
  ⟨fits.type, fits.major, fits.minor, small, fits.size, fits.addrs⟩

/-- `addLinks` for an inode that has been read. -/
theorem Itable.Holding.addLinks (holding : Itable.Holding sb s₀ s e held) (used : 0 < (s.inode i).ref)
    (isIp : (s.inode i).ip = readInode sb s.image (s.inode i).inum) {l : ℕ}
    (isCount : ((readInode sb s.image (s.inode i).inum).nlink + n) % 2 ^ 16 = l) : ∃ s', s.addLinks sb i n = s' ∧
    s'.image = iupdate sb (s.inode i).inum (withLinks (readInode sb s.image (s.inode i).inum) l) s.image ∧
    Itable.Holding sb { s₀ with image := s'.image } s' e held ∧ (∀ k, (s'.inode k).inum = (s.inode k).inum) ∧
    (s'.inode i).ip = withLinks (readInode sb s.image (s.inode i).inum) l := by
  have small : l < 256 ^ 2 := by omega
  have isState : s.addLinks sb i n = { s.set i { s.inode i with
      ip := withLinks (readInode sb s.image (s.inode i).inum) l } with
      image := iupdate sb (s.inode i).inum (withLinks (readInode sb s.image (s.inode i).inum) l) s.image } := by
    unfold Itable.addLinks
    rw [isIp, isCount]
    rfl
  rw [isState]
  refine ⟨_, rfl, rfl, holding.rewrite used ?_ fun k _ different => readInode_iupdate_other different,
    Itable.set_field s i _ CachedInode.inum rfl, ?_⟩
  · exact readInode_iupdate (fits_withLinks (fits_readInode sb s.image _) small)
  · exact congrArg CachedInode.ip (Itable.set_self s i _)

theorem Itable.Holding.same (holding : Itable.Holding sb s₀ s e held) (used : 0 < (s.inode i).ref)
    (used' : 0 < (s₀.inode k).ref) (isInum : (s₀.inode k).inum = (s.inode i).inum) : k = i := by
  exact holding.ok.unique k i (holding.keeps used') used ((holding.inum k used').trans isInum)

/-- Nothing has changed for the inodes, and the counts of references are the same. -/
structure LinkUndone (sb : Superblock) (s s' : Itable) (inodes : Set ℕ) : Prop where
  ref : ∀ k, (s'.inode k).ref = (s.inode k).ref
  inum : ∀ k, 0 < (s.inode k).ref → (s'.inode k).inum = (s.inode k).inum
  untouched : ∀ n ∈ inodes, Untouched sb n (readInode sb s.image n) s.image s'.image

theorem LinkUndone.of_image (holding : Itable.Holding sb s s' 0 ∅) : LinkUndone sb s s' inodes := by
  refine ⟨holding.ref, holding.inum, fun n _ => ?_⟩
  rw [holding.image]
  exact ⟨rfl, fun _ _ => rfl, fun _ _ _ => rfl⟩

/-- The state of the disk when the link count of `m` has been raised. -/
structure Raised (sb : Superblock) (s : Itable) (m : ℕ) (image : ℕ → Block) : Prop where
  image : image = iupdate sb m (withLinks (readInode sb s.image m) ((readInode sb s.image m).nlink + 1)) s.image

theorem System.raised_inode (system : System sb s inodes named data) (member : m ∈ named) (raised : Raised sb s m image) :
    readInode sb image = Function.update (readInode sb s.image) m
      (withLinks (readInode sb s.image m) ((readInode sb s.image m).nlink + 1)) := by
  have few := system.links m member
  rw [raised.image]
  exact readInode_iupdate_eq (fits_withLinks (fits_readInode sb s.image m) (by omega))

theorem System.raised_self (system : System sb s inodes named data) (member : m ∈ named) (raised : Raised sb s m image) :
    readInode sb image m = withLinks (readInode sb s.image m) ((readInode sb s.image m).nlink + 1) := by
  rw [system.raised_inode member raised, Function.update_self]

theorem System.raised_other (system : System sb s inodes named data) (member : m ∈ named) (raised : Raised sb s m image)
    (different : n ≠ m) : readInode sb image n = readInode sb s.image n := by
  rw [system.raised_inode member raised, Function.update_of_ne different]

theorem System.raised_files (system : System sb s inodes named data) (member : m ∈ named) (raised : Raised sb s m image) :
    Files sb inodes (readInode sb image) image := by
  have isAddrs : (withLinks (readInode sb s.image m) ((readInode sb s.image m).nlink + 1)).addrs =
      (readInode sb s.image m).addrs := rfl
  have files := system.files.iupdate (system.within member) isAddrs
  rw [← system.raised_inode member raised, ← raised.image] at files
  exact files

theorem System.raised_blocks (system : System sb s inodes named data) (member : m ∈ named) (raised : Raised sb s m image)
    (other : n ∈ inodes) : SameBlocks (readInode sb s.image n) s.image image := by
  rw [raised.image]
  exact system.files.iupdate_blocks (system.within member) other _

/-- `bad`: the link count is lowered again. -/
theorem System.link_undone (system : System sb s inodes named data) (member : (s'.inode i).inum ∈ named)
    (raised : Raised sb s (s'.inode i).inum image)
    (holding : Itable.Holding sb { s with image } s' (Pi.single i 1) ∅) :
    ∃ s'', linkBad sb i s' = .ok (-1, s'') ∧ LinkUndone sb s s'' inodes := by
  have isImage : s'.image = image := holding.image
  have self := system.raised_self member raised
  have few := system.links _ member
  have used := holding.used_single
  have hasType : (readInode sb s'.image (s'.inode i).inum).type ≠ 0 := by
    rw [isImage, self]
    exact system.graph.allocated _ member
  rcases holding.exists_ilock used (Set.notMem_empty i) hasType with ⟨s₂, isLock, holding₂, isIp₂, inum₂⟩
  have isImage₂ : s₂.image = image := holding₂.image
  have used₂ := holding₂.used_single
  have isCount : ((readInode sb s₂.image (s₂.inode i).inum).nlink + (2 ^ 16 - 1)) % 2 ^ 16 =
      (readInode sb s.image (s'.inode i).inum).nlink := by
    rw [isImage₂, inum₂, self]
    change ((readInode sb s.image (s'.inode i).inum).nlink + 1 + (2 ^ 16 - 1)) % 2 ^ 16 = _
    omega
  have isRead : (s₂.inode i).ip = readInode sb s₂.image (s₂.inode i).inum := by
    rw [isIp₂, isImage₂, isImage, inum₂]
  rcases holding₂.addLinks used₂ isRead isCount with ⟨s₃, isAdd, isImage₃, holding₃, inum₃, -⟩
  have isLower : withLinks (readInode sb s₂.image (s₂.inode i).inum)
      (readInode sb s.image (s'.inode i).inum).nlink = readInode sb s.image (s'.inode i).inum := by
    rw [isImage₂, inum₂, self]
    rfl
  rw [isLower, inum₂, isImage₂] at isImage₃
  have isInode : readInode sb s₃.image = readInode sb s.image := by
    rw [isImage₃, readInode_iupdate_eq (fits_readInode sb s.image _), system.raised_inode member raised,
      Function.update_idem, Function.update_eq_self]
  have isInum₃ : (s₃.inode i).inum = (s'.inode i).inum := (inum₃ i).trans (inum₂ i)
  rw [← zero_add (Pi.single i 1)] at holding₃
  have used₃ := holding₃.used_last
  have stays : (readInode sb s₃.image (s₃.inode i).inum).nlink ≠ 0 ∨
      0 < (s.inode i).ref + (0 : Fin ninode → ℕ) i := by
    rw [isInode, isInum₃]
    rcases system.graph.kept _ member with linked | ⟨k, usedK, same⟩
    · exact .inl linked
    · have isI : k = i := holding₃.same used₃ usedK (same.trans isInum₃.symm)
      subst isI
      exact .inr (usedK.trans_le (Nat.le_add_right _ _))
  rcases holding₃.iunlockput (.inl rfl) stays with ⟨s₄, isPut, holding₄, -⟩
  refine ⟨s₄, ?_, holding₄.ref, holding₄.inum, fun n other => ?_⟩
  · unfold linkBad
    rw [isLock]
    change (do
      let s ← (s₂.addLinks sb i (2 ^ 16 - 1)).iunlockput sb i
      return (-1, s)) = _
    rw [isAdd, isPut]
    rfl
  · have isImage₄ : s₄.image = s₃.image := holding₄.image
    have first := system.raised_blocks member raised other
    have second := (system.raised_files member raised).iupdate_blocks (system.within member) other
      (readInode sb s.image (s'.inode i).inum)
    have isAddrs : (readInode sb s.image n).addrs = (readInode sb image n).addrs := by
      by_cases same : n = (s'.inode i).inum
      · rw [same, self]
        rfl
      · rw [system.raised_other member raised same]
    rw [← isImage₃] at second
    have both := first.trans (second.congr isAddrs)
    rw [isImage₄]
    exact ⟨congrFun isInode n, both.slots, both.blocks⟩

theorem System.raised_type (system : System sb s inodes named data) (member : m ∈ named) (raised : Raised sb s m image)
    (n : ℕ) : (readInode sb image n).type = (readInode sb s.image n).type ∧
      (readInode sb image n).addrs = (readInode sb s.image n).addrs ∧
      (readInode sb image n).size = (readInode sb s.image n).size := by
  by_cases same : n = m
  · rw [same, system.raised_self member raised]
    exact ⟨rfl, rfl, rfl⟩
  · rw [system.raised_other member raised same]
    exact ⟨rfl, rfl, rfl⟩

theorem System.raised_directory (system : System sb s inodes named data) (member : m ∈ named)
    (raised : Raised sb s m image) (member' : n ∈ named) (isDir : (readInode sb s.image n).type = tDir) :
    Directory (readInode sb image n) image (data n) := by
  rcases system.raised_type member raised n with ⟨isType, isAddrs, isSize⟩
  exact (system.graph.directory n member' isDir).congr
    (system.raised_blocks member raised (system.within member')) isAddrs isType isSize

/-- The names lead to the same inodes when a link count has been raised. -/
theorem System.raised_graph (system : System sb s inodes named data) (member : (s'.inode i).inum ∈ named)
    (raised : Raised sb s (s'.inode i).inum image)
    (holding : Itable.Holding sb { s with image } s' e held) : Graph sb s' named data := by
  have isImage : s'.image = image := holding.image
  have types := fun n => (system.raised_type member raised n).1
  refine ⟨system.graph.root, fun n member' => ?_, fun n member' => ?_, fun n member' isDir => ?_,
    fun n member' isDir => ?_⟩
  · rw [isImage, types]
    exact system.graph.allocated n member'
  · rw [isImage]
    by_cases same : n = (s'.inode i).inum
    · rw [same, system.raised_self member raised]
      exact .inl (Nat.succ_ne_zero _)
    · rw [system.raised_other member raised same]
      refine (system.graph.kept n member').imp_right ?_
      rintro ⟨k, used, isInum⟩
      exact ⟨k, holding.keeps used, (holding.inum k used).trans isInum⟩
  · rw [isImage, types] at isDir
    rw [isImage]
    exact system.raised_directory member raised member' isDir
  · rw [isImage, types] at isDir
    exact system.graph.entries n member' isDir

/-- `sys_link` has found the directory `j` for the new name of the inode `i`, and holds both. -/
structure Linking (sb : Superblock) (s : Itable) (named : Set ℕ) (image : ℕ → Block) (i j : Fin ninode) (s' : Itable) :
    Prop where
  file : (s'.inode i).inum ∈ named
  isFile : (readInode sb s.image (s'.inode i).inum).type ≠ tDir
  directory : (s'.inode j).inum ∈ named
  isDir : (readInode sb s.image (s'.inode j).inum).type = tDir
  raised : Raised sb s (s'.inode i).inum image

theorem Linking.ne (linking : Linking sb s named image i j s') : (s'.inode i).inum ≠ (s'.inode j).inum := by
  intro same
  have isFile := linking.isFile
  rw [same] at isFile
  exact isFile linking.isDir

theorem Linking.congr (linking : Linking sb s named image i j s') (same : ∀ k, (s''.inode k).inum = (s'.inode k).inum) :
    Linking sb s named image i j s'' := by
  refine ⟨?_, ?_, ?_, ?_, ?_⟩
  · rw [same]
    exact linking.file
  · rw [same]
    exact linking.isFile
  · rw [same]
    exact linking.directory
  · rw [same]
    exact linking.isDir
  · rw [same]
    exact linking.raised

/-- The directory is locked. -/
theorem System.openDirectory (system : System sb s inodes named data) (linking : Linking sb s named image i j s')
    (holding : Itable.Holding sb { s with image } s' (Pi.single i 1 + Pi.single j 1) ∅) : ∃ s'',
    s'.ilock sb j = .ok s'' ∧
    Itable.Holding sb { s with image } s'' (Pi.single i 1 + Pi.single j 1) {j} ∧
    (∀ k, (s''.inode k).inum = (s'.inode k).inum) ∧
    (s''.inode j).ip = readInode sb image (s'.inode j).inum ∧
    OpenDirectory sb s'' j (data (s'.inode j).inum) := by
  have isImage : s'.image = image := holding.image
  have types := fun n => (system.raised_type linking.file linking.raised n).1
  have used := holding.used_last
  have hasType : (readInode sb s'.image (s'.inode j).inum).type ≠ 0 := by
    rw [isImage, types]
    exact system.graph.allocated _ linking.directory
  rcases holding.exists_ilock used (Set.notMem_empty j) hasType with ⟨s'', isLock, holding', isIp, inums⟩
  rw [insert_empty_eq] at holding'
  rw [isImage] at isIp
  have isImage' : s''.image = image := holding'.image
  have directory := system.raised_directory linking.file linking.raised linking.directory linking.isDir
  refine ⟨s'', isLock, holding', inums, isIp, holding'.ok, ?_, (holding'.locked j).2 rfl, ?_, ?_, directory.whole, ?_,
    system.distinct _ linking.directory linking.isDir⟩
  · exact holding'.used_last
  · rw [isIp]
    exact directory.isDir
  · rw [isIp]
    exact directory.regular.size
  · rw [isIp, isImage', inums]
    exact (system.raised_files linking.file linking.raised).file (system.within linking.directory) directory.regular

/-- There is an entry for the inode that a name leads to. -/
theorem Itable.Holding.available (holding : Itable.Holding sb s₀ s' (Pi.single i 1 + Pi.single j 1) {j})
    (three : SpareThree s₀) {v : ℕ} (different : v ≠ (s'.inode j).inum) : Available s' v := by
  have stays : ∀ k, k ≠ i → k ≠ j → (s₀.inode k).ref = 0 → s'.Room v := by
    intro k notI notJ unused
    refine ⟨k, .inr ?_⟩
    rw [holding.ref, Pi.add_apply, Pi.single_eq_of_ne notI, Pi.single_eq_of_ne notJ, unused]
    rfl
  refine ⟨?_, fun k used same => ?_⟩
  · rcases three with ⟨a, b, c, ab, ac, bc, unusedA, unusedB, unusedC⟩
    by_cases isA : a = i ∨ a = j
    · by_cases isB : b = i ∨ b = j
      · refine stays c ?_ ?_ unusedC
        · rintro rfl
          grind
        · rintro rfl
          grind
      · rw [not_or] at isB
        exact stays b isB.1 isB.2 unusedB
    · rw [not_or] at isA
      exact stays a isA.1 isA.2 unusedA
  · refine holding.notLocked fun isJ => different ?_
    rw [← same, Set.mem_singleton_iff.1 isJ]

/-- The name is there, and names the directory itself. -/
theorem System.link_self (system : System sb s inodes named data) (devsw : Devsw)
    (linking : Linking sb s named image i j s')
    (holding : Itable.Holding sb { s with image } s' (Pi.single i 1 + Pi.single j 1) ∅)
    (isMap : toMap (slotsOf (data (s'.inode j).inum)) (key name) = some (s'.inode j).inum) :
    linkInto devsw sb i j name s' = .error .asleep := by
  rcases system.openDirectory linking holding with ⟨s₁, isLock, holding₁, inums, -, dir⟩
  have asleep := dir.asleep devsw (s₁.inode i).inum isMap dir.used (inums j) dir.locked
  unfold linkInto
  rw [isLock]
  change (dirlink devsw sb s₁ j name (s₁.inode i).inum >>= _) = _
  rw [asleep]
  rfl

theorem Itable.Holding.giveUp (holding : Itable.Holding sb s₀ s' (Pi.single i 1 + Pi.single j 1) {j})
    (stays : (readInode sb s'.image (s'.inode j).inum).nlink ≠ 0 ∨
      ∃ k, 0 < (s₀.inode k).ref ∧ (s₀.inode k).inum = (s'.inode j).inum) :
    ∃ s'', s'.iunlockput sb j = .ok s'' ∧ Itable.Holding sb s₀ s'' (Pi.single i 1) ∅ ∧
      ∀ k, (s''.inode k).inum = (s'.inode k).inum := by
  have used := holding.used_last
  have stays' : (readInode sb s'.image (s'.inode j).inum).nlink ≠ 0 ∨
      0 < (s₀.inode j).ref + (Pi.single i 1 : Fin ninode → ℕ) j := by
    refine stays.imp_right ?_
    rintro ⟨k, usedK, same⟩
    have isJ : k = j := holding.same used usedK same
    exact (isJ ▸ usedK).trans_le (Nat.le_add_right _ _)
  rcases holding.iunlockput rfl stays' with ⟨s'', isPut, holding', inums⟩
  rw [Set.sdiff_self] at holding'
  exact ⟨s'', isPut, holding', inums⟩

/-- The name is there, and names another inode. -/
theorem System.link_exists (system : System sb s inodes named data) (devsw : Devsw) (three : SpareThree s)
    (linking : Linking sb s named image i j s')
    (holding : Itable.Holding sb { s with image } s' (Pi.single i 1 + Pi.single j 1) ∅) {v : ℕ}
    (isMap : toMap (slotsOf (data (s'.inode j).inum)) (key name) = some v) (different : v ≠ (s'.inode j).inum) :
    ∃ s'', linkInto devsw sb i j name s' = .ok (-1, s'') ∧ LinkUndone sb s s'' inodes := by
  rcases system.openDirectory linking holding with ⟨s₁, isLock, holding₁, inums₁, -, dir⟩
  have available : Available s₁ v := holding₁.available three ((inums₁ j).symm ▸ different)
  rcases dir.found devsw (s₁.inode i).inum isMap available with ⟨s₂, isLink, unchanged⟩
  have holding₂ := holding₁.unchanged unchanged
  have isImage : s₂.image = image := holding₂.image
  have inums₂ : ∀ k ∈ ({i, j} : Set (Fin ninode)), (s₂.inode k).inum = (s₁.inode k).inum := by
    intro k member
    rw [unchanged.used k]
    refine holding₁.used ?_
    rw [Pi.add_apply]
    rcases member with rfl | rfl
    · rw [Pi.single_eq_same]
      omega
    · rw [Pi.single_eq_same]
      omega
  have isDp : (s₂.inode j).inum = (s'.inode j).inum := (inums₂ j (.inr rfl)).trans (inums₁ j)
  have isIp : (s₂.inode i).inum = (s'.inode i).inum := (inums₂ i (.inl rfl)).trans (inums₁ i)
  have stays : (readInode sb s₂.image (s₂.inode j).inum).nlink ≠ 0 ∨
      ∃ k, 0 < (s.inode k).ref ∧ (s.inode k).inum = (s₂.inode j).inum := by
    rw [isImage, isDp, system.raised_other linking.file linking.raised linking.ne.symm]
    exact system.graph.kept _ linking.directory
  rcases holding₂.giveUp stays with ⟨s₃, isPut, holding₃, inums₃⟩
  have isIp₃ : (s₃.inode i).inum = (s'.inode i).inum := (inums₃ i).trans isIp
  rcases system.link_undone (isIp₃.symm ▸ linking.file) (isIp₃.symm ▸ linking.raised) holding₃ with ⟨s₄, isBad, undone⟩
  refine ⟨s₄, ?_, undone⟩
  unfold linkInto
  rw [isLock]
  change (dirlink devsw sb s₁ j name (s₁.inode i).inum >>= _) = _
  rw [isLink]
  change (s₂.iunlockput sb j >>= _) = _
  rw [isPut]
  exact isBad

/-- The directory is as large as a file can be, and has no empty slot. -/
theorem System.link_full (system : System sb s inodes named data) (devsw : Devsw)
    (linking : Linking sb s named image i j s')
    (holding : Itable.Holding sb { s with image } s' (Pi.single i 1 + Pi.single j 1) ∅)
    (absent : toMap (slotsOf (data (s'.inode j).inum)) (key name) = none)
    (noSlot : ¬firstEmpty (slotsOf (data (s'.inode j).inum)) < (slotsOf (data (s'.inode j).inum)).length)
    (full : ¬(data (s'.inode j).inum).length + 16 ≤ maxfile * bsize) :
    linkInto devsw sb i j name s' = .error (.panic "dirlink") := by
  rcases system.openDirectory linking holding with ⟨s₁, isLock, holding₁, inums₁, -, dir⟩
  have bound := firstEmpty_le (slotsOf (data (s'.inode j).inum))
  have whole := dir.whole
  have isEntry := length_newEntry name (s₁.inode i).inum
  have isEnd : 16 * firstEmpty (slotsOf (data (s'.inode j).inum)) = (data (s'.inode j).inum).length := by
    rw [length_slotsOf] at bound noSlot
    omega
  have size := dir.directory.regular.size_le
  have small : (newEntry name (s₁.inode i).inum).length < 2 ^ 32 := by
    rw [isEntry]
    decide
  have refused : Refused (s₁.inode j).ip (16 * firstEmpty (slotsOf (data (s'.inode j).inum)))
      (newEntry name (s₁.inode i).inum).length := by
    refine .inr (.inr ?_)
    rw [isEntry, isEnd]
    omega
  have isWrite : Fs.writei devsw sb (s₁.inode j).inum (s₁.inode j).ip s₁.image (newEntry name (s₁.inode i).inum)
      (16 * firstEmpty (slotsOf (data (s'.inode j).inum))) = some (none, (s₁.inode j).ip, s₁.image) :=
    writei_refused devsw sb _ dir.directory.regular.notDevice size small refused
  have isLink : dirlink devsw sb s₁ j name (s₁.inode i).inum = .error (.panic "dirlink") := by
    rw [dir.dirlink_absent devsw _ absent]
    unfold Itable.writei
    rw [isWrite]
    rfl
  unfold linkInto
  rw [isLock]
  change (dirlink devsw sb s₁ j name (s₁.inode i).inum >>= _) = _
  rw [isLink]
  rfl

/-- `sys_link` has added one entry, for the inode `m`, to the directory `d`. -/
structure Linked (sb : Superblock) (s s' : Itable) (inodes : Set ℕ) (data : ℕ → List Byte) (m d : ℕ)
    (name : List Byte) : Prop where
  ref : ∀ k, (s'.inode k).ref = (s.inode k).ref
  inum : ∀ k, 0 < (s.inode k).ref → (s'.inode k).inum = (s.inode k).inum
  absent : toMap (slotsOf (data d)) name = none
  entry : ∃ data', Directory (readInode sb s'.image d) s'.image data' ∧
    slotsOf data' = SlotTable.insert (slotsOf (data d)) name m ∧ Distinct (slotsOf data') ∧
    toMap (slotsOf data') = Function.update (toMap (slotsOf (data d))) name (some m)
  nlink : readInode sb s'.image m =
    withLinks (readInode sb s.image m) ((readInode sb s.image m).nlink + 1)
  blocks : SameBlocks (readInode sb s.image m) s.image s'.image
  fields : (readInode sb s'.image d).nlink = (readInode sb s.image d).nlink
  others : ∀ n ∈ inodes, n ≠ m → n ≠ d → Untouched sb n (readInode sb s.image n) s.image s'.image

/-- The name is not there, and there is room for it. -/
theorem System.link_adds (system : System sb s inodes named data) (devsw : Devsw)
    (linking : Linking sb s named image i j s')
    (holding : Itable.Holding sb { s with image } s' (Pi.single i 1 + Pi.single j 1) ∅)
    (enough : 2 ≤ free sb s.image)
    (absent : toMap (slotsOf (data (s'.inode j).inum)) (key name) = none)
    (room : firstEmpty (slotsOf (data (s'.inode j).inum)) < (slotsOf (data (s'.inode j).inum)).length ∨
      (data (s'.inode j).inum).length + 16 ≤ maxfile * bsize) :
    ∃ s'', linkInto devsw sb i j name s' = .ok (0, s'') ∧
      Linked sb s s'' inodes data (s'.inode i).inum (s'.inode j).inum (key name) := by
  rcases system.openDirectory linking holding with ⟨s₁, isLock, holding₁, inums₁, isIp, dir⟩
  have isImage₁ : s₁.image = image := holding₁.image
  have files := system.raised_files linking.file linking.raised
  have within := system.within linking.directory
  rcases system.range _ linking.file with ⟨positive, small⟩
  rw [← inums₁ i] at positive small
  have hasRoom : HasRoom sb s₁ j (data (s'.inode j).inum) := by
    refine room.imp_right fun inside => ⟨inside, (missing_entry dir.whole).trans ?_⟩
    rw [isImage₁, linking.raised.image, system.files.free_iupdate (system.within linking.file)]
    exact enough
  rcases dir.linked devsw absent positive small hasRoom with ⟨ip₂, image₂, isLink, rewritten, wrote⟩
  rw [inums₁ j, isIp, isImage₁] at wrote
  rcases wrote.disk (fits_readInode sb image _) rfl with ⟨-, isInode₂⟩
  have others : ∀ n ∈ inodes, n ≠ (s'.inode j).inum → Untouched sb n (readInode sb image n) image image₂ :=
    fun n other different => files.untouched within wrote.change other different
  have used₁ : 0 < (s₁.inode j).ref := dir.used
  have isMember : ∀ k, 0 < (s₁.inode k).ref → (s₁.inode k).inum ∈ inodes := by
    intro k used
    by_cases isI : k = i
    · rw [isI, inums₁]
      exact system.within linking.file
    · by_cases isJ : k = j
      · rw [isJ, inums₁]
        exact within
      · rw [holding₁.ref, Pi.add_apply, Pi.single_eq_of_ne isI, Pi.single_eq_of_ne isJ] at used
        rw [holding₁.inum k used]
        exact system.cached k used
  have isInode₁ : readInode sb image₂ (s₁.inode j).inum = ip₂ := by
    rw [inums₁]
    exact isInode₂
  have holding₂ := holding₁.rewrite used₁ isInode₁ fun k used different => by
    rw [isImage₁]
    exact (others _ (isMember k used) (inums₁ j ▸ different)).inode
  have inums₂ : ∀ k, (({ s₁.set j { s₁.inode j with ip := ip₂ } with image := image₂ } : Itable).inode k).inum =
      (s'.inode k).inum :=
    fun k => (Itable.set_field s₁ j { s₁.inode j with ip := ip₂ } CachedInode.inum rfl k).trans (inums₁ k)
  have isCopy₂ : (({ s₁.set j { s₁.inode j with ip := ip₂ } with image := image₂ } : Itable).inode j).ip = ip₂ :=
    congrArg CachedInode.ip (Itable.set_self s₁ j _)
  generalize isState : ({ s₁.set j { s₁.inode j with ip := ip₂ } with image := image₂ } : Itable) = s₂ at *
  have isImage₂ : s₂.image = image₂ := holding₂.image
  have isCount : (readInode sb image₂ (s'.inode j).inum).nlink = (readInode sb s.image (s'.inode j).inum).nlink := by
    rw [isInode₂, wrote.fields, system.raised_other linking.file linking.raised linking.ne.symm]
  have stays : (readInode sb s₂.image (s₂.inode j).inum).nlink ≠ 0 ∨
      ∃ k, 0 < (s.inode k).ref ∧ (s.inode k).inum = (s₂.inode j).inum := by
    rw [isImage₂, inums₂, isCount]
    exact system.graph.kept _ linking.directory
  rcases holding₂.giveUp stays with ⟨s₃, isPut, holding₃, inums₃⟩
  have isImage₃ : s₃.image = image₂ := holding₃.image
  have isFile : readInode sb image₂ (s'.inode i).inum =
      withLinks (readInode sb s.image (s'.inode i).inum) ((readInode sb s.image (s'.inode i).inum).nlink + 1) := by
    rw [(others _ (system.within linking.file) linking.ne).inode]
    exact system.raised_self linking.file linking.raised
  rw [← zero_add (Pi.single i 1)] at holding₃
  have stays₃ : (readInode sb s₃.image (s₃.inode i).inum).nlink ≠ 0 ∨
      0 < (s.inode i).ref + (0 : Fin ninode → ℕ) i := by
    rw [isImage₃, inums₃, inums₂, isFile]
    exact .inl (Nat.succ_ne_zero _)
  rcases holding₃.exists_iput (Set.notMem_empty i) stays₃ with ⟨s₄, isPut₄, holding₄, -⟩
  have isImage₄ : s₄.image = image₂ := holding₄.image
  refine ⟨s₄, ?_, ⟨holding₄.ref, holding₄.inum, absent, ⟨_, ?_, ?_, rewritten.dir.distinct, ?_⟩, ?_, ?_, ?_,
    fun n other notFile notDir => ?_⟩⟩
  · unfold linkInto
    rw [isLock]
    change (dirlink devsw sb s₁ j name (s₁.inode i).inum >>= _) = _
    rw [isLink]
    change (s₂.iunlockput sb j >>= _) = _
    rw [isPut]
    change (s₃.iput sb i >>= _) = _
    rw [isPut₄]
    rfl
  · have directory := rewritten.dir.directory
    rw [isCopy₂, isImage₂, ← isInode₂] at directory
    rw [isImage₄]
    exact directory
  · rw [rewritten.slots, (dir.newPair absent positive small).1, inums₁]
  · rw [rewritten.slots, (dir.newPair absent positive small).1, inums₁]
    exact dir.distinct.toMap_insert absent _
  · rw [isImage₄]
    exact isFile
  · rw [isImage₄]
    have member := system.within linking.file
    exact (system.raised_blocks linking.file linking.raised member).trans
      ((others _ member linking.ne).sameBlocks.congr (system.raised_type linking.file linking.raised _).2.1.symm)
  · rw [isImage₄]
    exact isCount
  · rw [isImage₄]
    have later := others n other notDir
    have both := (system.raised_blocks linking.file linking.raised other).trans
      (later.sameBlocks.congr (system.raised_type linking.file linking.raised n).2.1.symm)
    refine ⟨?_, both.slots, both.blocks⟩
    rw [later.inode]
    exact system.raised_other linking.file linking.raised notFile

/-! ## `sys_link` -/

/-- The value of a `short`. -/
def shortOf (n : ℕ) : ℤ := (BitVec.ofNat 16 n).toInt

theorem shortOf_succ (few : n < 2 ^ 15) : shortOf (n + 1) = shortOf n + 1 ↔ n + 1 < 2 ^ 15 := by
  unfold shortOf
  rw [BitVec.toInt_eq_toNat_cond, BitVec.toInt_eq_toNat_cond, BitVec.toNat_ofNat, BitVec.toNat_ofNat]
  split <;> split <;> omega

/-- `sys_link` has added the entry and raised the link count, or has left everything as it was. -/
def LinkCorrect (sb : Superblock) (s : Itable) (inodes : Set ℕ) (data : ℕ → List Byte) (cwd : Fin ninode)
    (old new : List Byte) (result : Except Stop (ℤ × Itable)) : Prop :=
  (∃ s', result = .ok (-1, s') ∧ LinkUndone sb s s' inodes) ∨
  ∃ s' m d name, result = .ok (0, s') ∧ walk sb s.image data (startOf s old cwd) (namesOf old) = some m ∧
    walkParent sb s.image data (startOf s new cwd) (namesOf new) = some d ∧
    (namesOf new).getLast? = some name ∧ Linked sb s s' inodes data m d name ∧
    shortOf (readInode sb s'.image m).nlink = shortOf (readInode sb s.image m).nlink + 1

/-- If there is a file with the old name and a directory for the new one: the name is not there for the directory
itself, and if it is not there at all, the directory has room for it and another link can be counted. -/
def LinkFits (sb : Superblock) (s : Itable) (data : ℕ → List Byte) (cwd : Fin ninode) (old new : List Byte) : Prop :=
  ∀ m d name, walk sb s.image data (startOf s old cwd) (namesOf old) = some m →
    (readInode sb s.image m).type ≠ tDir →
    walkParent sb s.image data (startOf s new cwd) (namesOf new) = some d →
    (namesOf new).getLast? = some name →
    toMap (slotsOf (data d)) name ≠ some d ∧ (toMap (slotsOf (data d)) name = none →
      (firstEmpty (slotsOf (data d)) < (slotsOf (data d)).length ∨ (data d).length + 16 ≤ maxfile * bsize) ∧
      (readInode sb s.image m).nlink + 1 < 2 ^ 15)

theorem linkFits_iff {d : ℕ} {last : List Byte}
    (isOld : walk sb s.image data (startOf s old cwd) (namesOf old) = some m)
    (isFile : (readInode sb s.image m).type ≠ tDir)
    (isNew : walkParent sb s.image data (startOf s new cwd) (namesOf new) = some d)
    (isLast : (namesOf new).getLast? = some last) : LinkFits sb s data cwd old new ↔
      toMap (slotsOf (data d)) last ≠ some d ∧ (toMap (slotsOf (data d)) last = none →
        (firstEmpty (slotsOf (data d)) < (slotsOf (data d)).length ∨ (data d).length + 16 ≤ maxfile * bsize) ∧
        (readInode sb s.image m).nlink + 1 < 2 ^ 15) := by
  constructor
  · exact fun fits => fits m d last isOld isFile isNew isLast
  · intro fits m' d' last' isOld' _ isNew' isLast'
    rw [isOld, Option.some_inj] at isOld'
    rw [isNew, Option.some_inj] at isNew'
    rw [isLast, Option.some_inj] at isLast'
    rw [← isOld', ← isNew', ← isLast']
    exact fits

theorem Graph.start (graph : Graph sb s named data) (member : (s.inode cwd).inum ∈ named) (path : List Byte) :
    startOf s path cwd ∈ named := by
  unfold startOf
  split
  · exact graph.root
  · exact member

/-- The directory for the new name has been found. -/
theorem System.linkInto_iff (system : System sb s inodes named data) (devsw : Devsw) (three : SpareThree s)
    (enough : 2 ≤ free sb s.image) (linking : Linking sb s named image i j s')
    (holding : Itable.Holding sb { s with image } s' (Pi.single i 1 + Pi.single j 1) ∅)
    (isOld : walk sb s.image data (startOf s old cwd) (namesOf old) = some (s'.inode i).inum)
    (isNew : walkParent sb s.image data (startOf s new cwd) (namesOf new) = some (s'.inode j).inum)
    (isLast : (namesOf new).getLast? = some (key name)) :
    LinkCorrect sb s inodes data cwd old new (linkInto devsw sb i j name s') ↔
      LinkFits sb s data cwd old new := by
  have few := system.links _ linking.file
  rw [linkFits_iff isOld linking.isFile isNew isLast]
  rcases isMap : toMap (slotsOf (data (s'.inode j).inum)) (key name) with _ | v
  · by_cases room : firstEmpty (slotsOf (data (s'.inode j).inum)) < (slotsOf (data (s'.inode j).inum)).length ∨
        (data (s'.inode j).inum).length + 16 ≤ maxfile * bsize
    · rcases system.link_adds devsw linking holding enough isMap room with ⟨s'', isLink, linked⟩
      have isCount := congrArg Dinode.nlink linked.nlink
      change (readInode sb s''.image (s'.inode i).inum).nlink =
        (readInode sb s.image (s'.inode i).inum).nlink + 1 at isCount
      rw [isLink]
      constructor
      · rintro (⟨t, isResult, -⟩ | ⟨t, m, d, last, isResult, isOld', -, -, -, counted⟩)
        · cases isResult
        · cases isResult
          rw [isOld, Option.some_inj] at isOld'
          rw [← isOld', isCount, shortOf_succ few] at counted
          exact ⟨by rintro ⟨⟩, fun _ => ⟨room, counted⟩⟩
      · rintro ⟨-, fits⟩
        refine .inr ⟨s'', _, _, key name, rfl, isOld, isNew, isLast, linked, ?_⟩
        rw [isCount, shortOf_succ few]
        exact (fits rfl).2
    · rw [not_or] at room
      rw [system.link_full devsw linking holding isMap room.1 room.2]
      refine iff_of_false ?_ fun fits => ?_
      · rintro (⟨t, ⟨⟩, -⟩ | ⟨t, m, d, last, ⟨⟩, -⟩)
      · exact (fits.2 rfl).1.elim room.1 room.2
  · by_cases self : v = (s'.inode j).inum
    · subst self
      rw [system.link_self devsw linking holding isMap]
      refine iff_of_false ?_ fun fits => fits.1 rfl
      rintro (⟨t, ⟨⟩, -⟩ | ⟨t, m, d, last, ⟨⟩, -⟩)
    · rcases system.link_exists devsw three linking holding isMap self with ⟨s'', isLink, undone⟩
      refine iff_of_true (.inl ⟨s'', isLink, undone⟩) ⟨fun same => self (Option.some_inj.1 same), ?_⟩
      rintro ⟨⟩

theorem linkFits_of_old (isOld : walk sb s.image data (startOf s old cwd) (namesOf old) = none) :
    LinkFits sb s data cwd old new := by
  intro m d last isOld'
  rw [isOld] at isOld'
  cases isOld'

theorem linkFits_of_dir (isOld : walk sb s.image data (startOf s old cwd) (namesOf old) = some m)
    (isDir : (readInode sb s.image m).type = tDir) : LinkFits sb s data cwd old new := by
  intro m' d last isOld' notDir
  rw [isOld, Option.some_inj] at isOld'
  subst isOld'
  exact absurd isDir notDir

theorem linkFits_of_new (isNew : walkParent sb s.image data (startOf s new cwd) (namesOf new) = none) :
    LinkFits sb s data cwd old new := by
  intro m d last _ _ isNew'
  rw [isNew] at isNew'
  cases isNew'

/-- `sys_link` after the old name, which has led to the file `i`. -/
theorem System.link_new (system : System sb s inodes named data) (devsw : Devsw) (three : SpareThree s)
    (enough : 2 ≤ free sb s.image) (used : 0 < (s.inode cwd).ref) (member : (s.inode cwd).inum ∈ named)
    (noNul : 0 ∉ new) (name : ℕ → Byte) (file : (s'.inode i).inum ∈ named)
    (isFile : (readInode sb s.image (s'.inode i).inum).type ≠ tDir) (raised : Raised sb s (s'.inode i).inum image)
    (holding : Itable.Holding sb { s with image } s' (Pi.single i 1) ∅)
    (isOld : walk sb s.image data (startOf s old cwd) (namesOf old) = some (s'.inode i).inum) :
    LinkCorrect sb s inodes data cwd old new (do
      let (parent, name, s) ← nameiparent devsw sb new name cwd s'
      match parent with
      | none => linkBad sb i s
      | some dp => linkInto devsw sb i dp name s) ↔ LinkFits sb s data cwd old new := by
  have isImage : s'.image = image := holding.image
  have graph := system.raised_graph file raised holding
  have isCwd : (s'.inode cwd).inum = (s.inode cwd).inum := holding.inum cwd used
  have used' := holding.keeps used
  have noLocks : ∀ k, (s'.inode k).locked = false := fun k => holding.notLocked (Set.notMem_empty k)
  have isStart : startOf s' new cwd = startOf s new cwd := by
    unfold startOf
    rw [isCwd]
  have start := system.graph.start member new
  rcases system.graph.walkParent_congr (fun n _ => (system.raised_type file raised n).1) (namesOf new) start with
    ⟨same, leads⟩
  have found : NamexEnds sb s' true (namesOf new)
      (walkParent sb s.image data (startOf s new cwd) (namesOf new)) (nameiparent devsw sb new name cwd s') := by
    have isTarget := (graph.namex devsw true holding.ok holding.coherent noLocks used' (isCwd.symm ▸ member)
      noNul name).ends
    unfold resolve at isTarget
    rw [if_pos rfl, isImage, isStart, same] at isTarget
    exact isTarget
  rcases found with ⟨-, full⟩ | ⟨parent, name', s₁, isResult, resolved, isLast⟩
  · exact absurd (holding.spare three) full
  · rw [isResult]
    generalize isNew : walkParent sb s.image data (startOf s new cwd) (namesOf new) = target at resolved
    cases resolved with
    | absent holding₁ =>
        have holding₂ := holding.trans holding₁
        rw [add_zero] at holding₂
        have isInum : (s₁.inode i).inum = (s'.inode i).inum := holding₁.inum i holding.used_single
        rcases system.link_undone (isInum.symm ▸ file) (isInum.symm ▸ raised) holding₂ with ⟨s₂, isBad, undone⟩
        exact iff_of_true (.inl ⟨s₂, isBad, undone⟩) (linkFits_of_new isNew)
    | @found j _ holding₁ =>
        have isInum : (s₁.inode i).inum = (s'.inode i).inum := holding₁.inum i holding.used_single
        rcases leads _ isNew with ⟨directory, isDir⟩
        have linking : Linking sb s named image i j s₁ := by
          refine ⟨?_, ?_, directory, isDir, ?_⟩
          · rw [isInum]
            exact file
          · rw [isInum]
            exact isFile
          · rw [isInum]
            exact raised
        rw [← isInum] at isOld
        exact system.linkInto_iff devsw three enough linking (holding.trans holding₁) isOld isNew
          (isLast rfl fun none => by cases none)

/-- The old name. -/
theorem System.link_namei (system : System sb s inodes named data) (devsw : Devsw) (three : SpareThree s)
    (used : 0 < (s.inode cwd).ref) (member : (s.inode cwd).inum ∈ named) (noNul : 0 ∉ old) (buffer : ℕ → Byte) :
    ∃ found name s', namei devsw sb old buffer cwd s = .ok (found, name, s') ∧
      Resolved sb s (walk sb s.image data (startOf s old cwd) (namesOf old)) found s' := by
  have correct : NamexEnds sb s false (namesOf old) (walk sb s.image data (startOf s old cwd) (namesOf old))
      (namei devsw sb old buffer cwd s) :=
    (system.graph.namex devsw false system.ok system.coherent system.unlocked used member noNul buffer).ends
  rcases correct with ⟨-, full⟩ | ⟨found, name, s', isResult, resolved, -⟩
  · exact absurd three.spare full
  · exact ⟨found, name, s', isResult, resolved⟩

/-- The old name leads to an inode, which is locked. -/
theorem System.link_locked (system : System sb s inodes named data) (devsw : Devsw) (three : SpareThree s)
    (used : 0 < (s.inode cwd).ref) (member : (s.inode cwd).inum ∈ named) (noNul : 0 ∉ old) (buffer : ℕ → Byte)
    (isOld : walk sb s.image data (startOf s old cwd) (namesOf old) = some m) : ∃ i name s₁ s₂,
      namei devsw sb old buffer cwd s = .ok (some i, name, s₁) ∧ s₁.ilock sb i = .ok s₂ ∧ (s₂.inode i).inum = m ∧
      (s₂.inode i).ip = readInode sb s.image m ∧ m ∈ named ∧ Itable.Holding sb s s₂ (Pi.single i 1) {i} := by
  have named := (system.graph.walk_congr (fun _ _ => rfl) (namesOf old) _ (system.graph.start member old)).2 m isOld
  rcases system.link_namei devsw three used member noNul buffer with ⟨found, name, s₁, isResult, resolved⟩
  rw [isOld] at resolved
  cases resolved with
  | @found i _ holding₁ =>
      rcases system.graph.lock holding₁ named with ⟨s₂, isLock, holding₂, isIp, inums⟩
      exact ⟨i, name, s₁, s₂, isResult, isLock, inums i, isIp, named, holding₂⟩

/-- The old name is one of a file: its link count is raised. -/
theorem System.link_file (system : System sb s inodes named data) (devsw : Devsw) (three : SpareThree s)
    (used : 0 < (s.inode cwd).ref) (member : (s.inode cwd).inum ∈ named) (noNul : 0 ∉ old) (buffer name : ℕ → Byte)
    (isOld : walk sb s.image data (startOf s old cwd) (namesOf old) = some m)
    (isFile : (readInode sb s.image m).type ≠ tDir) : ∃ i s' image, m = (s'.inode i).inum ∧ m ∈ named ∧
      Raised sb s m image ∧ Itable.Holding sb { s with image } s' (Pi.single i 1) ∅ ∧
      sys_link devsw sb (some old) (some new) buffer name cwd s = (do
        let (parent, name, s) ← nameiparent devsw sb new name cwd s'
        match parent with
        | none => linkBad sb i s
        | some dp => linkInto devsw sb i dp name s) := by
  rcases system.link_locked devsw three used member noNul buffer isOld with
    ⟨i, name₁, s₁, s₂, isResult, isLock, isInum, isIp, file, holding₂⟩
  have few := system.links _ file
  have isImage₂ : s₂.image = s.image := holding₂.image
  have isCount : ((readInode sb s₂.image (s₂.inode i).inum).nlink + 1) % 2 ^ 16 =
      (readInode sb s.image m).nlink + 1 := by
    rw [isImage₂, isInum]
    omega
  have isRead : (s₂.inode i).ip = readInode sb s₂.image (s₂.inode i).inum := by
    rw [isIp, isImage₂, isInum]
  rcases holding₂.addLinks holding₂.used_single isRead isCount with ⟨s₃, isAdd, isImage₃, holding₃, inums₃, -⟩
  rw [isImage₂, isInum] at isImage₃
  rcases holding₃.exists_iunlock holding₃.used_single rfl with ⟨s₄, isUnlock, holding₄, inums₄⟩
  rw [Set.sdiff_self] at holding₄
  have isInum₄ : (s₄.inode i).inum = m := (inums₄ i).trans ((inums₃ i).trans isInum)
  refine ⟨i, s₄, s₃.image, isInum₄.symm, file, ⟨isImage₃⟩, holding₄, ?_⟩
  unfold sys_link
  dsimp only
  rw [isResult]
  change (s₁.ilock sb i >>= _) = _
  rw [isLock]
  change (if (s₂.inode i).ip.type = tDir then _ else _) = _
  rw [isIp, if_neg isFile, isAdd, isUnlock]
  rfl

/-- The old name is one of a directory. -/
theorem System.link_directory (system : System sb s inodes named data) (devsw : Devsw) (three : SpareThree s)
    (used : 0 < (s.inode cwd).ref) (member : (s.inode cwd).inum ∈ named) (noNul : 0 ∉ old) (buffer name : ℕ → Byte)
    (isOld : walk sb s.image data (startOf s old cwd) (namesOf old) = some m)
    (isDir : (readInode sb s.image m).type = tDir) :
    ∃ s', sys_link devsw sb (some old) (some new) buffer name cwd s = .ok (-1, s') ∧ LinkUndone sb s s' inodes := by
  rcases system.link_locked devsw three used member noNul buffer isOld with
    ⟨i, name₁, s₁, s₂, isResult, isLock, isInum, isIp, directory, holding₂⟩
  rcases system.graph.giveUp holding₂ (isInum.symm ▸ directory) with ⟨s₃, isPut, holding₃⟩
  refine ⟨s₃, ?_, .of_image holding₃⟩
  unfold sys_link
  dsimp only
  rw [isResult]
  change (s₁.ilock sb i >>= _) = _
  rw [isLock]
  change (if (s₂.inode i).ip.type = tDir then _ else _) = _
  rw [isIp, if_pos isDir, isPut]
  rfl

/-- `sys_link` does what it should do unless the new name is there for the directory itself, or the directory is full,
or the link count of the file cannot be raised. -/
theorem sys_link_iff (devsw : Devsw) (system : System sb s inodes named data) (three : SpareThree s)
    (enough : 2 ≤ free sb s.image) (used : 0 < (s.inode cwd).ref) (member : (s.inode cwd).inum ∈ named)
    (oldNul : 0 ∉ old) (newNul : 0 ∉ new) (buffer name : ℕ → Byte) :
    LinkCorrect sb s inodes data cwd old new (sys_link devsw sb (some old) (some new) buffer name cwd s) ↔
      LinkFits sb s data cwd old new := by
  rcases isOld : walk sb s.image data (startOf s old cwd) (namesOf old) with _ | m
  · rcases system.link_namei devsw three used member oldNul buffer with ⟨found, name₁, s₁, isResult, resolved⟩
    rw [isOld] at resolved
    unfold sys_link
    dsimp only
    rw [isResult]
    cases resolved with
    | absent holding₁ => exact iff_of_true (.inl ⟨s₁, rfl, .of_image holding₁⟩) (linkFits_of_old isOld)
  · by_cases isDir : (readInode sb s.image m).type = tDir
    · rcases system.link_directory devsw three used member oldNul buffer name isOld isDir with ⟨s', isResult, undone⟩
      exact iff_of_true (.inl ⟨s', isResult, undone⟩) (linkFits_of_dir isOld isDir)
    · rcases system.link_file devsw three used member oldNul buffer name isOld isDir with
        ⟨i, s', image, rfl, file, raised, holding, isResult⟩
      rw [isResult]
      exact system.link_new devsw three enough used member newNul name file isDir raised holding isOld

/-! ## New entries -/

theorem Files.congr {dinode' : ℕ → Dinode} (files : Files sb inodes dinode image)
    (same : ∀ n ∈ inodes, dinode' n = dinode n) : Files sb inodes dinode' image := by
  refine ⟨files.small, files.apart, files.metadata, fun n member => ?_, ?_⟩
  · rw [same n member]
    exact files.blocks n member
  · rcases files.mapping with ⟨used, mapping⟩
    exact ⟨used, mapping.congr fun n member _ _ => by rw [same n member]⟩

/-- The directory as its callers have it, in a cache with no other inode. -/
def openAlone (sb : Superblock) (image : ℕ → Block) (d : ℕ) : Itable where
  inode i := if i = 0 then { inum := d, ref := 1, locked := true, valid := true, ip := readInode sb image d } else {}
  image

theorem System.openAlone (system : System sb s inodes named data) {d : ℕ} (member : d ∈ named)
    (isDir : (readInode sb s.image d).type = tDir) : OpenDirectory sb (openAlone sb s.image d) 0 (data d) := by
  have onlyFirst : ∀ i, 0 < ((Fs.openAlone sb s.image d).inode i).ref → i = 0 := by
    intro i used
    by_contra other
    unfold Fs.openAlone at used
    dsimp only at used
    rw [if_neg other] at used
    cases used
  have directory := system.graph.directory d member isDir
  refine ⟨⟨fun i j usedI usedJ _ => (onlyFirst i usedI).trans (onlyFirst j usedJ).symm, fun i unused => ?_⟩,
    Nat.one_pos, rfl, isDir, directory.regular.size, directory.whole,
    system.files.file (system.within member) directory.regular, system.distinct d member isDir⟩
  by_cases isFirst : i = 0
  · subst isFirst
    cases unused
  · unfold Fs.openAlone
    dsimp only
    rw [if_neg isFirst]

/-- A new entry keeps a file system consistent. -/
theorem System.entered (system : System sb s inodes named data) (notRead : ∀ i, (s.inode i).valid = false) {d v : ℕ}
    (member : d ∈ named) (isDir : (readInode sb s.image d).type = tDir) (member' : v ∈ named) {name : ℕ → Byte}
    (absent : toMap (slotsOf (data d)) (key name) = none) (enough : 2 ≤ free sb s.image)
    (inside : (data d).length + 16 ≤ maxfile * bsize) : ∃ image content,
    System sb { s with image } inodes named (Function.update data d content) ∧
    slotsOf content = SlotTable.insert (slotsOf (data d)) (key name) v ∧
    content.length ≤ (data d).length + 16 ∧ free sb s.image ≤ free sb image + 2 ∧
    (∀ n ∈ inodes, (readInode sb image n).type = (readInode sb s.image n).type ∧
      (readInode sb image n).nlink = (readInode sb s.image n).nlink) := by
  have dir := system.openAlone member isDir
  have directory := system.graph.directory d member isDir
  rcases system.range v member' with ⟨positive, small⟩
  have isMissing : missing s.image (readInode sb s.image d) (places (data d).length 16) ≤ 2 :=
    missing_entry directory.whole
  have room : HasRoom sb (Fs.openAlone sb s.image d) 0 (data d) := .inr ⟨inside, isMissing.trans enough⟩
  rcases dir.linked ⟨fun _ _ => none, fun _ _ => none⟩ absent positive small room with
    ⟨ip, image, -, rewritten, change⟩
  have wrote : Wrote sb d (readInode sb s.image d) s.image (data d) (newEntry name v)
      (16 * firstEmpty (slotsOf (data d))) ip image := change
  have bound := firstEmpty_le (slotsOf (data d))
  have isEntry := length_newEntry name v
  rw [length_slotsOf] at bound
  rcases wrote.disk (fits_readInode sb s.image d) rfl with ⟨-, isInode⟩
  have untouched : ∀ n ∈ inodes, n ≠ d → Untouched sb n (readInode sb s.image n) s.image image :=
    fun n other different => system.files.untouched (system.within member) wrote.change other different
  have fields : ∀ n ∈ inodes, (readInode sb image n).type = (readInode sb s.image n).type ∧
      (readInode sb image n).nlink = (readInode sb s.image n).nlink := by
    intro n other
    by_cases same : n = d
    · rw [same, isInode, wrote.fields]
      exact ⟨rfl, rfl⟩
    · rw [(untouched n other same).inode]
      exact ⟨rfl, rfl⟩
  have isInodes : ∀ n ∈ inodes, readInode sb image n = Function.update (readInode sb s.image) d ip n := by
    intro n other
    rw [Function.update_apply]
    split
    · rename_i same
      rw [same]
      exact isInode
    · rename_i different
      exact (untouched n other different).inode
  have files := (system.files.change (system.within member) wrote.file wrote.change).congr isInodes
  have isSlots : slotsOf (patch (data d) (16 * firstEmpty (slotsOf (data d))) (newEntry name v)) =
      SlotTable.insert (slotsOf (data d)) (key name) v := rewritten.slots.trans (dir.newPair absent positive small).1
  have newDirectory : Directory ip image (patch (data d) (16 * firstEmpty (slotsOf (data d))) (newEntry name v)) := by
    have rewrittenDirectory := rewritten.dir.directory
    rw [Itable.set_self] at rewrittenDirectory
    exact rewrittenDirectory
  refine ⟨image, patch (data d) (16 * firstEmpty (slotsOf (data d))) (newEntry name v),
    ⟨⟨system.ok.unique, system.ok.idle⟩, fun i _ isValid => ?_, system.unlocked, files,
      ⟨system.graph.root, fun n other => ?_, fun n other => ?_, fun n other isDir' => ?_,
        fun n other isDir' k name' w holds => ?_⟩, system.within, system.cached, fun n other isDir' => ?_,
      system.range, fun n other => ?_⟩, isSlots, ?_, ?_, fields⟩
  · have unread := notRead i
    change (s.inode i).valid = true at isValid
    rw [unread] at isValid
    cases isValid
  · rw [(fields n (system.within other)).1]
    exact system.graph.allocated n other
  · rw [(fields n (system.within other)).2]
    exact system.graph.kept n other
  · rw [(fields n (system.within other)).1] at isDir'
    by_cases same : n = d
    · subst same
      rw [Function.update_self]
      change Directory (readInode sb image n) image _
      rw [isInode]
      exact newDirectory
    · rw [Function.update_of_ne same]
      have stays := untouched n (system.within other) same
      refine (system.graph.directory n other isDir').congr stays.sameBlocks ?_ ?_ ?_
      · exact congrArg Dinode.addrs stays.inode
      · exact congrArg Dinode.type stays.inode
      · exact congrArg Dinode.size stays.inode
  · rw [(fields n (system.within other)).1] at isDir'
    by_cases same : n = d
    · subst same
      rw [Function.update_self, isSlots] at holds
      rcases holds_insert.1 holds with ⟨-, -, rfl⟩ | old
      · exact member'
      · exact system.graph.entries n other isDir' k name' w old
    · rw [Function.update_of_ne same] at holds
      exact system.graph.entries n other isDir' k name' w holds
  · rw [(fields n (system.within other)).1] at isDir'
    by_cases same : n = d
    · rw [same, Function.update_self, isSlots]
      exact (system.distinct d member isDir).insert absent v
    · rw [Function.update_of_ne same]
      exact system.distinct n other isDir'
  · rw [(fields n (system.within other)).2]
    exact system.links n other
  · rw [length_patch _ (by omega), isEntry]
    omega
  · have isFree := wrote.free
    have few : missing s.image (readInode sb s.image d) (places (16 * firstEmpty (slotsOf (data d))) 16) ≤ 2 :=
      missing_entry (Dvd.intro _ rfl)
    rw [isEntry] at isFree
    omega

/-- A disk with the root, which is empty, and a file. -/
def fileImage : ℕ → Block :=
  iupdate (sizedDisk 16) 2 { type := 2, nlink := 1 } (iupdate (sizedDisk 16) 1 { type := tDir, nlink := 1 } fourUsed)

/-- The root is the directory of the process. -/
def rootCached (i : Fin ninode) : CachedInode := if i = 0 then { inum := 1, ref := 1 } else {}

theorem fileImage_system : System (sizedDisk 16) ⟨rootCached, fileImage⟩ {1, 2} {1, 2} fun _ => [] := by
  have zero : 0 < 256 ^ 2 := by decide
  have one : 1 < 256 ^ 2 := by decide
  have zero' : 0 < 256 ^ 4 := by decide
  have fits : ∀ type < 256 ^ 2, ({ type, nlink := 1 } : Dinode).Fits :=
    fun type small => ⟨small, zero, zero, one, zero', fun _ => zero'⟩
  have isRoot : readInode (sizedDisk 16) fileImage 1 = { type := tDir, nlink := 1 } :=
    (readInode_iupdate_other (by decide)).trans (readInode_iupdate (fits tDir (by decide)))
  have isFile : readInode (sizedDisk 16) fileImage 2 = { type := 2, nlink := 1 } := readInode_iupdate (fits 2 (by decide))
  have fields : ∀ m ∈ ({1, 2} : Set ℕ), ∃ type, (type = tDir ∨ type = 2) ∧
      readInode (sizedDisk 16) fileImage m = { type, nlink := 1 } := by
    rintro m (rfl | rfl)
    · exact ⟨tDir, .inl rfl, isRoot⟩
    · exact ⟨2, .inr rfl, isFile⟩
  have isInode : ∀ m ∈ ({1, 2} : Set ℕ), iblock m (sizedDisk 16) = 2 := by
    rintro m (rfl | rfl)
    · rfl
    · rfl
  have isBitmap : ∀ c < 16, bblock c (sizedDisk 16) = 3 := by decide
  have uses : ∀ b < 16, inUse (sizedDisk 16) fileImage b = decide (b < 4) := by
    intro b less
    have apart : ∀ m ∈ ({1, 2} : Set ℕ), bblock b (sizedDisk 16) ≠ iblock m (sizedDisk 16) := by
      intro m member
      rw [isBitmap b less, isInode m member]
      decide
    unfold fileImage
    rw [inUse_iupdate (apart 2 (.inr rfl)), inUse_iupdate (apart 1 (.inl rfl)),
      inUse_fourUsed (by decide) less]
  have noBlocks : ∀ m ∈ ({1, 2} : Set ℕ), ∀ k,
      slot fileImage (readInode (sizedDisk 16) fileImage m) k = 0 := by
    intro m member k
    rcases fields m member with ⟨type, -, isDinode⟩
    rw [isDinode]
    exact slot_none rfl
  have onlyFirst : ∀ i, 0 < (rootCached i).ref → i = 0 := by
    intro i used
    by_contra other
    unfold rootCached at used
    rw [if_neg other] at used
    cases used
  have idle : ∀ i, (rootCached i).locked = false ∧ (rootCached i).valid = false := by
    intro i
    unfold rootCached
    split
    · exact ⟨rfl, rfl⟩
    · exact ⟨rfl, rfl⟩
  refine ⟨⟨fun i j usedI usedJ _ => (onlyFirst i usedI).trans (onlyFirst j usedJ).symm, fun i _ => (idle i).1⟩,
    fun i _ isValid => ?_, fun i => (idle i).1, ⟨?_, fun m member c less => ?_, fun b less isMeta => ?_,
      fun m member k _ has => absurd (noBlocks m member k) has, ⟨∅, fun x => ?_, fun a isA b _ k _ l _ _ has =>
        absurd (noBlocks a isA k) has⟩⟩,
    ⟨.inl rfl, fun m member => ?_, fun m member => .inl ?_, fun m member isDir => ⟨isDir, ⟨?_, ?_, ?_⟩, dvd_zero 16⟩,
      fun m _ _ k name v holds => ?_⟩, subset_rfl, fun i used => ?_, fun m _ _ i j name v w holds => ?_,
    fun m member => ?_, fun m member => ?_⟩
  · change (rootCached i).valid = true at isValid
    rw [(idle i).2] at isValid
    cases isValid
  · decide
  · rw [isBitmap c less, isInode m member]
    decide
  · change inUse (sizedDisk 16) fileImage b = true
    rw [uses b less]
    refine decide_eq_true ?_
    rcases isMeta with rfl | ⟨m, member, rfl⟩ | ⟨c, inside, rfl⟩
    · decide
    · rw [isInode m member]
      decide
    · rw [isBitmap c inside]
      decide
  · refine iff_of_false (Set.notMem_empty x) ?_
    rintro ⟨notZero, m, member, k, -, isX⟩
    exact notZero (isX.symm.trans (noBlocks m member k))
  · rcases fields m member with ⟨type, rfl | rfl, isDinode⟩
    · change (readInode (sizedDisk 16) fileImage m).type ≠ 0
      rw [isDinode]
      decide
    · change (readInode (sizedDisk 16) fileImage m).type ≠ 0
      rw [isDinode]
      decide
  · rcases fields m member with ⟨type, -, isDinode⟩
    change (readInode (sizedDisk 16) fileImage m).nlink ≠ 0
    rw [isDinode]
    exact Nat.one_ne_zero
  · rw [isDir]
    decide
  · rcases fields m member with ⟨type, -, isDinode⟩
    change (readInode (sizedDisk 16) fileImage m).size = 0
    rw [isDinode]
  · exact ⟨fun _ less => absurd less (Nat.not_lt_zero _), fun _ less => absurd less (Nat.not_lt_zero _), Nat.zero_le _⟩
  · cases holds
  · have isFirst := onlyFirst i used
    subst isFirst
    exact .inl rfl
  · cases holds
  · rcases member with rfl | rfl
    · decide
    · decide
  · rcases fields m member with ⟨type, -, isDinode⟩
    change (readInode (sizedDisk 16) fileImage m).nlink < 2 ^ 15
    rw [isDinode]
    exact Nat.lt_of_lt_of_le Nat.one_lt_two (by decide)

/-- The root names itself by `.`, and the file by `f`. -/
theorem twoNames_system : ∃ image data, System (sizedDisk 16) ⟨rootCached, image⟩ {1, 2} {1, 2} data ∧
    2 ≤ free (sizedDisk 16) image ∧ toMap (slotsOf (data 1)) =
      Function.update (Function.update (toMap (slotsOf [])) [dot] (some 1)) [0x66] (some 2) ∧
    (data 1).length ≤ 32 ∧ (readInode (sizedDisk 16) image 1).type = tDir ∧
    (readInode (sizedDisk 16) image 2).type ≠ tDir ∧ (readInode (sizedDisk 16) image 2).nlink = 1 := by
  have system := fileImage_system
  have notRead : ∀ i, (rootCached i).valid = false := by
    intro i
    unfold rootCached
    split
    · rfl
    · rfl
  have isFree : 12 ≤ free (sizedDisk 16) fileImage := by decide +kernel
  have isDir : (readInode (sizedDisk 16) fileImage 1).type = tDir := by decide +kernel
  have isFile : (readInode (sizedDisk 16) fileImage 2).type = 2 := by decide +kernel
  have oneLink : (readInode (sizedDisk 16) fileImage 2).nlink = 1 := by decide +kernel
  have absent : toMap (slotsOf []) (key (shortName dot)) = none := rfl
  have isDot : key (shortName dot) = [dot] := by decide
  have isF : key (shortName 0x66) = [0x66] := by decide
  have enough : 2 ≤ free (sizedDisk 16) fileImage := Nat.le_trans (by decide) isFree
  rcases system.entered notRead (.inl rfl) isDir (.inl rfl) absent enough (by decide) with
    ⟨image₁, content₁, system₁, slots₁, length₁, free₁, fields₁⟩
  have distinct := system.distinct 1 (.inl rfl) isDir
  have map₁ : toMap (slotsOf content₁) = Function.update (toMap (slotsOf [])) [dot] (some 1) := by
    rw [slots₁, distinct.toMap_insert absent 1, isDot]
  have isDir₁ : (readInode (sizedDisk 16) image₁ 1).type = tDir := (fields₁ 1 (.inl rfl)).1.trans isDir
  have isContent : Function.update (fun _ => ([] : List Byte)) 1 content₁ 1 = content₁ := Function.update_self ..
  have absent₁ : toMap (slotsOf (Function.update (fun _ => ([] : List Byte)) 1 content₁ 1)) (key (shortName 0x66)) =
      none := by
    rw [isContent, map₁, isF]
    decide
  have enough₁ : 2 ≤ free (sizedDisk 16) image₁ := by
    have more : free (sizedDisk 16) fileImage ≤ free (sizedDisk 16) image₁ + 2 := free₁
    omega
  have short : content₁.length ≤ 16 := length₁
  have inside : (Function.update (fun _ => ([] : List Byte)) 1 content₁ 1).length + 16 ≤ maxfile * bsize := by
    rw [isContent]
    exact (Nat.add_le_add_right short 16).trans (by decide)
  rcases system₁.entered notRead (.inl rfl) isDir₁ (.inr rfl) absent₁ enough₁ inside with
    ⟨image₂, content₂, system₂, slots₂, length₂, free₂, fields₂⟩
  have distinct₁ := system₁.distinct 1 (.inl rfl) isDir₁
  refine ⟨image₂, _, system₂, ?_, ?_, ?_, ?_, ?_, ?_⟩
  · have first : free (sizedDisk 16) fileImage ≤ free (sizedDisk 16) image₁ + 2 := free₁
    have second : free (sizedDisk 16) image₁ ≤ free (sizedDisk 16) image₂ + 2 := free₂
    omega
  · rw [Function.update_self, slots₂, distinct₁.toMap_insert absent₁ 2, isContent, map₁, isF]
  · rw [Function.update_self]
    rw [isContent] at length₂
    omega
  · exact (fields₂ 1 (.inl rfl)).1.trans isDir₁
  · have isType : (readInode (sizedDisk 16) image₂ 2).type = 2 :=
      (fields₂ 2 (.inr rfl)).1.trans ((fields₁ 2 (.inr rfl)).1.trans isFile)
    rw [isType]
    decide
  · exact (fields₂ 2 (.inr rfl)).2.trans ((fields₁ 2 (.inr rfl)).2.trans oneLink)

theorem rootCached_used (image : ℕ → Block) : 0 < ((⟨rootCached, image⟩ : Itable).inode 0).ref ∧
    ((⟨rootCached, image⟩ : Itable).inode 0).inum ∈ ({1, 2} : Set ℕ) := ⟨Nat.one_pos, .inl rfl⟩

theorem rootCached_spare (image : ℕ → Block) : SpareThree ⟨rootCached, image⟩ :=
  ⟨1, 2, 3, by decide, by decide, by decide, rfl, rfl, rfl⟩

/-- The path of a name of one byte in the root. -/
def inRoot (byte : Byte) : List Byte := [slash, byte]

/-- Linking `/f` to `/g`, which is a new name. -/
theorem sys_link_iff_newName : ∃ image data, System (sizedDisk 16) ⟨rootCached, image⟩ {1, 2} {1, 2} data ∧
    LinkCorrect (sizedDisk 16) ⟨rootCached, image⟩ {1, 2} data 0 (inRoot 0x66) (inRoot 0x67)
      (sys_link ⟨fun _ _ => none, fun _ _ => none⟩ (sizedDisk 16) (some (inRoot 0x66)) (some (inRoot 0x67))
        (fun _ => 0) (fun _ => 0) 0 ⟨rootCached, image⟩) := by
  rcases twoNames_system with ⟨image, data, system, enough, isMap, short, isDir, isFile, oneLink⟩
  refine ⟨image, data, system, (sys_link_iff ⟨fun _ _ => none, fun _ _ => none⟩ system (rootCached_spare image) enough
    (rootCached_used image).1 (rootCached_used image).2 (by decide) (by decide) _ _).2 ?_⟩
  have isOld : walk (sizedDisk 16) image data 1 [[0x66]] = some 2 := by
    rw [walk, if_pos isDir, isMap]
    rfl
  have isNew : walkParent (sizedDisk 16) image data 1 [[0x67]] = some 1 := by
    have single : walkParent (sizedDisk 16) (⟨rootCached, image⟩ : Itable).image data 1 [[0x67]] = _ :=
      walkParent_single 1 [0x67]
    exact single.trans (if_pos isDir)
  have absent : toMap (slotsOf (data 1)) [0x67] = none := by
    rw [isMap]
    decide
  have isLast : (namesOf (inRoot 0x67)).getLast? = some [0x67] := rfl
  refine (linkFits_iff isOld isFile isNew isLast).2 ⟨?_, fun _ => ⟨.inr ?_, ?_⟩⟩
  · rw [absent]
    rintro ⟨⟩
  · exact (Nat.add_le_add_right short 16).trans (by decide)
  · change (readInode (sizedDisk 16) image 2).nlink + 1 < 2 ^ 15
    rw [oneLink]
    decide

/-- Linking `/f` to `/.`, which names the root itself: `dirlink` waits for the lock of the root, which `sys_link`
holds. -/
theorem sys_link_incorrect : ∃ image data, System (sizedDisk 16) ⟨rootCached, image⟩ {1, 2} {1, 2} data ∧
    SpareThree ⟨rootCached, image⟩ ∧ 2 ≤ free (sizedDisk 16) image ∧
    ¬LinkCorrect (sizedDisk 16) ⟨rootCached, image⟩ {1, 2} data 0 (inRoot 0x66) (inRoot dot)
      (sys_link ⟨fun _ _ => none, fun _ _ => none⟩ (sizedDisk 16) (some (inRoot 0x66)) (some (inRoot dot))
        (fun _ => 0) (fun _ => 0) 0 ⟨rootCached, image⟩) := by
  rcases twoNames_system with ⟨image, data, system, enough, isMap, -, isDir, isFile, -⟩
  have isOld : walk (sizedDisk 16) image data 1 [[0x66]] = some 2 := by
    rw [walk, if_pos isDir, isMap]
    rfl
  have isNew : walkParent (sizedDisk 16) image data 1 [[dot]] = some 1 := by
    have single : walkParent (sizedDisk 16) (⟨rootCached, image⟩ : Itable).image data 1 [[dot]] = _ :=
      walkParent_single 1 [dot]
    exact single.trans (if_pos isDir)
  have present : toMap (slotsOf (data 1)) [dot] = some 1 := by
    rw [isMap]
    decide
  have notFits : ¬LinkFits (sizedDisk 16) ⟨rootCached, image⟩ data 0 (inRoot 0x66) (inRoot dot) := by
    intro fits
    have other := fits 2 1 [dot] isOld isFile isNew rfl
    exact other.1 present
  refine ⟨image, data, system, rootCached_spare image, enough, fun correct => notFits ?_⟩
  have oldNul : (0 : Byte) ∉ inRoot 0x66 := by decide
  rcases system.link_file ⟨fun _ _ => none, fun _ _ => none⟩ (rootCached_spare image) (rootCached_used image).1
    (rootCached_used image).2 oldNul (fun _ => 0) (fun _ => 0) isOld isFile with
    ⟨i, s', image', isInum, -, raised, holding, isResult⟩
  have file : (s'.inode i).inum ∈ ({1, 2} : Set ℕ) := .inr isInum.symm
  rw [isResult] at correct
  rw [isInum] at raised isOld isFile
  have correct_iff : LinkCorrect (sizedDisk 16) ⟨rootCached, image⟩ {1, 2} data 0 (inRoot 0x66) (inRoot dot) _ ↔
      LinkFits (sizedDisk 16) ⟨rootCached, image⟩ data 0 (inRoot 0x66) (inRoot dot) :=
    system.link_new ⟨fun _ _ => none, fun _ _ => none⟩ (rootCached_spare image) enough (rootCached_used image).1
      (rootCached_used image).2 (by decide) (fun _ => 0) file isFile raised holding isOld
  exact correct_iff.1 correct

end Xv6.Fs
