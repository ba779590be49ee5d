import Xv6.Fs.Tree

/-!
# System calls on names

`sys_open` up to the file table, `sys_chdir`, and what is left of a consistent file system by each system
call that takes a path or gives up a reference. `begin_op` and `end_op` are left out.
-/

namespace Xv6.Fs

open Bytes SlotTable LinkCount

/-- The inode that `sys_open` opens, locked. -/
def openLocked (devsw : Devsw) (sb : Superblock) (path : List Byte) (omode : ℕ) (buffer : ℕ → Byte)
    (cwd : Fin ninode) (s : Itable) : Except Stop (Option (Fin ninode) × Itable) :=
  if omode &&& 0x200 ≠ 0 then create devsw sb path tFile 0 0 buffer cwd s
  else do
    let (found, _, s) ← namei devsw sb path buffer cwd s
    match found with
    | none => return (none, s)
    | some ip =>
        let s ← s.ilock sb ip
        if (s.inode ip).ip.type = tDir ∧ omode ≠ 0 then
          let s ← s.iunlockput sb ip
          return (none, s)
        else return (some ip, s)

/-- `sys_open`; `filealloc` and `fdalloc` find an entry or do not. The inode is the one that the file refers to. -/
def sys_open (devsw : Devsw) (sb : Superblock) (path : Option (List Byte)) (omode : ℕ) (hasEntry : Bool)
    (buffer : ℕ → Byte) (cwd : Fin ninode) (s : Itable) : Except Stop (Option (Fin ninode) × Itable) :=
  match path with
  | none => .ok (none, s)
  | some path => do
      let (opened, s) ← openLocked devsw sb path omode buffer cwd s
      match opened with
      | none => return (none, s)
      | some ip =>
          if hasEntry then
            let s ← s.iunlock ip
            return (some ip, s)
          else
            let s ← s.iunlockput sb ip
            return (none, s)

/-- `sys_chdir`, with the directory that the process has afterwards -/
def sys_chdir (devsw : Devsw) (sb : Superblock) (path : Option (List Byte)) (buffer : ℕ → Byte) (cwd : Fin ninode)
    (s : Itable) : Except Stop (ℤ × Fin ninode × Itable) :=
  match path with
  | none => .ok (-1, cwd, s)
  | some path => do
      let (found, _, s) ← namei devsw sb path buffer cwd s
      match found with
      | none => return (-1, cwd, s)
      | some ip =>
          let s ← s.ilock sb ip
          if (s.inode ip).ip.type ≠ tDir then
            let s ← s.iunlockput sb ip
            return (-1, cwd, s)
          else
            let s ← s.iunlock ip
            let s ← s.iput sb cwd
            return (0, ip, s)

/-- A file system between system calls. -/
structure Sound (sb : Superblock) (inodes : Set ℕ) (s : Itable) : Prop where
  cache : SoundCache sb s inodes
  disk : ∃ data, SoundDisk sb inodes s.image data

/-- The disk, the cache and the link counts leave room for one more of each. -/
structure Roomy (sb : Superblock) (inodes : Set ℕ) (s : Itable) : Prop where
  spare : SpareThree s
  blocks : 6 ≤ free sb s.image
  links : ∀ n ∈ linked sb inodes s.image, (readInode sb s.image n).nlink + 1 < 2 ^ 15
  sizes : ∀ n ∈ linked sb inodes s.image, n ∈ directories sb s.image →
    (readInode sb s.image n).size + 16 ≤ maxfile * bsize

/-- The directory of the process is one that has links. -/
structure Within (sb : Superblock) (inodes : Set ℕ) (s : Itable) (cwd : Fin ninode) : Prop where
  used : 0 < (s.inode cwd).ref
  member : (s.inode cwd).inum ∈ linked sb inodes s.image

variable {devsw : Devsw} {sb : Superblock} {s s' s'' : Itable} {inodes : Set ℕ} {data data' : ℕ → List Byte}
  {i cwd : Fin ninode} {e : Fin ninode → ℕ} {held : Set (Fin ninode)} {image image' : ℕ → Block}
  {content path name : List Byte} {d k l m n v w type major minor : ℕ}

/-! ## References -/

theorem SoundCache.after (cache : SoundCache sb s inodes) (holding : Itable.Holding sb { s with image := s'.image } s' e ∅)
    (taken : ∀ k, 0 < e k → (s'.inode k).inum ∈ inodes ∧ (readInode sb s'.image (s'.inode k).inum).type ≠ 0)
    (types : ∀ k, 0 < (s.inode k).ref → (readInode sb s'.image (s.inode k).inum).type ≠ 0) : SoundCache sb s' inodes := by
  refine ⟨holding.ok, holding.coherent, fun k => holding.notLocked (Set.notMem_empty k), fun k used => ?_⟩
  by_cases isTaken : 0 < e k
  · exact taken k isTaken
  · rw [holding.ref] at used
    have was : 0 < (s.inode k).ref := by
      change 0 < (s.inode k).ref + e k at used
      omega
    have isInum : (s'.inode k).inum = (s.inode k).inum := holding.inum k was
    rw [isInum]
    exact ⟨(cache.cached k was).1, types k was⟩

/-- The disk is as it was. -/
theorem Sound.unchanged (sound : Sound sb inodes s) (holding : Itable.Holding sb s s' e ∅)
    (taken : ∀ k, 0 < e k → (s'.inode k).inum ∈ linked sb inodes s.image) : Sound sb inodes s' := by
  have isImage : s'.image = s.image := holding.image
  have cache := sound.cache
  refine ⟨cache.after (e := e) ?_ (fun k isTaken => ?_) fun k used => ?_, ?_⟩
  · rw [isImage]
    exact holding
  · rw [isImage]
    exact ⟨(taken k isTaken).1, (taken k isTaken).2.1⟩
  · rw [isImage]
    exact (cache.cached k used).2
  · rw [isImage]
    exact sound.disk

theorem Sound.same (sound : Sound sb inodes s) (holding : Itable.Holding sb s s' 0 ∅) : Sound sb inodes s' :=
  sound.unchanged holding fun _ none => absurd none (Nat.lt_irrefl 0)

/-- A reference to an inode that has been found. -/
theorem Sound.found (sound : Sound sb inodes s) (holding : Itable.Holding sb s s' (Pi.single i 1) ∅)
    (member : (s'.inode i).inum ∈ linked sb inodes s.image) : Sound sb inodes s' := by
  refine sound.unchanged holding fun k isTaken => ?_
  by_cases isI : k = i
  · rw [isI]
    exact member
  · rw [Pi.single_eq_of_ne isI] at isTaken
    exact absurd isTaken (Nat.lt_irrefl 0)

/-- The linked directories have not changed, and all linked inodes have their types and their links. -/
theorem SoundDisk.congr (disk : SoundDisk sb inodes image data) (files : Files sb inodes (readInode sb image') image')
    (fields : ∀ n ∈ inodes, n ∈ linked sb inodes image ∨ n ∈ linked sb inodes image' →
      (readInode sb image' n).type = (readInode sb image n).type ∧
      (readInode sb image' n).nlink = (readInode sb image n).nlink)
    (untouched : ∀ n ∈ linked sb inodes image, n ∈ directories sb image →
      Untouched sb n (readInode sb image n) image image')
    (contents : ∀ n ∈ inodes, HasContent sb image' n) : SoundDisk sb inodes image' data := by
  have isLinked : linked sb inodes image' = linked sb inodes image := by
    ext n
    constructor
    · intro isNode
      rcases fields n isNode.1 (.inr isNode) with ⟨isType, isCount⟩
      refine ⟨isNode.1, ?_⟩
      rw [← isType, ← isCount]
      exact isNode.2
    · intro isNode
      rcases fields n isNode.1 (.inl isNode) with ⟨isType, isCount⟩
      refine ⟨isNode.1, ?_⟩
      rw [isType, isCount]
      exact isNode.2
  have stays : ∀ n ∈ linked sb inodes image, (readInode sb image' n).nlink = (readInode sb image n).nlink :=
    fun n isNode => (fields n isNode.1 (.inl isNode)).2
  have types : ∀ n ∈ linked sb inodes image, n ∈ directories sb image' ↔ n ∈ directories sb image := by
    intro n isNode
    change (readInode sb image' n).type = tDir ↔ _
    rw [(fields n isNode.1 (.inl isNode)).1]
    rfl
  have isProper : properEntries sb inodes image' data = properEntries sb inodes image data := by
    ext x
    unfold properEntries
    rw [isLinked]
    exact and_congr_right fun isNode => and_congr_left fun _ => types _ isNode
  have tidy := disk.tidy.congr types stays
  refine ⟨files, ?_, fun n isNode isNow => ?_, fun n isNode isNow => ?_, fun n isNode isNow => ?_,
    fun n isNode => ?_, fun n isNode => ?_, disk.all, disk.few, contents⟩
  · rw [isProper, isLinked]
    exact tidy
  · rw [isLinked] at isNode
    have was := (types n isNode).1 isNow
    exact (disk.directory n isNode was).untouched rfl (untouched n isNode was)
  · rw [isLinked] at isNode
    exact disk.distinct n isNode ((types n isNode).1 isNow)
  · rw [isLinked] at isNode
    have dots := disk.dots n isNode ((types n isNode).1 isNow)
    refine ⟨dots.self, ?_⟩
    rw [isProper]
    exact dots.parent
  · rw [isLinked] at isNode
    exact disk.range n isNode
  · rw [isLinked] at isNode
    rw [stays n isNode]
    exact disk.links n isNode

/-- The allocated inodes have not changed. -/
theorem SoundDisk.untouched (disk : SoundDisk sb inodes image data) (files : Files sb inodes (readInode sb image') image')
    (untouched : ∀ n ∈ inodes, n ∈ linked sb inodes image ∨ (readInode sb image' n).type ≠ 0 →
      Untouched sb n (readInode sb image n) image image') : SoundDisk sb inodes image' data := by
  refine disk.congr files (fun n inside isNode => ?_) (fun n isNode _ => untouched n isNode.1 (.inl isNode))
    fun n inside => ?_
  · have same := (untouched n inside (isNode.imp_right fun isNode' => isNode'.2.1)).inode
    rw [same]
    exact ⟨rfl, rfl⟩
  · intro hasType
    exact (disk.contents n inside).untouched (untouched n inside (.inr hasType)) hasType

/-- `idup` -/
theorem Sound.idup (sound : Sound sb inodes s) (used : 0 < (s.inode i).ref) : Sound sb inodes (s.idup i) := by
  have holding := (Itable.Holding.start sound.cache.ok sound.cache.coherent sound.cache.unlocked).got (s.idup_got used)
  rw [zero_add] at holding
  have isImage : (s.idup i).image = s.image := holding.image
  refine ⟨sound.cache.after (e := Pi.single i 1) ?_ (fun k isTaken => ?_) fun k usedK => ?_, ?_⟩
  · rw [isImage]
    exact holding
  · rw [isImage]
    by_cases isI : k = i
    · subst isI
      have isInum : ((s.idup k).inode k).inum = (s.inode k).inum := holding.inum k used
      rw [isInum]
      exact sound.cache.cached k used
    · rw [Pi.single_eq_of_ne isI] at isTaken
      exact absurd isTaken (Nat.lt_irrefl 0)
  · rw [isImage]
    exact (sound.cache.cached k usedK).2
  · rw [isImage]
    exact sound.disk

/-- The state before one of the references was taken. -/
def Itable.without (s : Itable) (i : Fin ninode) : Itable := s.set i { s.inode i with ref := (s.inode i).ref - 1 }

theorem Sound.without (sound : Sound sb inodes s) (used : 0 < (s.inode i).ref) :
    Itable.Holding sb (s.without i) s (0 + Pi.single i 1) ∅ := by
  have cache := sound.cache
  have inums := Itable.set_field s i { s.inode i with ref := (s.inode i).ref - 1 } CachedInode.inum rfl
  refine ⟨cache.ok, cache.coherent, fun k => ?_, fun k _ => (inums k).symm, fun k => ?_, rfl⟩
  · rw [zero_add]
    by_cases isI : k = i
    · subst isI
      have self := Itable.set_self s k { s.inode k with ref := (s.inode k).ref - 1 }
      unfold Itable.without
      rw [self, Pi.single_eq_same]
      change (s.inode k).ref = (s.inode k).ref - 1 + 1
      omega
    · have other : (s.without i).inode k = s.inode k := Itable.set_other isI
      rw [other, Pi.single_eq_of_ne isI, add_zero]
  · rw [cache.unlocked k]
    exact iff_of_false Bool.false_ne_true (Set.notMem_empty k)

/-- An entry that was in use without the reference was so with it. -/
theorem Itable.without_used {k : Fin ninode} (used : 0 < ((s.without i).inode k).ref) : 0 < (s.inode k).ref ∧
    ((s.without i).inode k).inum = (s.inode k).inum := by
  have inums := Itable.set_field s i { s.inode i with ref := (s.inode i).ref - 1 } CachedInode.inum rfl
  refine ⟨?_, inums k⟩
  by_cases isI : k = i
  · subst isI
    have self := Itable.set_self s k { s.inode k with ref := (s.inode k).ref - 1 }
    unfold Itable.without at used
    rw [self] at used
    change 0 < (s.inode k).ref - 1 at used
    omega
  · have other : (s.without i).inode k = s.inode k := Itable.set_other isI
    rw [other] at used
    exact used

/-- A reference has been given up. -/
theorem Sound.dropped (sound : Sound sb inodes s) (holding : Itable.Holding sb { s.without i with image := s'.image } s' 0 ∅)
    (types : ∀ k, 0 < ((s.without i).inode k).ref → (readInode sb s'.image (s.inode k).inum).type ≠ 0)
    (disk : SoundDisk sb inodes s'.image data) : Sound sb inodes s' := by
  refine ⟨⟨holding.ok, holding.coherent, fun k => holding.notLocked (Set.notMem_empty k), fun k used => ?_⟩, data, disk⟩
  rw [holding.ref] at used
  have was : 0 < ((s.without i).inode k).ref := used
  have isInum : (s'.inode k).inum = (s.inode k).inum :=
    (holding.inum k was).trans (Itable.without_used was).2
  rw [isInum]
  exact ⟨(sound.cache.cached k (Itable.without_used was).1).1, types k was⟩

/-- `iput`; the last reference to an inode without links frees it. -/
theorem Sound.iput (sound : Sound sb inodes s) (used : 0 < (s.inode i).ref) :
    ∃ s', s.iput sb i = .ok s' ∧ Sound sb inodes s' := by
  have holding := sound.without used
  have cache := sound.cache
  rcases sound.disk with ⟨data, disk⟩
  by_cases stays : (readInode sb s.image (s.inode i).inum).nlink ≠ 0 ∨ 0 < ((s.without i).inode i).ref + (0 : Fin ninode → ℕ) i
  · rcases holding.exists_iput (Set.notMem_empty i) stays with ⟨s', isPut, holding', -⟩
    have isImage : s'.image = s.image := holding'.image
    rw [← isImage] at disk
    refine ⟨s', isPut, sound.dropped (i := i) ?_ (fun k was => ?_) disk⟩
    · rw [isImage]
      exact holding'
    · rw [isImage]
      exact (cache.cached k (Itable.without_used was).1).2
  · rw [not_or, not_not, Nat.not_lt, Nat.le_zero] at stays
    rcases stays with ⟨unlinked, last⟩
    by_cases isValid : (s.inode i).valid = true
    · rcases holding.iput_last (Set.notMem_empty i) isValid unlinked last disk.files
        (fun k usedK => (cache.cached k usedK).1) with ⟨s', isPut, holding', released⟩
      have isType : (readInode sb s'.image (s.inode i).inum).type = 0 := by rw [released.inode]
      refine ⟨s', isPut, sound.dropped (i := i) holding' (fun k was => ?_)
        (disk.untouched released.files fun n inside possible => released.others n inside ?_)⟩
      · rcases Itable.without_used was with ⟨usedK, -⟩
        have different : (s.inode k).inum ≠ (s.inode i).inum := by
          intro same
          have isI := cache.ok.unique k i usedK used same
          rw [isI] at was
          change _ + 0 = 0 at last
          omega
        rw [(released.others _ (cache.cached k usedK).1 different).inode]
        exact (cache.cached k usedK).2
      · rintro rfl
        rcases possible with isNode | hasType
        · exact isNode.2.2 unlinked
        · exact hasType isType
    · have isDrop : s.drop sb i = .ok s := by
        unfold Itable.drop
        dsimp only
        rw [if_neg fun both => isValid both.1]
      have isPut : s.iput sb i = .ok (s.without i) := by
        unfold Itable.iput
        rw [cache.unlocked i, if_neg Bool.false_ne_true, isDrop]
        rfl
      have inums := Itable.set_field s i { s.inode i with ref := (s.inode i).ref - 1 } CachedInode.inum rfl
      have valids := Itable.set_field s i { s.inode i with ref := (s.inode i).ref - 1 } CachedInode.valid rfl
      have ips := Itable.set_field s i { s.inode i with ref := (s.inode i).ref - 1 } CachedInode.ip rfl
      have locks := Itable.set_field s i { s.inode i with ref := (s.inode i).ref - 1 } CachedInode.locked rfl
      have unlocked : ∀ k, ((s.without i).inode k).locked = false := fun k => (locks k).trans (cache.unlocked k)
      refine ⟨s.without i, isPut, sound.dropped (i := i) ⟨cache.ok.congr (fun k was => ?_) fun k _ => unlocked k,
        fun k was valid => ?_, fun _ => rfl, fun _ _ => rfl, fun k => ?_, rfl⟩ (fun k was => ?_) disk⟩
      · exact Itable.without_used was
      · have isIp : ((s.without i).inode k).ip = (s.inode k).ip := ips k
        have isInum : ((s.without i).inode k).inum = (s.inode k).inum := inums k
        rw [isIp, isInum]
        exact cache.coherent k (Itable.without_used was).1 ((valids k).symm.trans valid)
      · rw [unlocked k]
        exact iff_of_false Bool.false_ne_true (Set.notMem_empty k)
      · exact (cache.cached k (Itable.without_used was).1).2

/-! ## New and removed names -/

/-- What a system call should leave. Only `ialloc` may fail, when no inode is free. -/
inductive Outcome (sb : Superblock) (inodes : Set ℕ) (s : Itable) : Except Stop Itable → Prop where
  | returns {s' : Itable} : Sound sb inodes s' → Outcome sb inodes s (.ok s')
  | full : (∀ n, 0 < n → n < sb.ninodes → (readInode sb s.image n).type ≠ 0) →
      Outcome sb inodes s (.error (.panic "ialloc: no inodes"))

/-- The directory that a path leads to has links. -/
theorem SoundDisk.target (disk : SoundDisk sb inodes s.image data) (cache : SoundCache sb s inodes)
    (within : Within sb inodes s cwd) (target : Target sb s data cwd path d name) :
    d ∈ linked sb inodes s.image ∧ d ∈ directories sb s.image := by
  have graph := (disk.system cache).graph
  exact (graph.walkParent_congr (fun _ _ => rfl) (namesOf path) (graph.start within.member path)).2 d target.parent

theorem Sound.unlink (sound : Sound sb inodes s) (room : Roomy sb inodes s) (within : Within sb inodes s cwd)
    (noNul : 0 ∉ path) (devsw : Devsw) (buffer : ℕ → Byte) :
    Outcome sb inodes s ((sys_unlink devsw sb (some path) buffer cwd s).map Prod.snd) := by
  rcases sound.disk with ⟨data, disk⟩
  have cache := sound.cache
  rcases (disk.system cache).unlink devsw disk.counted room.spare.spare within.used within.member noNul buffer with
    ⟨s', v, d, name, removable, isOk, unlinking⟩ | ⟨s', -, isBad, holding⟩
  · rcases disk.target cache within ⟨removable.parent, removable.last⟩ with ⟨member, isDir⟩
    rcases disk.unlinked member isDir removable.notDot removable.notDotdot removable.empty unlinking with
      ⟨content, disk'⟩
    rw [isOk]
    refine .returns ⟨cache.after unlinking.holding (fun _ none => absurd none (Nat.lt_irrefl 0)) fun k used => ?_,
      _, disk'⟩
    rcases cache.cached k used with ⟨inside, hasType⟩
    by_cases isChild : (s.inode k).inum = v
    · rcases unlinking.kept (.inr ⟨k, used, isChild⟩) with ⟨isInode, -⟩
      rw [isChild, isInode, ← isChild]
      exact hasType
    · by_cases isParent : (s.inode k).inum = d
      · rcases unlinking.entry with ⟨l, content, -, directory, -⟩
        rw [isParent, directory.isDir]
        decide
      · rw [(unlinking.others _ inside isChild isParent).inode]
        exact hasType
  · rw [isBad]
    exact .returns (sound.same holding)

/-- A name that is not there is neither `.` nor `..`. -/
theorem SoundDisk.proper (disk : SoundDisk sb inodes image data) (member : d ∈ linked sb inodes image)
    (isDir : d ∈ directories sb image) (absent : toMap (slotsOf (data d)) name = none) :
    name ≠ dotName ∧ name ≠ dotdotName := by
  have dots := disk.dots d member isDir
  have none := position_none (toMap_none absent)
  rcases dots.parent with ⟨p, second, -⟩
  refine ⟨?_, ?_⟩
  · rintro rfl
    exact none _ _ dots.self
  · rintro rfl
    exact none _ _ second

/-- An inode has been made, and its references are to it. -/
theorem Sound.created (sound : Sound sb inodes s) (disk : SoundDisk sb inodes s.image data) (room : Roomy sb inodes s)
    (within : Within sb inodes s cwd) (target : Target sb s data cwd path d name) (hasType : type ≠ 0)
    (created : Created sb s s' inodes data e ∅ m d name type major minor) (only : ∀ k, 0 < e k → (s'.inode k).inum = m) :
    Sound sb inodes s' := by
  have cache := sound.cache
  rcases disk.target cache within target with ⟨member, isDir⟩
  rcases disk.proper member isDir created.absent with ⟨notDot, notDotdot⟩
  rcases disk.created member isDir notDot notDotdot hasType (room.links d member) created with ⟨data', disk'⟩
  have isType : (readInode sb s'.image m).type ≠ 0 := by
    rcases created.fields with ⟨size, addrs, isInode⟩
    rw [isInode]
    exact hasType
  refine ⟨cache.after created.holding (fun k isTaken => ?_) fun k used => ?_, data', disk'⟩
  · rw [only k isTaken]
    exact ⟨disk.all m created.firstFree.pos created.firstFree.bound, isType⟩
  · rcases cache.cached k used with ⟨inside, hasType'⟩
    by_cases isNew : (s.inode k).inum = m
    · rw [isNew]
      exact isType
    · by_cases isParent : (s.inode k).inum = d
      · rcases created.entry with ⟨content, directory, -⟩
        rw [isParent, directory.isDir]
        decide
      · rw [(created.others _ inside isNew isParent).inode]
        exact hasType'

theorem Created.congr (created : Created sb s s' inodes data e held m d name type major minor)
    {e' : Fin ninode → ℕ} {held' : Set (Fin ninode)} (holding : Itable.Holding sb { s with image := s'.image } s'' e' held') :
    Created sb s s'' inodes data e' held' m d name type major minor := by
  have isImage : s''.image = s'.image := holding.image
  rcases created with ⟨-, firstFree, absent, fields, empty, dots, parent, entry, others, files⟩
  rw [← isImage] at holding fields empty dots parent entry others files
  exact ⟨holding, firstFree, absent, fields, empty, dots, parent, entry, others, files⟩

/-- `create` returns, and the inode is given up. -/
theorem Created.put (created : Created sb s s' inodes data (Pi.single i 1) {i} m d name type major minor)
    (isNew : (s'.inode i).inum = m) : ∃ s'', s'.iunlockput sb i = .ok s'' ∧
    Created sb s s'' inodes data 0 ∅ m d name type major minor := by
  have holding := created.holding
  have stays : (readInode sb s'.image (s'.inode i).inum).nlink ≠ 0 ∨
      0 < (s.inode i).ref + (0 : Fin ninode → ℕ) i := by
    rcases created.fields with ⟨size, addrs, isInode⟩
    rw [isNew, isInode]
    exact .inl Nat.one_ne_zero
  rw [← zero_add (Pi.single i 1)] at holding
  rcases holding.iunlockput rfl stays with ⟨s'', isPut, holding', -⟩
  rw [Set.sdiff_self] at holding'
  exact ⟨s'', isPut, created.congr holding'⟩

theorem Created.unlock (created : Created sb s s' inodes data (Pi.single i 1) {i} m d name type major minor)
    (isNew : (s'.inode i).inum = m) : ∃ s'', s'.iunlock i = .ok s'' ∧ (s''.inode i).inum = m ∧
    Created sb s s'' inodes data (Pi.single i 1) ∅ m d name type major minor := by
  rcases created.holding.exists_iunlock created.holding.used_single rfl with ⟨s'', isUnlock, holding', inums⟩
  rw [Set.sdiff_self] at holding'
  exact ⟨s'', isUnlock, (inums i).trans isNew, created.congr holding'⟩

/-- There is room for one more name. -/
theorem Roomy.fits (room : Roomy sb inodes s) (disk : SoundDisk sb inodes s.image data) (cache : SoundCache sb s inodes)
    (within : Within sb inodes s cwd) (path : List Byte) : CreateFits sb s data cwd path := by
  intro d name target _
  rcases disk.target cache within target with ⟨member, isDir⟩
  have size := (disk.directory d member isDir).regular.size
  have bound := room.sizes d member isDir
  rw [size] at bound
  exact .inr bound

/-- What a call makes of the inode that it has found or made, if that leaves a consistent file system. -/
theorem Sound.create (sound : Sound sb inodes s) (room : Roomy sb inodes s) (within : Within sb inodes s cwd)
    (short : ShortFields type major minor) (noNul : 0 ∉ path) (devsw : Devsw) (buffer : ℕ → Byte)
    (rest : Option (Fin ninode) × Itable → Except Stop Itable)
    (nothing : ∀ s', Sound sb inodes s' → rest (none, s') = .ok s')
    (opened : ∀ i s' v, Itable.Holding sb s s' (Pi.single i 1) {i} → (s'.inode i).inum = v →
      v ∈ linked sb inodes s.image → Outcome sb inodes s (rest (some i, s')))
    (made : ∀ data i s' m d name, SoundDisk sb inodes s.image data → Target sb s data cwd path d name →
      (s'.inode i).inum = m → Created sb s s' inodes data (Pi.single i 1) {i} m d name type major minor →
      Outcome sb inodes s (rest (some i, s'))) :
    Outcome sb inodes s (Fs.create devsw sb path type major minor buffer cwd s >>= rest) := by
  rcases sound.disk with ⟨data, disk⟩
  have cache := sound.cache
  have system := disk.system cache
  have correct := system.create devsw room.spare.spare (disk.creatable cache room.blocks) short
    (room.fits disk cache within path) within.used within.member noNul buffer
  generalize Fs.create devsw sb path type major minor buffer cwd s = result at correct
  cases correct with
  | absent _ holding =>
      change Outcome sb inodes s (rest (none, _))
      rw [nothing _ (sound.same holding)]
      exact .returns (sound.same holding)
  | refused _ _ _ holding =>
      change Outcome sb inodes s (rest (none, _))
      rw [nothing _ (sound.same holding)]
      exact .returns (sound.same holding)
  | opened target isMap _ isV holding =>
      rcases disk.target cache within target with ⟨member, isDir⟩
      rcases toMap_some isMap with ⟨k, -, holds⟩
      exact opened _ _ _ holding isV (disk.entry member isDir holds)
  | created target isNew created => exact made data _ _ _ _ _ disk target isNew created
  | full _ _ taken => exact .full taken

/-- `sys_mkdir` and `sys_mknod` -/
theorem Sound.makeNode (sound : Sound sb inodes s) (room : Roomy sb inodes s) (within : Within sb inodes s cwd)
    (short : ShortFields type major minor) (noNul : 0 ∉ path) (devsw : Devsw) (buffer : ℕ → Byte) :
    Outcome sb inodes s ((Fs.makeNode devsw sb type (some (path, major, minor)) buffer cwd s).map Prod.snd) := by
  have isRest : (Fs.makeNode devsw sb type (some (path, major, minor)) buffer cwd s).map Prod.snd =
      (Fs.create devsw sb path type major minor buffer cwd s >>= fun (made, s) =>
        match made with
        | none => .ok s
        | some ip => s.iunlockput sb ip) := by
    unfold Fs.makeNode
    dsimp only
    rcases Fs.create devsw sb path type major minor buffer cwd s with stop | ⟨_ | ip, s'⟩
    · rfl
    · rfl
    · change Except.map Prod.snd (s'.iunlockput sb ip >>= fun s => .ok ((0 : ℤ), s)) = s'.iunlockput sb ip
      rcases s'.iunlockput sb ip with stop | s''
      · rfl
      · rfl
  rw [isRest]
  refine sound.create room within short noNul devsw buffer _ (fun _ _ => rfl) (fun i s' v holding isV member => ?_)
    fun data i s' m d name disk target isNew created => ?_
  · rcases sound.disk with ⟨data, disk⟩
    have graph := (disk.system sound.cache).graph
    rcases graph.giveUp holding (isV ▸ member) with ⟨s'', isPut, holding'⟩
    change Outcome sb inodes s (s'.iunlockput sb i)
    rw [isPut]
    exact .returns (sound.same holding')
  · rcases created.put isNew with ⟨s'', isPut, created'⟩
    change Outcome sb inodes s (s'.iunlockput sb i)
    rw [isPut]
    exact .returns (sound.created disk room within target short.hasType created' fun _ none =>
      absurd none (Nat.lt_irrefl 0))

/-! ## Opened names -/

/-- `namei` from a consistent file system, and what the call makes of the inode, which it locks. -/
theorem Sound.namei (sound : Sound sb inodes s) (room : Roomy sb inodes s) (within : Within sb inodes s cwd)
    (noNul : 0 ∉ path) (devsw : Devsw) (buffer : ℕ → Byte)
    (rest : Option (Fin ninode) × (ℕ → Byte) × Itable → Except Stop Itable)
    (nothing : ∀ name s', Sound sb inodes s' → rest (none, name, s') = .ok s')
    (opened : ∀ i name s₁ s₂ v, s₁.ilock sb i = .ok s₂ → Itable.Holding sb s s₂ (Pi.single i 1) {i} →
      (s₂.inode i).inum = v → (s₂.inode i).ip = readInode sb s.image v → v ∈ linked sb inodes s.image →
      Outcome sb inodes s (rest (some i, name, s₁))) :
    Outcome sb inodes s (Fs.namei devsw sb path buffer cwd s >>= rest) := by
  rcases sound.disk with ⟨data, disk⟩
  have system := disk.system sound.cache
  generalize isTarget : walk sb s.image data (startOf s path cwd) (namesOf path) = target
  rcases target with _ | v
  · rcases system.link_namei devsw room.spare within.used within.member noNul buffer with
      ⟨found, name, s₁, isResult, resolved⟩
    rw [isTarget] at resolved
    rw [isResult]
    cases resolved with
    | absent holding =>
        change Outcome sb inodes s (rest (none, name, s₁))
        rw [nothing name s₁ (sound.same holding)]
        exact .returns (sound.same holding)
  · rcases system.link_locked devsw room.spare within.used within.member noNul buffer isTarget with
      ⟨i, name, s₁, s₂, isResult, isLock, isV, isIp, member, holding⟩
    rw [isResult]
    exact opened i name s₁ s₂ v isLock holding isV isIp member

/-- The inode has been unlocked, and the reference is kept. -/
theorem Sound.unlock (sound : Sound sb inodes s) (holding : Itable.Holding sb s s' (Pi.single i 1) {i})
    (member : (s'.inode i).inum ∈ linked sb inodes s.image) : ∃ s'', s'.iunlock i = .ok s'' ∧ Sound sb inodes s'' ∧
    ∀ k, 0 < (s.inode k).ref → 0 < (s''.inode k).ref := by
  rcases holding.exists_iunlock holding.used_single rfl with ⟨s'', isUnlock, holding', inums⟩
  rw [Set.sdiff_self] at holding'
  exact ⟨s'', isUnlock, sound.found holding' ((inums i).symm ▸ member), fun k used => holding'.keeps used⟩

/-- The inode has been unlocked, and the reference is given up. -/
theorem Sound.giveUp (sound : Sound sb inodes s) (holding : Itable.Holding sb s s' (Pi.single i 1) {i})
    (member : (s'.inode i).inum ∈ linked sb inodes s.image) : ∃ s'', s'.iunlockput sb i = .ok s'' ∧
    Sound sb inodes s'' := by
  rcases sound.disk with ⟨data, disk⟩
  rcases (disk.system sound.cache).graph.giveUp holding member with ⟨s'', isPut, holding'⟩
  exact ⟨s'', isPut, sound.same holding'⟩

/-- `sys_chdir` -/
theorem Sound.chdir (sound : Sound sb inodes s) (room : Roomy sb inodes s) (within : Within sb inodes s cwd)
    (noNul : 0 ∉ path) (devsw : Devsw) (buffer : ℕ → Byte) :
    Outcome sb inodes s ((sys_chdir devsw sb (some path) buffer cwd s).map fun result => result.2.2) := by
  have isRest : (sys_chdir devsw sb (some path) buffer cwd s).map (fun result => result.2.2) =
      (Fs.namei devsw sb path buffer cwd s >>= fun (found, _, s) =>
        match found with
        | none => .ok s
        | some ip => do
            let s ← s.ilock sb ip
            if (s.inode ip).ip.type ≠ tDir then s.iunlockput sb ip
            else
              let s ← s.iunlock ip
              s.iput sb cwd) := by
    unfold sys_chdir
    dsimp only
    rcases Fs.namei devsw sb path buffer cwd s with stop | ⟨_ | ip, name, s₁⟩
    · rfl
    · rfl
    · change Except.map _ (s₁.ilock sb ip >>= _) = (s₁.ilock sb ip >>= _)
      rcases s₁.ilock sb ip with stop | s₂
      · rfl
      · change Except.map _ (if (s₂.inode ip).ip.type ≠ tDir then _ else _) =
          if (s₂.inode ip).ip.type ≠ tDir then _ else _
        split
        · rcases s₂.iunlockput sb ip with stop | s₃
          · rfl
          · rfl
        · rcases s₂.iunlock ip with stop | s₃
          · rfl
          · change Except.map _ (s₃.iput sb cwd >>= _) = s₃.iput sb cwd
            rcases s₃.iput sb cwd with stop | s₄
            · rfl
            · rfl
  rw [isRest]
  refine sound.namei room within noNul devsw buffer _ (fun _ _ _ => rfl)
    fun i name s₁ s₂ v isLock holding isV isIp member => ?_
  dsimp only
  rw [isLock]
  change Outcome sb inodes s (if (s₂.inode i).ip.type ≠ tDir then _ else _)
  split
  · rcases sound.giveUp holding (isV.symm ▸ member) with ⟨s₃, isPut, sound'⟩
    rw [isPut]
    exact .returns sound'
  · rcases sound.unlock holding (isV.symm ▸ member) with ⟨s₃, isUnlock, sound', keeps⟩
    rcases sound'.iput (keeps cwd within.used) with ⟨s₄, isPut, sound''⟩
    rw [isUnlock]
    change Outcome sb inodes s (s₃.iput sb cwd)
    rw [isPut]
    exact .returns sound''

/-- What `sys_open` does with the inode that it has opened. -/
def openRest (sb : Superblock) (hasEntry : Bool) (result : Option (Fin ninode) × Itable) : Except Stop Itable :=
  match result.1 with
  | none => .ok result.2
  | some ip => if hasEntry then result.2.iunlock ip else result.2.iunlockput sb ip

theorem sys_open_rest (devsw : Devsw) (omode : ℕ) (hasEntry : Bool) (buffer : ℕ → Byte) :
    (sys_open devsw sb (some path) omode hasEntry buffer cwd s).map Prod.snd =
      openLocked devsw sb path omode buffer cwd s >>= openRest sb hasEntry := by
  unfold sys_open openRest
  dsimp only
  rcases openLocked devsw sb path omode buffer cwd s with stop | ⟨_ | ip, s₁⟩
  · rfl
  · rfl
  · cases hasEntry with
    | true =>
        change Except.map _ (s₁.iunlock ip >>= _) = s₁.iunlock ip
        rcases s₁.iunlock ip with stop | s₂
        · rfl
        · rfl
    | false =>
        change Except.map _ (s₁.iunlockput sb ip >>= _) = s₁.iunlockput sb ip
        rcases s₁.iunlockput sb ip with stop | s₂
        · rfl
        · rfl

/-- The inode that `sys_open` has opened was there. -/
theorem Sound.openRest (sound : Sound sb inodes s) (holding : Itable.Holding sb s s' (Pi.single i 1) {i})
    (member : (s'.inode i).inum ∈ linked sb inodes s.image) (hasEntry : Bool) :
    Outcome sb inodes s (Fs.openRest sb hasEntry (some i, s')) := by
  unfold Fs.openRest
  cases hasEntry with
  | true =>
      rcases sound.unlock holding member with ⟨s'', isUnlock, sound', -⟩
      dsimp only
      rw [if_pos rfl, isUnlock]
      exact .returns sound'
  | false =>
      rcases sound.giveUp holding member with ⟨s'', isPut, sound'⟩
      dsimp only
      rw [if_neg Bool.false_ne_true, isPut]
      exact .returns sound'

/-- `sys_open` -/
theorem Sound.open (sound : Sound sb inodes s) (room : Roomy sb inodes s) (within : Within sb inodes s cwd)
    (noNul : 0 ∉ path) (devsw : Devsw) (omode : ℕ) (hasEntry : Bool) (buffer : ℕ → Byte) :
    Outcome sb inodes s ((sys_open devsw sb (some path) omode hasEntry buffer cwd s).map Prod.snd) := by
  rw [sys_open_rest]
  unfold openLocked
  by_cases creates : omode &&& 0x200 ≠ 0
  · rw [if_pos creates]
    have short : ShortFields tFile 0 0 := ⟨by decide, by decide, by decide, by decide⟩
    refine sound.create room within short noNul devsw buffer _ (fun _ _ => rfl) (fun i s' v holding isV member => ?_)
      fun data i s' m d name disk target isNew created => ?_
    · exact sound.openRest holding (isV.symm ▸ member) hasEntry
    · unfold Fs.openRest
      cases hasEntry with
      | true =>
          rcases created.unlock isNew with ⟨s'', isUnlock, isNew', created'⟩
          dsimp only
          rw [if_pos rfl, isUnlock]
          refine .returns (sound.created disk room within target short.hasType created' fun k isTaken => ?_)
          by_cases isI : k = i
          · rw [isI]
            exact isNew'
          · rw [Pi.single_eq_of_ne isI] at isTaken
            exact absurd isTaken (Nat.lt_irrefl 0)
      | false =>
          rcases created.put isNew with ⟨s'', isPut, created'⟩
          dsimp only
          rw [if_neg Bool.false_ne_true, isPut]
          exact .returns (sound.created disk room within target short.hasType created' fun _ none =>
            absurd none (Nat.lt_irrefl 0))
  · rw [if_neg creates, bind_assoc]
    refine sound.namei room within noNul devsw buffer _ (fun _ _ _ => rfl)
      fun i name s₁ s₂ v isLock holding isV isIp member => ?_
    dsimp only
    rw [isLock]
    change Outcome sb inodes s ((if (s₂.inode i).ip.type = tDir ∧ omode ≠ 0 then _ else _) >>= _)
    split
    · rcases sound.giveUp holding (isV.symm ▸ member) with ⟨s₃, isPut, sound'⟩
      rw [isPut]
      exact .returns sound'
    · exact sound.openRest holding (isV.symm ▸ member) hasEntry

end Xv6.Fs
