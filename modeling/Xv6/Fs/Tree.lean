import Xv6.Fs.Create
import Xv6.Lib.LinkCount

/-!
# The tree of names

What holds between system calls: the names of linked inodes, their link counts and the entries `.` and `..`
fit together. `create` and `sys_unlink` keep it.
-/

namespace Xv6.Fs

open Bytes SlotTable LinkCount

/-- The allocated inodes that have links. -/
def linked (sb : Superblock) (inodes : Set ℕ) (image : ℕ → Block) : Set ℕ :=
  {n ∈ inodes | (readInode sb image n).type ≠ 0 ∧ (readInode sb image n).nlink ≠ 0}

def directories (sb : Superblock) (image : ℕ → Block) : Set ℕ := {n | (readInode sb image n).type = tDir}

/-- The entries other than `.` and `..` of the linked directories: the directory, the slot, and the inode. -/
def properEntries (sb : Superblock) (inodes : Set ℕ) (image : ℕ → Block) (data : ℕ → List Byte) : Set (ℕ × ℕ × ℕ) :=
  {e | e.1 ∈ linked sb inodes image ∧ e.1 ∈ directories sb image ∧ ∃ name, name ≠ dotName ∧ name ≠ dotdotName ∧
    HasPair (slotsOf (data e.1)) e.2.1 name e.2.2}

/-- The first two entries of a directory. -/
structure Dots (sb : Superblock) (inodes : Set ℕ) (image : ℕ → Block) (data : ℕ → List Byte) (d : ℕ) : Prop where
  self : HasPair (slotsOf (data d)) 0 dotName d
  parent : ∃ p, HasPair (slotsOf (data d)) 1 dotdotName p ∧
    (d = rootino ∧ p = rootino ∨ d ≠ rootino ∧ ∃ k, (p, k, d) ∈ properEntries sb inodes image data)

/-- Every block below the size of an inode is allocated, unless the inode is free or a device. -/
def HasContent (sb : Superblock) (image : ℕ → Block) (n : ℕ) : Prop :=
  (readInode sb image n).type ≠ 0 → (readInode sb image n).type ≠ tDev →
    ∃ content, Regular (readInode sb image n) image content

/-- A consistent disk. -/
structure SoundDisk (sb : Superblock) (inodes : Set ℕ) (image : ℕ → Block) (data : ℕ → List Byte) : Prop where
  files : Files sb inodes (readInode sb image) image
  tidy : Tidy (properEntries sb inodes image data) (directories sb image) (linked sb inodes image) rootino
    fun n => (readInode sb image n).nlink
  directory : ∀ n ∈ linked sb inodes image, n ∈ directories sb image → Directory (readInode sb image n) image (data n)
  distinct : ∀ n ∈ linked sb inodes image, n ∈ directories sb image → Distinct (slotsOf (data n))
  dots : ∀ n ∈ linked sb inodes image, n ∈ directories sb image → Dots sb inodes image data n
  range : ∀ n ∈ linked sb inodes image, 0 < n ∧ n < 2 ^ 16
  links : ∀ n ∈ linked sb inodes image, (readInode sb image n).nlink < 2 ^ 15
  all : ∀ n, 0 < n → n < sb.ninodes → n ∈ inodes
  few : sb.ninodes ≤ 2 ^ 16
  contents : ∀ n ∈ inodes, HasContent sb image n

/-- A consistent cache of inodes, in which none is locked. -/
structure SoundCache (sb : Superblock) (s : Itable) (inodes : Set ℕ) : Prop where
  ok : s.Ok
  coherent : s.Coherent sb
  unlocked : ∀ k, (s.inode k).locked = false
  cached : ∀ k, 0 < (s.inode k).ref → (s.inode k).inum ∈ inodes ∧ (readInode sb s.image (s.inode k).inum).type ≠ 0

variable {devsw : Devsw} {sb : Superblock} {s s' : Itable} {inodes : Set ℕ} {data data' : ℕ → List Byte}
  {i cwd : Fin ninode} {e : Fin ninode → ℕ} {held : Set (Fin ninode)} {image image' : ℕ → Block} {content path : List Byte}
  {name name' : List Byte} {d k l m n v w type major minor : ℕ}

theorem HasContent.congr (has : HasContent sb image n) (same : SameBlocks (readInode sb image n) image image')
    (isAddrs : (readInode sb image' n).addrs = (readInode sb image n).addrs)
    (isType : (readInode sb image' n).type = (readInode sb image n).type)
    (isSize : (readInode sb image' n).size = (readInode sb image n).size) : HasContent sb image' n := by
  intro hasType notDevice
  rw [isType] at hasType notDevice
  rcases has hasType notDevice with ⟨content, regular⟩
  exact ⟨content, regular.congr same isAddrs isType isSize⟩

theorem HasContent.untouched (has : HasContent sb image n)
    (untouched : Untouched sb n (readInode sb image n) image image') : HasContent sb image' n := by
  have same := untouched.inode
  apply has.congr untouched.sameBlocks
  · rw [same]
  · rw [same]
  · rw [same]

/-- Another link count. -/
theorem HasContent.withLinks (has : HasContent sb image n) (same : SameBlocks (readInode sb image n) image image')
    (isInode : readInode sb image' n = Fs.withLinks (readInode sb image n) l) : HasContent sb image' n := by
  apply has.congr same
  · rw [isInode]
    rfl
  · rw [isInode]
    rfl
  · rw [isInode]
    rfl

theorem Directory.hasContent (directory : Directory (readInode sb image n) image content) : HasContent sb image n :=
  fun _ _ => ⟨content, directory.regular⟩

theorem holds_unique {table : List (Option (List Byte × ℕ))} (first : HasPair table k name v)
    (second : HasPair table k name' w) : name' = name ∧ w = v := by
  unfold HasPair at first second
  rw [first, Option.some_inj, Option.some_inj, Prod.mk.injEq] at second
  exact ⟨second.1.symm, second.2.symm⟩

/-- The entries of linked directories lead to linked inodes. -/
theorem SoundDisk.entry (disk : SoundDisk sb inodes image data) (member : d ∈ linked sb inodes image)
    (isDir : d ∈ directories sb image) (holds : HasPair (slotsOf (data d)) k name v) : v ∈ linked sb inodes image := by
  have dots := disk.dots d member isDir
  have distinct := disk.distinct d member isDir
  by_cases isDot : name = dotName
  · subst isDot
    have isFirst := distinct _ _ _ _ _ holds dots.self
    subst isFirst
    rw [(holds_unique dots.self holds).2]
    exact member
  · by_cases isDotdot : name = dotdotName
    · subst isDotdot
      rcases dots.parent with ⟨p, second, possible⟩
      have isSecond := distinct _ _ _ _ _ holds second
      subst isSecond
      rw [(holds_unique second holds).2]
      rcases possible with ⟨-, isRoot⟩ | ⟨-, l, isEntry⟩
      · rw [isRoot]
        exact disk.tidy.hasRoot
      · exact disk.tidy.source _ isEntry
    · exact disk.tidy.target (d, k, v) ⟨member, isDir, name, isDot, isDotdot, holds⟩

/-- Between system calls. -/
theorem SoundDisk.system (disk : SoundDisk sb inodes s.image data) (cache : SoundCache sb s inodes) :
    System sb s inodes (linked sb inodes s.image) data :=
  ⟨cache.ok, cache.coherent, cache.unlocked, disk.files,
    ⟨disk.tidy.hasRoot, fun _ member => member.2.1, fun _ member => .inl member.2.2, disk.directory,
      fun _ member isDir _ _ _ holds => disk.entry member isDir holds⟩,
    fun _ member => member.1, fun k used => (cache.cached k used).1, disk.distinct, disk.range, disk.links⟩

theorem SoundDisk.counted (disk : SoundDisk sb inodes s.image data) : Counted sb s (linked sb inodes s.image) data := by
  intro d member isDir k name v holds notDot notDotdot
  have isEntry : (d, k, v) ∈ properEntries sb inodes s.image data := ⟨member, isDir, name, notDot, notDotdot, holds⟩
  exact ⟨disk.tidy.noLoop _ isEntry, disk.tidy.pos isEntry, disk.tidy.two_le isEntry⟩

theorem SoundDisk.creatable (disk : SoundDisk sb inodes s.image data) (cache : SoundCache sb s inodes)
    (blocks : 6 ≤ free sb s.image) : Creatable sb s inodes :=
  ⟨disk.all, disk.few, fun k used => (cache.cached k used).2, blocks⟩

/-- No entries lead on from an inode that `sys_unlink` removes. -/
theorem SoundDisk.leaf (disk : SoundDisk sb inodes image data)
    (empty : v ∈ directories sb image → noneBehindDots (slotsOf (data v)) = true) :
    ∀ x ∈ properEntries sb inodes image data, x.1 ≠ v := by
  rintro ⟨v', k, w⟩ ⟨member, isDir, name, notDot, notDotdot, holds⟩ same
  obtain rfl : v' = v := same
  have dots := disk.dots v' member isDir
  rcases dots.parent with ⟨p, second, -⟩
  have behind : 2 ≤ k := by
    by_contra before
    have possible : k = 0 ∨ k = 1 := by omega
    rcases possible with rfl | rfl
    · exact notDot (holds_unique dots.self holds).1
    · exact notDotdot (holds_unique second holds).1
  have none := empty isDir
  unfold noneBehindDots at none
  rw [List.all_eq_true] at none
  have isSlot : ((slotsOf (data v')).drop 2)[k - 2]? = some (some (name, w)) := by
    rw [List.getElem?_drop, Nat.add_sub_cancel' behind]
    exact holds
  have isNone := none _ (List.mem_of_getElem? isSlot)
  cases isNone

/-! ## `sys_unlink` -/

/-- What is left of the inode that the entry led to. -/
theorem Unlinking.child (unlinking : Unlinking sb s s' inodes data v d name) : (readInode sb s.image v).nlink = 1 ∧ v ∉ linked sb inodes s'.image ∨
      (readInode sb s.image v).nlink ≠ 1 ∧
      readInode sb s'.image v = withLinks (readInode sb s.image v) ((readInode sb s.image v).nlink - 1) ∧
      SameBlocks (readInode sb s.image v) s.image s'.image := by
  by_cases one : (readInode sb s.image v).nlink = 1
  · refine .inl ⟨one, fun stays => ?_⟩
    by_cases referenced : Referenced s v
    · rcases unlinking.kept (.inr referenced) with ⟨isInode, -⟩
      refine stays.2.2 ?_
      rw [isInode, one]
      rfl
    · exact stays.2.1 (unlinking.freed one referenced).1
  · exact .inr ⟨one, unlinking.kept (.inl one)⟩

theorem holds_erased (entry : HasPair (slotsOf (data d)) l name v) (slots : slotsOf content = put (slotsOf (data d)) l none) :
    HasPair (slotsOf (Function.update data d content n)) k name' w ↔
      HasPair (slotsOf (data n)) k name' w ∧ ¬(n = d ∧ k = l) := by
  by_cases isD : n = d
  · subst isD
    rw [Function.update_self, slots, holds_erase entry.lt.le, and_comm]
    exact and_congr_right fun _ => ⟨fun other both => other both.2, fun other isL => other ⟨rfl, isL⟩⟩
  · rw [Function.update_of_ne isD]
    exact (and_iff_left fun both => isD both.1).symm

/-- The entries that are left. -/
theorem properEntries_erase (entry : HasPair (slotsOf (data d)) l name v)
    (slots : slotsOf content = put (slotsOf (data d)) l none)
    (types : ∀ n ∈ linked sb inodes image', n ∈ linked sb inodes image ∧
      (n ∈ directories sb image' ↔ n ∈ directories sb image))
    (stays : ∀ x ∈ properEntries sb inodes image data, x ≠ (d, l, v) → x.1 ∈ linked sb inodes image') :
    properEntries sb inodes image' (Function.update data d content) =
      properEntries sb inodes image data \ {(d, l, v)} := by
  ext ⟨n, k, w⟩
  constructor
  · rintro ⟨member, isDir, name', notDot, notDotdot, isEntry⟩
    rcases (holds_erased entry slots).1 isEntry with ⟨isOld, different⟩
    refine ⟨⟨(types n member).1, (types n member).2.1 isDir, name', notDot, notDotdot, isOld⟩, fun same => ?_⟩
    obtain ⟨rfl, rfl, -⟩ : n = d ∧ k = l ∧ w = v := by
      rw [Set.mem_singleton_iff, Prod.mk.injEq, Prod.mk.injEq] at same
      exact same
    exact different ⟨rfl, rfl⟩
  · rintro ⟨⟨member, isDir, name', notDot, notDotdot, isOld⟩, different⟩
    have stay := stays (n, k, w) ⟨member, isDir, name', notDot, notDotdot, isOld⟩ different
    refine ⟨stay, (types n stay).2.2 isDir, name', notDot, notDotdot, (holds_erased entry slots).2 ⟨isOld, ?_⟩⟩
    rintro ⟨rfl, rfl⟩
    obtain rfl : w = v := (holds_unique entry isOld).2
    exact different rfl

/-- `sys_unlink` keeps the disk consistent. -/
theorem SoundDisk.unlinked (disk : SoundDisk sb inodes s.image data) (member : d ∈ linked sb inodes s.image)
    (isDir : d ∈ directories sb s.image) (notDot : name ≠ dotName) (notDotdot : name ≠ dotdotName)
    (empty : v ∈ directories sb s.image → noneBehindDots (slotsOf (data v)) = true)
    (unlinking : Unlinking sb s s' inodes data v d name) : ∃ content,
    SoundDisk sb inodes s'.image (Function.update data d content) := by
  rcases unlinking.entry with ⟨l, content, entry, directory, slots, -⟩
  have isEntry : (d, l, v) ∈ properEntries sb inodes s.image data := ⟨member, isDir, name, notDot, notDotdot, entry⟩
  have ne : v ≠ d := disk.tidy.noLoop _ isEntry
  have child : v ∈ linked sb inodes s.image := disk.tidy.target _ isEntry
  have leaf := disk.leaf empty
  have pos : 0 < (readInode sb s.image v).nlink := disk.tidy.pos isEntry
  have others : ∀ n ∈ inodes, n ≠ v → n ≠ d → readInode sb s'.image n = readInode sb s.image n :=
    fun n other notChild notParent => (unlinking.others n other notChild notParent).inode
  have shares : ∀ n, n ≠ v → n ≠ d → share (directories sb s.image) (d, l, v) n = 0 :=
    fun n notChild notParent => share_other notChild notParent _
  have shareChild : share (directories sb s.image) (d, l, v) v = 1 := share_target (e := (d, l, v)) ne _
  have isFlag : flag ((readInode sb s.image v).type = tDir) = _ := flag_eq _
  have shareParent := (share_source (e := (d, l, v)) ne (directories sb s.image)).trans isFlag
  have parentCount : (readInode sb s.image d).nlink =
      (readInode sb s'.image d).nlink + share (directories sb s.image) (d, l, v) d ∧
      (readInode sb s'.image d).nlink ≠ 0 := by
    have notZero := member.2.2
    rw [shareParent, unlinking.parent]
    split
    · rename_i isInner
      have two : 2 ≤ (readInode sb s.image d).nlink := disk.tidy.two_le isEntry isInner
      omega
    · omega
  have counted : ∀ n ∈ linked sb inodes s.image, (readInode sb s.image n).nlink =
      (fun n => (readInode sb s.image n).nlink - share (directories sb s.image) (d, l, v) n) n +
        share (directories sb s.image) (d, l, v) n := by
    intro n isNode
    dsimp only
    by_cases isChild : n = v
    · rw [isChild, shareChild]
      omega
    · by_cases isParent : n = d
      · rw [isParent]
        omega
      · rw [shares n isChild isParent]
        rfl
  have removed := disk.tidy.remove isEntry leaf counted
  have isLinked : linked sb inodes s'.image = {n ∈ linked sb inodes s.image |
      (readInode sb s.image n).nlink - share (directories sb s.image) (d, l, v) n ≠ 0} := by
    ext n
    by_cases isChild : n = v
    · subst isChild
      rw [Set.mem_ofPred_eq, shareChild]
      rcases unlinking.child with ⟨one, gone⟩ | ⟨notOne, isInode, -⟩
      · refine iff_of_false gone fun stays => stays.2 ?_
        omega
      · refine iff_of_true ⟨child.1, ?_, ?_⟩ ⟨child, by omega⟩
        · rw [isInode]
          exact child.2.1
        · rw [isInode]
          change (readInode sb s.image n).nlink - 1 ≠ 0
          omega
    · by_cases isParent : n = d
      · subst isParent
        refine iff_of_true ⟨member.1, ?_, parentCount.2⟩ ⟨member, ?_⟩
        · rw [directory.isDir]
          decide
        · have count := parentCount
          change (readInode sb s.image n).nlink - share _ _ n ≠ 0
          omega
      · rw [Set.mem_ofPred_eq, shares n isChild isParent, Nat.sub_zero]
        constructor
        · rintro ⟨other, hasType, isCount⟩
          rw [others n other isChild isParent] at hasType isCount
          exact ⟨⟨other, hasType, isCount⟩, isCount⟩
        · rintro ⟨⟨other, hasType, isCount⟩, -⟩
          refine ⟨other, ?_, ?_⟩
          · rw [others n other isChild isParent]
            exact hasType
          · rw [others n other isChild isParent]
            exact isCount
  rw [← isLinked] at removed
  have kept : ∀ n ∈ linked sb inodes s'.image, n ∈ linked sb inodes s.image ∧
      (readInode sb s'.image n).type = (readInode sb s.image n).type ∧
      (readInode sb s'.image n).nlink =
        (readInode sb s.image n).nlink - share (directories sb s.image) (d, l, v) n := by
    intro n stays
    have both := stays
    rw [isLinked] at both
    by_cases isChild : n = v
    · subst isChild
      rcases unlinking.child with ⟨one, gone⟩ | ⟨notOne, isInode, -⟩
      · exact absurd stays gone
      · rw [isInode, shareChild]
        exact ⟨both.1, rfl, rfl⟩
    · by_cases isParent : n = d
      · subst isParent
        exact ⟨both.1, directory.isDir.trans isDir.symm, by omega⟩
      · rw [others n both.1.1 isChild isParent, shares n isChild isParent]
        exact ⟨both.1, rfl, rfl⟩
  have types : ∀ n ∈ linked sb inodes s'.image, n ∈ directories sb s'.image ↔ n ∈ directories sb s.image := by
    intro n stays
    change (readInode sb s'.image n).type = tDir ↔ _
    rw [(kept n stays).2.1]
    rfl
  have isProper := properEntries_erase entry slots (fun n stays => ⟨(kept n stays).1, types n stays⟩)
    fun x member different => removed.source x ⟨member, different⟩
  have tidy := removed.congr types fun n stays => (kept n stays).2.2
  rw [← isProper] at tidy
  refine ⟨content, unlinking.files, tidy, fun n stays isNow => ?_, fun n stays isNow => ?_, fun n stays isNow => ?_,
    fun n stays => disk.range n (kept n stays).1, fun n stays => ?_, disk.all, disk.few, fun n inside => ?_⟩
  · have was := (types n stays).1 isNow
    by_cases isParent : n = d
    · subst isParent
      rw [Function.update_self]
      exact directory
    · rw [Function.update_of_ne isParent]
      have old := disk.directory n (kept n stays).1 was
      by_cases isChild : n = v
      · subst isChild
        rcases unlinking.child with ⟨-, gone⟩ | ⟨-, isInode, same⟩
        · exact absurd stays gone
        · rw [isInode]
          exact old.congr same rfl rfl rfl
      · exact old.untouched rfl (unlinking.others n stays.1 isChild isParent)
  · have old := disk.distinct n (kept n stays).1 ((types n stays).1 isNow)
    by_cases isParent : n = d
    · subst isParent
      rw [Function.update_self, slots]
      exact old.erase entry.lt.le
    · rw [Function.update_of_ne isParent]
      exact old
  · have old := disk.dots n (kept n stays).1 ((types n stays).1 isNow)
    rcases old.parent with ⟨p, second, possible⟩
    refine ⟨(holds_erased entry slots).2 ⟨old.self, ?_⟩, p, (holds_erased entry slots).2 ⟨second, ?_⟩, ?_⟩
    · rintro ⟨rfl, rfl⟩
      exact notDot (holds_unique old.self entry).1
    · rintro ⟨rfl, rfl⟩
      exact notDotdot (holds_unique second entry).1
    · refine possible.imp_right ?_
      rintro ⟨notRoot, k, isParent⟩
      refine ⟨notRoot, k, ?_⟩
      rw [isProper]
      refine ⟨isParent, fun same => ?_⟩
      obtain rfl : n = v := congrArg (fun x : ℕ × ℕ × ℕ => x.2.2) same
      have one : (readInode sb s.image n).nlink = 1 :=
        disk.tidy.leaf isEntry ((types n stays).1 isNow) notRoot leaf
      rcases unlinking.child with ⟨-, gone⟩ | ⟨notOne, -, -⟩
      · exact gone stays
      · exact notOne one
  · rw [(kept n stays).2.2]
    exact (Nat.sub_le _ _).trans_lt (disk.links n (kept n stays).1)
  · by_cases isParent : n = d
    · rw [isParent]
      exact directory.hasContent
    · by_cases isChild : n = v
      · subst isChild
        by_cases stays : (readInode sb s.image n).nlink ≠ 1 ∨ Referenced s n
        · rcases unlinking.kept stays with ⟨isInode, same⟩
          exact (disk.contents n inside).withLinks same isInode
        · rw [not_or, not_not] at stays
          exact fun hasType => absurd (unlinking.freed stays.1 stays.2).1 hasType
      · exact (disk.contents n inside).untouched (unlinking.others n inside isChild isParent)

/-! ## New entries -/

theorem distinct_dots (m d : ℕ) : Distinct [some (dotName, m), some (dotdotName, d)] := by
  have first : Distinct (SlotTable.insert (slotsOf []) dotName m) := distinct_nil.insert (toMap_nil dotName) m
  have absent : toMap (SlotTable.insert (slotsOf []) dotName m) dotdotName = none := by
    rw [distinct_nil.toMap_insert (toMap_nil dotName) m]
    exact Function.update_of_ne (by decide) _ _
  rw [← insert_dots]
  exact first.insert absent d

theorem not_holds_firstEmpty {table : List (Option (List Byte × ℕ))} : ¬HasPair table (firstEmpty table) name v := by
  intro holds
  have isEmpty := firstEmpty_empty holds.lt
  unfold HasPair at holds
  rw [isEmpty] at holds
  cases holds

/-- The directory `d` has a new entry for the inode `m`, which is new, or a file that was there. -/
structure Entered (sb : Superblock) (inodes : Set ℕ) (image image' : ℕ → Block) (data : ℕ → List Byte) (m d : ℕ)
    (name : List Byte) : Prop where
  inside : m ∈ inodes
  ne : m ≠ d
  range : 0 < m ∧ m < 2 ^ 16
  hasType : (readInode sb image' m).type ≠ 0
  old : m ∈ linked sb inodes image → (readInode sb image' m).type = (readInode sb image m).type ∧
    (readInode sb image' m).nlink = (readInode sb image m).nlink + 1
  new : m ∉ linked sb inodes image → (readInode sb image' m).nlink = 1
  dots : (readInode sb image' m).type = tDir → m ∉ linked sb inodes image ∧ ∃ content,
    Directory (readInode sb image' m) image' content ∧ slotsOf content = [some (dotName, m), some (dotdotName, d)]
  parent : (readInode sb image' d).nlink = (readInode sb image d).nlink +
    if (readInode sb image' m).type = tDir then 1 else 0
  entry : ∃ content, Directory (readInode sb image' d) image' content ∧
    slotsOf content = SlotTable.insert (slotsOf (data d)) name m ∧ Distinct (slotsOf content)
  others : ∀ n ∈ inodes, n ≠ m → n ≠ d → Untouched sb n (readInode sb image n) image image'
  files : Files sb inodes (readInode sb image') image'
  links : (readInode sb image' m).nlink < 2 ^ 15 ∧ (readInode sb image' d).nlink < 2 ^ 15
  content : HasContent sb image' m

theorem Entered.other (entered : Entered sb inodes image image' data m d name) (inside : n ∈ inodes) (notNew : n ≠ m)
    (notParent : n ≠ d) : readInode sb image' n = readInode sb image n :=
  (entered.others n inside notNew notParent).inode

theorem Entered.linked (entered : Entered sb inodes image image' data m d name) (member : d ∈ Fs.linked sb inodes image) :
    Fs.linked sb inodes image' = insert m (Fs.linked sb inodes image) := by
  rcases entered.entry with ⟨content, directory, -, -⟩
  ext n
  by_cases isNew : n = m
  · subst isNew
    refine iff_of_true ⟨entered.inside, entered.hasType, ?_⟩ (.inl rfl)
    by_cases isOld : n ∈ Fs.linked sb inodes image
    · rw [(entered.old isOld).2]
      exact Nat.succ_ne_zero _
    · rw [entered.new isOld]
      exact Nat.one_ne_zero
  · by_cases isParent : n = d
    · subst isParent
      refine iff_of_true ⟨member.1, ?_, ?_⟩ (.inr member)
      · rw [directory.isDir]
        decide
      · have notZero := member.2.2
        rw [entered.parent]
        omega
    · constructor
      · rintro ⟨inside, hasType, isCount⟩
        rw [entered.other inside isNew isParent] at hasType isCount
        exact .inr ⟨inside, hasType, isCount⟩
      · rintro (isNew' | ⟨inside, hasType, isCount⟩)
        · exact absurd isNew' isNew
        · rw [← entered.other inside isNew isParent] at hasType isCount
          exact ⟨inside, hasType, isCount⟩

theorem Entered.types (entered : Entered sb inodes image image' data m d name) (isDir : d ∈ directories sb image) :
    ∀ n ∈ Fs.linked sb inodes image, n ∈ directories sb image' ↔ n ∈ directories sb image := by
  intro n stays
  change (readInode sb image' n).type = tDir ↔ (readInode sb image n).type = tDir
  by_cases isNew : n = m
  · subst isNew
    rw [(entered.old stays).1]
  · by_cases isParent : n = d
    · subst isParent
      rcases entered.entry with ⟨content, directory, -, -⟩
      exact iff_of_true directory.isDir isDir
    · rw [entered.other stays.1 isNew isParent]

/-- The contents of the directories with the new entry. -/
def enter (data : ℕ → List Byte) (m d : ℕ) (contentM contentD : List Byte) : ℕ → List Byte :=
  Function.update (Function.update data d contentD) m contentM

theorem holds_enter {contentM contentD : List Byte} (slots : slotsOf contentD = SlotTable.insert (slotsOf (data d)) name m)
    (notM : n ≠ m) : HasPair (slotsOf (enter data m d contentM contentD n)) k name' w ↔
      (n = d ∧ k = firstEmpty (slotsOf (data d)) ∧ name = name' ∧ m = w) ∨ HasPair (slotsOf (data n)) k name' w := by
  unfold enter
  rw [Function.update_of_ne notM]
  by_cases isD : n = d
  · subst isD
    rw [Function.update_self, slots, holds_insert]
    simp only [true_and]
  · rw [Function.update_of_ne isD]
    exact (or_iff_right fun both => isD both.1).symm

/-- Only one entry is new. -/
theorem Entered.properEntries (entered : Entered sb inodes image image' data m d name) {contentM contentD : List Byte}
    (member : d ∈ Fs.linked sb inodes image) (isDir : d ∈ directories sb image) (notDot : name ≠ dotName)
    (notDotdot : name ≠ dotdotName) (slots : slotsOf contentD = SlotTable.insert (slotsOf (data d)) name m)
    (newSlots : (readInode sb image' m).type = tDir → slotsOf contentM = [some (dotName, m), some (dotdotName, d)]) :
    Fs.properEntries sb inodes image' (enter data m d contentM contentD) =
      insert (d, firstEmpty (slotsOf (data d)), m) (Fs.properEntries sb inodes image data) := by
  have types := entered.types isDir
  ext ⟨n, k, w⟩
  constructor
  · rintro ⟨isNode, isNow, name', notDot', notDotdot', holds⟩
    dsimp only at holds
    by_cases isNew : n = m
    · subst isNew
      unfold enter at holds
      rw [Function.update_self, newSlots isNow] at holds
      rcases k with _ | _ | k
      · cases holds
        exact absurd rfl notDot'
      · cases holds
        exact absurd rfl notDotdot'
      · cases holds
    · rw [entered.linked member] at isNode
      have old := isNode.resolve_left isNew
      rcases (holds_enter slots isNew).1 holds with ⟨isParent, isSlot, -, isEnd⟩ | isOld
      · refine .inl ?_
        rw [Prod.mk.injEq, Prod.mk.injEq]
        exact ⟨isParent, isSlot, isEnd.symm⟩
      · exact .inr ⟨old, (types n old).1 isNow, name', notDot', notDotdot', isOld⟩
  · rintro (isNew | ⟨isNode, was, name', notDot', notDotdot', holds⟩)
    · rw [Prod.mk.injEq, Prod.mk.injEq] at isNew
      obtain ⟨rfl, rfl, rfl⟩ := isNew
      refine ⟨?_, (types _ member).2 isDir, name, notDot, notDotdot, ?_⟩
      · rw [entered.linked member]
        exact .inr member
      · exact (holds_enter slots entered.ne.symm).2 (.inl ⟨rfl, rfl, rfl, rfl⟩)
    · have isNow := (types _ isNode).2 was
      have notNew : n ≠ m := by
        rintro rfl
        exact (entered.dots isNow).1 isNode
      refine ⟨?_, isNow, name', notDot', notDotdot', (holds_enter slots notNew).2 (.inr holds)⟩
      rw [entered.linked member]
      exact .inr isNode

/-- The new entry is a new link. -/
theorem Entered.tidy (entered : Entered sb inodes image image' data m d name) (disk : SoundDisk sb inodes image data)
    (member : d ∈ Fs.linked sb inodes image) (isDir : d ∈ directories sb image) :
    Tidy (insert (d, firstEmpty (slotsOf (data d)), m) (Fs.properEntries sb inodes image data)) (directories sb image')
      (insert m (Fs.linked sb inodes image)) rootino fun n => (readInode sb image' n).nlink := by
  classical
  have ne := entered.ne
  have notEntry : (d, firstEmpty (slotsOf (data d)), m) ∉ Fs.properEntries sb inodes image data := by
    rintro ⟨-, -, name', -, -, holds⟩
    exact not_holds_firstEmpty holds
  refine disk.tidy.add (e := (d, firstEmpty (slotsOf (data d)), m)) notEntry member ne
    (fun isNewDir => (entered.dots isNewDir).1) (entered.types isDir) fun n isNode => ?_
  by_cases isNew : n = m
  · subst isNew
    rw [share_target (e := (d, firstEmpty (slotsOf (data d)), n)) ne]
    by_cases isOld : n ∈ Fs.linked sb inodes image
    · rw [if_pos isOld]
      exact (entered.old isOld).2
    · rw [if_neg isOld]
      exact entered.new isOld
  · have old := isNode.resolve_left isNew
    rw [if_pos old]
    by_cases isParent : n = d
    · subst isParent
      have isFlag : flag ((readInode sb image' m).type = tDir) = _ := flag_eq _
      have isShare := (share_source (e := (n, firstEmpty (slotsOf (data n)), m)) ne (directories sb image')).trans isFlag
      rw [isShare]
      exact entered.parent
    · rw [share_other (e := (d, firstEmpty (slotsOf (data d)), m)) isNew isParent,
        entered.other old.1 isNew isParent]
      rfl

/-- A new entry keeps the disk consistent. -/
theorem SoundDisk.entered (disk : SoundDisk sb inodes image data) (member : d ∈ linked sb inodes image)
    (isDir : d ∈ directories sb image) (notDot : name ≠ dotName) (notDotdot : name ≠ dotdotName)
    (entered : Entered sb inodes image image' data m d name) : ∃ data', SoundDisk sb inodes image' data' := by
  rcases entered.entry with ⟨contentD, directory, slots, distinct⟩
  have types := entered.types isDir
  have exists_content : ∃ contentM, (readInode sb image' m).type = tDir →
      Directory (readInode sb image' m) image' contentM ∧
      slotsOf contentM = [some (dotName, m), some (dotdotName, d)] := by
    by_cases isNewDir : (readInode sb image' m).type = tDir
    · rcases (entered.dots isNewDir).2 with ⟨contentM, both⟩
      exact ⟨contentM, fun _ => both⟩
    · exact ⟨[], fun isNewDir' => absurd isNewDir' isNewDir⟩
  rcases exists_content with ⟨contentM, newDirectory⟩
  have isNewContent : enter data m d contentM contentD m = contentM := Function.update_self ..
  have newSlots : (readInode sb image' m).type = tDir → slotsOf contentM = [some (dotName, m), some (dotdotName, d)] :=
    fun isNewDir => (newDirectory isNewDir).2
  have isProper := entered.properEntries member isDir notDot notDotdot slots newSlots
  have tidy := entered.tidy disk member isDir
  rw [← isProper, ← entered.linked member] at tidy
  have parts : ∀ n ∈ linked sb inodes image', n = m ∨ n ≠ m ∧ n ∈ linked sb inodes image := by
    intro n isNode
    rw [entered.linked member] at isNode
    by_cases isNew : n = m
    · exact .inl isNew
    · exact .inr ⟨isNew, isNode.resolve_left isNew⟩
  refine ⟨enter data m d contentM contentD, entered.files, tidy, fun n isNode isNow => ?_,
    fun n isNode isNow => ?_, fun n isNode isNow => ?_, fun n isNode => ?_, fun n isNode => ?_, disk.all, disk.few,
    fun n inside => ?_⟩
  · rcases parts n isNode with rfl | ⟨notNew, old⟩
    · rw [isNewContent]
      exact (newDirectory isNow).1
    · unfold enter
      rw [Function.update_of_ne notNew]
      by_cases isParent : n = d
      · subst isParent
        rw [Function.update_self]
        exact directory
      · rw [Function.update_of_ne isParent]
        exact (disk.directory n old ((types n old).1 isNow)).untouched rfl (entered.others n old.1 notNew isParent)
  · rcases parts n isNode with rfl | ⟨notNew, old⟩
    · rw [isNewContent, (newDirectory isNow).2]
      exact distinct_dots n d
    · unfold enter
      rw [Function.update_of_ne notNew]
      by_cases isParent : n = d
      · subst isParent
        rw [Function.update_self]
        exact distinct
      · rw [Function.update_of_ne isParent]
        exact disk.distinct n old ((types n old).1 isNow)
  · rcases parts n isNode with rfl | ⟨notNew, old⟩
    · have isSlots := (newDirectory isNow).2
      rw [← isNewContent] at isSlots
      refine ⟨?_, d, ?_, .inr ⟨?_, firstEmpty (slotsOf (data d)), ?_⟩⟩
      · rw [isSlots]
        rfl
      · rw [isSlots]
        rfl
      · rintro rfl
        exact (entered.dots isNow).1 disk.tidy.hasRoot
      · rw [isProper]
        exact .inl rfl
    · have dots := disk.dots n old ((types n old).1 isNow)
      rcases dots.parent with ⟨p, second, possible⟩
      refine ⟨(holds_enter slots notNew).2 (.inr dots.self), p, (holds_enter slots notNew).2 (.inr second),
        possible.imp_right ?_⟩
      rintro ⟨notRoot, k, isEntry⟩
      refine ⟨notRoot, k, ?_⟩
      rw [isProper]
      exact .inr isEntry
  · rcases parts n isNode with rfl | ⟨-, old⟩
    · exact entered.range
    · exact disk.range n old
  · rcases parts n isNode with rfl | ⟨notNew, old⟩
    · exact entered.links.1
    · by_cases isParent : n = d
      · rw [isParent]
        exact entered.links.2
      · rw [entered.other old.1 notNew isParent]
        exact disk.links n old
  · by_cases isNew : n = m
    · rw [isNew]
      exact entered.content
    · by_cases isParent : n = d
      · rw [isParent]
        exact directory.hasContent
      · exact (disk.contents n inside).untouched (entered.others n inside isNew isParent)

/-- `create` -/
theorem SoundDisk.created (disk : SoundDisk sb inodes s.image data) (member : d ∈ linked sb inodes s.image)
    (isDir : d ∈ directories sb s.image) (notDot : name ≠ dotName) (notDotdot : name ≠ dotdotName) (hasType : type ≠ 0)
    (more : (readInode sb s.image d).nlink + 1 < 2 ^ 15)
    (created : Created sb s s' inodes data e held m d name type major minor) : ∃ data',
    SoundDisk sb inodes s'.image data' := by
  have notLinked : m ∉ linked sb inodes s.image := fun stays => stays.2.1 created.firstFree.free
  have isInode : (readInode sb s'.image m).type = type ∧ (readInode sb s'.image m).nlink = 1 := by
    rcases created.fields with ⟨size, addrs, isInode⟩
    rw [isInode]
    exact ⟨rfl, rfl⟩
  rcases created.entry with ⟨content, directory, slots, distinct, -⟩
  have parent := created.parent
  refine disk.entered member isDir notDot notDotdot ⟨disk.all m created.firstFree.pos created.firstFree.bound, ?_,
    ⟨created.firstFree.pos, created.firstFree.bound.trans_le disk.few⟩, ?_, fun isOld => absurd isOld notLinked,
    fun _ => isInode.2, fun isNewDir => ⟨notLinked, created.dots (isInode.1.symm.trans isNewDir)⟩, ?_,
    ⟨content, directory, slots, distinct⟩, created.others, created.files, ⟨?_, ?_⟩, fun _ notDevice => ?_⟩
  · rintro rfl
    exact notLinked member
  · rw [isInode.1]
    exact hasType
  · rw [isInode.1]
    exact parent
  · rw [isInode.2]
    decide
  · rw [parent]
    split
    · exact more
    · exact Nat.lt_of_succ_lt more
  · by_cases isNewDir : type = tDir
    · rcases created.dots isNewDir with ⟨content', newDirectory, -⟩
      exact ⟨content', newDirectory.regular⟩
    · have isEmpty := created.empty isNewDir
      refine ⟨[], notDevice, ?_, fun _ less => absurd less (Nat.not_lt_zero _),
        fun _ less => absurd less (Nat.not_lt_zero _), Nat.zero_le _⟩
      rw [isEmpty]
      rfl

/-- `sys_link` -/
theorem SoundDisk.relinked (disk : SoundDisk sb inodes s.image data) (member : d ∈ linked sb inodes s.image)
    (isDir : d ∈ directories sb s.image) (notDot : name ≠ dotName) (notDotdot : name ≠ dotdotName)
    (member' : m ∈ linked sb inodes s.image) (isFile : m ∉ directories sb s.image)
    (more : (readInode sb s.image m).nlink + 1 < 2 ^ 15) (isLinked : Linked sb s s' inodes data m d name)
    (files : Files sb inodes (readInode sb s'.image) s'.image) : ∃ data', SoundDisk sb inodes s'.image data' := by
  rcases isLinked.entry with ⟨content, directory, slots, distinct, -⟩
  have isInode := isLinked.nlink
  have notDir : (readInode sb s'.image m).type ≠ tDir := by
    rw [isInode]
    exact isFile
  refine disk.entered member isDir notDot notDotdot ⟨member'.1, ?_, disk.range m member', ?_, fun _ => ?_,
    fun notOld => absurd member' notOld, fun isNewDir => absurd isNewDir notDir, ?_,
    ⟨content, directory, slots, distinct⟩, isLinked.others, files, ⟨?_, ?_⟩,
    (disk.contents m member'.1).withLinks isLinked.blocks isInode⟩
  · rintro rfl
    exact isFile isDir
  · rw [isInode]
    exact member'.2.1
  · rw [isInode]
    exact ⟨rfl, rfl⟩
  · rw [if_neg notDir]
    exact isLinked.fields
  · rw [isInode]
    exact more
  · rw [isLinked.fields]
    exact disk.links d member

end Xv6.Fs
