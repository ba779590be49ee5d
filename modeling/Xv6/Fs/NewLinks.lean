import Xv6.Fs.Syscalls

/-!
# `sys_link` and consistency

The steps of `sys_link` keep the inodes consistent while it holds locks, also those that take the new
link back.
-/

namespace Xv6.Fs

open Bytes SlotTable LinkCount

variable {devsw : Devsw} {sb : Superblock} {s s' s'' s₀ : Itable} {inodes named : Set ℕ} {data data' : ℕ → List Byte}
  {i j cwd : Fin ninode} {e : Fin ninode → ℕ} {held : Set (Fin ninode)} {image image' : ℕ → Block}
  {content old new : List Byte} {name : ℕ → Byte} {d k l m n v w : ℕ}

/-- A reference that is not the last one, or one to an inode with links, is given up. -/
theorem Stable.iput (stable : Stable sb s₀ s inodes (e + Pi.single i 1) held) (notHeld : i ∉ held)
    (stays : (readInode sb s.image (s.inode i).inum).nlink ≠ 0 ∨ 0 < (s₀.inode i).ref + e i) : ∃ s',
    s.iput sb i = .ok s' ∧ Stable sb s₀ s' inodes e held ∧ (∀ k, (s'.inode k).inum = (s.inode k).inum) ∧
    s'.image = s.image := by
  rcases stable.holding.exists_iput notHeld stays with ⟨s', isPut, holding, inums⟩
  have isImage : s'.image = s.image := holding.image
  have files := stable.files
  rw [← isImage] at holding files
  refine ⟨s', isPut, ⟨holding, files, fun k used => ?_⟩, inums, isImage⟩
  rw [inums]
  refine stable.cached k ?_
  rw [holding.ref] at used
  rw [stable.holding.ref, Pi.add_apply, ← Nat.add_assoc]
  exact Nat.lt_add_right _ used

theorem Stable.iunlockput (stable : Stable sb s₀ s inodes (e + Pi.single i 1) held) (isHeld : i ∈ held)
    (stays : (readInode sb s.image (s.inode i).inum).nlink ≠ 0 ∨ 0 < (s₀.inode i).ref + e i) : ∃ s',
    s.iunlockput sb i = .ok s' ∧ Stable sb s₀ s' inodes e (held \ {i}) ∧
    (∀ k, (s'.inode k).inum = (s.inode k).inum) ∧ s'.image = s.image := by
  rcases stable.holding.exists_iunlock stable.holding.used_last isHeld with ⟨s₁, isUnlock, holding₁, inums₁⟩
  have isImage₁ : s₁.image = s.image := holding₁.image
  have files := stable.files
  rw [← isImage₁] at holding₁ files stays
  rw [← inums₁ i] at stays
  have stable₁ : Stable sb s₀ s₁ inodes (e + Pi.single i 1) (held \ {i}) := by
    refine ⟨holding₁, files, fun k used => ?_⟩
    rw [inums₁]
    refine stable.cached k ?_
    rw [holding₁.ref] at used
    rw [stable.holding.ref]
    exact used
  rcases stable₁.iput (fun member => member.2 rfl) stays with ⟨s₂, isPut, stable₂, inums₂, isImage₂⟩
  refine ⟨s₂, ?_, stable₂, fun k => (inums₂ k).trans (inums₁ k), isImage₂.trans isImage₁⟩
  unfold Itable.iunlockput
  rw [isUnlock]
  exact isPut

/-- The new link has been counted. -/
theorem System.raised_stable (system : System sb s inodes named data) (raised : Raised sb s m image) (member : m ∈ named)
    (holding : Itable.Holding sb { s with image } s' e held) (members : ∀ k, 0 < e k → (s'.inode k).inum ∈ named) :
    Stable sb s s' inodes e held := by
  have isImage : s'.image = image := holding.image
  have files := system.raised_files member raised
  rw [← isImage] at holding files
  refine ⟨holding, files, fun k used => ?_⟩
  by_cases isTaken : 0 < e k
  · exact system.within (members k isTaken)
  · rw [holding.ref] at used
    have was : 0 < (s.inode k).ref := by
      change 0 < (s.inode k).ref + e k at used
      omega
    have isInum : (s'.inode k).inum = (s.inode k).inum := holding.inum k was
    rw [isInum]
    exact system.cached k was

/-- `bad` -/
theorem System.linkBad_stable (system : System sb s inodes named data) (member : (s'.inode i).inum ∈ named)
    (raised : Raised sb s (s'.inode i).inum image)
    (holding : Itable.Holding sb { s with image } s' (Pi.single i 1) ∅) : ∃ s'', linkBad sb i s' = .ok (-1, s'') ∧
    Stable sb s s'' inodes 0 ∅ ∧ LinkUndone sb s s'' inodes := by
  have isImage : s'.image = image := holding.image
  have self := system.raised_self member raised
  have few := system.links _ member
  have stable := system.raised_stable raised member holding fun k isTaken => by
    by_cases isI : k = i
    · rw [isI]
      exact member
    · rw [Pi.single_eq_of_ne isI] at isTaken
      exact absurd isTaken (Nat.lt_irrefl 0)
  have hasType : (readInode sb s'.image (s'.inode i).inum).type ≠ 0 := by
    rw [isImage, self]
    exact system.graph.allocated _ member
  rcases stable.ilock holding.used_single (Set.notMem_empty i) hasType with
    ⟨s₂, isLock, stable₂, isIp₂, inums₂, -, isImage₂⟩
  rw [← isImage₂] at isIp₂
  have isCount : ((readInode sb s₂.image (s'.inode i).inum).nlink + (2 ^ 16 - 1)) % 2 ^ 16 =
      (readInode sb s.image (s'.inode i).inum).nlink := by
    rw [isImage₂, isImage, self]
    change ((readInode sb s.image (s'.inode i).inum).nlink + 1 + (2 ^ 16 - 1)) % 2 ^ 16 = _
    omega
  rcases stable₂.addLinks stable₂.holding.used_single (inums₂ i) isIp₂ (system.within member) isCount with
    ⟨s₃, isAdd, edited₃, inode₃, -, -⟩
  have isInum₃ : (s₃.inode i).inum = (s'.inode i).inum := (edited₃.inum i).trans (inums₂ i)
  have stable₃ := edited₃.stable
  rw [← zero_add (Pi.single i 1)] at stable₃
  have stays : (readInode sb s₃.image (s₃.inode i).inum).nlink ≠ 0 ∨ 0 < (s.inode i).ref + (0 : Fin ninode → ℕ) i := by
    rw [isInum₃, inode₃]
    rcases system.graph.kept _ member with isLinked | ⟨k, usedK, same⟩
    · exact .inl isLinked
    · have isI : k = i := stable₃.holding.same stable₃.holding.used_last usedK (same.trans isInum₃.symm)
      subst isI
      exact .inr (usedK.trans_le (Nat.le_add_right _ _))
  rcases stable₃.iunlockput (.inl rfl) stays with ⟨s₄, isPut, stable₄, -, -⟩
  have isBad : linkBad sb i s' = .ok (-1, s₄) := by
    unfold linkBad
    rw [isLock]
    change (do
      let s ← (s₂.addLinks sb i (2 ^ 16 - 1)).iunlockput sb i
      return (-1, s)) = _
    rw [isAdd, isPut]
    rfl
  rcases system.link_undone member raised holding with ⟨s₅, isBad', undone⟩
  rw [isBad] at isBad'
  cases isBad'
  refine ⟨s₄, isBad, ?_, undone⟩
  have empty : (insert i ∅ : Set (Fin ninode)) \ {i} = ∅ := by
    rw [insert_empty_eq, Set.sdiff_self]
  rw [empty] at stable₄
  exact stable₄

/-- The new entry. -/
theorem System.linkInto_stable (system : System sb s inodes named data) (devsw : Devsw)
    (linking : Linking sb s named image i j s')
    (holding : Itable.Holding sb { s with image } s' (Pi.single i 1 + Pi.single j 1) ∅) (enough : 2 ≤ free sb s.image)
    (absent : toMap (slotsOf (data (s'.inode j).inum)) (key name) = none)
    (room : firstEmpty (slotsOf (data (s'.inode j).inum)) < (slotsOf (data (s'.inode j).inum)).length ∨
      (data (s'.inode j).inum).length + 16 ≤ maxfile * bsize) : ∃ s'', linkInto devsw sb i j name s' = .ok (0, s'') ∧
    Stable sb s s'' inodes 0 ∅ ∧ Linked sb s s'' inodes data (s'.inode i).inum (s'.inode j).inum (key name) := by
  have within := system.within linking.directory
  have inside := system.within linking.file
  rcases system.range _ linking.file with ⟨positive, small⟩
  rcases system.openDirectory linking holding with ⟨s₁, isLock, holding₁, inums₁, isIp, dir⟩
  have isImage₁ : s₁.image = image := holding₁.image
  have stable₁ := system.raised_stable linking.raised linking.file holding₁ fun k isTaken => by
    rw [inums₁]
    by_cases isI : k = i
    · rw [isI]
      exact linking.file
    · by_cases isJ : k = j
      · rw [isJ]
        exact linking.directory
      · rw [Pi.add_apply, Pi.single_eq_of_ne isI, Pi.single_eq_of_ne isJ] at isTaken
        exact absurd isTaken (Nat.lt_irrefl 0)
  have directory := system.raised_directory linking.file linking.raised linking.directory linking.isDir
  rw [← isImage₁] at isIp directory
  have enough₁ : 2 ≤ free sb s₁.image := by
    rw [isImage₁, linking.raised.image, system.files.free_iupdate inside]
    exact enough
  rcases stable₁.dirlink dir.used rfl (inums₁ j) isIp within directory dir.distinct absent positive small room enough₁
    devsw with ⟨s₂, content, isLink, edited₂, extended₂⟩
  have stays : (readInode sb s₂.image (s₂.inode j).inum).nlink ≠ 0 ∨
      0 < (s.inode j).ref + (Pi.single i 1 : Fin ninode → ℕ) j := by
    rcases extended₂.fields with ⟨size, addrs, isInode⟩
    rw [edited₂.inum, inums₁, isInode]
    change (readInode sb s₁.image (s'.inode j).inum).nlink ≠ 0 ∨ _
    rw [isImage₁, system.raised_other linking.file linking.raised linking.ne.symm]
    refine (system.graph.kept _ linking.directory).imp_right ?_
    rintro ⟨k, usedK, same⟩
    have isJ : k = j := edited₂.stable.holding.same edited₂.stable.holding.used_last usedK
      (same.trans ((edited₂.inum j).trans (inums₁ j)).symm)
    exact (isJ ▸ usedK).trans_le (Nat.le_add_right _ _)
  rcases edited₂.stable.iunlockput rfl stays with ⟨s₃, isPut, stable₃, inums₃, isImage₃⟩
  rw [Set.sdiff_self, ← zero_add (Pi.single i 1)] at stable₃
  have isNumber : (s₃.inode i).inum = (s'.inode i).inum :=
    (inums₃ i).trans ((edited₂.inum i).trans (inums₁ i))
  have stays₃ : (readInode sb s₃.image (s₃.inode i).inum).nlink ≠ 0 ∨
      0 < (s.inode i).ref + (0 : Fin ninode → ℕ) i := by
    rw [isNumber, isImage₃, (edited₂.changed.others _ inside linking.ne).inode, isImage₁,
      system.raised_self linking.file linking.raised]
    exact .inl (Nat.succ_ne_zero _)
  rcases stable₃.iput (Set.notMem_empty i) stays₃ with ⟨s₄, isPut₄, stable₄, -, -⟩
  have isInto : linkInto devsw sb i j name s' = .ok (0, s₄) := by
    unfold linkInto
    rw [isLock]
    change (dirlink devsw sb s₁ j name (s₁.inode i).inum >>= _) = _
    rw [inums₁, isLink]
    change (s₂.iunlockput sb j >>= _) = _
    rw [isPut]
    change (s₃.iput sb i >>= _) = _
    rw [isPut₄]
    rfl
  rcases system.link_adds devsw linking holding enough absent room with ⟨s₅, isInto', isLinked⟩
  rw [isInto] at isInto'
  cases isInto'
  exact ⟨s₄, isInto, stable₄, isLinked⟩

/-! ## `sys_link` -/

/-- Only `.` and, in the root, `..` lead to the directory that they are in. -/
theorem SoundDisk.self (disk : SoundDisk sb inodes image data) (member : d ∈ linked sb inodes image)
    (isDir : d ∈ directories sb image) {last : List Byte} (isMap : toMap (slotsOf (data d)) last = some d) :
    last = dotName ∨ last = dotdotName := by
  by_contra proper
  rw [not_or] at proper
  rcases toMap_some isMap with ⟨k, -, holds⟩
  exact disk.tidy.noLoop (d, k, d) ⟨member, isDir, last, proper.1, proper.2, holds⟩ rfl

theorem Sound.undone (sound : Sound sb inodes s) (stable : Stable sb s s' inodes 0 ∅) (undone : LinkUndone sb s s' inodes) :
    Sound sb inodes s' := by
  rcases sound.disk with ⟨data, disk⟩
  refine ⟨sound.cache.after stable.holding (fun _ none => absurd none (Nat.lt_irrefl 0)) fun k used => ?_, data,
    disk.untouched stable.files fun n inside _ => undone.untouched n inside⟩
  rcases sound.cache.cached k used with ⟨inside, hasType⟩
  rw [(undone.untouched _ inside).inode]
  exact hasType

theorem Sound.newLink (sound : Sound sb inodes s) (disk : SoundDisk sb inodes s.image data) (room : Roomy sb inodes s)
    (directory : d ∈ linked sb inodes s.image) (isDir : d ∈ directories sb s.image) (file : m ∈ linked sb inodes s.image)
    (isFile : m ∉ directories sb s.image) (stable : Stable sb s s' inodes 0 ∅) {last : List Byte}
    (isLinked : Linked sb s s' inodes data m d last) : Sound sb inodes s' := by
  rcases disk.proper directory isDir isLinked.absent with ⟨notDot, notDotdot⟩
  rcases disk.relinked directory isDir notDot notDotdot file isFile (room.links m file) isLinked stable.files with
    ⟨data', disk'⟩
  refine ⟨sound.cache.after stable.holding (fun _ none => absurd none (Nat.lt_irrefl 0)) fun k used => ?_, data', disk'⟩
  rcases sound.cache.cached k used with ⟨inside, hasType⟩
  by_cases isM : (s.inode k).inum = m
  · rw [isM, isLinked.nlink, ← isM]
    exact hasType
  · by_cases isD : (s.inode k).inum = d
    · rcases isLinked.entry with ⟨content, isDirectory, -⟩
      rw [isD, isDirectory.isDir]
      decide
    · rw [(isLinked.others _ inside isM isD).inode]
      exact hasType

/-- The directory for the new name has been found. -/
theorem Sound.linkInto (sound : Sound sb inodes s) (disk : SoundDisk sb inodes s.image data) (room : Roomy sb inodes s)
    (linking : Linking sb s (linked sb inodes s.image) image i j s')
    (holding : Itable.Holding sb { s with image } s' (Pi.single i 1 + Pi.single j 1) ∅) (devsw : Devsw) :
    Outcome sb inodes s ((Fs.linkInto devsw sb i j name s').map Prod.snd) ∨
      Fs.linkInto devsw sb i j name s' = .error .asleep ∧ (key name = dotName ∨ key name = dotdotName) := by
  have system := disk.system sound.cache
  have isDir : (s'.inode j).inum ∈ directories sb s.image := linking.isDir
  rcases isMap : toMap (slotsOf (data (s'.inode j).inum)) (key name) with _ | v
  · have size := (disk.directory _ linking.directory isDir).regular.size
    have bound := room.sizes _ linking.directory isDir
    rw [size] at bound
    rcases system.linkInto_stable devsw linking holding (Nat.le_trans (by decide) room.blocks) isMap (.inr bound) with
      ⟨s'', isInto, stable, isLinked⟩
    rw [isInto]
    exact .inl (.returns (sound.newLink disk room linking.directory isDir linking.file linking.isFile stable isLinked))
  · by_cases self : v = (s'.inode j).inum
    · subst self
      exact .inr ⟨system.link_self devsw linking holding isMap, disk.self linking.directory isDir isMap⟩
    · refine .inl ?_
      rcases system.openDirectory linking holding with ⟨s₁, isLock, holding₁, inums₁, -, dir⟩
      have available : Available s₁ v := holding₁.available room.spare ((inums₁ j).symm ▸ self)
      rcases dir.found devsw (s₁.inode i).inum isMap available with ⟨s₂, isLink, unchanged⟩
      have holding₂ := holding₁.unchanged unchanged
      have isImage : s₂.image = image := holding₂.image
      have inums₂ : ∀ k ∈ ({i, j} : Set (Fin ninode)), (s₂.inode k).inum = (s'.inode k).inum := by
        intro k member
        have used : 0 < (s₁.inode k).ref := by
          rcases member with rfl | rfl
          · exact holding₁.used_first
          · exact holding₁.used_last
        rw [unchanged.used k used]
        exact inums₁ k
      have isDp : (s₂.inode j).inum = (s'.inode j).inum := inums₂ j (.inr rfl)
      have stays : (readInode sb s₂.image (s₂.inode j).inum).nlink ≠ 0 ∨
          ∃ k, 0 < (s.inode k).ref ∧ (s.inode k).inum = (s₂.inode j).inum := by
        rw [isImage, isDp, system.raised_other linking.file linking.raised linking.ne.symm]
        exact system.graph.kept _ linking.directory
      rcases holding₂.giveUp stays with ⟨s₃, isPut, holding₃, inums₃⟩
      have isIp : (s₃.inode i).inum = (s'.inode i).inum := (inums₃ i).trans (inums₂ i (.inl rfl))
      rcases system.linkBad_stable (isIp.symm ▸ linking.file) (isIp.symm ▸ linking.raised) holding₃ with
        ⟨s₄, isBad, stable, undone⟩
      have isInto : Fs.linkInto devsw sb i j name s' = .ok (-1, s₄) := by
        unfold Fs.linkInto
        rw [isLock]
        change (dirlink devsw sb s₁ j name (s₁.inode i).inum >>= _) = _
        rw [isLink]
        change (s₂.iunlockput sb j >>= _) = _
        rw [isPut]
        exact isBad
      rw [isInto]
      exact .returns (sound.undone stable undone)

/-- `sys_link`; it waits for its own lock if the new name is `.`, or `..` in the root. -/
theorem Sound.link (sound : Sound sb inodes s) (room : Roomy sb inodes s) (within : Within sb inodes s cwd)
    (oldNul : 0 ∉ old) (newNul : 0 ∉ new) (devsw : Devsw) (buffer name : ℕ → Byte) :
    Outcome sb inodes s ((sys_link devsw sb (some old) (some new) buffer name cwd s).map Prod.snd) ∨
      sys_link devsw sb (some old) (some new) buffer name cwd s = .error .asleep ∧
      ((namesOf new).getLast? = some dotName ∨ (namesOf new).getLast? = some dotdotName) := by
  rcases sound.disk with ⟨data, disk⟩
  have system := disk.system sound.cache
  rcases isOld : walk sb s.image data (startOf s old cwd) (namesOf old) with _ | m
  · rcases system.link_namei devsw room.spare within.used within.member oldNul buffer with
      ⟨found, name₁, s₁, isResult, resolved⟩
    rw [isOld] at resolved
    refine .inl ?_
    unfold sys_link
    dsimp only
    rw [isResult]
    cases resolved with
    | absent holding => exact .returns (sound.same holding)
  · by_cases isDir : (readInode sb s.image m).type = tDir
    · rcases system.link_locked devsw room.spare within.used within.member oldNul buffer isOld with
        ⟨i, name₁, s₁, s₂, isResult, isLock, isInum, isIp, directory, holding₂⟩
      rcases sound.giveUp holding₂ (isInum.symm ▸ directory) with ⟨s₃, isPut, sound'⟩
      refine .inl ?_
      unfold sys_link
      dsimp only
      rw [isResult]
      change Outcome sb inodes s (Except.map _ (s₁.ilock sb i >>= _))
      rw [isLock]
      change Outcome sb inodes s (Except.map _ (if (s₂.inode i).ip.type = tDir then _ else _))
      rw [isIp, if_pos isDir, isPut]
      exact .returns sound'
    · rcases system.link_file devsw room.spare within.used within.member oldNul buffer name isOld isDir with
        ⟨i, s', image, rfl, file, raised, holding, isResult⟩
      rw [isResult]
      have isImage : s'.image = image := holding.image
      have graph := system.raised_graph file raised holding
      have isCwd : (s'.inode cwd).inum = (s.inode cwd).inum := holding.inum cwd within.used
      have noLocks : ∀ k, (s'.inode k).locked = false := fun k => holding.notLocked (Set.notMem_empty k)
      have isStart : startOf s' new cwd = startOf s new cwd := by
        unfold startOf
        rw [isCwd]
      have start := system.graph.start within.member new
      rcases system.graph.walkParent_congr (fun n _ => (system.raised_type file raised n).1) (namesOf new) start with
        ⟨same, leads⟩
      have found : NamexEnds sb s' true (namesOf new)
          (walkParent sb s.image data (startOf s new cwd) (namesOf new)) (nameiparent devsw sb new name cwd s') := by
        have isTarget := (graph.namex devsw true holding.ok holding.coherent noLocks (holding.keeps within.used)
          (isCwd.symm ▸ within.member) newNul name).ends
        unfold resolve at isTarget
        rw [if_pos rfl, isImage, isStart, same] at isTarget
        exact isTarget
      rcases found with ⟨-, full⟩ | ⟨parent, name', s₁, isFound, resolved, isLast⟩
      · exact absurd (holding.spare room.spare) full
      · rw [isFound]
        generalize isNew : walkParent sb s.image data (startOf s new cwd) (namesOf new) = target at resolved
        cases resolved with
        | absent holding₁ =>
            have holding₂ := holding.trans holding₁
            rw [add_zero] at holding₂
            have isInum : (s₁.inode i).inum = (s'.inode i).inum := holding₁.inum i holding.used_single
            rcases system.linkBad_stable (isInum.symm ▸ file) (isInum.symm ▸ raised) holding₂ with
              ⟨s₂, isBad, stable, undone⟩
            refine .inl ?_
            change Outcome sb inodes s (Except.map _ (linkBad sb i s₁))
            rw [isBad]
            exact .returns (sound.undone stable undone)
        | @found j _ holding₁ =>
            have isInum : (s₁.inode i).inum = (s'.inode i).inum := holding₁.inum i holding.used_single
            rcases leads _ isNew with ⟨directory, isParent⟩
            have linking : Linking sb s (linked sb inodes s.image) image i j s₁ := by
              refine ⟨?_, ?_, directory, isParent, ?_⟩
              · rw [isInum]
                exact file
              · rw [isInum]
                exact isDir
              · rw [isInum]
                exact raised
            have isKey : (namesOf new).getLast? = some (key name') := isLast rfl fun none => by cases none
            rw [isKey, Option.some_inj, Option.some_inj]
            exact sound.linkInto disk room linking (holding.trans holding₁) devsw

end Xv6.Fs
