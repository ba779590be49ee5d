import Xv6.Fs.NewLinks

/-!
# Reading and writing open files

What `fileread` and one pass of the loop of `filewrite` do to a consistent file system. Other processes may run
between two passes. `begin_op` and `end_op` are left out.
-/

namespace Xv6.Fs

open Bytes

/-- `fileread` for an inode; the offset is the one of the file. -/
def fileread (devsw : Devsw) (sb : Superblock) (readable : Bool) (ip : Fin ninode) (off n : BitVec 32) (s : Itable) :
    Except Stop (Option (List Byte) × Itable) :=
  if readable = false then .ok (none, s)
  else do
    let s ← s.ilock sb ip
    let (r, s) ← s.readi devsw sb ip off.toNat n.toNat
    let s ← s.iunlock ip
    return (r, s)

/-- A pass of the loop of `filewrite` -/
def writePiece (devsw : Devsw) (sb : Superblock) (ip : Fin ninode) (src : List Byte) (off : BitVec 32) (s : Itable) :
    Except Stop (Option ℕ × Itable) := do
  let s ← s.ilock sb ip
  let (r, s) ← s.writei devsw sb ip src off.toNat
  let s ← s.iunlock ip
  return (r, s)

variable {devsw : Devsw} {sb : Superblock} {s s' : Itable} {inodes : Set ℕ} {data : ℕ → List Byte} {i : Fin ninode}
  {image image' : ℕ → Block} {ip : Dinode} {content src : List Byte} {m off n : ℕ}

/-- The bytes of a piece need five blocks at most: one of them for the addresses. -/
theorem missing_piece (few : n ≤ writeMax) : missing image ip (places off n) ≤ 5 := by
  have isMax : writeMax = 1536 := rfl
  have within : places off n ⊆ insert maxfile (Finset.Icc (off / bsize) (off / bsize + 3)) := by
    intro k member
    unfold places at member
    rw [Finset.mem_biUnion] at member
    rcases member with ⟨j, less, isTouched⟩
    rw [Finset.mem_range] at less
    have isBlock : (off + j) / bsize ∈ Finset.Icc (off / bsize) (off / bsize + 3) := by
      rw [Finset.mem_Icc]
      unfold bsize
      omega
    unfold touched at isTouched
    split at isTouched
    · rw [Finset.mem_singleton] at isTouched
      rw [isTouched]
      exact Finset.mem_insert_of_mem isBlock
    · rw [Finset.mem_insert, Finset.mem_singleton] at isTouched
      rcases isTouched with rfl | rfl
      · exact Finset.mem_insert_of_mem isBlock
      · exact Finset.mem_insert_self ..
  have isCard : (Finset.Icc (off / bsize) (off / bsize + 3)).card = 4 := by
    rw [Nat.card_Icc]
    omega
  calc missing image ip (places off n) ≤ (places off n).card := Finset.card_filter_le _ _
    _ ≤ (insert maxfile (Finset.Icc (off / bsize) (off / bsize + 3))).card := Finset.card_le_card within
    _ ≤ 5 := by
      have more := Finset.card_insert_le maxfile (Finset.Icc (off / bsize) (off / bsize + 3))
      omega

/-- An inode that is in use is locked. -/
theorem Sound.locked (sound : Sound sb inodes s) (used : 0 < (s.inode i).ref) : ∃ s', s.ilock sb i = .ok s' ∧
    Stable sb s s' inodes 0 {i} ∧ (s'.inode i).inum = (s.inode i).inum ∧
    (s'.inode i).ip = readInode sb s.image (s.inode i).inum ∧ s'.image = s.image := by
  rcases sound.disk with ⟨data, disk⟩
  have cache := sound.cache
  have start := Itable.Holding.start cache.ok cache.coherent cache.unlocked
  have stable : Stable sb s s inodes 0 ∅ := ⟨start, disk.files, fun k usedK => (cache.cached k usedK).1⟩
  rcases stable.ilock used (Set.notMem_empty i) (cache.cached i used).2 with
    ⟨s', isLock, stable', isIp, inums, -, isImage⟩
  rw [insert_empty_eq] at stable'
  exact ⟨s', isLock, stable', inums i, isIp, isImage⟩

/-- The content of a file has changed. -/
theorem SoundDisk.written (disk : SoundDisk sb inodes image data) (changed : Changed sb inodes m image image')
    (fields : ∃ size addrs, readInode sb image' m = { readInode sb image m with size, addrs })
    (notDir : (readInode sb image m).type ≠ tDir) (regular : Regular (readInode sb image' m) image' content) :
    SoundDisk sb inodes image' data := by
  refine disk.congr changed.files (fun n inside _ => ?_) (fun n isNode isDir => ?_) fun n inside => ?_
  · by_cases isM : n = m
    · rcases fields with ⟨size, addrs, isInode⟩
      rw [isM, isInode]
      exact ⟨rfl, rfl⟩
    · rw [(changed.others n inside isM).inode]
      exact ⟨rfl, rfl⟩
  · apply changed.others n isNode.1
    rintro rfl
    exact notDir isDir
  · by_cases isM : n = m
    · rw [isM]
      exact fun _ _ => ⟨content, regular⟩
    · exact (disk.contents n inside).untouched (changed.others n inside isM)

/-- The inode is unlocked. -/
theorem Sound.unlocked (sound : Sound sb inodes s) (stable : Stable sb s s' inodes 0 {i}) (used : 0 < (s.inode i).ref)
    (disk : SoundDisk sb inodes s'.image data)
    (types : ∀ n ∈ inodes, (readInode sb s'.image n).type = (readInode sb s.image n).type) :
    ∃ s'', s'.iunlock i = .ok s'' ∧ s''.image = s'.image ∧ Sound sb inodes s'' := by
  have used' : 0 < (s'.inode i).ref := by
    rw [stable.holding.ref]
    exact Nat.add_pos_left used _
  rcases stable.holding.exists_iunlock used' rfl with ⟨s'', isUnlock, holding, -⟩
  rw [Set.sdiff_self] at holding
  have isImage : s''.image = s'.image := holding.image
  rw [← isImage] at holding disk types
  refine ⟨s'', isUnlock, isImage, sound.cache.after holding (fun _ none => absurd none (Nat.lt_irrefl 0))
    fun k usedK => ?_, data, disk⟩
  rcases sound.cache.cached k usedK with ⟨inside, hasType⟩
  rw [types _ inside]
  exact hasType

/-- Reading changes nothing on the disk. -/
theorem Sound.fileread (sound : Sound sb inodes s) (used : 0 < (s.inode i).ref) (devsw : Devsw) (readable : Bool)
    (off n : BitVec 32) : ∃ r s', Fs.fileread devsw sb readable i off n s = .ok (r, s') ∧ s'.image = s.image ∧
    Sound sb inodes s' := by
  cases readable with
  | false => exact ⟨none, s, rfl, rfl, sound⟩
  | true =>
      rcases sound.locked used with ⟨s₁, isLock, stable, -, isIp, isImage⟩
      rcases sound.disk with ⟨data, disk⟩
      rcases sound.cache.cached i used with ⟨inside, hasType⟩
      have reads : ∃ r, Fs.readi devsw sb (s₁.inode i).ip s₁.image off.toNat n.toNat =
          some (r, (s₁.inode i).ip, s₁.image) := by
        by_cases isDevice : (s₁.inode i).ip.type = tDev
        · unfold Fs.readi
          rw [if_pos isDevice]
          exact ⟨_, rfl⟩
        · rw [isIp] at isDevice ⊢
          rcases disk.contents _ inside hasType isDevice with ⟨content, regular⟩
          rw [isImage]
          exact ⟨_, regular.reads devsw sb _ off.isLt _ n.isLt⟩
      rcases reads with ⟨r, isRead⟩
      have isRead' : s₁.readi devsw sb i off.toNat n.toNat = .ok (r, s₁) := by
        unfold Itable.readi
        rw [isRead]
        change Except.ok (r, { s₁.set i (s₁.inode i) with image := s₁.image }) = _
        rw [Itable.set_inode]
      have types : ∀ n ∈ inodes, (readInode sb s₁.image n).type = (readInode sb s.image n).type := by
        rw [isImage]
        exact fun _ _ => rfl
      have disk₁ := disk
      rw [← isImage] at disk₁
      rcases sound.unlocked stable used disk₁ types with ⟨s₂, isUnlock, unlocks, sound'⟩
      refine ⟨r, s₂, ?_, unlocks.trans isImage, sound'⟩
      unfold Fs.fileread
      rw [if_neg (Ne.symm Bool.false_ne_true), isLock]
      change (s₁.readi devsw sb i off.toNat n.toNat >>= _) = _
      rw [isRead']
      change (s₁.iunlock i >>= _) = _
      rw [isUnlock]
      rfl

/-- What `writei` does to the inode that is locked: nothing, or it changes the content. -/
theorem Stable.writei (stable : Stable sb s s' inodes 0 {i}) (disk : SoundDisk sb inodes s'.image data)
    (used : 0 < (s'.inode i).ref) (isInum : (s'.inode i).inum = m) (isIp : (s'.inode i).ip = readInode sb s'.image m)
    (inside : m ∈ inodes) (hasType : (readInode sb s'.image m).type ≠ 0) (notDir : (readInode sb s'.image m).type ≠ tDir)
    (few : src.length ≤ writeMax) (enough : 5 ≤ free sb s'.image) (devsw : Devsw) (off : ℕ) : ∃ r s'',
    s'.writei devsw sb i src off = .ok (r, s'') ∧ Stable sb s s'' inodes 0 {i} ∧ SoundDisk sb inodes s''.image data ∧
    ∀ n ∈ inodes, (readInode sb s''.image n).type = (readInode sb s'.image n).type := by
  have same : { s'.set i { s'.inode i with ip := readInode sb s'.image m } with image := s'.image } = s' := by
    rw [← isIp]
    exact Itable.set_inode s' i
  unfold Itable.writei
  rw [isInum, isIp]
  by_cases isDevice : (readInode sb s'.image m).type = tDev
  · refine ⟨devsw.write (readInode sb s'.image m).major src, s', ?_, stable, disk, fun _ _ => rfl⟩
    unfold Fs.writei
    rw [if_pos isDevice]
    exact congrArg (fun s => Except.ok (devsw.write (readInode sb s'.image m).major src, s)) same
  · rcases disk.contents m inside hasType isDevice with ⟨content, regular⟩
    by_cases refused : Refused (readInode sb s'.image m) off src.length
    · have small : src.length < 2 ^ 32 := few.trans_lt (by decide)
      refine ⟨none, s', ?_, stable, disk, fun _ _ => rfl⟩
      rw [writei_refused devsw sb m isDevice regular.size_le small refused]
      exact congrArg (fun s => Except.ok (none, s)) same
    · have file := stable.files.file inside regular
      rcases file.exists_writei devsw regular.size refused ((missing_piece few).trans enough) with
        ⟨ip, image, isWrite, wrote⟩
      rcases wrote.disk (fits_readInode sb s'.image m) rfl with ⟨-, isInode⟩
      have untouched : ∀ n ∈ inodes, n ≠ m → Untouched sb n (readInode sb s'.image n) s'.image image :=
        fun n other different => stable.files.untouched inside wrote.change other different
      have isInodes : ∀ n ∈ inodes, readInode sb image n = Function.update (readInode sb s'.image) m ip n := by
        intro n other
        rw [Function.update_apply]
        split
        · rename_i isM
          rw [isM]
          exact isInode
        · rename_i different
          exact (untouched n other different).inode
      have changed : Changed sb inodes m s'.image image :=
        ⟨untouched, (stable.files.change inside wrote.file wrote.change).congr isInodes⟩
      have fields := wrote.fields
      have regular' := wrote.regular
      rw [← isInode] at fields regular'
      refine ⟨some src.length, _, ?_, (stable.edit used isInum isInode changed).stable,
        disk.written changed ⟨_, _, fields⟩ notDir regular', fun n other => ?_⟩
      · rw [isWrite]
      · by_cases isM : n = m
        · rw [isM]
          change (readInode sb image m).type = _
          rw [fields]
        · exact congrArg Dinode.type (untouched n other isM).inode

/-- A piece is written to a file or a device. -/
theorem Sound.writePiece (sound : Sound sb inodes s) (used : 0 < (s.inode i).ref)
    (notDir : (readInode sb s.image (s.inode i).inum).type ≠ tDir) (few : src.length ≤ writeMax)
    (enough : 5 ≤ free sb s.image) (devsw : Devsw) (off : BitVec 32) : ∃ r s',
    Fs.writePiece devsw sb i src off s = .ok (r, s') ∧ Sound sb inodes s' := by
  rcases sound.locked used with ⟨s₁, isLock, stable, isInum, isIp, isImage⟩
  rcases sound.disk with ⟨data, disk⟩
  rcases sound.cache.cached i used with ⟨inside, hasType⟩
  rw [← isImage] at disk isIp hasType notDir enough
  rcases stable.writei disk (stable.holding.keeps used) isInum isIp inside hasType notDir few enough devsw off.toNat with
    ⟨r, s₂, isWrite, stable₂, disk₂, types⟩
  rw [isImage] at types
  rcases sound.unlocked stable₂ used disk₂ types with ⟨s₃, isUnlock, -, sound'⟩
  refine ⟨r, s₃, ?_, sound'⟩
  unfold Fs.writePiece
  rw [isLock]
  change (s₁.writei devsw sb i src off.toNat >>= _) = _
  rw [isWrite]
  change (s₂.iunlock i >>= _) = _
  rw [isUnlock]
  rfl

end Xv6.Fs
