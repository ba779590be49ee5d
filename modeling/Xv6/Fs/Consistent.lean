import Xv6.Fs.Image
import Xv6.Fs.Inode

/-!
# Is the image of `mkfs` consistent?

The kernel reads the image. `main` rounds the size of the root directory up to the next multiple of a
block, even if it is a multiple already; then the last block of the directory is not there.
-/

namespace Xv6.Fs

open Bytes

variable {s s' : Mkfs} {dinode : ℕ → Dinode} {content : ℕ → List Byte} {files : List Input} {file : Input}
  {devsw : Devsw} {i j k used : ℕ}

/-- The entries of a directory, from its bytes. -/
def dirents : ℕ → List Byte → List (ℕ × List Byte)
  | 0, _ => []
  | count + 1, data => (get (fun m => data.getD m 0) 2 0, (data.drop 2).take dirsiz) :: dirents count (data.drop 16)

/-- The entries that `dirlookup` does not skip. -/
def usedDirents (data : List Byte) : List (ℕ × List Byte) :=
  (dirents (data.length / 16) data).filter (·.1 ≠ 0)

/-- The image holds the input files, and the kernel can read it. -/
structure Consistent (devsw : Devsw) (files : List Input) (image : ℕ → Block) : Prop where
  superblock : readsb image = sb
  allocated : ∀ i ≤ ninodes, ∀ k, k * bsize < (readInode sb image i).size →
    k < maxfile ∧ slot image (readInode sb image i) k ≠ 0
  once : ∀ i ≤ ninodes, ∀ j ≤ ninodes, ∀ k ≤ maxfile, ∀ l ≤ maxfile,
    slot image (readInode sb image i) k = slot image (readInode sb image j) l →
      slot image (readInode sb image i) k ≠ 0 → i = j ∧ k = l
  range : ∀ i ≤ ninodes, ∀ k ≤ maxfile, slot image (readInode sb image i) k ≠ 0 →
    nmeta ≤ slot image (readInode sb image i) k ∧ slot image (readInode sb image i) k < fssize
  bitmap : ∀ b < bpb, inUse sb image b = true ↔
    b < nmeta ∨ ∃ i ≤ ninodes, ∃ k ≤ maxfile, slot image (readInode sb image i) k = b
  root : (readInode sb image rootino).type = tDir ∧ ∃ data,
    readi devsw sb (readInode sb image rootino) image 0 (readInode sb image rootino).size =
      some (some data, readInode sb image rootino, image) ∧
    usedDirents data = (entries files).map fun entry => (entry.1, padName entry.2)
  file : ∀ k (isFile : k < files.length), ∀ off ≤ files[k].bytes.length, ∀ n < 2 ^ 31,
    readi devsw sb (readInode sb image (k + 2)) image off n =
      some (some ((files[k].bytes.drop off).take n), readInode sb image (k + 2), image)
  reads : ∀ i ≤ ninodes, ∀ off, ∀ n < 2 ^ 32, ∃ result,
    readi devsw sb (readInode sb image i) image off n = some (result, readInode sb image i, image)

/-- The input files are within the bounds of the image. -/
structure WithinBounds (files : List Input) : Prop where
  slashes : ∀ file ∈ files, slash ∉ file.name
  names : (files.map fun file => padName (skipUnderscore file.name)).Nodup
  inodes : files.length + 1 ≤ ninodes
  size : ∀ file ∈ files, file.bytes.length ≤ maxfile * bsize
  blocks : nmeta + needed (16 * (files.length + 2)) + (files.map fun file => needed file.bytes.length).sum ≤ fssize

/-! ## The directory -/

theorem dirents_dirent {inum count : ℕ} {name rest : List Byte} (small : inum < 256 ^ 2) :
    dirents (count + 1) (dirent inum name ++ rest) = (inum, padName name) :: dirents count rest := by
  have isPad : (padName name).length = dirsiz := by
    unfold padName
    rw [List.length_append, List.length_take, List.length_replicate]
    omega
  rw [dirents]
  have isNumber : get (fun m => (dirent inum name ++ rest).getD m 0) 2 0 = inum := by
    rw [get_eq 2 inum fun m less => ?_, Nat.mod_eq_of_lt small]
    match m with
    | 0 => rfl
    | 1 => rfl
  have isName : ((dirent inum name ++ rest).drop 2).take dirsiz = padName name := by
    rw [← isPad]
    exact List.take_left
  have isRest : (dirent inum name ++ rest).drop 16 = rest := by
    rw [← length_dirent inum name]
    exact List.drop_left
  rw [isNumber, isName, isRest]

theorem dirents_flatMap (list : List (ℕ × List Byte)) (small : ∀ entry ∈ list, entry.1 < 256 ^ 2) (count : ℕ)
    (rest : List Byte) :
    dirents (list.length + count) ((list.flatMap fun entry => dirent entry.1 entry.2) ++ rest) =
      (list.map fun entry => (entry.1, padName entry.2)) ++ dirents count rest := by
  induction list with
  | nil =>
      rw [List.length_nil, Nat.zero_add]
      rfl
  | cons entry list ih =>
      rw [List.length_cons, Nat.add_right_comm, List.flatMap_cons, List.append_assoc,
        dirents_dirent (small entry (List.mem_cons_self ..)),
        ih fun other isOther => small other (List.mem_cons_of_mem _ isOther)]
      rfl

/-- The rest of the last block of a directory has no entries. -/
theorem dirents_zeroes (count n : ℕ) :
    (dirents count (List.replicate n 0)).filter (·.1 ≠ 0) = [] := by
  induction count generalizing n with
  | zero => rfl
  | succ count ih =>
      have zero : get (fun m => (List.replicate n (0 : Byte)).getD m 0) 2 0 = 0 := by
        refine get_zero 2 fun m _ => ?_
        rw [List.getD_eq_getElem?_getD, List.getElem?_replicate]
        split
        · rfl
        · rfl
      rw [dirents, zero, List.filter_cons_of_neg (by simp), List.drop_replicate]
      exact ih _

theorem entries_inum : ∀ entry ∈ entries files, 1 ≤ entry.1 ∧ entry.1 ≤ files.length + 1 := by
  intro entry member
  rcases List.mem_append.1 member with isDot | isFile
  · rcases List.mem_pair.1 isDot with rfl | rfl
    · exact ⟨le_rfl, Nat.le_add_left _ _⟩
    · exact ⟨le_rfl, Nat.le_add_left _ _⟩
  · rcases List.mem_mapIdx.1 isFile with ⟨k, less, rfl⟩
    dsimp only
    omega

theorem length_entries : (entries files).length = files.length + 2 := by
  unfold entries
  rw [List.length_append, List.length_mapIdx]
  exact Nat.add_comm _ _

/-- What is read of the root directory. -/
theorem usedDirents_rootBytes (few : files.length + 1 ≤ ninodes) (n : ℕ) :
    usedDirents (rootBytes files ++ List.replicate (16 * n) 0) =
      (entries files).map fun entry => (entry.1, padName entry.2) := by
  have isCount : (rootBytes files ++ List.replicate (16 * n) 0).length / 16 = (entries files).length + n := by
    rw [List.length_append, length_rootBytes, List.length_replicate, length_entries]
    omega
  have small : ∀ entry ∈ entries files, entry.1 < 256 ^ 2 := by
    intro entry member
    have bound := (entries_inum entry member).2
    unfold ninodes at few
    omega
  unfold usedDirents
  rw [isCount, rootBytes, dirents_flatMap _ small, List.filter_append, dirents_zeroes, List.append_nil,
    List.filter_eq_self]
  intro entry member
  rcases List.mem_map.1 member with ⟨original, isEntry, rfl⟩
  have positive := (entries_inum original isEntry).1
  exact decide_eq_true (Nat.pos_iff_ne_zero.1 positive)

/-! ## The image -/

/-- The size of the root directory at the end. -/
def rootSize (files : List Input) : ℕ := ((rootBytes files).length / bsize + 1) * bsize

/-- The inodes at the end. -/
def finalInode (files : List Input) (dinode : ℕ → Dinode) (i : ℕ) : Dinode :=
  if i = rootino then { dinode rootino with size := rootSize files }
  else if 1 ≤ i ∧ i < files.length + 2 then dinode i
  else {}

/-- What `main` writes. -/
structure Final (files : List Input) (dinode : ℕ → Dinode) (f : Mkfs) : Prop where
  stored : Stored f dinode (contentOf files)
  freeinode : f.freeinode = files.length + 2
  few : files.length + 1 ≤ ninodes
  inode : ∀ i ≤ ninodes, readInode sb f.image i = finalInode files dinode i
  superblock : f.image 1 = Mkfs.superblock
  bitmap : ∀ b < bpb, inUse sb f.image b = decide (b < f.freeblock)
  dir : (dinode rootino).type = tDir
  file : ∀ k < files.length, (dinode (k + 2)).type = tFile
  size : ∀ k < files.length, (dinode (k + 2)).size = (contentOf files (k + 2)).length
  bound : f.freeblock ≤ fssize

/-- The root directory is rounded up, and the bitmap is written. -/
theorem Made.final (made : Made s files) (few : files.length + 1 ≤ ninodes) (bound : s.freeblock ≤ fssize) :
    ∃ f dinode, s.fixRoot.balloc s.freeblock = some f ∧ Final files dinode f := by
  rcases made.holds with ⟨dinode, holds, isDir, isFile⟩
  have less : s.freeblock < bsize * 8 := bound.trans_lt (by decide)
  have isRoot : rootino ∈ inodes s := ⟨le_rfl, by
    rw [made.freeinode]
    unfold rootino
    omega⟩
  have isSize := holds.size rootino isRoot
  have isContent : contentOf files rootino = rootBytes files := rfl
  have isRead := holds.onDisk rootino isRoot
  have fits := holds.stored.laid.fits rootino isRoot
  have small : rootSize files < 256 ^ 4 := by
    unfold rootSize bsize
    rw [length_rootBytes]
    unfold ninodes at few
    omega
  have fits' : ({ dinode rootino with size := rootSize files } : Dinode).Fits :=
    ⟨fits.type, fits.major, fits.minor, fits.nlink, small, fits.addrs⟩
  have isFixed : s.fixRoot = s.winode rootino { dinode rootino with size := rootSize files } := by
    unfold Mkfs.fixRoot rootSize
    rw [isRead, ← isContent, ← isSize]
  unfold Mkfs.balloc
  rw [if_pos less, isFixed]
  refine ⟨_, dinode, rfl, ?_, made.freeinode, few, fun i isInode => ?_, ?_, fun b inside => ?_, isDir, isFile,
    fun k isLess => ?_, bound⟩
  · have written := holds.stored.winode (show rootino ≤ ninodes by decide)
      (d := { dinode rootino with size := rootSize files })
    refine written.congr rfl rfl fun x above => ?_
    have isBitmap : sb.bmapstart < nmeta := by decide
    exact Function.update_of_ne (isBitmap.trans_le above).ne' _ _
  · have kept : readInode sb ((s.winode rootino { dinode rootino with size := rootSize files }).wsect sb.bmapstart
        ((List.range s.freeblock).foldl setBit zeroes)).image i =
          (s.winode rootino { dinode rootino with size := rootSize files }).rinode i := by
      unfold readInode Mkfs.rinode Mkfs.wsect
      dsimp only
      rw [Function.update_of_ne (iblock_bounds isInode).2.ne]
    rw [kept]
    unfold finalInode
    by_cases same : i = rootino
    · rw [if_pos same, same]
      exact rinode_winode fits'
    · rw [if_neg same, rinode_winode_other same]
      split
      · rename_i member
        rw [← made.freeinode] at member
        exact holds.onDisk i member
      · rename_i notMember
        rw [← made.freeinode] at notMember
        exact holds.free i isInode notMember
  · have notBitmap : 1 ≠ sb.bmapstart := by decide
    have notInode : 1 ≠ iblock rootino sb := by decide
    unfold Mkfs.wsect Mkfs.winode
    dsimp only
    rw [Function.update_of_ne notBitmap, Mkfs.wsect]
    dsimp only
    rw [Function.update_of_ne notInode]
    exact made.superblock
  · have isBlock : bblock b sb = sb.bmapstart := by
      unfold bblock
      rw [Nat.div_eq_of_lt inside, Nat.zero_add]
    unfold inUse
    rw [isBlock, Nat.mod_eq_of_lt inside]
    unfold Mkfs.wsect
    dsimp only
    rw [Function.update_self]
    exact bit_setBits _
  · refine holds.size (k + 2) ⟨Nat.le_add_left _ _, ?_⟩
    rw [made.freeinode]
    omega

variable {f : Mkfs}

namespace Final

theorem mem_inodes (final : Final files dinode f) : i ∈ inodes f ↔ 1 ≤ i ∧ i < files.length + 2 := by
  rw [← final.freeinode]
  rfl

theorem slot_inode (final : Final files dinode f) (member : i ∈ inodes f) :
    slot f.image (finalInode files dinode i) k = slot f.image (dinode i) k := by
  refine slot_addrs ?_
  unfold finalInode
  split
  · rename_i isRoot
    rw [isRoot]
  · rw [if_pos (final.mem_inodes.1 member)]

theorem inode_free (final : Final files dinode f) (isFree : i ∉ inodes f) :
    finalInode files dinode i = {} := by
  have notRoot : i ≠ rootino := by
    rintro rfl
    refine isFree (final.mem_inodes.2 ⟨le_rfl, ?_⟩)
    unfold rootino
    omega
  unfold finalInode
  rw [if_neg notRoot, if_neg fun both => isFree (final.mem_inodes.2 both)]

theorem slot_free (final : Final files dinode f) (isFree : i ∉ inodes f) :
    slot f.image (finalInode files dinode i) k = 0 := by
  rw [final.inode_free isFree]
  exact slot_none rfl

theorem inode_file (dinode : ℕ → Dinode) (less : k < files.length) :
    finalInode files dinode (k + 2) = dinode (k + 2) := by
  have notRoot : k + 2 ≠ rootino := by
    unfold rootino
    omega
  unfold finalInode
  rw [if_neg notRoot, if_pos (by omega)]

theorem inode_root (files : List Input) (dinode : ℕ → Dinode) :
    finalInode files dinode rootino = { dinode rootino with size := rootSize files } := if_pos rfl

/-- A block is in use if a place refers to it. -/
theorem used_iff (final : Final files dinode f) (x : ℕ) : nmeta ≤ x ∧ x < f.freeblock ↔
    x ≠ 0 ∧ ∃ i ≤ ninodes, ∃ k ≤ maxfile, slot f.image (finalInode files dinode i) k = x := by
  refine (final.stored.laid.mapping.used x).trans (and_congr_right fun notZero => ⟨?_, ?_⟩)
  · rintro ⟨i, member, k, bound, isX⟩
    have inside := final.mem_inodes.1 member
    have few := final.few
    exact ⟨i, by omega, k, bound, (final.slot_inode member).trans isX⟩
  · rintro ⟨i, _, k, bound, isX⟩
    by_cases member : i ∈ inodes f
    · exact ⟨i, member, k, bound, (final.slot_inode member).symm.trans isX⟩
    · rw [final.slot_free member] at isX
      exact absurd isX.symm notZero

theorem readsb_image (final : Final files dinode f) : readsb f.image = sb := by
  unfold readsb
  rw [final.superblock]
  decide

theorem contents (final : Final files dinode f) (member : i ∈ inodes f) :
    InodeHolds f.image (dinode i) (contentOf files i) :=
  final.stored.contents.inode member

end Final

/-- The entries do not end with a block. -/
def PartlyFilled (files : List Input) : Prop := (files.length + 2) % 32 ≠ 0

namespace Final

/-- The root directory and the zeroes behind it have blocks, unless the last block is full. -/
theorem root_holds (final : Final files dinode f) (partly : PartlyFilled files) :
    InodeHolds f.image (finalInode files dinode rootino)
      (rootBytes files ++ List.replicate (rootSize files - (rootBytes files).length) 0) := by
  have member : rootino ∈ inodes f := final.mem_inodes.2 ⟨le_rfl, by
    unfold rootino
    omega⟩
  have isLength := length_rootBytes files
  have few := final.few
  have size : (rootBytes files ++ List.replicate (rootSize files - (rootBytes files).length) 0).length =
      rootSize files := by
    rw [List.length_append, List.length_replicate]
    unfold rootSize bsize
    omega
  have mapped : ∀ m < rootSize files, m / bsize < maxfile ∧ slot f.image (dinode rootino) (m / bsize) ≠ 0 := by
    intro m inside
    unfold rootSize at inside
    rw [isLength] at inside
    have place : m / bsize < maxfile := by
      unfold maxfile ndirect nindirect bsize at *
      unfold ninodes at few
      omega
    refine ⟨place, (final.stored.laid.data rootino member _ place).2 ?_⟩
    change m / bsize * bsize < (rootBytes files).length
    rw [isLength]
    unfold PartlyFilled at partly
    unfold bsize at *
    omega
  refine ⟨fun m inside => ?_, fun m inside => ?_, ?_⟩
  · rw [size] at inside
    rw [final.slot_inode member]
    exact (mapped m inside).2
  · rw [size] at inside
    rw [final.slot_inode member]
    by_cases isEntry : m < (rootBytes files).length
    · rw [List.getD_append _ _ _ _ isEntry]
      exact final.stored.contents.bytes rootino member m isEntry
    · rw [List.getD_append_right _ _ _ _ (Nat.not_lt.1 isEntry), List.getD_replicate]
      · have isByte := Nat.div_add_mod m bsize
        refine final.stored.tails rootino member _ (mapped m inside).1 (mapped m inside).2 _
          (Nat.mod_lt _ (by decide)) ?_
        rw [Nat.mul_comm, isByte]
        exact Nat.not_lt.1 isEntry
      · omega
  · rw [size]
    unfold rootSize
    rw [isLength]
    unfold maxfile ndirect nindirect bsize
    unfold ninodes at few
    omega

/-- Every inode of the image has its blocks, unless the directory ends with a block. -/
theorem inode_holds (final : Final files dinode f) (partly : PartlyFilled files) (few : i ≤ ninodes) :
    ∃ content, InodeHolds f.image (readInode sb f.image i) content ∧
      (readInode sb f.image i).size = content.length := by
  rw [final.inode i few]
  by_cases member : i ∈ inodes f
  · by_cases isRoot : i = rootino
    · subst isRoot
      refine ⟨_, final.root_holds partly, ?_⟩
      rw [inode_root, List.length_append, List.length_replicate]
      have isLength := length_rootBytes files
      unfold rootSize bsize
      dsimp only
      omega
    · have inside := final.mem_inodes.1 member
      match i with
      | 0 => exact absurd inside.1 (by decide)
      | 1 => exact absurd rfl isRoot
      | k + 2 =>
          rw [inode_file dinode (by omega)]
          exact ⟨_, final.contents member, final.size k (by omega)⟩
  · rw [final.inode_free member]
    exact ⟨[], ⟨fun m inside => absurd inside (Nat.not_lt_zero m), fun m inside => absurd inside (Nat.not_lt_zero m),
      Nat.zero_le _⟩, rfl⟩

theorem bytes_file (less : k < files.length) : contentOf files (k + 2) = files[k].bytes := by
  unfold contentOf
  dsimp only
  rw [List.getElem?_eq_getElem less]
  rfl

/-- The image is consistent, unless the directory ends with a block. -/
theorem consistent (final : Final files dinode f) (devsw : Devsw) (partly : PartlyFilled files) :
    Consistent devsw files f.image := by
  have isInode := final.inode
  have single := final.stored.laid.mapping.single
  have rootFew : rootino ≤ ninodes := by decide
  refine ⟨final.readsb_image, fun i few k inside => ?_, fun i few j few' k bound l bound' same has => ?_,
    fun i few k bound has => ?_, fun b inside => ?_, ⟨?_, ?_⟩, fun k isFile off start n small => ?_,
    fun i few off n small => ?_⟩
  · rcases final.inode_holds partly few with ⟨content, holds, isSize⟩
    rw [isSize] at inside
    have isBlock : k * bsize / bsize = k := Nat.mul_div_cancel _ (by decide)
    have mapped := holds.mapped _ inside
    have bound := inside.trans_le holds.bound
    rw [isBlock] at mapped
    exact ⟨Nat.lt_of_mul_lt_mul_right bound, mapped⟩
  · rw [isInode i few] at same has
    rw [isInode j few'] at same
    by_cases member : i ∈ inodes f
    · by_cases member' : j ∈ inodes f
      · rw [final.slot_inode member] at same has
        rw [final.slot_inode member'] at same
        exact single i member j member' k bound l bound' same has
      · rw [final.slot_free member'] at same
        exact absurd same has
    · exact absurd (final.slot_free member) has
  · rw [isInode i few] at has ⊢
    have used := (final.used_iff _).2 ⟨has, i, few, k, bound, rfl⟩
    exact ⟨used.1, used.2.trans_le final.bound⟩
  · rw [final.bitmap b inside, decide_eq_true_iff]
    have above := final.stored.laid.nmeta_le
    constructor
    · intro less
      by_cases isMeta : b < nmeta
      · exact .inl isMeta
      · rcases ((final.used_iff b).1 ⟨Nat.not_lt.1 isMeta, less⟩).2 with ⟨i, few, k, bound, isB⟩
        refine .inr ⟨i, few, k, bound, ?_⟩
        rw [isInode i few]
        exact isB
    · rintro (isMeta | ⟨i, few, k, bound, isB⟩)
      · exact isMeta.trans_le above
      · rw [isInode i few] at isB
        by_cases zero : b = 0
        · rw [zero]
          exact nmeta_pos.trans_le above
        · exact ((final.used_iff b).2 ⟨zero, i, few, k, bound, isB⟩).2
  · rw [isInode rootino rootFew, inode_root]
    exact final.dir
  · rw [isInode rootino rootFew]
    have holds := final.root_holds partly
    have isLength := length_rootBytes files
    have padding : rootSize files - (rootBytes files).length =
        16 * ((rootSize files - (rootBytes files).length) / 16) := by
      unfold rootSize bsize
      omega
    have isSize : (finalInode files dinode rootino).size =
        (rootBytes files ++ List.replicate (rootSize files - (rootBytes files).length) 0).length := by
      rw [inode_root, List.length_append, List.length_replicate]
      unfold rootSize bsize
      dsimp only
      omega
    have notDevice : (finalInode files dinode rootino).type ≠ tDev := by
      rw [inode_root]
      dsimp only
      rw [final.dir]
      decide
    refine ⟨_, holds.readi devsw sb notDevice isSize (Nat.zero_le _) ?_, ?_⟩
    · have bound := holds.bound
      rw [isSize, Nat.zero_add]
      exact bound.trans_lt (by decide)
    · rw [List.drop_zero, isSize, List.take_length, padding]
      exact usedDirents_rootBytes final.few _
  · have few := final.few
    have member : k + 2 ∈ inodes f := final.mem_inodes.2 (by omega)
    have isBytes := bytes_file isFile
    have holds := final.contents member
    have isSize := final.size k isFile
    rw [isBytes] at holds isSize
    have notDevice : (dinode (k + 2)).type ≠ tDev := by
      rw [final.file k isFile]
      decide
    rw [isInode (k + 2) (by omega), inode_file dinode isFile]
    refine holds.readi devsw sb notDevice isSize start ?_
    have bound := holds.bound
    unfold maxfile ndirect nindirect bsize at bound
    omega
  · rcases final.inode_holds partly few with ⟨content, holds, isSize⟩
    exact holds.readi_frame devsw sb isSize off small

/-- If the directory ends with a block, the next block is missing. -/
theorem not_consistent (final : Final files dinode f) (devsw : Devsw) (filled : ¬PartlyFilled files) :
    ¬Consistent devsw files f.image := by
  intro consistent
  have rootFew : rootino ≤ ninodes := by decide
  have isLength := length_rootBytes files
  have member : rootino ∈ inodes f := final.mem_inodes.2 ⟨le_rfl, by
    unfold rootino
    omega⟩
  have last := consistent.allocated rootino rootFew ((rootBytes files).length / bsize) (by
    rw [final.inode rootino rootFew, inode_root]
    unfold rootSize bsize
    dsimp only
    omega)
  rw [final.inode rootino rootFew, final.slot_inode member, final.stored.laid.data rootino member _ last.1] at last
  have less : (rootBytes files).length / bsize * bsize < (rootBytes files).length := last.2
  rw [isLength] at less
  unfold PartlyFilled at filled
  unfold bsize at less
  omega

end Final

theorem sum_needed (files : List Input) :
    ∑ i ∈ Finset.Ico 1 (files.length + 2), needed (contentOf files i).length =
      needed (16 * (files.length + 2)) + (files.map fun file => needed file.bytes.length).sum := by
  rw [Finset.sum_eq_sum_Ico_succ_bot (by omega)]
  have isRoot : needed (contentOf files 1).length = needed (16 * (files.length + 2)) := by
    rw [← length_rootBytes files]
    rfl
  have isSum : ∑ i ∈ Finset.Ico (1 + 1) (files.length + 2), needed (contentOf files i).length =
      (files.map fun file => needed file.bytes.length).sum := by
    rw [Finset.sum_Ico_eq_sum_range, Nat.add_sub_cancel, Finset.sum_range, ← Fin.sum_univ_fun_getElem]
    refine Finset.sum_congr rfl fun k _ => ?_
    rw [Nat.add_comm, Final.bytes_file k.isLt]
  rw [isRoot, isSum]

/-- `mkfs` makes an image of files within the bounds. -/
theorem WithinBounds.final (bounds : WithinBounds files) :
    ∃ f dinode, mkfs files = some f ∧ Final files dinode f := by
  rcases made_makeRoot with ⟨s₁, isRoot, made₁⟩
  rcases made₁.addFiles files bounds.slashes (by
    rw [List.length_nil, Nat.zero_add]
    exact bounds.inodes) bounds.size with ⟨s₂, isFiles, made₂⟩
  rw [List.nil_append] at made₂
  have bound : s₂.freeblock ≤ fssize := by
    rcases made₂.holds with ⟨dinode, holds, _⟩
    have blocks := bounds.blocks
    rw [holds.stored.laid.count, made₂.freeinode, sum_needed]
    omega
  rcases made₂.final bounds.inodes bound with ⟨f, dinode, isFinal, final⟩
  refine ⟨f, dinode, ?_, final⟩
  unfold mkfs
  rw [isRoot]
  dsimp only [Option.bind_eq_bind, Option.bind_some]
  rw [isFiles]
  exact isFinal

/-- The image of `mkfs` is consistent if and only if the entries of the root directory do not end with a
block. -/
theorem mkfs_consistent (devsw : Devsw) (files : List Input) (bounds : WithinBounds files) :
    ∃ f, mkfs files = some f ∧ (Consistent devsw files f.image ↔ (files.length + 2) % 32 ≠ 0) := by
  rcases bounds.final with ⟨f, dinode, isImage, final⟩
  refine ⟨f, isImage, fun consistent => ?_, final.consistent devsw⟩
  by_contra filled
  exact final.not_consistent devsw (fun partly => partly filled) consistent

/-- `_a` and `b`, with three bytes and two -/
def twoFiles : List Input := [⟨[underscore, 0x61], [[1, 2], [3]]⟩, ⟨[0x62], [[4, 5]]⟩]

theorem twoFiles_withinBounds : WithinBounds twoFiles :=
  ⟨by decide, by decide, by decide, by decide, by decide⟩

theorem mkfs_consistent_twoFiles : WithinBounds twoFiles ∧ ∃ f, mkfs twoFiles = some f ∧
    (Consistent ⟨fun _ _ => none, fun _ _ => none⟩ twoFiles f.image ↔ (twoFiles.length + 2) % 32 ≠ 0) :=
  ⟨twoFiles_withinBounds, mkfs_consistent _ twoFiles twoFiles_withinBounds⟩

/-- Thirty empty files, which fill a block of the directory -/
def thirtyFiles : List Input := (List.range 30).map fun k => ⟨[BitVec.ofNat 8 (0x41 + k)], []⟩

/-- `mkfs` does not always make a consistent image. -/
theorem mkfs_consistent_incorrect : WithinBounds thirtyFiles ∧
    ∃ f, mkfs thirtyFiles = some f ∧ ∀ devsw, ¬Consistent devsw thirtyFiles f.image := by
  have bounds : WithinBounds thirtyFiles :=
    ⟨by decide +kernel, by decide +kernel, by decide +kernel, by decide +kernel, by decide +kernel⟩
  rcases bounds.final with ⟨f, dinode, isImage, final⟩
  have filled : ¬PartlyFilled thirtyFiles := by
    unfold PartlyFilled
    decide
  exact ⟨bounds, f, isImage, fun devsw => final.not_consistent devsw filled⟩

end Xv6.Fs
