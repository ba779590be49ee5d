import Xv6.Fs.Mapping

/-!
# `mkfs`

`mkfs.c`. The image is what `wsect` has written to the output file, which starts with zeroes. An
assertion that fails ends the program without an image.
-/

namespace Xv6.Fs

open Bytes

/-- `NINODES` -/
def ninodes : ℕ := 200

def nbitmap : ℕ := fssize / (bsize * 8) + 1

def ninodeblocks : ℕ := ninodes / ipb + 1

def nlog : ℕ := logsize

def nmeta : ℕ := 2 + nlog + ninodeblocks + nbitmap

/-- `sb` -/
def sb : Superblock :=
  { size := fssize
    nblocks := fssize - nmeta
    ninodes := ninodes
    nlog := nlog
    logstart := 2
    inodestart := 2 + nlog
    bmapstart := 2 + nlog + ninodeblocks }

/-- `T_DIR` -/
def tDir : ℕ := 1

/-- `T_FILE` -/
def tFile : ℕ := 2

structure Mkfs where
  image : ℕ → Block := fun _ => zeroes
  freeinode : ℕ := 1
  freeblock : ℕ := nmeta

namespace Mkfs

/-- `wsect` -/
def wsect (s : Mkfs) (sec : ℕ) (buf : Block) : Mkfs :=
  { s with image := Function.update s.image sec buf }

/-- `winode` -/
def winode (s : Mkfs) (inum : ℕ) (ip : Dinode) : Mkfs :=
  s.wsect (iblock inum sb) (setDinode (s.image (iblock inum sb)) (inum % ipb) ip)

/-- `rinode` -/
def rinode (s : Mkfs) (inum : ℕ) : Dinode := dinodeAt (s.image (iblock inum sb)) (inum % ipb)

/-- `ialloc` -/
def ialloc (s : Mkfs) (type : ℕ) : ℕ × Mkfs :=
  (s.freeinode, { s with freeinode := s.freeinode + 1 }.winode s.freeinode { type, nlink := 1 })

/-- `freeblock++` -/
def take (s : Mkfs) : Mkfs := { s with freeblock := s.freeblock + 1 }

/-- The address of the block `fbn` in `iappend`. -/
def mapBlock (s : Mkfs) (din : Dinode) (fbn : ℕ) : ℕ × Dinode × Mkfs :=
  if fbn < ndirect then
    if din.addr fbn = 0 then (s.freeblock, din.setAddr fbn s.freeblock, s.take)
    else (din.addr fbn, din, s)
  else
    let (din, s) :=
      if din.addr ndirect = 0 then (din.setAddr ndirect s.freeblock, s.take) else (din, s)
    let indirect := s.image (din.addr ndirect)
    if uintAt indirect (fbn - ndirect) = 0 then
      (s.freeblock, din, s.take.wsect (din.addr ndirect) (setUint indirect (fbn - ndirect) s.freeblock))
    else (uintAt indirect (fbn - ndirect), din, s)

/-- The loop of `iappend`; every pass appends something. -/
def appendLoop : ℕ → List Byte → ℕ → Dinode → Mkfs → Option (ℕ × Dinode × Mkfs)
  | 0, _, off, din, s => some (off, din, s)
  | passes + 1, p, off, din, s =>
      if p = [] then some (off, din, s)
      else
        let fbn := off / bsize
        if fbn < maxfile then
          let (x, din, s) := s.mapBlock din fbn
          let n1 := min p.length ((fbn + 1) * bsize - off)
          appendLoop passes (p.drop n1) (off + n1) din
            (s.wsect x (splice (s.image x) (off - fbn * bsize) (p.take n1)))
        else none

/-- `iappend` -/
def iappend (s : Mkfs) (inum : ℕ) (xp : List Byte) : Option Mkfs := do
  let din := s.rinode inum
  let (off, din, s) ← appendLoop xp.length xp din.size din s
  return s.winode inum { din with size := off }

end Mkfs

/-- `strncpy` of `DIRSIZ` bytes -/
def padName (name : List Byte) : List Byte := name.take dirsiz ++ List.replicate (dirsiz - name.length) 0

/-- A `struct dirent` -/
def dirent (inum : ℕ) (name : List Byte) : List Byte :=
  byteOf inum 0 :: byteOf inum 1 :: padName name

/-- An input file: its name, and what the calls of `read` return until the end of the file. -/
structure Input where
  name : List Byte
  reads : List (List Byte)

def slash : Byte := 0x2f

def underscore : Byte := 0x5f

def dot : Byte := 0x2e

/-- The name without a leading `_`. -/
def skipUnderscore (name : List Byte) : List Byte :=
  if name.head? = some underscore then name.tail else name

namespace Mkfs

/-- What `main` does for one input file. -/
def addFile (s : Mkfs) (file : Input) : Option Mkfs :=
  if slash ∈ file.name then none
  else do
    let (inum, s) := s.ialloc tFile
    let s ← s.iappend rootino (dirent inum (skipUnderscore file.name))
    file.reads.foldlM (fun s buf => s.iappend inum buf) s

/-- `balloc` -/
def balloc (s : Mkfs) (used : ℕ) : Option Mkfs :=
  if used < bsize * 8 then some (s.wsect sb.bmapstart ((List.range used).foldl setBit zeroes)) else none

/-- The block of the superblock. -/
def superblock : Block :=
  [sb.size, sb.nblocks, sb.ninodes, sb.nlog, sb.logstart, sb.inodestart, sb.bmapstart].zipIdx.foldl
    (fun buf field => setUint buf field.2 field.1) zeroes

/-- The root directory, with its first two entries. -/
def makeRoot : Option Mkfs :=
  let (inum, s) := ialloc (wsect {} 1 superblock) tDir
  if inum = rootino then do
    let s ← s.iappend rootino (dirent rootino [dot])
    s.iappend rootino (dirent rootino [dot, dot])
  else none

/-- The size of the root directory is rounded up. -/
def fixRoot (s : Mkfs) : Mkfs :=
  let din := s.rinode rootino
  s.winode rootino { din with size := (din.size / bsize + 1) * bsize }

end Mkfs

/-- `main` -/
def mkfs (files : List Input) : Option Mkfs := do
  let s ← Mkfs.makeRoot
  let s ← files.foldlM (fun s file => s.addFile file) s
  s.fixRoot.balloc s.freeblock

/-! ## Space -/

/-- The number of blocks of a file of some bytes, with the indirect block. -/
def needed (size : ℕ) : ℕ :=
  (size + (bsize - 1)) / bsize + if ndirect * bsize < size then 1 else 0

theorem needed_mono {size size' : ℕ} (le : size ≤ size') : needed size ≤ needed size' := by
  unfold needed bsize ndirect
  split <;> split <;> omega

variable {s s' : Mkfs} {dinode : ℕ → Dinode} {reach : ℕ → ℕ} {content : ℕ → List Byte} {i j k off : ℕ}

/-- The inodes that have been allocated. -/
def inodes (s : Mkfs) : Set ℕ := {i | 1 ≤ i ∧ i < s.freeinode}

/-- The blocks that have been allocated. -/
def allocated (s : Mkfs) : Set ℕ := {x | nmeta ≤ x ∧ x < s.freeblock}

/-- The first `reach i` bytes of the inode `i` have blocks, and no other block is in use. -/
structure Laid (s : Mkfs) (dinode : ℕ → Dinode) (reach : ℕ → ℕ) : Prop where
  mapping : Mapping (inodes s) dinode s.image (allocated s)
  data : ∀ i ∈ inodes s, ∀ k < maxfile, slot s.image (dinode i) k ≠ 0 ↔ k * bsize < reach i
  indirect : ∀ i ∈ inodes s, (dinode i).addr ndirect ≠ 0 ↔ ndirect * bsize < reach i
  fresh : ∀ x ≥ s.freeblock, ∀ m < bsize, s.image x m = 0
  count : s.freeblock = nmeta + ∑ i ∈ Finset.Ico 1 s.freeinode, needed (reach i)
  fits : ∀ i ∈ inodes s, (dinode i).Fits

theorem sum_update (reach : ℕ → ℕ) (member : i ∈ inodes s) (size : ℕ) :
    ∑ j ∈ Finset.Ico 1 s.freeinode, needed (Function.update reach i size j) + needed (reach i) =
      ∑ j ∈ Finset.Ico 1 s.freeinode, needed (reach j) + needed size := by
  have inside : i ∈ Finset.Ico 1 s.freeinode := Finset.mem_Ico.2 member
  rw [← Finset.add_sum_erase _ _ inside,
    ← Finset.add_sum_erase (Finset.Ico 1 s.freeinode) (fun j => needed (reach j)) inside,
    Function.update_self]
  have others : ∑ j ∈ (Finset.Ico 1 s.freeinode).erase i, needed (Function.update reach i size j) =
      ∑ j ∈ (Finset.Ico 1 s.freeinode).erase i, needed (reach j) := by
    refine Finset.sum_congr rfl fun j isOther => ?_
    rw [Function.update_of_ne (Finset.ne_of_mem_erase isOther)]
  rw [others]
  omega

theorem Laid.nmeta_le (laid : Laid s dinode reach) : nmeta ≤ s.freeblock := by
  rw [laid.count]
  exact Nat.le_add_right _ _

theorem allocated_take (above : nmeta ≤ s.freeblock) :
    allocated s.take = insert s.freeblock (allocated s) := by
  have isTaken : s.take.freeblock = s.freeblock + 1 := rfl
  ext x
  simp only [allocated, isTaken, Set.mem_insert_iff, Set.mem_ofPred_eq]
  omega

theorem not_allocated : s.freeblock ∉ allocated s := fun both => lt_irrefl _ both.2

theorem nmeta_pos : 0 < nmeta := by decide

theorem Laid.freeblock_ne (laid : Laid s dinode reach) : s.freeblock ≠ 0 :=
  (nmeta_pos.trans_le laid.nmeta_le).ne'

/-- A block that is in use has been allocated. -/
theorem Laid.slot_lt (laid : Laid s dinode reach) (member : i ∈ inodes s) (bound : k ≤ maxfile)
    (has : slot s.image (dinode i) k ≠ 0) :
    nmeta ≤ slot s.image (dinode i) k ∧ slot s.image (dinode i) k < s.freeblock :=
  (laid.mapping.used _).2 ⟨has, i, member, k, bound, rfl⟩

/-- How much more space the next bytes of a file need. -/
theorem needed_add {n : ℕ} (some : 0 < n) (block : off % bsize + n ≤ bsize) :
    needed (off + n) =
      needed off + (if off % bsize = 0 then 1 else 0) + if off = ndirect * bsize then 1 else 0 := by
  unfold needed bsize ndirect at *
  split <;> split <;> split <;> split <;> omega

theorem lt_add_iff {n : ℕ} (some : 0 < n) (block : off % bsize + n ≤ bsize) :
    k * bsize < off + n ↔ k * bsize < off ∨ k = off / bsize := by
  unfold bsize at *
  omega

theorem indirect_lt_add_iff {n : ℕ} (some : 0 < n) (block : off % bsize + n ≤ bsize) :
    ndirect * bsize < off + n ↔ ndirect * bsize < off ∨ off = ndirect * bsize := by
  unfold bsize ndirect at *
  omega

/-- The blocks for the next bytes of the inode `i` have been taken. -/
theorem Laid.grown (laid : Laid s dinode reach) (member : i ∈ inodes s) (isReach : reach i = off) {n : ℕ}
    (some : 0 < n) (block : off % bsize + n ≤ bsize) {d' : Dinode} (freeinode : s'.freeinode = s.freeinode)
    (mapping : Mapping (inodes s) (Function.update dinode i d') s'.image (allocated s'))
    (others : ∀ j ∈ inodes s, j ≠ i → ∀ l ≤ maxfile,
      slot s'.image (dinode j) l = slot s.image (dinode j) l)
    (self : ∀ l ≤ maxfile, slot s'.image d' l ≠ 0 ↔ slot s.image (dinode i) l ≠ 0 ∨
      l = off / bsize ∨ l = maxfile ∧ off = ndirect * bsize)
    (inside : off / bsize < maxfile)
    (fresh : ∀ x ≥ s'.freeblock, ∀ m < bsize, s'.image x m = 0)
    (count : s'.freeblock =
      s.freeblock + (if off % bsize = 0 then 1 else 0) + if off = ndirect * bsize then 1 else 0)
    (fits : d'.Fits) : Laid s' (Function.update dinode i d') (Function.update reach i (off + n)) := by
  have same : inodes s' = inodes s := by
    unfold inodes
    rw [freeinode]
  refine ⟨same ▸ mapping, fun j isInode k less => ?_, fun j isInode => ?_, fresh, ?_, fun j isInode => ?_⟩
  · rw [same] at isInode
    by_cases isI : j = i
    · subst isI
      rw [Function.update_self, Function.update_self, self k less.le, laid.data j isInode k less, isReach,
        lt_add_iff some block]
      have notLast : ¬(k = maxfile ∧ off = ndirect * bsize) := fun both => less.ne both.1
      simp only [notLast, or_false]
    · rw [Function.update_of_ne isI, Function.update_of_ne isI, others j isInode isI k less.le]
      exact laid.data j isInode k less
  · rw [same] at isInode
    by_cases isI : j = i
    · subst isI
      have atEnd := self maxfile le_rfl
      rw [slot_indirect, slot_indirect] at atEnd
      rw [Function.update_self, Function.update_self, atEnd, laid.indirect j isInode, isReach,
        indirect_lt_add_iff some block]
      have notData : ¬maxfile = off / bsize := inside.ne'
      simp only [notData, false_or, true_and]
    · have atEnd := others j isInode isI maxfile le_rfl
      rw [slot_indirect, slot_indirect] at atEnd
      rw [Function.update_of_ne isI, Function.update_of_ne isI]
      exact laid.indirect j isInode
  · have sum := sum_update reach member (off + n)
    rw [needed_add some block, isReach] at sum
    rw [freeinode, count, laid.count]
    omega
  · rw [same] at isInode
    by_cases isI : j = i
    · subst isI
      rw [Function.update_self]
      exact fits
    · rw [Function.update_of_ne isI]
      exact laid.fits j isInode

/-- What `mapBlock` does to the image, and what it yields. -/
structure MapsBlock (s : Mkfs) (dinode : ℕ → Dinode) (i fbn : ℕ) (x : ℕ) (d' : Dinode) (s' : Mkfs) :
    Prop where
  isSlot : slot s'.image d' fbn = x
  freeinode : s'.freeinode = s.freeinode
  above : s.freeblock ≤ s'.freeblock
  addrs : d' = { dinode i with addrs := d'.addrs }
  kept : ∀ j ∈ inodes s, ∀ k < maxfile, slot s.image (dinode j) k ≠ 0 →
    slot s'.image (Function.update dinode i d' j) k = slot s.image (dinode j) k ∧
      s'.image (slot s.image (dinode j) k) = s.image (slot s.image (dinode j) k)
  zero : slot s.image (dinode i) fbn = 0 → ∀ m < bsize, s'.image x m = 0
  metadata : ∀ y < nmeta, s'.image y = s.image y

/-- Some bytes are about to be appended to an inode, in a block that the file may have. -/
structure Appending (s : Mkfs) (dinode : ℕ → Dinode) (reach : ℕ → ℕ) (i off n : ℕ) : Prop where
  laid : Laid s dinode reach
  member : i ∈ inodes s
  isReach : reach i = off
  some : 0 < n
  block : off % bsize + n ≤ bsize
  inside : off / bsize < maxfile

/-- `mapBlock` yields the block for the bytes. -/
def Maps (s : Mkfs) (dinode : ℕ → Dinode) (reach : ℕ → ℕ) (i off n : ℕ) : Prop :=
  ∃ x d' s', s.mapBlock (dinode i) (off / bsize) = (x, d', s') ∧
    MapsBlock s dinode i (off / bsize) x d' s' ∧
    Laid s' (Function.update dinode i d') (Function.update reach i (off + n))

section

variable {n : ℕ}

/-- A block that the file has is not the one that it needs. -/
theorem Appending.ne_of_empty (empty : slot s.image (dinode i) (off / bsize) = 0)
    (has : slot s.image (dinode j) k ≠ 0) (isI : j = i) : k ≠ off / bsize := by
  rintro rfl
  subst isI
  exact has empty

/-- A direct block is taken. -/
theorem Appending.direct (appending : Appending s dinode reach i off n) (partly : off % bsize = 0)
    (empty : slot s.image (dinode i) (off / bsize) = 0) (direct : off / bsize < ndirect)
    (small : s.freeblock < 256 ^ 4) : Maps s dinode reach i off n := by
  rcases appending with ⟨laid, member, isReach, some, block, inside⟩
  have notZero := laid.freeblock_ne
  have notIndirect : off ≠ ndirect * bsize := by
    rintro rfl
    exact absurd direct (by decide)
  have isZero : (dinode i).addr (off / bsize) = 0 := (slot_direct direct).symm.trans empty
  have self : ∀ l, slot s.image ((dinode i).setAddr (off / bsize) s.freeblock) l =
      if l = off / bsize then s.freeblock else slot s.image (dinode i) l := fun l => slot_setAddr direct
  have isCode : s.mapBlock (dinode i) (off / bsize) =
      (s.freeblock, (dinode i).setAddr (off / bsize) s.freeblock, s.take) := by
    unfold Mkfs.mapBlock
    rw [if_pos direct, if_pos isZero]
  refine ⟨_, _, _, isCode, ⟨?_, rfl, Nat.le_succ _, rfl, fun j isInode k less has => ?_, fun _ => ?_,
    fun _ _ => rfl⟩, ?_⟩
  · exact (self _).trans (if_pos rfl)
  · refine ⟨?_, rfl⟩
    by_cases isI : j = i
    · have different := Appending.ne_of_empty empty has isI
      subst isI
      rw [Function.update_self]
      exact (self k).trans (if_neg different)
    · rw [Function.update_of_ne isI]
      rfl
  · exact laid.fresh _ le_rfl
  · have installed := laid.mapping.install member inside.le empty not_allocated notZero
      (fun l _ => self l) fun _ _ _ _ _ => rfl
    rw [← allocated_take laid.nmeta_le] at installed
    refine laid.grown member isReach some block rfl installed (fun _ _ _ _ _ => rfl) (fun l _ => ?_) inside
      (fun x above => laid.fresh x ((Nat.le_succ _).trans above)) ?_ (fits_setAddr (laid.fits i member) small)
    · change slot s.image ((dinode i).setAddr (off / bsize) s.freeblock) l ≠ 0 ↔ _
      rw [self l]
      split
      · rename_i isThis
        simp [isThis, notZero]
      · rename_i isOther
        simp [isOther, notIndirect]
    · rw [if_pos partly, if_neg notIndirect]
      rfl

/-- The indirect block and then its first entry are taken. -/
theorem Appending.indirect (appending : Appending s dinode reach i off n) (partly : off % bsize = 0)
    (empty : slot s.image (dinode i) (off / bsize) = 0) (isOff : off = ndirect * bsize)
    (isFirst : (dinode i).addr ndirect = 0) (small : s.freeblock + 1 < 256 ^ 4) :
    Maps s dinode reach i off n := by
  rcases appending with ⟨laid, member, isReach, some, block, inside⟩
  have notZero := laid.freeblock_ne
  have more : ndirect ≤ off / bsize := by
    rw [isOff]
    decide
  have noIndirect : slot s.image (dinode i) maxfile = 0 := (slot_indirect _ _).trans isFirst
  have first : ∀ l ≤ maxfile, slot s.image ((dinode i).setAddr ndirect s.freeblock) l =
      if l = maxfile then s.freeblock else slot s.image (dinode i) l := fun l bound =>
    slot_setIndirect isFirst (laid.fresh _ le_rfl) notZero bound
  have installed := laid.mapping.install member le_rfl noIndirect not_allocated notZero first
    fun _ _ _ _ _ => rfl
  rw [← allocated_take laid.nmeta_le] at installed
  have hasIndirect : ((dinode i).setAddr ndirect s.freeblock).addr ndirect = s.freeblock := by
    rw [addr_setAddr (by decide) (by decide), if_pos rfl]
  have zero : uintAt (s.image s.freeblock) (off / bsize - ndirect) = 0 := by
    refine uintAt_zero (laid.fresh _ le_rfl) ?_
    unfold maxfile at inside
    omega
  have addrs : (dinode i).setAddr ndirect s.freeblock =
      { dinode i with addrs := ((dinode i).setAddr ndirect s.freeblock).addrs } := rfl
  have fits := fits_setAddr (j := ndirect) (x := s.freeblock) (laid.fits i member) (by omega)
  unfold Maps Mkfs.mapBlock
  rw [if_neg more.not_gt]
  dsimp only
  rw [if_pos isFirst]
  dsimp only
  rw [hasIndirect]
  generalize (dinode i).setAddr ndirect s.freeblock = d₁ at *
  have isD : Function.update dinode i d₁ i = d₁ := Function.update_self _ _ _
  have notThis : s.freeblock + 1 ∉ allocated s.take := not_allocated
  have isImage : (s.take.take.wsect s.freeblock
      (setUint (s.image s.freeblock) (off / bsize - ndirect) (s.freeblock + 1))).image =
        Function.update s.image ((Function.update dinode i d₁ i).addr ndirect)
          (setUint (s.image ((Function.update dinode i d₁ i).addr ndirect)) (off / bsize - ndirect)
            (s.freeblock + 1)) := by
    rw [isD, hasIndirect]
    rfl
  rw [if_pos (show uintAt (s.take.image s.freeblock) (off / bsize - ndirect) = 0 from zero)]
  rcases installed.entry member more inside (by rw [isD, hasIndirect]; exact notZero)
    (by rw [isD, first _ inside.le, if_neg inside.ne]; exact empty) notThis (Nat.succ_ne_zero _)
    small isImage with ⟨installed', self, others, bytes⟩
  rw [isD] at self
  have isUsed' : allocated s.take.take = insert (s.freeblock + 1) (allocated s.take) :=
    allocated_take (s := s.take) (laid.nmeta_le.trans (Nat.le_succ _))
  rw [← isUsed'] at installed'
  have others' : ∀ j ∈ inodes s, j ≠ i → Function.update dinode i d₁ j = dinode j := fun j _ isOther =>
    Function.update_of_ne isOther _ _
  refine ⟨_, _, _, rfl, ⟨?_, rfl, ?_, addrs, fun j isInode k less has => ?_, fun _ m less => ?_,
    fun y isMeta => ?_⟩, ?_⟩
  · exact (self _ inside.le).trans (if_pos rfl)
  · exact (Nat.le_succ _).trans (Nat.le_succ _)
  · have kept := bytes j isInode k less
    by_cases isI : j = i
    · have different := Appending.ne_of_empty empty has isI
      subst isI
      rw [isD] at kept ⊢
      rw [first k less.le, if_neg less.ne] at kept
      refine ⟨(self k less.le).trans ?_, kept⟩
      rw [if_neg different, first k less.le, if_neg less.ne]
    · have same := others j isInode isI k less.le
      rw [others' j isInode isI] at kept same ⊢
      exact ⟨same, kept⟩
  · change Function.update s.image s.freeblock _ (s.freeblock + 1) m = 0
    rw [Function.update_of_ne (Nat.succ_ne_self _)]
    exact laid.fresh _ (Nat.le_succ _) m less
  · exact Function.update_of_ne (isMeta.trans_le laid.nmeta_le).ne _ _
  · refine laid.grown member isReach some block rfl installed' (fun j isInode isI l bound => ?_)
      (fun l bound => ?_) inside (fun x isAbove m less => ?_) ?_ fits
    · have same := others j isInode isI l bound
      rw [others' j isInode isI] at same
      exact same
    · have isThis := self l bound
      rw [first l bound] at isThis
      refine (iff_of_eq (congrArg (· ≠ 0) isThis)).trans ?_
      have different : off / bsize ≠ maxfile := inside.ne
      split
      · rename_i atPlace
        simp [atPlace]
      · rename_i notPlace
        split
        · rename_i atEnd
          simp [atEnd, isOff, notZero]
        · rename_i notEnd
          simp [notPlace, notEnd]
    · have isAbove' : s.freeblock + 1 + 1 ≤ x := isAbove
      change Function.update s.image _ _ x m = 0
      rw [Function.update_of_ne (by omega)]
      exact laid.fresh x (by omega) m less
    · rw [if_pos partly, if_pos isOff]
      rfl

/-- An entry of the indirect block is taken. -/
theorem Appending.entry (appending : Appending s dinode reach i off n) (partly : off % bsize = 0)
    (empty : slot s.image (dinode i) (off / bsize) = 0) (more : ndirect ≤ off / bsize)
    (notFirst : off ≠ ndirect * bsize) (has : (dinode i).addr ndirect ≠ 0)
    (small : s.freeblock < 256 ^ 4) : Maps s dinode reach i off n := by
  rcases appending with ⟨laid, member, isReach, some, block, inside⟩
  have notZero := laid.freeblock_ne
  have zero : uintAt (s.image ((dinode i).addr ndirect)) (off / bsize - ndirect) = 0 := by
    rw [slot_entry more inside, if_neg has] at empty
    exact empty
  unfold Maps Mkfs.mapBlock
  rw [if_neg more.not_gt]
  dsimp only
  rw [if_neg has]
  dsimp only
  rw [if_pos zero]
  rcases laid.mapping.entry member more inside has empty not_allocated notZero small rfl with
    ⟨installed, self, others, bytes⟩
  rw [← allocated_take laid.nmeta_le] at installed
  have isSame : Function.update dinode i (dinode i) = dinode := Function.update_eq_self _ _
  rcases laid.slot_lt member le_rfl ((slot_indirect _ _).trans_ne has) with ⟨above, below⟩
  rw [slot_indirect] at above below
  refine ⟨_, _, _, rfl, ⟨?_, rfl, Nat.le_succ _, rfl, fun j isInode k less has => ?_, fun _ => ?_,
    fun y isMeta => ?_⟩, ?_⟩
  · exact (self _ inside.le).trans (if_pos rfl)
  · rw [isSame]
    refine ⟨?_, bytes j isInode k less⟩
    by_cases isI : j = i
    · have different := Appending.ne_of_empty empty has isI
      subst isI
      exact (self k less.le).trans (if_neg different)
    · exact others j isInode isI k less.le
  · intro m less
    change Function.update s.image _ _ s.freeblock m = 0
    rw [Function.update_of_ne below.ne']
    exact laid.fresh _ le_rfl m less
  · exact Function.update_of_ne (isMeta.trans_le above).ne _ _
  · refine laid.grown member isReach some block rfl (isSame.symm ▸ installed) others (fun l bound => ?_)
      inside (fun x isAbove m less => ?_) ?_ (laid.fits i member)
    · change slot (Function.update s.image _ _) (dinode i) l ≠ 0 ↔ _
      rw [self l bound]
      split
      · rename_i isThis
        simp [isThis, notZero]
      · rename_i isOther
        simp [isOther, notFirst]
    · have isAbove' : s.freeblock + 1 ≤ x := isAbove
      change Function.update s.image _ _ x m = 0
      rw [Function.update_of_ne (by omega)]
      exact laid.fresh x (by omega) m less
    · rw [if_pos partly, if_neg notFirst]
      rfl

/-- The last block of the file has room. -/
theorem Appending.room (appending : Appending s dinode reach i off n) (partly : off % bsize ≠ 0) :
    Maps s dinode reach i off n := by
  rcases appending with ⟨laid, member, isReach, some, block, inside⟩
  have used : slot s.image (dinode i) (off / bsize) ≠ 0 := by
    apply (laid.data i member (off / bsize) inside).2
    rw [isReach]
    unfold bsize at *
    omega
  have notIndirect : off ≠ ndirect * bsize := by
    rintro rfl
    exact partly (Nat.mul_mod_left _ _)
  have isCode : s.mapBlock (dinode i) (off / bsize) = (slot s.image (dinode i) (off / bsize), dinode i, s) := by
    unfold Mkfs.mapBlock
    by_cases direct : off / bsize < ndirect
    · rw [slot_direct direct] at used ⊢
      rw [if_pos direct, if_neg used]
    · have more : ndirect ≤ off / bsize := Nat.not_lt.1 direct
      rw [slot_entry more inside] at used ⊢
      have has : (dinode i).addr ndirect ≠ 0 := fun none => used (if_pos none)
      rw [if_neg has] at used ⊢
      rw [if_neg direct, if_neg has]
      dsimp only
      rw [if_neg used]
  have isSame : Function.update dinode i (dinode i) = dinode := Function.update_eq_self _ _
  refine ⟨_, _, _, isCode, ⟨rfl, rfl, le_rfl, rfl, fun j _ k _ _ => ?_, fun none => absurd none used,
    fun _ _ => rfl⟩, ?_⟩
  · rw [isSame]
    exact ⟨rfl, rfl⟩
  · refine laid.grown member isReach some block rfl (isSame.symm ▸ laid.mapping) (fun _ _ _ _ _ => rfl)
      (fun l _ => ?_) inside laid.fresh ?_ (laid.fits i member)
    · constructor
      · exact .inl
      · rintro (has | rfl | ⟨-, isOff⟩)
        · exact has
        · exact used
        · exact absurd isOff notIndirect
    · rw [if_neg partly, if_neg notIndirect]
      rfl

theorem Laid.mapBlock (laid : Laid s dinode reach) (member : i ∈ inodes s) (isReach : reach i = off)
    (some : 0 < n) (block : off % bsize + n ≤ bsize) (inside : off / bsize < maxfile)
    (limit : nmeta + ∑ j ∈ Finset.Ico 1 s.freeinode, needed (Function.update reach i (off + n) j) < 256 ^ 4) :
    ∃ x d' s', s.mapBlock (dinode i) (off / bsize) = (x, d', s') ∧
      MapsBlock s dinode i (off / bsize) x d' s' ∧
      Laid s' (Function.update dinode i d') (Function.update reach i (off + n)) := by
  have appending : Appending s dinode reach i off n := ⟨laid, member, isReach, some, block, inside⟩
  by_cases partly : off % bsize = 0
  · -- the addresses of new blocks fit into four bytes
    have small : s.freeblock + 1 + (if off = ndirect * bsize then 1 else 0) ≤ 256 ^ 4 - 1 := by
      have sum := sum_update reach member (off + n)
      rw [needed_add some block, isReach, if_pos partly] at sum
      have count := laid.count
      omega
    have empty : slot s.image (dinode i) (off / bsize) = 0 := by
      by_contra used
      have before := (laid.data i member (off / bsize) inside).1 used
      rw [isReach] at before
      unfold bsize at *
      omega
    by_cases direct : off / bsize < ndirect
    · exact appending.direct partly empty direct (by omega)
    · have more : ndirect ≤ off / bsize := Nat.not_lt.1 direct
      have hasIndirect := laid.indirect i member
      rw [isReach] at hasIndirect
      by_cases isFirst : (dinode i).addr ndirect = 0
      · have isOff : off = ndirect * bsize := by
          have notLess := mt hasIndirect.2 (not_not.2 isFirst)
          unfold ndirect bsize at *
          omega
        rw [if_pos isOff] at small
        exact appending.indirect partly empty isOff isFirst (by omega)
      · exact appending.entry partly empty more (hasIndirect.1 isFirst).ne' isFirst (by omega)
  · exact appending.room partly

end

end Xv6.Fs
