import Xv6.Fs.Growth
import Xv6.Fs.SharedOffset

/-!
# Reading and writing one of several files

The files of a file system have blocks of their own. `writei` and `readi` see a file as a list of bytes,
and leave the other files alone.
-/

namespace Xv6.Fs

open Bytes

variable {sb : Superblock} {inodes : Set ℕ} {dinode : ℕ → Dinode} {ip ip' : Dinode} {image image' : ℕ → Block}
  {content content' src : List Byte} {devsw : Devsw} {inum i j k l m n off y : ℕ} {needs : Finset ℕ}

/-- The boot block, the blocks of the inodes and the bitmap. -/
def IsMetadata (sb : Superblock) (inodes : Set ℕ) (b : ℕ) : Prop :=
  b = 0 ∨ (∃ i ∈ inodes, b = iblock i sb) ∨ ∃ c < sb.size, b = bblock c sb

/-- The inodes have different blocks, all of them marked in the bitmap. -/
structure Files (sb : Superblock) (inodes : Set ℕ) (dinode : ℕ → Dinode) (image : ℕ → Block) : Prop where
  small : sb.size ≤ 256 ^ 4
  apart : ∀ i ∈ inodes, ∀ c < sb.size, bblock c sb ≠ iblock i sb
  metadata : ∀ b < sb.size, IsMetadata sb inodes b → inUse sb image b = true
  blocks : ∀ i ∈ inodes, ∀ k ≤ maxfile, slot image (dinode i) k ≠ 0 → slot image (dinode i) k < sb.size ∧
    inUse sb image (slot image (dinode i) k) = true ∧ ¬IsMetadata sb inodes (slot image (dinode i) k)
  mapping : ∃ used, Mapping inodes dinode image used

/-- An inode that is not a device; every block below its size is allocated. -/
structure Regular (ip : Dinode) (image : ℕ → Block) (content : List Byte) : Prop where
  notDevice : ip.type ≠ tDev
  size : ip.size = content.length
  holds : InodeHolds image ip content

/-- An inode and its blocks are as they were. -/
structure Untouched (sb : Superblock) (j : ℕ) (d : Dinode) (image image' : ℕ → Block) : Prop where
  inode : readInode sb image' j = readInode sb image j
  slots : ∀ k ≤ maxfile, slot image' d k = slot image d k
  blocks : ∀ k ≤ maxfile, slot image d k ≠ 0 → image' (slot image d k) = image (slot image d k)

/-- What belongs to no other inode may have changed: the blocks of this one and its place on the disk. -/
structure OwnChange (sb : Superblock) (inum : ℕ) (ip : Dinode) (image : ℕ → Block) (ip' : Dinode)
    (image' : ℕ → Block) : Prop where
  foreign : ∀ y, Foreign sb ip image y → Foreign sb ip' image' y ∧ (y ≠ iblock inum sb → image' y = image y)
  inode : image' (iblock inum sb) = image (iblock inum sb) ∨
    ∃ d, image' (iblock inum sb) = setDinode (image (iblock inum sb)) (inum % ipb) d

/-! ## One file among the others -/

theorem Files.file (files : Files sb inodes dinode image) (member : inum ∈ inodes)
    (regular : Regular (dinode inum) image content) : FileHolds sb inum (dinode inum) image content := by
  have isMetadata : ∀ b, IsMeta sb inum b → IsMetadata sb inodes b := by
    rintro b (rfl | rfl | isBitmap)
    · exact .inl rfl
    · exact .inr (.inl ⟨inum, member, rfl⟩)
    · exact .inr (.inr isBitmap)
  refine ⟨files.small, files.apart inum member, fun b less isMeta => files.metadata b less (isMetadata b isMeta),
    fun k bound has => ?_, ?_, ?_, regular.notDevice⟩
  · rcases files.blocks inum member k bound has with ⟨less, marked, notMeta⟩
    exact ⟨less, marked, fun isMeta => notMeta (isMetadata _ isMeta)⟩
  · rcases files.mapping with ⟨used, mapping⟩
    refine ⟨{x | x ≠ 0 ∧ ∃ i ∈ ({inum} : Set ℕ), ∃ k ≤ maxfile, slot image (dinode inum) k = x}, fun x => Iff.rfl,
      fun i isInode j isInode' k bound l bound' same has => ?_⟩
    rw [Set.mem_singleton_iff.1 isInode, Set.mem_singleton_iff.1 isInode']
    exact ⟨rfl, (mapping.single inum member inum member k bound l bound' same has).2⟩
  · exact ⟨fun _ _ => regular.holds.mapped, fun _ _ => regular.holds.bytes, fun _ _ => regular.holds.bound⟩

/-- Blocks of other inodes, and inodes on the disk, do not belong to this inode. -/
theorem Files.foreign_slot (files : Files sb inodes dinode image) (member : inum ∈ inodes) (other : j ∈ inodes)
    (different : j ≠ inum) (bound : k ≤ maxfile) (has : slot image (dinode j) k ≠ 0) :
    Foreign sb (dinode inum) image (slot image (dinode j) k) ∧ slot image (dinode j) k ≠ iblock inum sb := by
  rcases files.blocks j other k bound has with ⟨_, marked, notMeta⟩
  rcases files.mapping with ⟨used, mapping⟩
  refine ⟨⟨fun _ => marked, fun c less isBitmap => notMeta (.inr (.inr ⟨c, less, isBitmap⟩)),
    fun l bound' has' same => ?_⟩, fun isInode => notMeta (.inr (.inl ⟨inum, member, isInode⟩))⟩
  exact different (mapping.single inum member j other l bound' k bound same has').1.symm

theorem Files.foreign_iblock (files : Files sb inodes dinode image) (member : inum ∈ inodes) (other : j ∈ inodes) :
    Foreign sb (dinode inum) image (iblock j sb) := by
  refine ⟨fun less => files.metadata _ less (.inr (.inl ⟨j, other, rfl⟩)), fun c less isBitmap =>
    files.apart j other c less isBitmap.symm, fun k bound has same => ?_⟩
  exact (files.blocks inum member k bound has).2.2 (.inr (.inl ⟨j, other, same⟩))

theorem Files.untouched (files : Files sb inodes dinode image) (member : inum ∈ inodes)
    (change : OwnChange sb inum (dinode inum) image ip' image') (other : j ∈ inodes) (different : j ≠ inum) :
    Untouched sb j (dinode j) image image' := by
  have blocks : ∀ k ≤ maxfile, slot image (dinode j) k ≠ 0 →
      image' (slot image (dinode j) k) = image (slot image (dinode j) k) := by
    intro k bound has
    rcases files.foreign_slot member other different bound has with ⟨isForeign, notInode⟩
    exact (change.foreign _ isForeign).2 notInode
  refine ⟨?_, fun k _ => slot_congr fun has => ?_, blocks⟩
  · unfold readInode
    by_cases same : iblock j sb = iblock inum sb
    · rw [same]
      rcases change.inode with unchanged | ⟨d, isInode⟩
      · rw [unchanged]
      · rw [isInode]
        refine dinodeAt_setDinode_other fun sameIndex => different ?_
        unfold iblock at same
        unfold ipb bsize at *
        omega
    · rw [(change.foreign _ (files.foreign_iblock member other)).2 same]
  · rw [← slot_indirect image] at has ⊢
    exact blocks maxfile le_rfl has

/-- The inodes still have different blocks. -/
theorem Files.change (files : Files sb inodes dinode image) (member : inum ∈ inodes)
    (file : FileHolds sb inum ip' image' content) (change : OwnChange sb inum (dinode inum) image ip' image') :
    Files sb inodes (Function.update dinode inum ip') image' := by
  have untouched : ∀ j ∈ inodes, j ≠ inum → Untouched sb j (dinode j) image image' :=
    fun j other different => files.untouched member change other different
  have ofOther : ∀ j ∈ inodes, j ≠ inum → ∀ k ≤ maxfile, slot image' (dinode j) k ≠ 0 →
      slot image (dinode j) k ≠ 0 ∧ Foreign sb ip' image' (slot image' (dinode j) k) := by
    intro j other different k bound has
    rw [(untouched j other different).slots k bound] at has ⊢
    exact ⟨has, (change.foreign _ (files.foreign_slot member other different bound has).1).1⟩
  have notSlot : ∀ k ≤ maxfile, slot image' ip' k ≠ 0 → ∀ b, IsMetadata sb inodes b → slot image' ip' k ≠ b := by
    rintro k bound has b isMeta rfl
    have notMeta := (file.blocks k bound has).2.2
    rcases isMeta with zero | ⟨j, other, isInode⟩ | isBitmap
    · exact has zero
    · exact (change.foreign _ (files.foreign_iblock member other)).1.notSlot k bound has isInode
    · exact notMeta (.inr (.inr isBitmap))
  refine ⟨files.small, files.apart, fun b less isMeta => ?_, fun j isInode k bound has => ?_, ?_⟩
  · rcases isMeta with rfl | ⟨j, other, rfl⟩ | isBitmap
    · exact file.metadata 0 less (.inl rfl)
    · exact (change.foreign _ (files.foreign_iblock member other)).1.marked less
    · exact file.metadata b less (.inr (.inr isBitmap))
  · by_cases same : j = inum
    · subst same
      rw [Function.update_self] at has ⊢
      rcases file.blocks k bound has with ⟨less, marked, _⟩
      exact ⟨less, marked, fun isMeta => notSlot k bound has _ isMeta rfl⟩
    · rw [Function.update_of_ne same] at has ⊢
      rcases ofOther j isInode same k bound has with ⟨had, isForeign⟩
      have slots := (untouched j isInode same).slots k bound
      rcases files.blocks j isInode k bound had with ⟨less, _, notMeta⟩
      rw [slots] at isForeign ⊢
      exact ⟨less, isForeign.marked less, notMeta⟩
  · rcases files.mapping with ⟨used, mapping⟩
    rcases file.mapping with ⟨used', mapping'⟩
    refine ⟨{x | x ≠ 0 ∧ ∃ i ∈ inodes, ∃ k ≤ maxfile, slot image' (Function.update dinode inum ip' i) k = x},
      fun x => Iff.rfl, fun i isInode j isInode' k bound l bound' same has => ?_⟩
    by_cases first : i = inum
    · subst first
      rw [Function.update_self] at same has
      by_cases second : j = i
      · subst second
        rw [Function.update_self] at same
        have single := Set.mem_singleton j
        exact ⟨rfl, (mapping'.single j single j single k bound l bound' same has).2⟩
      · rw [Function.update_of_ne second] at same
        have isForeign := (ofOther j isInode' second l bound' (same ▸ has)).2
        exact absurd same (isForeign.notSlot k bound has)
    · rw [Function.update_of_ne first] at same has
      rcases ofOther i isInode first k bound has with ⟨had, isForeign⟩
      by_cases second : j = inum
      · subst second
        rw [Function.update_self] at same
        exact absurd same.symm (isForeign.notSlot l bound' (same ▸ has))
      · rw [Function.update_of_ne second, (untouched i isInode first).slots k bound,
          (untouched j isInode' second).slots l bound'] at same
        exact mapping.single i isInode j isInode' k bound l bound' same had

/-! ## Writing -/

/-- The places of bytes below the size have blocks. -/
theorem InodeHolds.touched (holds : InodeHolds image ip content) (less : m < content.length)
    (member : l ∈ touched (m / bsize)) : slot image ip l ≠ 0 := by
  have has := holds.mapped m less
  have place : m / bsize < maxfile := div_lt_maxfile (less.trans_le holds.bound)
  unfold Fs.touched at member
  split at member
  · rw [Finset.mem_singleton.1 member]
    exact has
  · rename_i more
    rw [Finset.mem_insert, Finset.mem_singleton] at member
    rcases member with rfl | rfl
    · exact has
    · intro none
      rw [slot_indirect] at none
      exact has ((slot_entry (Nat.not_lt.1 more) place).trans (if_pos none))

/-- An inode whose places all have blocks gets no new ones. -/
theorem Grown.same (grown : Grown sb needs ip image ip' image') (all : ∀ l ∈ needs, slot image ip l ≠ 0) :
    ip' = ip := by
  have slots : ∀ l ≤ maxfile, slot image' ip' l = slot image ip l := by
    intro l bound
    by_cases none : slot image ip l = 0
    · rw [none]
      exact (grown.empty l bound).2 ⟨none, fun member => all l member none⟩
    · exact grown.slots l bound none
  have addrs : ∀ j < 13, ip'.addr j = ip.addr j := by
    intro j less
    by_cases direct : j < ndirect
    · have isSlot := slots j (direct.le.trans (by decide))
      rw [slot_direct direct, slot_direct direct] at isSlot
      exact isSlot
    · have isIndirect : j = ndirect := by
        unfold ndirect at *
        omega
      have isSlot := slots maxfile le_rfl
      rw [slot_indirect, slot_indirect] at isSlot
      rw [isIndirect]
      exact isSlot
  rw [grown.fields]
  have isAddrs : ip'.addrs = ip.addrs := by
    funext j
    have isAddr := addrs j j.isLt
    have self : Fin.ofNat 13 j.val = j := Fin.ext (Nat.mod_eq_of_lt j.isLt)
    unfold Dinode.addr at isAddr
    rw [self] at isAddr
    exact isAddr
  rw [isAddrs]

theorem FileHolds.fits (file : FileHolds sb inum ip image content) (fits : ip'.Fits)
    (fields : ip = { ip' with addrs := ip.addrs, size := ip.size }) (isSize : ip.size = content.length) : ip.Fits := by
  have bound := file.inodeHolds.bound
  have addr : ∀ j < 13, ip.addr j < 256 ^ 4 := by
    intro j less
    have isSlot : ∃ k ≤ maxfile, slot image ip k = ip.addr j := by
      by_cases direct : j < ndirect
      · exact ⟨j, direct.le.trans (by decide), slot_direct direct⟩
      · have isIndirect : j = ndirect := by
          unfold ndirect at *
          omega
        exact ⟨maxfile, le_rfl, isIndirect ▸ slot_indirect image ip⟩
    rcases isSlot with ⟨k, bound, isSlot⟩
    by_cases none : slot image ip k = 0
    · rw [← isSlot, none]
      decide
    · rw [← isSlot]
      exact (file.blocks k bound none).1.trans_le file.small
  refine ⟨?_, ?_, ?_, ?_, ?_, fun j => ?_⟩
  · rw [fields]
    exact fits.type
  · rw [fields]
    exact fits.major
  · rw [fields]
    exact fits.minor
  · rw [fields]
    exact fits.nlink
  · rw [isSize]
    unfold maxfile ndirect nindirect bsize at bound
    omega
  · have isAddr := addr j j.isLt
    have self : Fin.ofNat 13 j.val = j := Fin.ext (Nat.mod_eq_of_lt j.isLt)
    unfold Dinode.addr at isAddr
    rw [self] at isAddr
    exact isAddr

/-- The conditions under which `writei` yields -1. -/
def Refused (ip : Dinode) (off n : ℕ) : Prop := ip.size < off ∨ 2 ^ 32 ≤ off + n ∨ maxfile * bsize < off + n

theorem Regular.size_le (regular : Regular ip image content) : ip.size ≤ maxfile * bsize :=
  regular.size.trans_le regular.holds.bound

theorem writei_refused (devsw : Devsw) (sb : Superblock) (inum : ℕ) (notDevice : ip.type ≠ tDev)
    (bound : ip.size ≤ maxfile * bsize) (small : src.length < 2 ^ 32) (refused : Refused ip off src.length) :
    writei devsw sb inum ip image src off = some (none, ip, image) := by
  unfold writei
  rw [if_neg notDevice]
  unfold maxfile ndirect nindirect bsize at *
  rcases refused with beyond | overflow | tooBig
  · rw [if_pos (.inl beyond)]
  · rw [if_pos]
    omega
  · split
    · rfl
    · rename_i start
      rw [if_pos]
      unfold maxfile ndirect nindirect bsize at *
      omega

/-- `writei` has written all the bytes. -/
structure Wrote (sb : Superblock) (inum : ℕ) (ip : Dinode) (image : ℕ → Block) (content src : List Byte) (off : ℕ)
    (ip' : Dinode) (image' : ℕ → Block) : Prop where
  file : FileHolds sb inum ip' image' (patch content off src)
  size : ip'.size = (patch content off src).length
  change : OwnChange sb inum ip image ip' image'
  free : free sb image' + missing image ip (places off src.length) = free sb image
  missing : ∀ needs, (∀ l ∈ needs, l ≤ maxfile) → missing image ip (places off src.length ∪ needs) =
    missing image ip (places off src.length) + missing image' ip' needs
  disk : ip.Fits → readInode sb image inum = ip → ip'.Fits ∧ readInode sb image' inum = ip'
  fields : ip' = { ip with addrs := ip'.addrs, size := ip'.size }

/-- `writei` writes all the bytes and keeps what belongs to other inodes. -/
theorem FileHolds.exists_writei (file : FileHolds sb inum ip image content) (devsw : Devsw)
    (isSize : ip.size = content.length) (accepted : ¬Refused ip off src.length)
    (enough : missing image ip (places off src.length) ≤ free sb image) : ∃ ip' image',
    Fs.writei devsw sb inum ip image src off = some (some src.length, ip', image') ∧
    Wrote sb inum ip image content src off ip' image' := by
  have bound := file.inodeHolds.bound
  rw [Refused, not_or, not_or, Nat.not_lt, Nat.not_le, Nat.not_lt, isSize] at accepted
  rcases accepted with ⟨start, noOverflow, inside⟩
  rcases FileHolds.writeLoop_grown src.length file le_rfl start inside enough with ⟨ip₁, image₁, isLoop, grown⟩
  have isForeign : Foreign sb ip image (iblock inum sb) := by
    refine ⟨fun less => file.metadata _ less (.inr (.inl rfl)), fun c less isBitmap =>
      file.apart c less isBitmap.symm, fun k place has isInode => ?_⟩
    exact (file.blocks k place has).2.2 (.inr (.inl isInode))
  have isSize₁ : ip₁.size = ip.size := by rw [grown.fields]
  have file₁ := (FileHolds.writeLoop src.length file le_rfl start inside isLoop).2.1
  have isLength := length_patch src start
  have fields₁ : ip₁ = { ip with addrs := ip₁.addrs, size := ip₁.size } := by
    rw [grown.fields]
  have isWrite : Fs.writei devsw sb inum ip image src off =
      if 0 < src.length ∧ ip.size < off + src.length then
        some (some src.length, { ip₁ with size := off + src.length },
          Fs.iupdate sb inum { ip₁ with size := off + src.length } image₁)
      else some (some src.length, ip₁, image₁) := by
    unfold Fs.writei
    rw [if_neg file.notDevice, Nat.mod_eq_of_lt noOverflow, if_neg (by omega), if_neg (by omega), isLoop]
    dsimp only [Option.bind_eq_bind, Option.bind_some, Option.pure_def]
    rw [isSize₁]
  rw [isWrite]
  split
  · rename_i grows
    have file₂ : FileHolds sb inum { ip₁ with size := off + src.length }
        (Fs.iupdate sb inum { ip₁ with size := off + src.length } image₁) (patch content off src) :=
      file₁.iupdate rfl rfl
    have isSize₂ : off + src.length = (patch content off src).length := by omega
    have other : ∀ z ≠ iblock inum sb,
        Fs.iupdate sb inum { ip₁ with size := off + src.length } image₁ z = image₁ z :=
      fun z different => Function.update_of_ne different _ _
    have slots : ∀ k, slot (Fs.iupdate sb inum { ip₁ with size := off + src.length } image₁)
        { ip₁ with size := off + src.length } k = slot image₁ ip₁ k := by
      intro k
      refine (slot_addrs rfl).trans (slot_congr fun hasIndirect => other _ fun isInode => ?_)
      rw [← slot_indirect image₁] at hasIndirect isInode
      exact (file₁.blocks maxfile le_rfl hasIndirect).2.2 (.inr (.inl isInode))
    have isUses : ∀ b < sb.size, inUse sb (Fs.iupdate sb inum { ip₁ with size := off + src.length } image₁) b =
        inUse sb image₁ b := by
      intro b less
      unfold inUse
      rw [other _ (file.apart b less)]
    have isSelf : Fs.iupdate sb inum { ip₁ with size := off + src.length } image₁ (iblock inum sb) =
        setDinode (image (iblock inum sb)) (inum % ipb) { ip₁ with size := off + src.length } := by
      unfold Fs.iupdate
      rw [Function.update_self, (grown.foreign _ isForeign).1]
    refine ⟨_, _, rfl, file₂, isSize₂, ⟨fun y isForeign' => ?_, .inr ⟨_, isSelf⟩⟩, ?_, fun needs within => ?_,
      fun isFits _ => ?_, ?_⟩
    · rcases grown.foreign y isForeign' with ⟨same, isForeign₁⟩
      refine ⟨⟨fun less => ?_, isForeign₁.notBitmap, fun k place has => ?_⟩, fun notInode => ?_⟩
      · rw [isUses y less]
        exact isForeign₁.marked less
      · rw [slots] at has ⊢
        exact isForeign₁.notSlot k place has
      · rw [other y notInode, same]
    · rw [free_congr isUses]
      exact grown.free
    · rw [grown.missing_union within]
      unfold Fs.missing
      simp only [slots]
    · have isFits₂ := file₂.fits isFits (by rw [grown.fields]) isSize₂
      refine ⟨isFits₂, ?_⟩
      unfold readInode
      rw [isSelf]
      exact dinodeAt_setDinode isFits₂
    · rw [grown.fields]
  · rename_i stays
    have unchanged := (grown.foreign _ isForeign).1
    refine ⟨_, _, rfl, file₁, by omega, ⟨fun y isForeign' => ?_, .inl unchanged⟩, grown.free,
      fun needs within => grown.missing_union within, fun isFits onDisk => ?_, fields₁⟩
    · exact ⟨(grown.foreign y isForeign').2, fun _ => (grown.foreign y isForeign').1⟩
    · have isSame : ip₁ = ip := by
        refine grown.same fun l member => ?_
        unfold places at member
        simp only [Finset.mem_biUnion, Finset.mem_range] at member
        rcases member with ⟨j, less, isTouched⟩
        exact file.inodeHolds.touched (by omega) isTouched
      rw [isSame]
      refine ⟨isFits, ?_⟩
      unfold readInode at onDisk ⊢
      rw [unchanged, onDisk]

theorem Wrote.regular (wrote : Wrote sb inum ip image content src off ip' image') :
    Regular ip' image' (patch content off src) :=
  ⟨wrote.file.notDevice, wrote.size, wrote.file.inodeHolds⟩

/-! ## The specification of `readi` and `writei` -/

/-- What `readi` yields. -/
def readResult (ip : Dinode) (content : List Byte) (off n : ℕ) : Option (List Byte) :=
  if ip.size < off ∨ 2 ^ 32 ≤ off + n then none else some ((content.drop off).take n)

/-- `readi` yields these bytes and changes nothing. -/
def Reads (devsw : Devsw) (sb : Superblock) (ip : Dinode) (image : ℕ → Block) (content : List Byte) : Prop :=
  ∀ off < 2 ^ 32, ∀ n < 2 ^ 32, readi devsw sb ip image off n = some (readResult ip content off n, ip, image)

/-- What `writei` does to one of the files. -/
structure Written (devsw : Devsw) (sb : Superblock) (inodes : Set ℕ) (dinode : ℕ → Dinode) (image : ℕ → Block)
    (inum : ℕ) (content src : List Byte) (off : ℕ) (ip' : Dinode) (image' : ℕ → Block) : Prop where
  files : Files sb inodes (Function.update dinode inum ip') image'
  regular : Regular ip' image' (patch content off src)
  size : ip'.size = max (dinode inum).size (off + src.length)
  disk : (dinode inum).Fits → readInode sb image inum = dinode inum → ip'.Fits ∧ readInode sb image' inum = ip'
  others : ∀ j ∈ inodes, j ≠ inum → Untouched sb j (dinode j) image image'
  reads : Reads devsw sb ip' image' (patch content off src)

theorem Regular.reads (regular : Regular ip image content) (devsw : Devsw) (sb : Superblock) :
    Reads devsw sb ip image content := by
  intro off less n small
  unfold readResult
  split
  · rename_i refused
    unfold Fs.readi
    rw [if_neg regular.notDevice, if_pos]
    omega
  · rename_i accepted
    rw [not_or, Nat.not_lt, Nat.not_le, regular.size] at accepted
    exact regular.holds.readi devsw sb regular.notDevice regular.size accepted.1 accepted.2

/-- `writei` writes a file, or refuses, and `readi` reads what is there afterwards. -/
theorem readi_writei (devsw : Devsw) (files : Files sb inodes dinode image) (member : inum ∈ inodes)
    (regular : Regular (dinode inum) image content) (src : List Byte) (off : ℕ) (small : src.length < 2 ^ 32)
    (enough : missing image (dinode inum) (places off src.length) ≤ free sb image) :
    (Refused (dinode inum) off src.length →
      writei devsw sb inum (dinode inum) image src off = some (none, dinode inum, image) ∧
      Reads devsw sb (dinode inum) image content) ∧
    (¬Refused (dinode inum) off src.length → ∃ ip' image',
      writei devsw sb inum (dinode inum) image src off = some (some src.length, ip', image') ∧
      Written devsw sb inodes dinode image inum content src off ip' image') := by
  constructor
  · intro refused
    exact ⟨writei_refused devsw sb inum regular.notDevice regular.size_le small refused, regular.reads devsw sb⟩
  · intro accepted
    have file := files.file member regular
    rcases file.exists_writei devsw regular.size accepted enough with ⟨ip', image', isWrite, wrote⟩
    have regular' := wrote.regular
    rw [Refused, not_or, Nat.not_lt, regular.size] at accepted
    refine ⟨ip', image', isWrite, files.change member wrote.file wrote.change, regular', ?_, wrote.disk,
      fun j other different => files.untouched member wrote.change other different, regular'.reads devsw sb⟩
    rw [wrote.size, length_patch src accepted.1, regular.size]

theorem emptyFile_files : Files eightBlocks {1} (fun _ => emptyFile) fourUsed := by
  have file := emptyFile_holds
  have isMeta : ∀ b, IsMetadata eightBlocks {1} b → IsMeta eightBlocks 1 b := by
    rintro b (zero | ⟨i, isInode, isBlock⟩ | isBitmap)
    · exact .inl zero
    · rw [Set.mem_singleton_iff.1 isInode] at isBlock
      exact .inr (.inl isBlock)
    · exact .inr (.inr isBitmap)
  refine ⟨file.small, fun i isInode c less => ?_, fun b less isMetadata => file.metadata b less (isMeta b isMetadata),
    fun i isInode k bound has => absurd (slot_none rfl) has, file.mapping⟩
  rw [Set.mem_singleton_iff.1 isInode]
  exact file.apart c less

theorem emptyFile_regular : Regular emptyFile fourUsed [] := ⟨by decide, rfl, emptyFile_holds.inodeHolds⟩

/-- Two bytes are written to an empty file. -/
theorem readi_writei_twoBytes : ∃ ip' image',
    writei ⟨fun _ _ => none, fun _ _ => none⟩ eightBlocks 1 emptyFile fourUsed [1, 2] 0 =
      some (some 2, ip', image') ∧
    Written ⟨fun _ _ => none, fun _ _ => none⟩ eightBlocks {1} (fun _ => emptyFile) fourUsed 1 [] [1, 2] 0 ip'
      image' := by
  have written := readi_writei ⟨fun _ _ => none, fun _ _ => none⟩ emptyFile_files (Set.mem_singleton 1)
    emptyFile_regular [1, 2] 0 (by decide) (by decide +kernel)
  refine written.2 ?_
  unfold Refused
  decide

end Xv6.Fs
