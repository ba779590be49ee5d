import Xv6.Fs.Inode

/-!
# Writing to an inode

`balloc` never yields a block of metadata or of an inode, and `bmap` and `writei` keep the blocks of an
inode apart.
-/

namespace Xv6.Fs

open Bytes

variable {sb : Superblock} {ip ip' : Dinode} {image image' : ℕ → Block} {content src : List Byte}
  {inum k x y b off off' passes : ℕ}

/-- The boot block, the block of the inode and the bitmap. -/
def IsMeta (sb : Superblock) (inum b : ℕ) : Prop :=
  b = 0 ∨ b = iblock inum sb ∨ ∃ c < sb.size, b = bblock c sb

/-- The inode holds these bytes, in blocks of its own that the bitmap marks. -/
structure FileHolds (sb : Superblock) (inum : ℕ) (ip : Dinode) (image : ℕ → Block) (content : List Byte) :
    Prop where
  small : sb.size ≤ 256 ^ 4
  apart : ∀ c < sb.size, bblock c sb ≠ iblock inum sb
  metadata : ∀ b < sb.size, IsMeta sb inum b → inUse sb image b = true
  blocks : ∀ k ≤ maxfile, slot image ip k ≠ 0 → slot image ip k < sb.size ∧
    inUse sb image (slot image ip k) = true ∧ ¬IsMeta sb inum (slot image ip k)
  mapping : ∃ used, Mapping {inum} (fun _ => ip) image used
  contents : Contents {inum} (fun _ => ip) image fun _ => content
  notDevice : ip.type ≠ tDev

theorem FileHolds.inodeHolds (file : FileHolds sb inum ip image content) : InodeHolds image ip content :=
  file.contents.inode (Set.mem_singleton inum)

/-- What `balloc` does. -/
theorem balloc_eq (isAlloc : balloc sb image = some (x, image')) : x < sb.size ∧ inUse sb image x = false ∧
    image' = Function.update
      (Function.update image (bblock x sb) (setBit (image (bblock x sb)) (x % bpb))) x zeroes := by
  unfold balloc at isAlloc
  rcases Option.bind_eq_some_iff.1 isAlloc with ⟨b, found, result⟩
  rw [Option.pure_def, Option.some.injEq, Prod.mk.injEq] at result
  rcases result with ⟨rfl, rfl⟩
  have isClear := List.find?_some found
  have member := List.mem_of_find?_eq_some found
  rw [Bool.not_eq_true'] at isClear
  exact ⟨List.mem_range.1 member, isClear, rfl⟩

/-- A block that `balloc` has yielded. -/
structure Fresh (sb : Superblock) (inum : ℕ) (ip : Dinode) (image : ℕ → Block) (x : ℕ) : Prop where
  notZero : x ≠ 0
  less : x < sb.size
  marked : inUse sb image x = true
  notMeta : ¬IsMeta sb inum x
  other : ∀ k ≤ maxfile, slot image ip k ≠ x
  zero : image x = zeroes

/-- `balloc` changes the block that it yields and a block of the bitmap. -/
theorem balloc_other (isAlloc : balloc sb image = some (x, image')) (notX : y ≠ x)
    (notBitmap : ∀ c < sb.size, y ≠ bblock c sb) : image' y = image y := by
  rcases balloc_eq isAlloc with ⟨less, _, rfl⟩
  rw [Function.update_of_ne notX, Function.update_of_ne (notBitmap x less)]

/-- A block that the bitmap marks is not the one that `balloc` yields. -/
theorem balloc_ne (isAlloc : balloc sb image = some (x, image')) (marked : inUse sb image y = true) : y ≠ x := by
  rintro rfl
  rw [(balloc_eq isAlloc).2.1] at marked
  exact Bool.false_ne_true marked

theorem FileHolds.balloc_notMeta (file : FileHolds sb inum ip image content)
    (isAlloc : Fs.balloc sb image = some (x, image')) : ¬IsMeta sb inum x :=
  fun isMeta => balloc_ne isAlloc (file.metadata x (balloc_eq isAlloc).1 isMeta) rfl

/-- The bitmap marks the block that `balloc` yields, and those that it has marked. -/
theorem FileHolds.inUse_balloc (file : FileHolds sb inum ip image content)
    (isAlloc : Fs.balloc sb image = some (x, image')) (inside : b < sb.size) :
    inUse sb image' b = (decide (b = x) || inUse sb image b) := by
  have bitmapNe : bblock b sb ≠ x := by
    rintro rfl
    exact file.balloc_notMeta isAlloc (.inr (.inr ⟨b, inside, rfl⟩))
  rcases balloc_eq isAlloc with ⟨_, _, rfl⟩
  unfold inUse
  rw [Function.update_of_ne bitmapNe, Function.update_apply]
  split
  · rename_i sameBlock
    rw [sameBlock, bit_setBit]
    have sameBit : b % bpb = x % bpb ↔ b = x := by
      unfold bblock at sameBlock
      unfold bpb bsize at *
      omega
    rw [decide_eq_decide.2 sameBit]
  · rename_i otherBlock
    have different : b ≠ x := by
      rintro rfl
      exact otherBlock rfl
    rw [decide_eq_false different, Bool.false_or]

/-- Blocks of metadata and of data are unchanged, apart from the bitmap. -/
theorem FileHolds.balloc (file : FileHolds sb inum ip image content)
    (isAlloc : Fs.balloc sb image = some (x, image')) :
    FileHolds sb inum ip image' content ∧ Fresh sb inum ip image' x ∧
      ∀ k ≤ maxfile, slot image' ip k = slot image ip k := by
  rcases balloc_eq isAlloc with ⟨less, _, isImage⟩
  have notMeta := file.balloc_notMeta isAlloc
  -- the blocks of the inode are not in the bitmap
  have slotSame : ∀ k ≤ maxfile, slot image ip k ≠ 0 → image' (slot image ip k) = image (slot image ip k) := by
    intro k bound has
    rcases file.blocks k bound has with ⟨_, marked, notMeta'⟩
    exact balloc_other isAlloc (balloc_ne isAlloc marked) fun c inside isBitmap =>
      notMeta' (.inr (.inr ⟨c, inside, isBitmap⟩))
  have slots : ∀ k ≤ maxfile, slot image' ip k = slot image ip k := by
    intro k _
    refine slot_congr fun has => ?_
    have isSlot := slot_indirect image ip
    rw [← isSlot] at has ⊢
    exact slotSame maxfile le_rfl has
  have keeps : ∀ b < sb.size, inUse sb image b = true → inUse sb image' b = true := by
    intro b inside marked
    rw [file.inUse_balloc isAlloc inside, marked, Bool.or_true]
  refine ⟨⟨file.small, file.apart, fun b inside isMeta => keeps b inside (file.metadata b inside isMeta),
    fun k bound has => ?_, ?_, ?_, file.notDevice⟩, ⟨?_, less, ?_, notMeta, fun k bound isX => ?_, ?_⟩, slots⟩
  · rw [slots k bound] at has ⊢
    rcases file.blocks k bound has with ⟨inside, marked, notMeta'⟩
    exact ⟨inside, keeps _ inside marked, notMeta'⟩
  · rcases file.mapping with ⟨used, mapping⟩
    exact ⟨used, mapping.congr fun _ _ => slots⟩
  · exact file.contents.congr fun _ _ k bound has => ⟨slots k bound.le, slotSame k bound.le has⟩
  · rintro rfl
    exact notMeta (.inl rfl)
  · rw [file.inUse_balloc isAlloc less, decide_eq_true rfl, Bool.true_or]
  · rw [slots k bound] at isX
    by_cases has : slot image ip k = 0
    · rw [has] at isX
      exact notMeta (.inl isX.symm)
    · exact balloc_ne isAlloc (file.blocks k bound has).2.1 isX
  · rw [isImage, Function.update_self]

/-- A place of the inode is given a new block. -/
theorem FileHolds.install (file : FileHolds sb inum ip image content) (fresh : Fresh sb inum ip image x)
    (place : k ≤ maxfile) (empty : slot image ip k = 0)
    (self : ∀ l ≤ maxfile, slot image' ip' l = if l = k then x else slot image ip l)
    (metadata : ∀ y, IsMeta sb inum y → image' y = image y)
    (data : ∀ l < maxfile, slot image ip l ≠ 0 → image' (slot image ip l) = image (slot image ip l))
    (isType : ip'.type = ip.type) : FileHolds sb inum ip' image' content := by
  have uses : ∀ b < sb.size, inUse sb image' b = inUse sb image b := by
    intro b inside
    unfold inUse
    rw [metadata _ (.inr (.inr ⟨b, inside, rfl⟩))]
  refine ⟨file.small, file.apart, fun b inside isMeta => ?_, fun l bound has => ?_, ?_, ?_, ?_⟩
  · rw [uses b inside]
    exact file.metadata b inside isMeta
  · rw [self l bound] at has ⊢
    split
    · rw [uses x fresh.less]
      exact ⟨fresh.less, fresh.marked, fresh.notMeta⟩
    · rename_i isOther
      rw [if_neg isOther] at has
      rcases file.blocks l bound has with ⟨inside, marked, notMeta⟩
      rw [uses _ inside]
      exact ⟨inside, marked, notMeta⟩
  · rcases file.mapping with ⟨used, mapping⟩
    have notUsed : x ∉ used := by
      intro member
      rcases (mapping.used x).1 member with ⟨_, i, _, l, bound, isX⟩
      exact fresh.other l bound isX
    have installed := mapping.install (Set.mem_singleton inum) place empty notUsed fresh.notZero self
      fun j isInode different => absurd isInode different
    refine ⟨_, installed.congr fun j isInode l _ => ?_⟩
    rw [Set.mem_singleton_iff.1 isInode, Function.update_self]
  · refine file.contents.congr fun j _ l less has => ⟨?_, data l less has⟩
    rw [self l less.le, if_neg]
    rintro rfl
    exact has empty
  · rw [isType]
    exact file.notDevice

/-- What `bmap` yields. -/
structure Mapped (sb : Superblock) (inum : ℕ) (ip : Dinode) (content : List Byte) (k x : ℕ) (ip' : Dinode)
    (image' : ℕ → Block) : Prop where
  file : FileHolds sb inum ip' image' content
  isSlot : slot image' ip' k = x
  notZero : x ≠ 0
  fields : ip' = { ip with addrs := ip'.addrs }

/-- The indirect block is there, or is allocated. -/
theorem FileHolds.loadIndirect (file : FileHolds sb inum ip image content)
    (isLoaded : Fs.loadIndirect sb ip image = some (ip', image')) :
    FileHolds sb inum ip' image' content ∧ ip'.addr ndirect ≠ 0 ∧ ip' = { ip with addrs := ip'.addrs } := by
  unfold Fs.loadIndirect at isLoaded
  split at isLoaded
  · rename_i none
    rcases Option.bind_eq_some_iff.1 isLoaded with ⟨⟨x, image₁⟩, isBlock, result⟩
    rw [Option.pure_def, Option.some.injEq, Prod.mk.injEq] at result
    rcases result with ⟨rfl, rfl⟩
    rcases file.balloc isBlock with ⟨file₁, fresh, slots⟩
    have empty : slot image₁ ip maxfile = 0 := (slot_indirect _ _).trans none
    have zero : ∀ m < bsize, image₁ x m = 0 := by
      intro m _
      rw [fresh.zero]
      rfl
    refine ⟨file₁.install fresh le_rfl empty (fun l bound => slot_setIndirect none zero fresh.notZero bound)
      (fun _ _ => rfl) (fun _ _ _ => rfl) rfl, ?_, rfl⟩
    rw [addr_setAddr (by decide) (by decide), if_pos rfl]
    exact fresh.notZero
  · rename_i has
    rw [Option.some.injEq, Prod.mk.injEq] at isLoaded
    rcases isLoaded with ⟨rfl, rfl⟩
    exact ⟨file, has, rfl⟩

/-- `bmap` for a block behind the direct ones, when the indirect block is there. -/
theorem FileHolds.entry (file : FileHolds sb inum ip image content) (more : ndirect ≤ k) (inside : k < maxfile)
    (has : ip.addr ndirect ≠ 0) (zero : uintAt (image (ip.addr ndirect)) (k - ndirect) = 0)
    (isAlloc : Fs.balloc sb image = some (x, image')) :
    Mapped sb inum ip content k x ip
      (Function.update image' (ip.addr ndirect) (setUint (image' (ip.addr ndirect)) (k - ndirect) x)) := by
  rcases file.balloc isAlloc with ⟨file₁, fresh, slots⟩
  have empty : slot image' ip k = 0 := by
    rw [slots k inside.le, slot_entry more inside, if_neg has]
    exact zero
  have fits : x < 256 ^ 4 := fresh.less.trans_le file.small
  have self : ∀ l ≤ maxfile, slot (Function.update image' (ip.addr ndirect)
      (setUint (image' (ip.addr ndirect)) (k - ndirect) x)) ip l = if l = k then x else slot image' ip l :=
    fun l bound => slot_setUint has more inside fits bound
  have indirect : slot image' ip maxfile = ip.addr ndirect := slot_indirect _ _
  refine ⟨file₁.install fresh inside.le empty self (fun y isMeta => ?_) (fun l less notZero => ?_) rfl, ?_,
    fresh.notZero, rfl⟩
  · rw [Function.update_of_ne]
    rintro rfl
    rw [← indirect] at has isMeta
    exact (file₁.blocks maxfile le_rfl has).2.2 isMeta
  · rcases file₁.mapping with ⟨used, mapping⟩
    rw [Function.update_of_ne]
    exact mapping.data_ne (Set.mem_singleton inum) less (Set.mem_singleton inum) has
  · exact (self k inside.le).trans (if_pos rfl)

/-- How `bmap` comes to the block at `k`: the block is there or is allocated, in the inode itself or in
its indirect block. -/
inductive BmapCase (sb : Superblock) (ip : Dinode) (image : ℕ → Block) (k : ℕ) :
    ℕ → Dinode → (ℕ → Block) → Prop
  | direct (direct : k < ndirect) (has : ip.addr k ≠ 0) : BmapCase sb ip image k (ip.addr k) ip image
  | newDirect {x : ℕ} {image' : ℕ → Block} (direct : k < ndirect) (none : ip.addr k = 0)
      (isAlloc : Fs.balloc sb image = some (x, image')) :
      BmapCase sb ip image k x (ip.setAddr k x) image'
  | entry {ip₁ : Dinode} {image₁ : ℕ → Block} (more : ndirect ≤ k)
      (isIndirect : Fs.loadIndirect sb ip image = some (ip₁, image₁))
      (has : uintAt (image₁ (ip₁.addr ndirect)) (k - ndirect) ≠ 0) :
      BmapCase sb ip image k (uintAt (image₁ (ip₁.addr ndirect)) (k - ndirect)) ip₁ image₁
  | newEntry {x : ℕ} {ip₁ : Dinode} {image₁ image₂ : ℕ → Block} (more : ndirect ≤ k)
      (isIndirect : Fs.loadIndirect sb ip image = some (ip₁, image₁))
      (none : uintAt (image₁ (ip₁.addr ndirect)) (k - ndirect) = 0)
      (isAlloc : Fs.balloc sb image₁ = some (x, image₂)) :
      BmapCase sb ip image k x ip₁ (Function.update image₂ (ip₁.addr ndirect)
        (setUint (image₂ (ip₁.addr ndirect)) (k - ndirect) x))

theorem bmap_case (inside : k < maxfile) (isMap : Fs.bmap sb ip image k = some (x, ip', image')) :
    BmapCase sb ip image k x ip' image' := by
  unfold Fs.bmap at isMap
  by_cases direct : k < ndirect
  · rw [if_pos direct] at isMap
    split at isMap
    · rename_i none
      rcases Option.bind_eq_some_iff.1 isMap with ⟨⟨y, image₁⟩, isAlloc, result⟩
      cases result
      exact .newDirect direct none isAlloc
    · rename_i has
      cases isMap
      exact .direct direct has
  · have more : ndirect ≤ k := Nat.not_lt.1 direct
    have small : k - ndirect < nindirect := by
      unfold maxfile at inside
      omega
    rw [if_neg direct, if_pos small] at isMap
    rcases Option.bind_eq_some_iff.1 isMap with ⟨⟨ip₁, image₁⟩, isIndirect, rest⟩
    dsimp only at rest
    split at rest
    · rename_i none
      rcases Option.bind_eq_some_iff.1 rest with ⟨⟨y, image₂⟩, isAlloc, result⟩
      cases result
      exact .newEntry more isIndirect none isAlloc
    · rename_i has
      cases rest
      exact .entry more isIndirect has

/-- `bmap` keeps the bytes of the inode. -/
theorem FileHolds.bmap (file : FileHolds sb inum ip image content) (inside : k < maxfile)
    (isMap : Fs.bmap sb ip image k = some (x, ip', image')) : Mapped sb inum ip content k x ip' image' := by
  cases bmap_case inside isMap with
  | direct direct has => exact ⟨file, slot_direct direct, has, rfl⟩
  | newDirect direct none isAlloc =>
      rcases file.balloc isAlloc with ⟨file₁, fresh, slots⟩
      have self : ∀ l ≤ maxfile, slot image' (ip.setAddr k x) l = if l = k then x else slot image' ip l :=
        fun l _ => slot_setAddr direct
      have empty : slot image' ip k = 0 := (slot_direct direct).trans none
      refine ⟨file₁.install fresh inside.le empty self (fun _ _ => rfl) (fun _ _ _ => rfl) rfl, ?_,
        fresh.notZero, rfl⟩
      exact (self k inside.le).trans (if_pos rfl)
  | entry more isIndirect has =>
      rcases file.loadIndirect isIndirect with ⟨file₁, hasIndirect, fields⟩
      refine ⟨file₁, ?_, has, fields⟩
      rw [slot_entry more inside, if_neg hasIndirect]
  | newEntry more isIndirect none isAlloc =>
      rcases file.loadIndirect isIndirect with ⟨file₁, hasIndirect, fields⟩
      have mapped := file₁.entry more inside hasIndirect none isAlloc
      exact ⟨mapped.file, mapped.isSlot, mapped.notZero, fields⟩

/-- Bytes are written into one block of the inode. -/
theorem FileHolds.write (file : FileHolds sb inum ip image content) (start : off ≤ content.length)
    (oneBlock : off % bsize + src.length ≤ bsize) (some : src ≠ []) (inside : off / bsize < maxfile)
    (isSlot : slot image ip (off / bsize) = x) (notZero : x ≠ 0) :
    FileHolds sb inum ip (Function.update image x (splice (image x) (off % bsize) src)) (patch content off src) := by
  subst isSlot
  rcases file.mapping with ⟨used, mapping⟩
  have single : inum ∈ ({inum} : Set ℕ) := Set.mem_singleton inum
  rcases file.contents.write mapping single start oneBlock some inside notZero rfl with ⟨slots, contents⟩
  have self := slots inum single
  have notMeta := (file.blocks _ inside.le notZero).2.2
  have uses : ∀ b < sb.size, inUse sb (Function.update image (slot image ip (off / bsize))
      (splice (image (slot image ip (off / bsize))) (off % bsize) src)) b = inUse sb image b := by
    intro b less
    unfold inUse
    rw [Function.update_of_ne]
    rintro isBitmap
    exact notMeta (.inr (.inr ⟨b, less, isBitmap.symm⟩))
  refine ⟨file.small, file.apart, fun b less isMeta => ?_, fun k bound has => ?_, ⟨used, mapping.congr slots⟩, ?_,
    file.notDevice⟩
  · rw [uses b less]
    exact file.metadata b less isMeta
  · rw [self k bound] at has ⊢
    rcases file.blocks k bound has with ⟨less, marked, notMeta'⟩
    rw [uses _ less]
    exact ⟨less, marked, notMeta'⟩
  · refine ⟨fun j isInode m less => ?_, fun j isInode m less => ?_, fun j isInode => ?_⟩
    · rw [Set.mem_singleton_iff] at isInode
      subst isInode
      have mapped := contents.mapped j single m
      rw [Function.update_self] at mapped
      exact mapped less
    · rw [Set.mem_singleton_iff] at isInode
      subst isInode
      have bytes := contents.bytes j single m
      rw [Function.update_self] at bytes
      exact bytes less
    · rw [Set.mem_singleton_iff] at isInode
      subst isInode
      have bound := contents.bound j single
      rw [Function.update_self] at bound
      exact bound

/-- What one pass of the loop writes, and what is left. -/
theorem length_piece {m : ℕ} (empty : src ≠ []) (isM : min src.length (bsize - off % bsize) = m) :
    (src.take m).length = m ∧ (src.drop m).length = src.length - m ∧ src.take m ≠ [] := by
  have positive := List.length_pos_of_ne_nil empty
  have rest := Nat.mod_lt off (show 0 < bsize by decide)
  have isLength : (src.take m).length = m := by
    rw [List.length_take]
    omega
  refine ⟨isLength, List.length_drop, ?_⟩
  rw [← List.length_pos_iff, isLength]
  omega

/-- The loop of `writei` writes all the bytes. -/
theorem FileHolds.writeLoop (passes : ℕ) : ∀ {ip : Dinode} {image : ℕ → Block} {content src : List Byte} {off : ℕ},
    FileHolds sb inum ip image content → src.length ≤ passes → off ≤ content.length →
    off + src.length ≤ maxfile * bsize → Fs.writeLoop sb passes src off ip image = some (off', ip', image') →
    off' = off + src.length ∧ FileHolds sb inum ip' image' (patch content off src) ∧
      ip' = { ip with addrs := ip'.addrs } := by
  have nothing : ∀ {ip : Dinode} {image : ℕ → Block} {content : List Byte} {off : ℕ},
      FileHolds sb inum ip image content → some (off, ip, image) = some (off', ip', image') →
      off' = off + ([] : List Byte).length ∧ FileHolds sb inum ip' image' (patch content off []) ∧
        ip' = { ip with addrs := ip'.addrs } := by
    intro ip image content off file result
    rw [Option.some.injEq, Prod.mk.injEq, Prod.mk.injEq] at result
    rcases result with ⟨rfl, rfl, rfl⟩
    rw [patch_nil]
    exact ⟨rfl, file, rfl⟩
  induction passes with
  | zero =>
      intro ip image content src off file short _ _ isWrite
      have empty := List.eq_nil_of_length_eq_zero (Nat.le_zero.1 short)
      subst empty
      exact nothing file isWrite
  | succ passes ih =>
      intro ip image content src off file short start bound isWrite
      rw [Fs.writeLoop] at isWrite
      by_cases empty : src = []
      · subst empty
        rw [if_pos rfl] at isWrite
        exact nothing file isWrite
      · have positive : 0 < src.length := List.length_pos_iff.2 empty
        have inside : off / bsize < maxfile := div_lt_maxfile (by omega)
        have rest := Nat.mod_lt off (show 0 < bsize by decide)
        rw [if_neg empty] at isWrite
        rcases Option.bind_eq_some_iff.1 isWrite with ⟨⟨x, ip₁, image₁⟩, isMap, next⟩
        dsimp only at next
        generalize isM : min src.length (bsize - off % bsize) = m at next
        rcases length_piece empty isM with ⟨isLength, isRest, some⟩
        have mapped := file.bmap inside isMap
        have written := mapped.file.write start (by omega) some inside mapped.isSlot mapped.notZero
        have isLength' := length_patch (src.take m) start
        rcases ih written (by omega) (by omega) (by omega) next with ⟨isOff, file', fields⟩
        have isAll := patch_patch start (src.take m) (src.drop m)
        rw [List.take_append_drop, isLength] at isAll
        rw [isAll] at file'
        refine ⟨by omega, file', ?_⟩
        rw [mapped.fields] at fields
        exact fields

/-- `iupdate` -/
theorem FileHolds.iupdate (file : FileHolds sb inum ip image content) (isAddrs : ip'.addrs = ip.addrs)
    (isType : ip'.type = ip.type) : FileHolds sb inum ip' (Fs.iupdate sb inum ip' image) content := by
  have other : ∀ y ≠ iblock inum sb, Fs.iupdate sb inum ip' image y = image y :=
    fun y different => Function.update_of_ne different _ _
  have slotSame : ∀ k ≤ maxfile, slot image ip k ≠ 0 →
      Fs.iupdate sb inum ip' image (slot image ip k) = image (slot image ip k) :=
    fun k bound has => other _ fun isInode => (file.blocks k bound has).2.2 (.inr (.inl isInode))
  have slots : ∀ k ≤ maxfile, slot (Fs.iupdate sb inum ip' image) ip' k = slot image ip k := by
    intro k _
    refine (slot_addrs isAddrs).trans (slot_congr fun has => ?_)
    have isSlot := slot_indirect image ip
    rw [← isSlot] at has ⊢
    exact slotSame maxfile le_rfl has
  have uses : ∀ b < sb.size, inUse sb (Fs.iupdate sb inum ip' image) b = inUse sb image b := by
    intro b less
    unfold inUse
    rw [other _ (file.apart b less)]
  refine ⟨file.small, file.apart, fun b less isMeta => ?_, fun k bound has => ?_, ?_, ?_, ?_⟩
  · rw [uses b less]
    exact file.metadata b less isMeta
  · rw [slots k bound] at has ⊢
    rcases file.blocks k bound has with ⟨less, marked, notMeta⟩
    rw [uses _ less]
    exact ⟨less, marked, notMeta⟩
  · rcases file.mapping with ⟨used, mapping⟩
    exact ⟨used, mapping.congr fun _ _ => slots⟩
  · exact file.contents.congr fun _ _ k less has => ⟨slots k less.le, slotSame k less.le has⟩
  · rw [isType]
    exact file.notDevice

/-- `writei` refuses, or it runs the loop and then writes the inode if that has grown. -/
theorem FileHolds.writei_cases (file : FileHolds sb inum ip image content) {devsw : Devsw}
    {result : Option ℕ} (isSize : ip.size = content.length) (small : src.length < 2 ^ 32)
    (isWrite : Fs.writei devsw sb inum ip image src off = some (result, ip', image')) :
    (result = none ∧ ip' = ip ∧ image' = image) ∨
    result = some src.length ∧ off ≤ content.length ∧
      ∃ ip₁ image₁, FileHolds sb inum ip₁ image₁ (patch content off src) ∧
        ip₁ = { ip with addrs := ip₁.addrs } ∧
        (ip.size < off + src.length ∧ ip' = { ip₁ with size := off + src.length } ∧
            image' = Fs.iupdate sb inum ip' image₁ ∨
          (src.length = 0 ∨ off + src.length ≤ ip.size) ∧ ip' = ip₁ ∧ image' = image₁) := by
  unfold Fs.writei at isWrite
  rw [if_neg file.notDevice] at isWrite
  split at isWrite
  · cases isWrite
    exact .inl ⟨rfl, rfl, rfl⟩
  · rename_i start
    rw [not_or, Nat.not_lt, Nat.not_lt, isSize] at start
    split at isWrite
    · cases isWrite
      exact .inl ⟨rfl, rfl, rfl⟩
    · rename_i inside
      have old := file.inodeHolds.bound
      have noOverflow : (off + src.length) % 2 ^ 32 = off + src.length := by
        unfold maxfile ndirect nindirect bsize at old
        omega
      rw [noOverflow, Nat.not_lt] at inside
      rcases Option.bind_eq_some_iff.1 isWrite with ⟨⟨off₁, ip₁, image₁⟩, isLoop, rest⟩
      rcases FileHolds.writeLoop src.length file le_rfl start.1 inside isLoop with ⟨rfl, file₁, fields⟩
      have isSize₁ : ip₁.size = ip.size := by rw [fields]
      dsimp only at rest
      split at rest
      · rename_i grows
        cases rest
        exact .inr ⟨rfl, start.1, ip₁, image₁, file₁, fields, .inl ⟨isSize₁ ▸ grows.2, rfl, rfl⟩⟩
      · rename_i stays
        cases rest
        exact .inr ⟨rfl, start.1, _, _, file₁, fields, .inr ⟨by omega, rfl, rfl⟩⟩

/-- `writei` writes all the bytes, or nothing. -/
theorem FileHolds.writei (file : FileHolds sb inum ip image content) {devsw : Devsw} {result : Option ℕ}
    (isSize : ip.size = content.length) (small : src.length < 2 ^ 32)
    (isWrite : Fs.writei devsw sb inum ip image src off = some (result, ip', image')) :
    (result = none ∧ ip' = ip ∧ image' = image) ∨
    (result = some src.length ∧ off ≤ content.length ∧
      FileHolds sb inum ip' image' (patch content off src) ∧ ip'.size = (patch content off src).length) := by
  rcases file.writei_cases isSize small isWrite with
    refused | ⟨isResult, start, ip₁, image₁, file₁, fields, wrote⟩
  · exact .inl refused
  · have isLength := length_patch src start
    have isSize₁ : ip₁.size = ip.size := by rw [fields]
    refine .inr ⟨isResult, start, ?_⟩
    rcases wrote with ⟨grows, rfl, rfl⟩ | ⟨stays, rfl, rfl⟩
    · refine ⟨file₁.iupdate rfl rfl, ?_⟩
      dsimp only
      omega
    · exact ⟨file₁, by omega⟩

end Xv6.Fs
