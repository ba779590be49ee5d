import Xv6.Fs.Layout

/-!
# The blocks of inodes

An inode refers to its blocks from its direct addresses and from the indirect block. The places that
refer to blocks are numbered: those below `MAXFILE` are for data, and `MAXFILE` is for the indirect
block. Both the kernel and `mkfs` keep the blocks of different places apart.
-/

namespace Xv6.Fs

open Bytes

/-- The block that a place of an inode refers to, or 0. -/
def slot (image : ℕ → Block) (d : Dinode) (k : ℕ) : ℕ :=
  if k < ndirect then d.addr k
  else if k < maxfile then
    if d.addr ndirect = 0 then 0 else uintAt (image (d.addr ndirect)) (k - ndirect)
  else d.addr ndirect

variable {image image' : ℕ → Block} {inodes used : Set ℕ} {dinode : ℕ → Dinode} {d d' : Dinode}
  {mapped : ℕ → ℕ} {content : ℕ → List Byte} {data : List Byte} {i j k l x off : ℕ}

theorem slot_direct (less : k < ndirect) : slot image d k = d.addr k := if_pos less

theorem slot_indirect (image : ℕ → Block) (d : Dinode) : slot image d maxfile = d.addr ndirect := by
  unfold slot
  rw [if_neg (by decide), if_neg (by decide)]

theorem slot_entry (more : ndirect ≤ k) (less : k < maxfile) :
    slot image d k = if d.addr ndirect = 0 then 0 else uintAt (image (d.addr ndirect)) (k - ndirect) := by
  unfold slot
  rw [if_neg (Nat.not_lt.2 more), if_pos less]

/-- The places do not depend on blocks that are not the indirect block. -/
theorem slot_congr (same : d.addr ndirect ≠ 0 → image' (d.addr ndirect) = image (d.addr ndirect)) :
    slot image' d k = slot image d k := by
  unfold slot
  by_cases none : d.addr ndirect = 0
  · simp [none]
  · rw [same none]

theorem slot_addrs (same : d'.addrs = d.addrs) :
    slot image d' k = slot image d k := by
  unfold slot Dinode.addr
  rw [same]

theorem slot_none (none : d.addrs = fun _ => 0) : slot image d k = 0 := by
  have zero : ∀ j, d.addr j = 0 := by
    intro j
    unfold Dinode.addr
    rw [none]
  unfold slot
  rw [zero, zero]
  simp

/-- Different places of the inodes refer to different blocks, those that are used. -/
structure Mapping (inodes : Set ℕ) (dinode : ℕ → Dinode) (image : ℕ → Block) (used : Set ℕ) : Prop where
  used : ∀ x, x ∈ used ↔ x ≠ 0 ∧ ∃ i ∈ inodes, ∃ k ≤ maxfile, slot image (dinode i) k = x
  single : ∀ i ∈ inodes, ∀ j ∈ inodes, ∀ k ≤ maxfile, ∀ l ≤ maxfile,
    slot image (dinode i) k = slot image (dinode j) l → slot image (dinode i) k ≠ 0 → i = j ∧ k = l

theorem Mapping.congr (mapping : Mapping inodes dinode image used) {dinode' : ℕ → Dinode}
    (slots : ∀ i ∈ inodes, ∀ k ≤ maxfile, slot image' (dinode' i) k = slot image (dinode i) k) :
    Mapping inodes dinode' image' used := by
  refine ⟨fun x => (mapping.used x).trans ?_, fun i isInode j isInode' k bound l bound' => ?_⟩
  · refine and_congr_right fun _ => exists_congr fun i => and_congr_right fun isInode => ?_
    refine exists_congr fun k => and_congr_right fun bound => ?_
    rw [slots i isInode k bound]
  · rw [slots i isInode k bound, slots j isInode' l bound']
    exact mapping.single i isInode j isInode' k bound l bound'

/-- A place of an inode is given a block that is not used. -/
theorem Mapping.install (mapping : Mapping inodes dinode image used) (member : i ∈ inodes)
    (place : k ≤ maxfile) (empty : slot image (dinode i) k = 0) (fresh : x ∉ used) (notZero : x ≠ 0)
    (self : ∀ l ≤ maxfile, slot image' d' l = if l = k then x else slot image (dinode i) l)
    (others : ∀ j ∈ inodes, j ≠ i → ∀ l ≤ maxfile, slot image' (dinode j) l = slot image (dinode j) l) :
    Mapping inodes (Function.update dinode i d') image' (insert x used) := by
  have slots : ∀ j ∈ inodes, ∀ l ≤ maxfile, slot image' (Function.update dinode i d' j) l =
      if j = i ∧ l = k then x else slot image (dinode j) l := by
    intro j isInode l bound
    by_cases same : j = i
    · subst same
      rw [Function.update_self, self l bound]
      simp
    · rw [Function.update_of_ne same, others j isInode same l bound, if_neg fun both => same both.1]
  have notFresh : ∀ j ∈ inodes, ∀ l ≤ maxfile, slot image (dinode j) l ≠ x := by
    rintro j isInode l bound rfl
    exact fresh ((mapping.used _).2 ⟨notZero, j, isInode, l, bound, rfl⟩)
  refine ⟨fun y => ?_, fun j isInode j' isInode' l bound l' bound' same notNull => ?_⟩
  · rw [Set.mem_insert_iff, mapping.used]
    constructor
    · rintro (rfl | ⟨notNull, j, isInode, l, bound, rfl⟩)
      · exact ⟨notZero, i, member, k, place, by rw [slots i member k place, if_pos ⟨rfl, rfl⟩]⟩
      · refine ⟨notNull, j, isInode, l, bound, ?_⟩
        rw [slots j isInode l bound, if_neg]
        rintro ⟨rfl, rfl⟩
        exact notNull empty
    · rintro ⟨notNull, j, isInode, l, bound, isY⟩
      rw [slots j isInode l bound] at isY
      split at isY
      · exact .inl isY.symm
      · exact .inr ⟨notNull, j, isInode, l, bound, isY⟩
  · rw [slots j isInode l bound] at same notNull
    rw [slots j' isInode' l' bound'] at same
    split at same
    · rename_i first
      split at same
      · rename_i second
        exact ⟨first.1.trans second.1.symm, first.2.trans second.2.symm⟩
      · exact absurd same.symm (notFresh j' isInode' l' bound')
    · rename_i first
      rw [if_neg first] at notNull
      split at same
      · exact absurd same (notFresh j isInode l bound)
      · exact mapping.single j isInode j' isInode' l bound l' bound' same notNull

/-- The indirect block of an inode is not the one of another. -/
theorem Mapping.indirect_ne (mapping : Mapping inodes dinode image used) (first : i ∈ inodes)
    (second : j ∈ inodes) (different : j ≠ i) (has : (dinode i).addr ndirect ≠ 0) :
    (dinode j).addr ndirect ≠ (dinode i).addr ndirect := by
  intro same
  have slots : slot image (dinode i) maxfile = slot image (dinode j) maxfile := by
    rw [slot_indirect, slot_indirect, same]
  have one := mapping.single i first j second maxfile le_rfl maxfile le_rfl slots (by
    rw [slot_indirect]
    exact has)
  exact different one.1.symm

/-- A block of data is not an indirect block. -/
theorem Mapping.data_ne (mapping : Mapping inodes dinode image used) (first : i ∈ inodes) (less : k < maxfile)
    (second : j ∈ inodes) (has : (dinode j).addr ndirect ≠ 0) :
    slot image (dinode i) k ≠ (dinode j).addr ndirect := by
  intro same
  rw [← slot_indirect image] at same has
  have one := mapping.single j second i first maxfile le_rfl k less.le same.symm has
  exact less.ne one.2.symm

/-! ## Giving a block to a place -/

/-- `addrs[k] = x` for a direct block -/
theorem slot_setAddr (less : k < ndirect) :
    slot image (d.setAddr k x) l = if l = k then x else slot image d l := by
  have small : k < 13 := less.trans (by decide)
  have indirect : (d.setAddr k x).addr ndirect = d.addr ndirect := by
    rw [addr_setAddr small (by decide), if_neg (Ne.symm less.ne)]
  unfold slot
  rw [indirect]
  by_cases direct : l < ndirect
  · rw [if_pos direct, if_pos direct, addr_setAddr small (direct.trans (by decide))]
  · have other : l ≠ k := by
      rintro rfl
      exact direct less
    rw [if_neg direct, if_neg direct, if_neg other]

/-- `addrs[NDIRECT] = x` for an indirect block without entries -/
theorem slot_setIndirect (none : d.addr ndirect = 0) (zero : ∀ m < bsize, image x m = 0) (notZero : x ≠ 0)
    (bound : l ≤ maxfile) :
    slot image (d.setAddr ndirect x) l = if l = maxfile then x else slot image d l := by
  have self : (d.setAddr ndirect x).addr ndirect = x := by
    rw [addr_setAddr (by decide) (by decide), if_pos rfl]
  unfold slot
  rw [self]
  by_cases direct : l < ndirect
  · have small : ndirect < maxfile := by decide
    rw [if_pos direct, if_pos direct, addr_setAddr (by decide) (direct.trans (by decide)), if_neg direct.ne,
      if_neg (direct.trans small).ne]
  · rw [if_neg direct, if_neg direct]
    by_cases less : l < maxfile
    · rw [if_pos less, if_pos less, if_neg notZero, if_pos none, if_neg less.ne]
      refine uintAt_zero zero ?_
      unfold maxfile at less
      omega
    · rw [if_neg less, if_neg less, if_pos (Nat.le_antisymm bound (Nat.not_lt.1 less))]

/-- `a[bn] = x` in the indirect block -/
theorem slot_setUint (has : d.addr ndirect ≠ 0) (more : ndirect ≤ k) (less : k < maxfile)
    (fits : x < 256 ^ 4) (bound : l ≤ maxfile) :
    slot (Function.update image (d.addr ndirect) (setUint (image (d.addr ndirect)) (k - ndirect) x)) d l =
      if l = k then x else slot image d l := by
  unfold slot
  by_cases direct : l < ndirect
  · have other : l ≠ k := by omega
    rw [if_pos direct, if_pos direct, if_neg other]
  · rw [if_neg direct, if_neg direct]
    by_cases inside : l < maxfile
    · rw [if_pos inside, if_pos inside, if_neg has, if_neg has, Function.update_self, uintAt_setUint fits]
      have same : l - ndirect = k - ndirect ↔ l = k := by omega
      simp only [same]
    · have other : l ≠ k := by omega
      rw [if_neg inside, if_neg inside, if_neg other]

/-- An entry of the indirect block of an inode is given a block. -/
theorem Mapping.entry (mapping : Mapping inodes dinode image used) (member : i ∈ inodes)
    (more : ndirect ≤ k) (less : k < maxfile) (has : (dinode i).addr ndirect ≠ 0)
    (empty : slot image (dinode i) k = 0) (fresh : x ∉ used) (notZero : x ≠ 0) (fits : x < 256 ^ 4)
    (isImage : image' = Function.update image ((dinode i).addr ndirect)
      (setUint (image ((dinode i).addr ndirect)) (k - ndirect) x)) :
    Mapping inodes dinode image' (insert x used) ∧
    (∀ l ≤ maxfile, slot image' (dinode i) l = if l = k then x else slot image (dinode i) l) ∧
    (∀ j ∈ inodes, j ≠ i → ∀ l ≤ maxfile, slot image' (dinode j) l = slot image (dinode j) l) ∧
    ∀ j ∈ inodes, ∀ l < maxfile, image' (slot image (dinode j) l) = image (slot image (dinode j) l) := by
  have self : ∀ l ≤ maxfile, slot image' (dinode i) l = if l = k then x else slot image (dinode i) l := by
    intro l bound
    rw [isImage]
    exact slot_setUint has more less fits bound
  have others : ∀ j ∈ inodes, j ≠ i → ∀ l ≤ maxfile, slot image' (dinode j) l = slot image (dinode j) l := by
    intro j isInode different l _
    refine slot_congr fun _ => ?_
    rw [isImage, Function.update_of_ne (mapping.indirect_ne member isInode different has)]
  have installed := mapping.install member less.le empty fresh notZero self others
  rw [Function.update_eq_self] at installed
  refine ⟨installed, self, others, fun j isInode l inside => ?_⟩
  rw [isImage, Function.update_of_ne (mapping.data_ne isInode inside member has)]

/-! ## The bytes of a file -/

/-- `data` is written over `content` from `off`. -/
def patch (content : List Byte) (off : ℕ) (data : List Byte) : List Byte :=
  content.take off ++ data ++ content.drop (off + data.length)

theorem length_patch {content : List Byte} (data : List Byte) (inside : off ≤ content.length) :
    (patch content off data).length = max content.length (off + data.length) := by
  unfold patch
  rw [List.length_append, List.length_append, List.length_take, List.length_drop]
  omega

theorem getD_patch {content : List Byte} (inside : off ≤ content.length) (m : ℕ) :
    (patch content off data).getD m 0 =
      if off ≤ m ∧ m < off + data.length then data.getD (m - off) 0 else content.getD m 0 := by
  have front : (content.take off).length = off := by rw [List.length_take, Nat.min_eq_left inside]
  unfold patch
  rw [List.append_assoc]
  by_cases before : m < off
  · rw [if_neg (by omega), List.getD_append _ _ _ _ (by omega)]
    simp only [List.getD_eq_getElem?_getD, List.getElem?_take, before, if_true]
  · rw [List.getD_append_right _ _ _ _ (by omega), front]
    by_cases within : m < off + data.length
    · rw [if_pos ⟨Nat.not_lt.1 before, within⟩, List.getD_append _ _ _ _ (by omega)]
    · rw [if_neg (by omega), List.getD_append_right _ _ _ _ (by omega)]
      simp only [List.getD_eq_getElem?_getD, List.getElem?_drop]
      congr 2
      omega

theorem patch_nil (content : List Byte) (off : ℕ) : patch content off [] = content := by
  unfold patch
  rw [List.append_nil, List.length_nil, Nat.add_zero, List.take_append_drop]

/-- Two pieces are written one after the other. -/
theorem patch_patch {content : List Byte} (inside : off ≤ content.length) (data data' : List Byte) :
    patch (patch content off data) (off + data.length) data' = patch content off (data ++ data') := by
  have front : (content.take off ++ data).length = off + data.length := by
    rw [List.length_append, List.length_take, Nat.min_eq_left inside]
  unfold patch
  rw [← front, List.take_left, List.drop_append, front, List.drop_eq_nil_of_le (by omega), List.nil_append,
    Nat.add_sub_cancel_left, List.drop_drop, List.length_append, List.append_assoc (content.take off),
    Nat.add_assoc]

/-- The blocks of the inodes hold these bytes. -/
structure Contents (inodes : Set ℕ) (dinode : ℕ → Dinode) (image : ℕ → Block) (content : ℕ → List Byte) :
    Prop where
  mapped : ∀ i ∈ inodes, ∀ m < (content i).length, slot image (dinode i) (m / bsize) ≠ 0
  bytes : ∀ i ∈ inodes, ∀ m < (content i).length,
    image (slot image (dinode i) (m / bsize)) (m % bsize) = (content i).getD m 0
  bound : ∀ i ∈ inodes, (content i).length ≤ maxfile * bsize

theorem Contents.place (contents : Contents inodes dinode image content) (member : i ∈ inodes) {m : ℕ}
    (inside : m < (content i).length) : m / bsize < maxfile :=
  div_lt_maxfile (inside.trans_le (contents.bound i member))

/-- Places that are given blocks change no bytes. -/
theorem Contents.congr (contents : Contents inodes dinode image content) {dinode' : ℕ → Dinode}
    (slots : ∀ j ∈ inodes, ∀ k < maxfile, slot image (dinode j) k ≠ 0 →
      slot image' (dinode' j) k = slot image (dinode j) k ∧
        image' (slot image (dinode j) k) = image (slot image (dinode j) k)) :
    Contents inodes dinode' image' content := by
  refine ⟨fun j isInode m inside => ?_, fun j isInode m inside => ?_, contents.bound⟩
  · have has := contents.mapped j isInode m inside
    rw [(slots j isInode _ (contents.place isInode inside) has).1]
    exact has
  · have has := contents.mapped j isInode m inside
    rcases slots j isInode _ (contents.place isInode inside) has with ⟨same, bytes⟩
    rw [same, bytes]
    exact contents.bytes j isInode m inside

/-- Bytes are written into one block of an inode. -/
theorem Contents.write (contents : Contents inodes dinode image content)
    (mapping : Mapping inodes dinode image used) (member : i ∈ inodes) (start : off ≤ (content i).length)
    (oneBlock : off % bsize + data.length ≤ bsize) (some : data ≠ [])
    (inside : off / bsize < maxfile) (has : slot image (dinode i) (off / bsize) ≠ 0)
    (isImage : image' = Function.update image (slot image (dinode i) (off / bsize))
      (splice (image (slot image (dinode i) (off / bsize))) (off % bsize) data)) :
    (∀ j ∈ inodes, ∀ k ≤ maxfile, slot image' (dinode j) k = slot image (dinode j) k) ∧
    Contents inodes dinode image' (Function.update content i (patch (content i) off data)) := by
  have positive : 0 < data.length := List.length_pos_iff.2 some
  have slots : ∀ j ∈ inodes, ∀ k ≤ maxfile, slot image' (dinode j) k = slot image (dinode j) k := by
    intro j isInode k _
    refine slot_congr fun notNull => ?_
    rw [isImage, Function.update_of_ne]
    exact fun same => mapping.data_ne member inside isInode notNull same.symm
  have size : 0 < bsize := by decide
  have split := Nat.div_add_mod off bsize
  -- the bytes that are written lie in one block
  have sameBlock : ∀ m, off ≤ m → m < off + data.length → m / bsize = off / bsize ∧
      m % bsize = off % bsize + (m - off) := by
    intro m above below
    have position : m = bsize * (off / bsize) + (off % bsize + (m - off)) := by omega
    have small : off % bsize + (m - off) < bsize := by omega
    constructor
    · conv_lhs => rw [position]
      rw [Nat.mul_add_div size, Nat.div_eq_of_lt small, Nat.add_zero]
    · conv_lhs => rw [position]
      rw [Nat.mul_add_mod, Nat.mod_eq_of_lt small]
  refine ⟨slots, ⟨fun j isInode m less => ?_, fun j isInode m less => ?_, fun j isInode => ?_⟩⟩
  · by_cases same : j = i
    · subst same
      rw [Function.update_self, length_patch _ start] at less
      by_cases old : m < (content j).length
      · rw [slots j isInode _ (contents.place isInode old).le]
        exact contents.mapped j isInode m old
      · have isBlock := (sameBlock m (by omega) (by omega)).1
        rw [isBlock, slots j isInode _ inside.le]
        exact has
    · rw [Function.update_of_ne same] at less
      rw [slots j isInode _ (contents.place isInode less).le]
      exact contents.mapped j isInode m less
  · have writes : ∀ y, image' y = if y = slot image (dinode i) (off / bsize) then
        splice (image y) (off % bsize) data else image y := by
      intro y
      rw [isImage, Function.update_apply]
      split
      · rename_i same
        rw [same]
      · rfl
    by_cases same : j = i
    · subst same
      rw [Function.update_self, length_patch _ start] at less
      rw [Function.update_self, getD_patch start]
      by_cases isNew : off ≤ m ∧ m < off + data.length
      · rcases sameBlock m isNew.1 isNew.2 with ⟨isBlock, position⟩
        rw [if_pos isNew, isBlock, slots j isInode _ inside.le, writes, if_pos rfl, position,
          splice_inside (by omega), List.getD_eq_getElem]
      · have old : m < (content j).length := by omega
        have place := contents.place isInode old
        rw [if_neg isNew, slots j isInode _ place.le, writes]
        split
        · rename_i sameSlot
          have one := mapping.single j isInode j isInode _ place.le _ inside.le sameSlot
            (contents.mapped j isInode m old)
          have position := Nat.div_add_mod m bsize
          rw [splice_outside, contents.bytes j isInode m old]
          rw [one.2] at position
          omega
        · exact contents.bytes j isInode m old
    · rw [Function.update_of_ne same] at less ⊢
      have place := contents.place isInode less
      rw [slots j isInode _ place.le, writes, if_neg, contents.bytes j isInode m less]
      intro sameSlot
      have one := mapping.single j isInode i member _ place.le _ inside.le sameSlot
        (contents.mapped j isInode m less)
      exact same one.1
  · by_cases same : j = i
    · subst same
      rw [Function.update_self, length_patch _ start]
      have old := contents.bound j isInode
      have block : bsize * (off / bsize + 1) ≤ bsize * maxfile := Nat.mul_le_mul_left _ inside
      rw [Nat.mul_add, Nat.mul_one] at block
      rw [Nat.mul_comm maxfile]
      rw [Nat.mul_comm maxfile] at old
      omega
    · rw [Function.update_of_ne same]
      exact contents.bound j isInode

theorem patch_append (content data : List Byte) : patch content content.length data = content ++ data := by
  unfold patch
  rw [List.take_length, List.drop_eq_nil_of_le (Nat.le_add_right _ _), List.append_nil]

end Xv6.Fs
