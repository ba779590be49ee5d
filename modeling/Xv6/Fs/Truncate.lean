import Xv6.Fs.Mapping
import Xv6.Fs.Inode

/-!
# Truncating an inode

`bfree` and `itrunc`. All blocks of the inode are free afterwards, and no others.
-/

namespace Xv6.Fs

open Bytes

/-- `buf[bi/8] &= ~(1 << (bi%8))` -/
def clearBit (buf : Block) (bi : ℕ) : Block :=
  Function.update buf (bi / 8) (buf (bi / 8) &&& ~~~BitVec.ofNat 8 (1 <<< (bi % 8)))

/-- `bfree` -/
def bfree (sb : Superblock) (b : ℕ) (image : ℕ → Block) : Option (ℕ → Block) :=
  if inUse sb image b then
    some (Function.update image (bblock b sb) (clearBit (image (bblock b sb)) (b % bpb)))
  else none

/-- The first loop of `itrunc`, for `n` addresses from `i` on. -/
def truncDirect (sb : Superblock) : ℕ → ℕ → Dinode → (ℕ → Block) → Option (Dinode × (ℕ → Block))
  | 0, _, ip, image => some (ip, image)
  | n + 1, i, ip, image =>
      if ip.addr i = 0 then truncDirect sb n (i + 1) ip image
      else do
        let image ← bfree sb (ip.addr i) image
        truncDirect sb n (i + 1) (ip.setAddr i 0) image

/-- The second loop, for `n` entries of the indirect block from `j` on. -/
def truncEntries (sb : Superblock) (a : Block) : ℕ → ℕ → (ℕ → Block) → Option (ℕ → Block)
  | 0, _, image => some image
  | n + 1, j, image =>
      if uintAt a j = 0 then truncEntries sb a n (j + 1) image
      else do
        let image ← bfree sb (uintAt a j) image
        truncEntries sb a n (j + 1) image

/-- The second half of `itrunc`: the indirect block. -/
def truncIndirect (sb : Superblock) (ip : Dinode) (image : ℕ → Block) : Option (Dinode × (ℕ → Block)) :=
  if ip.addr ndirect = 0 then some (ip, image)
  else do
    let image ← truncEntries sb (image (ip.addr ndirect)) nindirect 0 image
    let image ← bfree sb (ip.addr ndirect) image
    return (ip.setAddr ndirect 0, image)

/-- `itrunc` -/
def itrunc (sb : Superblock) (inum : ℕ) (ip : Dinode) (image : ℕ → Block) :
    Option (Dinode × (ℕ → Block)) := do
  let (ip, image) ← truncDirect sb ndirect 0 ip image
  let (ip, image) ← truncIndirect sb ip image
  let ip := { ip with size := 0 }
  return (ip, iupdate sb inum ip image)

variable {sb : Superblock} {ip ip' : Dinode} {image image' image'' : ℕ → Block} {buf a : Block}
  {inum b c i j k n : ℕ} {F G : Set ℕ}

theorem bit_clearBit : bit (clearBit buf j) k = (bit buf k && !decide (k = j)) := by
  unfold bit clearBit
  rw [Function.update_apply]
  by_cases sameByte : k / 8 = j / 8
  · have small : k % 8 < 8 := Nat.mod_lt _ (by decide)
    have same : j % 8 = k % 8 ↔ k = j := by omega
    rw [if_pos sameByte, BitVec.getLsbD_and, BitVec.getLsbD_not, BitVec.getLsbD_ofNat, Nat.one_shiftLeft,
      Nat.testBit_two_pow, sameByte]
    simp only [small, same, decide_true, Bool.true_and]
  · have different : k ≠ j := by
      rintro rfl
      exact sameByte rfl
    rw [if_neg sameByte, decide_eq_false different, Bool.not_false, Bool.and_true]

/-! ## Free blocks -/

/-- The blocks of `F` are freed, and nothing else is changed. -/
structure Freed (sb : Superblock) (image image' : ℕ → Block) (F : Set ℕ) : Prop where
  other : ∀ y, (∀ c < sb.size, y ≠ bblock c sb) → image' y = image y
  bits : ∀ c < sb.size, inUse sb image' c = true ↔ inUse sb image c = true ∧ c ∉ F

theorem Freed.refl (sb : Superblock) (image : ℕ → Block) : Freed sb image image ∅ :=
  ⟨fun _ _ => rfl, fun _ _ => by simp⟩

theorem Freed.trans (first : Freed sb image image' F) (second : Freed sb image' image'' G) :
    Freed sb image image'' (F ∪ G) := by
  refine ⟨fun y notBitmap => (second.other y notBitmap).trans (first.other y notBitmap), fun c inside => ?_⟩
  rw [second.bits c inside, first.bits c inside, Set.mem_union, not_or, and_assoc]

theorem bfree_freed (inside : b < sb.size) (marked : inUse sb image b = true) :
    ∃ image', bfree sb b image = some image' ∧ Freed sb image image' {b} := by
  refine ⟨_, if_pos marked, fun y notBitmap => Function.update_of_ne (notBitmap b inside) _ _,
    fun c _ => ?_⟩
  unfold inUse
  rw [Function.update_apply, Set.mem_singleton_iff]
  split
  · rename_i sameBlock
    have sameBit : c % bpb = b % bpb ↔ c = b := by
      unfold bblock at sameBlock
      unfold bpb bsize at *
      omega
    rw [sameBlock, bit_clearBit, Bool.and_eq_true, Bool.not_eq_true', decide_eq_false_iff_not, sameBit]
  · rename_i otherBlock
    have different : c ≠ b := by
      rintro rfl
      exact otherBlock rfl
    simp [different]

/-- The blocks at `n` places from `i` on; an empty place holds 0. -/
def blocksAt (address : ℕ → ℕ) (i n : ℕ) : Set ℕ := {x | x ≠ 0 ∧ ∃ l, i ≤ l ∧ l < i + n ∧ address l = x}

/-- The blocks at `n` places from `i` on are different ones, and all are in use. -/
structure Held (sb : Superblock) (image : ℕ → Block) (address : ℕ → ℕ) (i n : ℕ) : Prop where
  marked : ∀ l, i ≤ l → l < i + n → address l ≠ 0 →
    address l < sb.size ∧ inUse sb image (address l) = true
  single : ∀ l m, i ≤ l → l < i + n → i ≤ m → m < i + n → address l = address m → address l ≠ 0 → l = m

section Held

variable {address address' : ℕ → ℕ}

theorem blocksAt_zero (address : ℕ → ℕ) (i : ℕ) : blocksAt address i 0 = ∅ := by
  ext x
  refine iff_of_false ?_ (Set.notMem_empty x)
  rintro ⟨-, l, more, less, -⟩
  omega

theorem blocksAt_skip (empty : address i = 0) : blocksAt address i (n + 1) = blocksAt address (i + 1) n := by
  ext x
  refine and_congr_right fun notZero => exists_congr fun l => ?_
  constructor
  · rintro ⟨more, less, isBlock⟩
    have different : l ≠ i := by
      rintro rfl
      exact notZero (isBlock.symm.trans empty)
    exact ⟨by omega, by omega, isBlock⟩
  · rintro ⟨more, less, isBlock⟩
    exact ⟨by omega, by omega, isBlock⟩

theorem blocksAt_succ (has : address i ≠ 0) :
    blocksAt address i (n + 1) = {address i} ∪ blocksAt address (i + 1) n := by
  ext x
  rw [Set.mem_union, Set.mem_singleton_iff]
  constructor
  · rintro ⟨notZero, l, more, less, isBlock⟩
    by_cases first : l = i
    · exact .inl (first ▸ isBlock.symm)
    · exact .inr ⟨notZero, l, by omega, by omega, isBlock⟩
  · rintro (rfl | ⟨notZero, l, more, less, isBlock⟩)
    · exact ⟨has, i, le_rfl, by omega, rfl⟩
    · exact ⟨notZero, l, by omega, by omega, isBlock⟩

theorem blocksAt_congr (same : ∀ l, i ≤ l → l < i + n → address' l = address l) :
    blocksAt address' i n = blocksAt address i n := by
  ext x
  refine and_congr_right fun _ => exists_congr fun l => ?_
  refine and_congr_right fun more => and_congr_right fun less => ?_
  rw [same l more less]

theorem Held.congr (held : Held sb image address i n)
    (same : ∀ l, i ≤ l → l < i + n → address' l = address l) : Held sb image address' i n := by
  refine ⟨fun l more less => ?_, fun l m more less more' less' => ?_⟩
  · rw [same l more less]
    exact held.marked l more less
  · rw [same l more less, same m more' less']
    exact held.single l m more less more' less'

theorem Held.tail (held : Held sb image address i (n + 1)) : Held sb image address (i + 1) n :=
  ⟨fun l more less => held.marked l (by omega) (by omega),
    fun l m more less more' less' => held.single l m (by omega) (by omega) (by omega) (by omega)⟩

/-- The blocks of other places stay in use. -/
theorem Held.freed (held : Held sb image address i n) (freed : Freed sb image image' F)
    (apart : ∀ l, i ≤ l → l < i + n → address l ≠ 0 → address l ∉ F) : Held sb image' address i n := by
  refine ⟨fun l more less has => ?_, held.single⟩
  rcases held.marked l more less has with ⟨inside, marked⟩
  exact ⟨inside, (freed.bits _ inside).mpr ⟨marked, apart l more less has⟩⟩

theorem Held.rest (held : Held sb image address i (n + 1)) (has : address i ≠ 0)
    (freed : Freed sb image image' {address i}) : Held sb image' address (i + 1) n := by
  refine held.tail.freed freed fun l more less _ same => ?_
  have first := held.single i l le_rfl (by omega) (by omega) (by omega)
    (Set.mem_singleton_iff.mp same).symm has
  omega

theorem Held.entries (held : Held sb image (uintAt a) j n) :
    ∃ image', truncEntries sb a n j image = some image' ∧
      Freed sb image image' (blocksAt (uintAt a) j n) := by
  induction n generalizing j image with
  | zero => exact ⟨image, rfl, blocksAt_zero (uintAt a) j ▸ Freed.refl sb image⟩
  | succ n ih =>
      unfold truncEntries
      by_cases empty : uintAt a j = 0
      · rw [if_pos empty, blocksAt_skip empty]
        exact ih held.tail
      · rcases held.marked j le_rfl (by omega) empty with ⟨inside, marked⟩
        rcases bfree_freed inside marked with ⟨image₁, isFree, freed⟩
        rcases ih (held.rest empty freed) with ⟨image', run, freed'⟩
        rw [if_neg empty, isFree, blocksAt_succ empty]
        exact ⟨image', run, freed.trans freed'⟩

/-- The first loop frees the direct blocks and erases their addresses. -/
theorem Held.direct (held : Held sb image ip.addr i n) (bound : i + n ≤ 13) :
    ∃ ip' image', truncDirect sb n i ip image = some (ip', image') ∧
      Freed sb image image' (blocksAt ip.addr i n) ∧ ip' = { ip with addrs := ip'.addrs } ∧
      ∀ l < 13, ip'.addr l = if i ≤ l ∧ l < i + n then 0 else ip.addr l := by
  induction n generalizing i ip image with
  | zero =>
      refine ⟨ip, image, rfl, blocksAt_zero ip.addr i ▸ Freed.refl sb image, rfl, fun l _ => ?_⟩
      rw [if_neg (by omega)]
  | succ n ih =>
      unfold truncDirect
      by_cases empty : ip.addr i = 0
      · rcases ih held.tail (by omega) with ⟨ip', image', run, freed, fields, addrs⟩
        rw [if_pos empty, blocksAt_skip empty]
        refine ⟨ip', image', run, freed, fields, fun l less => ?_⟩
        rw [addrs l less]
        by_cases first : l = i
        · rw [first, empty, ite_self, ite_self]
        · have same : i + 1 ≤ l ∧ l < i + 1 + n ↔ i ≤ l ∧ l < i + (n + 1) := by omega
          simp only [same]
      · rcases held.marked i le_rfl (by omega) empty with ⟨inside, marked⟩
        rcases bfree_freed inside marked with ⟨image₁, isFree, freed⟩
        have same : ∀ l, i + 1 ≤ l → l < i + 1 + n → (ip.setAddr i 0).addr l = ip.addr l := by
          intro l more less
          rw [addr_setAddr (by omega) (by omega), if_neg (by omega)]
        have held' := (held.rest empty freed).congr same
        rcases ih held' (by omega) with ⟨ip', image', run, freed', fields, addrs⟩
        rw [blocksAt_congr same] at freed'
        rw [if_neg empty, isFree, blocksAt_succ empty]
        refine ⟨ip', image', run, freed.trans freed', fields, fun l less => ?_⟩
        rw [addrs l less, addr_setAddr (by omega) less]
        by_cases first : l = i
        · rw [if_pos first, ite_self, if_pos (by omega)]
        · have same' : i + 1 ≤ l ∧ l < i + 1 + n ↔ i ≤ l ∧ l < i + (n + 1) := by omega
          rw [if_neg first]
          simp only [same']

end Held

/-! ## `itrunc` -/

/-- The blocks of the inode are its own, and the bitmap and the block of the inode are others. -/
structure OwnsBlocks (sb : Superblock) (inum : ℕ) (ip : Dinode) (image : ℕ → Block) : Prop where
  fits : ip.Fits
  apart : ∀ c < sb.size, bblock c sb ≠ iblock inum sb
  blocks : ∀ k ≤ maxfile, slot image ip k ≠ 0 → slot image ip k < sb.size ∧
    inUse sb image (slot image ip k) = true ∧ ∀ c < sb.size, slot image ip k ≠ bblock c sb
  single : ∀ k ≤ maxfile, ∀ l ≤ maxfile, slot image ip k = slot image ip l → slot image ip k ≠ 0 → k = l

theorem OwnsBlocks.held {address : ℕ → ℕ} (owns : OwnsBlocks sb inum ip image) (place : ℕ → ℕ)
    (same : ∀ l < n, address l = slot image ip (place l)) (inside : ∀ l < n, place l ≤ maxfile)
    (injective : ∀ l m, place l = place m → l = m) : Held sb image address 0 n := by
  refine ⟨fun l _ less has => ?_, fun l m _ less _ less' equal has => ?_⟩
  · rw [Nat.zero_add] at less
    rw [same l less] at has ⊢
    rcases owns.blocks _ (inside l less) has with ⟨bound, marked, -⟩
    exact ⟨bound, marked⟩
  · rw [Nat.zero_add] at less less'
    rw [same l less, same m less'] at equal
    rw [same l less] at has
    exact injective l m (owns.single _ (inside l less) _ (inside m less') equal has)

theorem readInode_iupdate (fits : ip.Fits) : readInode sb (iupdate sb inum ip image) inum = ip := by
  unfold readInode iupdate
  rw [Function.update_self]
  exact dinodeAt_setDinode fits

theorem inUse_iupdate (apart : bblock c sb ≠ iblock inum sb) :
    inUse sb (iupdate sb inum ip image) c = inUse sb image c := by
  unfold inUse iupdate
  rw [Function.update_of_ne apart]

/-- The inode has no blocks any more, and those that it had are free. -/
structure Truncated (sb : Superblock) (inum : ℕ) (ip : Dinode) (image : ℕ → Block) (ip' : Dinode)
    (image' : ℕ → Block) : Prop where
  fields : ip' = { ip with size := 0, addrs := fun _ => 0 }
  free : ∀ c < sb.size, inUse sb image' c = true ↔
    inUse sb image c = true ∧ ∀ k ≤ maxfile, slot image ip k ≠ 0 → slot image ip k ≠ c

theorem notMem_direct (image : ℕ → Block) :
    c ∉ blocksAt ip.addr 0 ndirect ↔ ∀ k < ndirect, slot image ip k ≠ 0 → slot image ip k ≠ c := by
  constructor
  · rintro notIn k less has rfl
    exact notIn ⟨has, k, Nat.zero_le k, by omega, (slot_direct less).symm⟩
  · rintro none ⟨notZero, k, -, less, rfl⟩
    rw [Nat.zero_add] at less
    rw [← slot_direct less] at notZero
    exact none k less notZero (slot_direct less)

theorem notMem_indirect (has : ip.addr ndirect ≠ 0) :
    c ∉ blocksAt (uintAt (image (ip.addr ndirect))) 0 nindirect ∪ {ip.addr ndirect} ↔
      ∀ k ≤ maxfile, ndirect ≤ k → slot image ip k ≠ 0 → slot image ip k ≠ c := by
  have entry : ∀ k, ndirect ≤ k → k < maxfile →
      slot image ip k = uintAt (image (ip.addr ndirect)) (k - ndirect) := by
    intro k more less
    rw [slot_entry more less, if_neg has]
  constructor
  · rintro notIn k bound more notZero rfl
    rcases bound.lt_or_eq with less | rfl
    · refine notIn (.inl ⟨notZero, k - ndirect, Nat.zero_le _, ?_, (entry k more less).symm⟩)
      unfold maxfile at less
      omega
    · exact notIn (.inr (slot_indirect image ip))
  · rintro none (⟨notZero, j, -, less, rfl⟩ | same)
    · have inside : ndirect + j < maxfile := by
        unfold maxfile
        omega
      have isEntry := entry (ndirect + j) (Nat.le_add_right _ _) inside
      rw [Nat.add_sub_cancel_left] at isEntry
      exact none _ inside.le (Nat.le_add_right _ _) (isEntry ▸ notZero) isEntry
    · have isIndirect := slot_indirect image ip
      refine none maxfile le_rfl (by decide) (isIndirect ▸ has) ?_
      rw [isIndirect]
      exact (Set.mem_singleton_iff.mp same).symm

/-- The second half of `itrunc` frees the rest. -/
theorem OwnsBlocks.indirect {ip₁ : Dinode} {image₁ : ℕ → Block} (owns : OwnsBlocks sb inum ip image)
    (freed : Freed sb image image₁ (blocksAt ip.addr 0 ndirect)) (same : ip₁.addr ndirect = ip.addr ndirect) :
    ∃ ip' image' F, truncIndirect sb ip₁ image₁ = some (ip', image') ∧ Freed sb image image' F ∧
      ip' = ip₁.setAddr ndirect 0 ∧
      ∀ c, c ∉ F ↔ ∀ k ≤ maxfile, slot image ip k ≠ 0 → slot image ip k ≠ c := by
  rcases Decidable.em (ip.addr ndirect = 0) with empty | has
  · refine ⟨ip₁, image₁, _, if_pos (same.trans empty), freed, ?_, fun c => ?_⟩
    · have isZero := same.trans empty
      unfold Dinode.addr at isZero
      unfold Dinode.setAddr
      rw [← isZero, Function.update_eq_self]
    · rw [notMem_direct image]
      refine ⟨fun none k bound notZero => ?_, fun none k less => none k ?_⟩
      · refine none k ?_ notZero
        by_contra more
        refine notZero ?_
        unfold slot
        rw [if_neg more, empty, if_pos rfl, ite_self]
      · unfold maxfile
        omega
  · have isIndirect := slot_indirect image ip
    have own := owns.blocks maxfile le_rfl (isIndirect ▸ has)
    rw [isIndirect] at own
    rcases own with ⟨inside, marked, notBitmap⟩
    have sameBlock := freed.other (ip.addr ndirect) notBitmap
    have entry : ∀ l < nindirect, uintAt (image (ip.addr ndirect)) l = slot image ip (ndirect + l) := by
      intro l less
      have inside' : ndirect + l < maxfile := Nat.add_lt_add_left less ndirect
      rw [slot_entry (Nat.le_add_right _ _) inside', if_neg has, Nat.add_sub_cancel_left]
    have held : Held sb image (uintAt (image (ip.addr ndirect))) 0 nindirect :=
      owns.held (fun l => ndirect + l) entry (fun l less => (Nat.add_lt_add_left less ndirect).le)
        fun l m equal => Nat.add_left_cancel equal
    have apart : ∀ x ∈ blocksAt ip.addr 0 ndirect,
        x ∉ blocksAt (uintAt (image (ip.addr ndirect))) 0 nindirect ∪ {ip.addr ndirect} := by
      rintro x ⟨notZero, k, -, less, rfl⟩
      rw [Nat.zero_add] at less
      rw [notMem_indirect has]
      intro l bound more notZero' equal
      have inside' : k ≤ maxfile := by
        unfold maxfile
        omega
      have isDirect : slot image ip k = ip.addr k := slot_direct less
      rw [← isDirect] at equal
      have place := owns.single l bound k inside' equal notZero'
      omega
    have held₁ := held.freed freed fun l more less notZero member =>
      apart _ member (.inl ⟨notZero, l, more, less, rfl⟩)
    rcases held₁.entries with ⟨image₂, run, freed'⟩
    have freed₂ := freed.trans freed'
    have marked₂ : inUse sb image₂ (ip.addr ndirect) = true := by
      rw [freed₂.bits _ inside]
      refine ⟨marked, ?_⟩
      rintro (member | ⟨-, l, -, less, isEntry⟩)
      · exact apart _ member (.inr rfl)
      · rw [Nat.zero_add] at less
        rw [entry l less, ← isIndirect] at isEntry
        have inside' : ndirect + l < maxfile := Nat.add_lt_add_left less ndirect
        have place := owns.single _ inside'.le _ le_rfl isEntry (isEntry ▸ isIndirect.symm ▸ has)
        omega
    rcases bfree_freed inside marked₂ with ⟨image₃, isFree, freed''⟩
    refine ⟨ip₁.setAddr ndirect 0, image₃, _, ?_, freed₂.trans freed'', rfl, fun c => ?_⟩
    · unfold truncIndirect
      rw [same, if_neg has, sameBlock, run]
      change (bfree sb (ip.addr ndirect) image₂ >>= _) = _
      rw [isFree]
      rfl
    · rw [Set.union_assoc, Set.mem_union, not_or, notMem_direct image, notMem_indirect has]
      constructor
      · rintro ⟨direct, later⟩ k bound
        by_cases less : k < ndirect
        · exact direct k less
        · exact later k bound (Nat.not_lt.mp less)
      · intro none
        refine ⟨fun k less => none k ?_, fun k bound _ => none k bound⟩
        unfold maxfile
        omega


theorem OwnsBlocks.itrunc (owns : OwnsBlocks sb inum ip image) :
    ∃ ip' image', itrunc sb inum ip image = some (ip', image') ∧ Truncated sb inum ip image ip' image' ∧
      readInode sb image' inum = ip' := by
  have held : Held sb image ip.addr 0 ndirect :=
    owns.held id (fun l less => (slot_direct less).symm)
      (fun l less => by unfold maxfile; dsimp only [id]; omega) fun _ _ same => same
  rcases held.direct (by decide) with ⟨ip₁, image₁, run₁, freed₁, fields₁, addrs₁⟩
  have same : ip₁.addr ndirect = ip.addr ndirect := by
    rw [addrs₁ ndirect (by decide), if_neg (by decide)]
  rcases owns.indirect freed₁ same with ⟨ip₂, image₂, F, run₂, freed₂, isIp, notMem⟩
  have erased : ip₂.addrs = fun _ => 0 := by
    funext l
    have isAddr : ip₂.addrs l = ip₂.addr l := by
      unfold Dinode.addr
      rw [Fin.ofNat_val_eq_self]
    rw [isAddr, isIp, addr_setAddr (by decide) l.isLt]
    split
    · rfl
    · rename_i direct
      have less := l.isLt
      rw [addrs₁ l less, if_pos]
      unfold ndirect at *
      omega
  have isInode : { ip₂ with size := 0 } = { ip with size := 0, addrs := fun _ => 0 } := by
    rw [← erased, isIp]
    unfold Dinode.setAddr
    rw [fields₁]
  have fits : { ip₂ with size := 0 }.Fits := by
    rw [isInode]
    exact ⟨owns.fits.type, owns.fits.major, owns.fits.minor, owns.fits.nlink, Nat.pow_pos (by decide),
      fun _ => Nat.pow_pos (by decide)⟩
  refine ⟨{ ip₂ with size := 0 }, iupdate sb inum { ip₂ with size := 0 } image₂, ?_, ⟨isInode, fun c inside => ?_⟩, readInode_iupdate fits⟩
  · unfold Fs.itrunc
    rw [run₁, Option.bind_eq_bind, Option.bind_some]
    dsimp only
    rw [run₂]
    rfl
  · rw [inUse_iupdate (owns.apart c inside), freed₂.bits c inside, notMem]

end Xv6.Fs
