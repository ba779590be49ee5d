import Xv6.Fs.Mapping

/-!
# Inodes of the kernel

`fs.c`, from `readsb` to `writei`. The image holds the blocks as they are seen through the buffer cache,
and an inode of the cache holds the fields of the inode on disk. A panic yields nothing.
-/

namespace Xv6.Fs

open Bytes

/-- `T_DEV` -/
def tDev : ℕ := 3

/-- `devsw`: what the functions of a device yield, given its number. -/
structure Devsw where
  read : ℕ → ℕ → Option (List Byte)
  write : ℕ → List Byte → Option ℕ

/-- `readsb` -/
def readsb (image : ℕ → Block) : Superblock :=
  { size := uintAt (image 1) 0
    nblocks := uintAt (image 1) 1
    ninodes := uintAt (image 1) 2
    nlog := uintAt (image 1) 3
    logstart := uintAt (image 1) 4
    inodestart := uintAt (image 1) 5
    bmapstart := uintAt (image 1) 6 }

/-- What `ilock` reads. -/
def readInode (sb : Superblock) (image : ℕ → Block) (inum : ℕ) : Dinode :=
  dinodeAt (image (iblock inum sb)) (inum % ipb)

/-- `iupdate` -/
def iupdate (sb : Superblock) (inum : ℕ) (ip : Dinode) (image : ℕ → Block) : ℕ → Block :=
  Function.update image (iblock inum sb) (setDinode (image (iblock inum sb)) (inum % ipb) ip)

/-- Whether the bitmap says that a block is in use. -/
def inUse (sb : Superblock) (image : ℕ → Block) (b : ℕ) : Bool :=
  bit (image (bblock b sb)) (b % bpb)

/-- `balloc`; its two loops visit the blocks in order. -/
def balloc (sb : Superblock) (image : ℕ → Block) : Option (ℕ × (ℕ → Block)) := do
  let b ← (List.range sb.size).find? fun b => !inUse sb image b
  let marked := Function.update image (bblock b sb) (setBit (image (bblock b sb)) (b % bpb))
  return (b, Function.update marked b zeroes)

/-- The indirect block in `bmap`. -/
def loadIndirect (sb : Superblock) (ip : Dinode) (image : ℕ → Block) : Option (Dinode × (ℕ → Block)) :=
  if ip.addr ndirect = 0 then do
    let (addr, image) ← balloc sb image
    return (ip.setAddr ndirect addr, image)
  else some (ip, image)

/-- `bmap` -/
def bmap (sb : Superblock) (ip : Dinode) (image : ℕ → Block) (bn : ℕ) :
    Option (ℕ × Dinode × (ℕ → Block)) :=
  if bn < ndirect then
    if ip.addr bn = 0 then do
      let (addr, image) ← balloc sb image
      return (addr, ip.setAddr bn addr, image)
    else some (ip.addr bn, ip, image)
  else if bn - ndirect < nindirect then do
    let (ip, image) ← loadIndirect sb ip image
    let addr := ip.addr ndirect
    if uintAt (image addr) (bn - ndirect) = 0 then
      let (x, image) ← balloc sb image
      return (x, ip, Function.update image addr (setUint (image addr) (bn - ndirect) x))
    else return (uintAt (image addr) (bn - ndirect), ip, image)
  else none

/-- The loop of `readi`; every pass reads something. -/
def readLoop (sb : Superblock) : ℕ → ℕ → ℕ → Dinode → (ℕ → Block) →
    Option (List Byte × Dinode × (ℕ → Block))
  | 0, _, _, ip, image => some ([], ip, image)
  | passes + 1, n, off, ip, image =>
      if n = 0 then some ([], ip, image)
      else do
        let (x, ip, image) ← bmap sb ip image (off / bsize)
        let m := min n (bsize - off % bsize)
        let piece := (List.range m).map fun j => image x (off % bsize + j)
        let (rest, ip, image) ← readLoop sb passes (n - m) (off + m) ip image
        return (piece ++ rest, ip, image)

/-- `readi`; its result is the bytes that are read, or nothing for -1. -/
def readi (devsw : Devsw) (sb : Superblock) (ip : Dinode) (image : ℕ → Block) (off n : ℕ) :
    Option (Option (List Byte) × Dinode × (ℕ → Block)) :=
  if ip.type = tDev then some (devsw.read ip.major n, ip, image)
  else if ip.size < off ∨ (off + n) % 2 ^ 32 < off then some (none, ip, image)
  else do
    let n := if ip.size < (off + n) % 2 ^ 32 then ip.size - off else n
    let (data, ip, image) ← readLoop sb n n off ip image
    return (some data, ip, image)

/-- The loop of `writei`; every pass writes something. -/
def writeLoop (sb : Superblock) : ℕ → List Byte → ℕ → Dinode → (ℕ → Block) →
    Option (ℕ × Dinode × (ℕ → Block))
  | 0, _, off, ip, image => some (off, ip, image)
  | passes + 1, src, off, ip, image =>
      if src = [] then some (off, ip, image)
      else do
        let (x, ip, image) ← bmap sb ip image (off / bsize)
        let m := min src.length (bsize - off % bsize)
        writeLoop sb passes (src.drop m) (off + m) ip
          (Function.update image x (splice (image x) (off % bsize) (src.take m)))

/-- `writei`; its result is the number of bytes, or nothing for -1. -/
def writei (devsw : Devsw) (sb : Superblock) (inum : ℕ) (ip : Dinode) (image : ℕ → Block) (src : List Byte)
    (off : ℕ) : Option (Option ℕ × Dinode × (ℕ → Block)) :=
  if ip.type = tDev then some (devsw.write ip.major src, ip, image)
  else if ip.size < off ∨ (off + src.length) % 2 ^ 32 < off then some (none, ip, image)
  else if maxfile * bsize < (off + src.length) % 2 ^ 32 then some (none, ip, image)
  else do
    let (off, ip, image) ← writeLoop sb src.length src off ip image
    if 0 < src.length ∧ ip.size < off then
      let ip := { ip with size := off }
      return (some src.length, ip, iupdate sb inum ip image)
    else return (some src.length, ip, image)

/-! ## Reading what has blocks -/

variable {sb : Superblock} {ip : Dinode} {image : ℕ → Block} {content : List Byte} {off n k : ℕ}

/-- `bmap` finds a block that is there. -/
theorem bmap_slot (sb : Superblock) (inside : k < maxfile) (has : slot image ip k ≠ 0) :
    bmap sb ip image k = some (slot image ip k, ip, image) := by
  unfold bmap
  by_cases direct : k < ndirect
  · rw [slot_direct direct] at has ⊢
    rw [if_pos direct, if_neg has]
  · have entry : slot image ip k = if ip.addr ndirect = 0 then 0 else uintAt (image (ip.addr ndirect)) (k - ndirect) :=
      slot_entry (Nat.not_lt.1 direct) inside
    rw [entry] at has ⊢
    have hasIndirect : ip.addr ndirect ≠ 0 := fun none => has (if_pos none)
    have small : k - ndirect < nindirect := by
      unfold maxfile at inside
      omega
    rw [if_neg hasIndirect] at has ⊢
    have isLoaded : loadIndirect sb ip image = some (ip, image) := if_neg hasIndirect
    rw [if_neg direct, if_pos small, isLoaded]
    dsimp only [Option.bind_eq_bind, Option.bind_some]
    rw [if_neg has]
    rfl

/-- The bytes that the blocks of an inode hold. -/
structure InodeHolds (image : ℕ → Block) (ip : Dinode) (content : List Byte) : Prop where
  mapped : ∀ m < content.length, slot image ip (m / bsize) ≠ 0
  bytes : ∀ m < content.length, image (slot image ip (m / bsize)) (m % bsize) = content.getD m 0
  bound : content.length ≤ maxfile * bsize

theorem Contents.inode {inodes : Set ℕ} {dinode : ℕ → Dinode} {contents : ℕ → List Byte} {i : ℕ}
    (holds : Contents inodes dinode image contents) (member : i ∈ inodes) :
    InodeHolds image (dinode i) (contents i) :=
  ⟨holds.mapped i member, holds.bytes i member, holds.bound i member⟩

theorem InodeHolds.readLoop (holds : InodeHolds image ip content) (sb : Superblock) (passes : ℕ) :
    ∀ {n off}, n ≤ passes → off + n ≤ content.length →
      Fs.readLoop sb passes n off ip image = some ((content.drop off).take n, ip, image) := by
  induction passes with
  | zero =>
      intro n off short _
      rw [Nat.le_zero.1 short]
      rfl
  | succ passes ih =>
      intro n off short inside
      rw [Fs.readLoop]
      by_cases zero : n = 0
      · rw [if_pos zero, zero]
        rfl
      · have less : off < content.length := by omega
        have place : off / bsize < maxfile := div_lt_maxfile (less.trans_le holds.bound)
        have size : 0 < bsize := by decide
        have rest := Nat.mod_lt off size
        rw [if_neg zero, bmap_slot sb place (holds.mapped off less)]
        dsimp only [Option.bind_eq_bind, Option.bind_some]
        generalize isM : min n (bsize - off % bsize) = m
        rw [ih (by omega) (by omega)]
        have isPiece : (List.range m).map (fun j => image (slot image ip (off / bsize)) (off % bsize + j)) =
            (content.drop off).take m := by
          refine List.ext_getElem ?_ fun j inside₁ _ => ?_
          · rw [List.length_map, List.length_range, List.length_take, List.length_drop]
            omega
          · rw [List.length_map, List.length_range] at inside₁
            have split := Nat.div_add_mod off bsize
            have small : off % bsize + j < bsize := by omega
            have position : off + j = bsize * (off / bsize) + (off % bsize + j) := by omega
            have isBlock : (off + j) / bsize = off / bsize := by
              rw [position, Nat.mul_add_div size, Nat.div_eq_of_lt small, Nat.add_zero]
            have isByte : (off + j) % bsize = off % bsize + j := by
              rw [position, Nat.mul_add_mod, Nat.mod_eq_of_lt small]
            have byte := holds.bytes (off + j) (by omega)
            rw [isBlock, isByte, List.getD_eq_getElem] at byte
            · rw [List.getElem_map, List.getElem_range, byte, List.getElem_take, List.getElem_drop]
        have isAll : (content.drop off).take m ++ (content.drop (off + m)).take (n - m) =
            (content.drop off).take n := by
          have isSum : n = m + (n - m) := by omega
          conv_rhs => rw [isSum]
          rw [List.take_add, List.drop_drop]
        rw [isPiece]
        dsimp only [Option.bind_eq_bind, Option.bind_some]
        rw [isAll]
        rfl

/-- `readi` yields the bytes of an inode whose blocks are all there, and allocates nothing. -/
theorem InodeHolds.readi (holds : InodeHolds image ip content) (devsw : Devsw) (sb : Superblock)
    (notDevice : ip.type ≠ tDev) (isSize : ip.size = content.length) (start : off ≤ content.length)
    (noOverflow : off + n < 2 ^ 32) :
    Fs.readi devsw sb ip image off n = some (some ((content.drop off).take n), ip, image) := by
  unfold Fs.readi
  rw [if_neg notDevice, Nat.mod_eq_of_lt noOverflow, isSize, if_neg (by omega)]
  dsimp only
  rw [holds.readLoop sb _ le_rfl (by split <;> omega)]
  dsimp only [Option.bind_eq_bind, Option.bind_some]
  split
  · have all : (content.drop off).take (content.length - off) = (content.drop off).take n := by
      rw [List.take_of_length_le (by rw [List.length_drop]), List.take_of_length_le (by
        rw [List.length_drop]
        omega)]
    rw [all]
    rfl
  · rfl

/-- Reading an inode whose blocks are all there allocates nothing. -/
theorem InodeHolds.readi_frame (holds : InodeHolds image ip content) (devsw : Devsw) (sb : Superblock)
    (isSize : ip.size = content.length) (off : ℕ) (small : n < 2 ^ 32) :
    ∃ result, Fs.readi devsw sb ip image off n = some (result, ip, image) := by
  unfold Fs.readi
  split
  · exact ⟨_, rfl⟩
  · split
    · exact ⟨_, rfl⟩
    · rename_i start
      rw [not_or, Nat.not_lt, Nat.not_lt] at start
      have bound := holds.bound
      unfold maxfile ndirect nindirect bsize at bound
      dsimp only
      rw [holds.readLoop sb _ le_rfl (by split <;> omega)]
      exact ⟨_, rfl⟩

end Xv6.Fs
