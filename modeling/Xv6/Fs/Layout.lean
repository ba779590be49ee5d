import Xv6.Lib.Bytes

/-!
# The format of the file system

`fs.h`: blocks, inodes in blocks, block addresses in inodes and in the indirect block, and the bits of
the bitmap.
-/

namespace Xv6.Fs

open Bytes

/-- A block; its bytes are those below `BSIZE`. -/
abbrev Block := ℕ → Byte

/-- `BSIZE` -/
def bsize : ℕ := 512

/-- `NDIRECT` -/
def ndirect : ℕ := 12

/-- `NINDIRECT` -/
def nindirect : ℕ := bsize / 4

/-- `MAXFILE` -/
def maxfile : ℕ := ndirect + nindirect

theorem div_lt_maxfile {off : ℕ} (inside : off < maxfile * bsize) : off / bsize < maxfile :=
  Nat.div_lt_of_lt_mul (Nat.mul_comm maxfile bsize ▸ inside)

/-- `ROOTINO` -/
def rootino : ℕ := 1

/-- `IPB` -/
def ipb : ℕ := bsize / 64

/-- `BPB` -/
def bpb : ℕ := bsize * 8

/-- `DIRSIZ` -/
def dirsiz : ℕ := 14

/-- `FSSIZE` -/
def fssize : ℕ := 1000

/-- `LOGSIZE` -/
def logsize : ℕ := 30

def zeroes : Block := fun _ => 0

/-- `struct superblock` -/
structure Superblock where
  size : ℕ
  nblocks : ℕ
  ninodes : ℕ
  nlog : ℕ
  logstart : ℕ
  inodestart : ℕ
  bmapstart : ℕ
  deriving DecidableEq

/-- `struct dinode`; its numbers have two bytes, the size and the addresses four. -/
@[ext]
structure Dinode where
  type : ℕ := 0
  major : ℕ := 0
  minor : ℕ := 0
  nlink : ℕ := 0
  size : ℕ := 0
  addrs : Fin 13 → ℕ := fun _ => 0

namespace Dinode

/-- `addrs[j]` -/
def addr (d : Dinode) (j : ℕ) : ℕ := d.addrs (Fin.ofNat 13 j)

/-- `addrs[j] = x` -/
def setAddr (d : Dinode) (j x : ℕ) : Dinode :=
  { d with addrs := Function.update d.addrs (Fin.ofNat 13 j) x }

/-- The numbers fit into their bytes. -/
structure Fits (d : Dinode) : Prop where
  type : d.type < 256 ^ 2
  major : d.major < 256 ^ 2
  minor : d.minor < 256 ^ 2
  nlink : d.nlink < 256 ^ 2
  size : d.size < 256 ^ 4
  addrs : ∀ j, d.addrs j < 256 ^ 4

/-- The bytes of an inode. -/
def bytes (d : Dinode) (m : ℕ) : Byte :=
  if m < 2 then byteOf d.type m
  else if m < 4 then byteOf d.major (m - 2)
  else if m < 6 then byteOf d.minor (m - 4)
  else if m < 8 then byteOf d.nlink (m - 6)
  else if m < 12 then byteOf d.size (m - 8)
  else byteOf (d.addr ((m - 12) / 4)) ((m - 12) % 4)

end Dinode

/-- `((struct dinode*)buf)[k]` -/
def dinodeAt (buf : Block) (k : ℕ) : Dinode :=
  { type := get buf 2 (64 * k)
    major := get buf 2 (64 * k + 2)
    minor := get buf 2 (64 * k + 4)
    nlink := get buf 2 (64 * k + 6)
    size := get buf 4 (64 * k + 8)
    addrs := fun j => get buf 4 (64 * k + 12 + 4 * j) }

/-- `((struct dinode*)buf)[k] = d` -/
def setDinode (buf : Block) (k : ℕ) (d : Dinode) (i : ℕ) : Byte :=
  if 64 * k ≤ i ∧ i < 64 * k + 64 then d.bytes (i - 64 * k) else buf i

/-- `((uint*)buf)[j]` -/
def uintAt (buf : Block) (j : ℕ) : ℕ := get buf 4 (4 * j)

/-- `((uint*)buf)[j] = x` -/
def setUint (buf : Block) (j x : ℕ) : Block := put buf 4 (4 * j) x

/-- `IBLOCK` -/
def iblock (inum : ℕ) (sb : Superblock) : ℕ := inum / ipb + sb.inodestart

/-- `BBLOCK` -/
def bblock (b : ℕ) (sb : Superblock) : ℕ := b / bpb + sb.bmapstart

/-- Whether `buf[bi/8]` has the bit `1 << (bi%8)`. -/
def bit (buf : Block) (bi : ℕ) : Bool := (buf (bi / 8)).getLsbD (bi % 8)

/-- `buf[bi/8] |= 1 << (bi%8)` -/
def setBit (buf : Block) (bi : ℕ) : Block :=
  Function.update buf (bi / 8) (buf (bi / 8) ||| BitVec.ofNat 8 (1 <<< (bi % 8)))

variable {d : Dinode} {buf : Block} {j k x : ℕ}

theorem addr_setAddr (jLt : j < 13) (kLt : k < 13) :
    (d.setAddr j x).addr k = if k = j then x else d.addr k := by
  unfold Dinode.addr Dinode.setAddr
  dsimp only
  rw [Function.update_apply]
  have same : Fin.ofNat 13 k = Fin.ofNat 13 j ↔ k = j := by
    rw [Fin.ext_iff, Fin.val_ofNat, Fin.val_ofNat, Nat.mod_eq_of_lt jLt, Nat.mod_eq_of_lt kLt]
  simp only [same]

theorem fits_setAddr (fits : d.Fits) (small : x < 256 ^ 4) : (d.setAddr j x).Fits := by
  refine ⟨fits.type, fits.major, fits.minor, fits.nlink, fits.size, fun l => ?_⟩
  unfold Dinode.setAddr
  dsimp only
  rw [Function.update_apply]
  split
  · exact small
  · exact fits.addrs l

/-- An inode that has been written is read again. -/
theorem dinodeAt_setDinode (fits : d.Fits) : dinodeAt (setDinode buf k d) k = d := by
  have inside : ∀ m < 64, setDinode buf k d (64 * k + m) = d.bytes m := by
    intro m less
    unfold setDinode
    rw [if_pos ⟨Nat.le_add_right _ _, Nat.add_lt_add_left less _⟩, Nat.add_sub_cancel_left]
  have number : ∀ width start value, value < 256 ^ width → start + width ≤ 64 →
      (∀ m < width, d.bytes (start + m) = byteOf value m) →
        get (setDinode buf k d) width (64 * k + start) = value := by
    intro width start value small bound same
    rw [get_eq width value fun m less => ?_, Nat.mod_eq_of_lt small]
    rw [Nat.add_assoc, inside (start + m) (by omega), same m less]
  unfold dinodeAt
  ext j
  · exact number 2 0 _ fits.type (by decide) fun m less => by simp [Dinode.bytes, less]
  · refine number 2 2 _ fits.major (by decide) fun m less => ?_
    unfold Dinode.bytes
    rw [if_neg (by omega), if_pos (by omega), Nat.add_sub_cancel_left]
  · refine number 2 4 _ fits.minor (by decide) fun m less => ?_
    unfold Dinode.bytes
    rw [if_neg (by omega), if_neg (by omega), if_pos (by omega), Nat.add_sub_cancel_left]
  · refine number 2 6 _ fits.nlink (by decide) fun m less => ?_
    unfold Dinode.bytes
    rw [if_neg (by omega), if_neg (by omega), if_neg (by omega), if_pos (by omega),
      Nat.add_sub_cancel_left]
  · refine number 4 8 _ fits.size (by decide) fun m less => ?_
    unfold Dinode.bytes
    rw [if_neg (by omega), if_neg (by omega), if_neg (by omega), if_neg (by omega), if_pos (by omega),
      Nat.add_sub_cancel_left]
  · have bound := j.isLt
    dsimp only
    rw [Nat.add_assoc]
    refine number 4 (12 + 4 * j) _ (fits.addrs j) (by omega) fun m less => ?_
    have position : 12 + 4 * j.val + m - 12 = 4 * j.val + m := by omega
    have index : (4 * j.val + m) / 4 = j := by omega
    have rest : (4 * j.val + m) % 4 = m := by omega
    unfold Dinode.bytes
    rw [if_neg (by omega), if_neg (by omega), if_neg (by omega), if_neg (by omega), if_neg (by omega),
      position, index, rest]
    unfold Dinode.addr
    have same : Fin.ofNat 13 j.val = j := Fin.ext (Nat.mod_eq_of_lt bound)
    rw [same]

/-- The other inodes of the block stay as they are. -/
theorem dinodeAt_setDinode_other (different : j ≠ k) :
    dinodeAt (setDinode buf k d) j = dinodeAt buf j := by
  have outside : ∀ m < 64, setDinode buf k d (64 * j + m) = buf (64 * j + m) := by
    intro m less
    unfold setDinode
    rw [if_neg]
    omega
  have number : ∀ width start, start + width ≤ 64 →
      get (setDinode buf k d) width (64 * j + start) = get buf width (64 * j + start) := by
    intro width start bound
    refine get_congr width fun m less => ?_
    rw [Nat.add_assoc]
    exact outside (start + m) (by omega)
  unfold dinodeAt
  ext l
  · exact number 2 0 (by decide)
  · exact number 2 2 (by decide)
  · exact number 2 4 (by decide)
  · exact number 2 6 (by decide)
  · exact number 4 8 (by decide)
  · have bound := l.isLt
    dsimp only
    rw [Nat.add_assoc]
    exact number 4 (12 + 4 * l) (by omega)

theorem uintAt_setUint (fits : x < 256 ^ 4) :
    uintAt (setUint buf j x) k = if k = j then x else uintAt buf k := by
  unfold uintAt setUint
  split
  · rename_i same
    subst same
    exact get_put_self buf fits
  · exact get_put_other (by omega)

theorem uintAt_zero (zero : ∀ i < bsize, buf i = 0) (inside : j < nindirect) : uintAt buf j = 0 := by
  refine get_zero 4 fun m less => zero _ ?_
  unfold nindirect at inside
  unfold bsize at *
  omega

/-- A bit is set. -/
theorem bit_setBit : bit (setBit buf j) k = (decide (k = j) || bit buf k) := by
  unfold bit setBit
  rw [Function.update_apply]
  by_cases sameByte : k / 8 = j / 8
  · rw [if_pos sameByte, BitVec.getLsbD_or, BitVec.getLsbD_ofNat, Nat.one_shiftLeft, Nat.testBit_two_pow,
      sameByte, Bool.or_comm]
    have small : k % 8 < 8 := Nat.mod_lt _ (by decide)
    have same : j % 8 = k % 8 ↔ k = j := by omega
    simp only [small, same, decide_true, Bool.true_and]
  · have different : k ≠ j := by
      rintro rfl
      exact sameByte rfl
    rw [if_neg sameByte, decide_eq_false different, Bool.false_or]

theorem bit_zeroes : bit zeroes k = false := by
  unfold bit zeroes
  exact BitVec.getLsbD_zero

/-- The first bits are set. -/
theorem bit_setBits (used : ℕ) : bit ((List.range used).foldl setBit zeroes) k = decide (k < used) := by
  induction used with
  | zero => exact bit_zeroes
  | succ used ih =>
      rw [List.range_succ, List.foldl_append, List.foldl_cons, List.foldl_nil, bit_setBit, ih, ← Bool.decide_or]
      exact decide_eq_decide.2 (by omega)

end Xv6.Fs
