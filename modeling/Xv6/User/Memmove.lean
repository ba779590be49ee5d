import Xv6.Lib.Bytes
import Xv6.Lib.Copying

/-!
# The two copies

`memmove` of the kernel, in `string.c`, and of the user library, in `ulib.c`. The kernel's copies
backwards when the destination starts inside the source. The library's always copies forwards, so
that it reads bytes it has written when the destination starts there.
-/

namespace Xv6

open Bytes Copying

section

variable {Address : Type*} [DecidableEq Address] [AddMonoidWithOne Address]

/-- `while(n-- > 0) *d++ = *s++;` -/
def copyUp : ℕ → Address → Address → (Address → Byte) → Address → Byte
  | 0, _, _, mem => mem
  | n + 1, d, s, mem => copyUp n (d + 1) (s + 1) (Function.update mem d (mem s))

/-- `memmove` of `ulib.c`. Its `n` is an `int`, and the loop does nothing for one below zero. -/
def Ulib.memmove (dst src : Address) (n : BitVec 32) (mem : Address → Byte) : Address → Byte :=
  copyUp n.toInt.toNat dst src mem

theorem copyUp_eq_copies (n : ℕ) : ∀ (d s : Address) (mem : Address → Byte),
    copyUp n d s mem = copies (fun k => d + (k : Address)) (fun k => s + (k : Address)) mem n := by
  induction n with
  | zero => exact fun d s mem => rfl
  | succ n ih =>
      intro d s mem
      have next (p : Address) (k : ℕ) : p + 1 + (k : Address) = p + ((k + 1 : ℕ) : Address) := by
        rw [Nat.add_comm, Nat.cast_add, Nat.cast_one, add_assoc]
      simp only [copyUp, ih, next, copies_succ_left, Nat.cast_zero, add_zero]

/-- Bytes of one buffer are copied to its front, or further to the front than they are. -/
theorem Ulib.memmove_back {dst src n i : ℕ} {mem : ℕ → Byte} (le : dst ≤ src)
    (bound : n < 2 ^ 31) (inside : i < n) :
    Ulib.memmove dst src (BitVec.ofNat 32 n) mem (dst + i) = mem (src + i) := by
  have count : (BitVec.ofNat 32 n).toInt.toNat = n := by
    rw [BitVec.toInt_eq_toNat_cond, BitVec.toNat_ofNat, Nat.mod_eq_of_lt (by omega)]
    split <;> omega
  have distinct : Distinct (fun k : ℕ => dst + k) n := fun j _ k _ same => by simpa using same
  have copied := (copied_iff (fun k : ℕ => src + k) mem distinct).mpr fun k _ j jlt meet => by
    omega
  simp only [memmove, count, copyUp_eq_copies, Nat.cast_id]
  exact copied i inside

end

/-- `while(n-- > 0) *--d = *--s;` -/
def copyDown : ℕ → BitVec 32 → BitVec 32 → (BitVec 32 → Byte) → BitVec 32 → Byte
  | 0, _, _, mem => mem
  | n + 1, d, s, mem => copyDown n (d - 1) (s - 1) (Function.update mem (d - 1) (mem (s - 1)))

/-- `memmove` of `string.c`. Its `n` is a `uint`. -/
def Kernel.memmove (dst src n : BitVec 32) (mem : BitVec 32 → Byte) : BitVec 32 → Byte :=
  if src < dst ∧ src + n > dst then
    copyDown n.toNat (dst + n) (src + n) mem
  else
    copyUp n.toNat dst src mem

/-- The `n` bytes at `dst` are what was at `src`, and nothing else has changed. -/
structure Moved (dst src : BitVec 32) (n : ℕ) (mem mem' : BitVec 32 → Byte) : Prop where
  copied : ∀ i < n, mem' (dst + (i : BitVec 32)) = mem (src + (i : BitVec 32))
  unchanged : ∀ a, (∀ i < n, a ≠ dst + (i : BitVec 32)) → mem' a = mem a

/-- Each of the `n` bytes at `src` is also found `period` bytes further on, as far as they reach. -/
def Repeats (mem : BitVec 32 → Byte) (src : BitVec 32) (n period : ℕ) : Prop :=
  ∀ i, i + period < n → mem (src + ((i + period : ℕ) : BitVec 32)) = mem (src + (i : BitVec 32))

theorem copyDown_eq_copies (n : ℕ) : ∀ (d s : BitVec 32) (mem : BitVec 32 → Byte),
    copyDown n d s mem =
      copies (fun k => d - 1 - (k : BitVec 32)) (fun k => s - 1 - (k : BitVec 32)) mem n := by
  induction n with
  | zero => exact fun d s mem => rfl
  | succ n ih =>
      intro d s mem
      have next (p : BitVec 32) (k : ℕ) :
          p - 1 - 1 - (k : BitVec 32) = p - 1 - ((k + 1 : ℕ) : BitVec 32) := by
        push_cast
        ring
      simp only [copyDown, ih, next, copies_succ_left, Nat.cast_zero, sub_zero]

theorem cast_inj_of_lt {i j : ℕ} (ilt : i < 2 ^ 32) (jlt : j < 2 ^ 32)
    (same : (i : BitVec 32) = (j : BitVec 32)) : i = j := by
  have equal := congrArg BitVec.toNat same
  rwa [BitVec.natCast_eq_ofNat, BitVec.natCast_eq_ofNat, BitVec.toNat_ofNat, BitVec.toNat_ofNat,
    Nat.mod_eq_of_lt ilt, Nat.mod_eq_of_lt jlt] at equal

/-- Two ranges meet at a later byte of the one and an earlier byte of the other exactly when their
starts are as far apart. -/
theorem add_eq_add_iff {p q : BitVec 32} {j k : ℕ} (le : j ≤ k) (bound : k < 2 ^ 32) :
    p + (k : BitVec 32) = q + (j : BitVec 32) ↔ k = j + (q - p).toNat := by
  obtain ⟨m, rfl⟩ := Nat.exists_eq_add_of_le le
  constructor
  · intro meet
    have apart : (m : BitVec 32) = q - p := by
      push_cast at meet
      linear_combination meet
    have distance : m = (q - p).toNat := by
      rw [← apart, BitVec.natCast_eq_ofNat, BitVec.toNat_ofNat, Nat.mod_eq_of_lt (by omega)]
    omega
  · intro same
    have distance : m = (q - p).toNat := by omega
    have apart : (m : BitVec 32) = q - p := by
      rw [distance, BitVec.natCast_eq_ofNat, BitVec.ofNat_toNat, BitVec.setWidth_eq]
    push_cast
    rw [apart]
    ring

/-- The copies of `n` bytes in some order. -/
theorem moved_copies_iff {dst src : BitVec 32} {n : ℕ} {mem : BitVec 32 → Byte}
    {target source : ℕ → BitVec 32} (index : ℕ → ℕ) (bound : n ≤ 2 ^ 32)
    (onto : ∀ i < n, ∃ k < n, index k = i) (inside : ∀ k < n, index k < n)
    (once : ∀ j < n, ∀ k < n, index j = index k → j = k)
    (targets : ∀ k < n, target k = dst + (index k : BitVec 32))
    (sources : ∀ k < n, source k = src + (index k : BitVec 32)) :
    Moved dst src n mem (copies target source mem n) ↔
      ∀ k < n, ∀ j < k, src + (index k : BitVec 32) = dst + (index j : BitVec 32) →
        mem (src + (index k : BitVec 32)) = mem (src + (index j : BitVec 32)) := by
  have distinct : Distinct target n := by
    intro j jlt k klt same
    rw [targets j jlt, targets k klt] at same
    have below (k : ℕ) (klt : k < n) : index k < 2 ^ 32 := (inside k klt).trans_le bound
    exact once j jlt k klt (cast_inj_of_lt (below j jlt) (below k klt) (add_left_cancel same))
  have copied := copied_iff source mem distinct
  constructor
  · intro moved k klt j jlt
    rw [← sources k klt, ← sources j (jlt.trans klt), ← targets j (jlt.trans klt)]
    refine copied.mp (fun k klt => ?_) k klt j jlt
    rw [targets k klt, sources k klt]
    exact moved.copied (index k) (inside k klt)
  · intro agree
    have all := copied.mpr fun k klt j jlt => by
      rw [sources k klt, sources j (jlt.trans klt), targets j (jlt.trans klt)]
      exact agree k klt j jlt
    refine ⟨fun i ilt => ?_, fun a outside => ?_⟩
    · obtain ⟨k, klt, rfl⟩ := onto i ilt
      rw [← targets k klt, ← sources k klt]
      exact all k klt
    · apply copies_of_not_target
      intro k klt
      rw [targets k klt]
      exact outside (index k) (inside k klt)

theorem copyUp_moved_iff {dst src : BitVec 32} {n : ℕ} {mem : BitVec 32 → Byte} (bound : n ≤ 2 ^ 32) :
    Moved dst src n mem (copyUp n dst src mem) ↔ Repeats mem src n (dst - src).toNat := by
  rw [copyUp_eq_copies]
  refine (moved_copies_iff id bound (fun i ilt => ⟨i, ilt, rfl⟩) (fun k klt => klt)
    (fun j _ k _ same => same) (fun k _ => rfl) (fun k _ => rfl)).trans ?_
  constructor
  · intro agree i ilt
    rcases Nat.eq_zero_or_pos (dst - src).toNat with zero | pos
    · rw [zero, Nat.add_zero]
    · refine agree (i + (dst - src).toNat) ilt i (by omega) ?_
      exact (add_eq_add_iff (by simp) (lt_of_lt_of_le ilt bound)).mpr rfl
  · intro agree k klt j jlt meet
    have apart := (add_eq_add_iff jlt.le (klt.trans_le bound)).mp meet
    simp only [id_eq] at meet ⊢
    rw [apart]
    exact agree j (by omega)

theorem copyDown_moved_iff {dst src : BitVec 32} {n : ℕ} {mem : BitVec 32 → Byte}
    (bound : n ≤ 2 ^ 32) :
    Moved dst src n mem
        (copyDown n (dst + (n : BitVec 32)) (src + (n : BitVec 32)) mem) ↔
      Repeats mem src n (src - dst).toNat := by
  have counted (p : BitVec 32) (k : ℕ) (klt : k < n) :
      p + (n : BitVec 32) - 1 - (k : BitVec 32) = p + ((n - 1 - k : ℕ) : BitVec 32) := by
    obtain ⟨m, rfl⟩ : ∃ m, n = m + 1 + k := ⟨n - 1 - k, by omega⟩
    rw [show m + 1 + k - 1 - k = m by omega]
    push_cast
    ring
  rw [copyDown_eq_copies, moved_copies_iff (fun k => n - 1 - k) bound
    (fun i ilt => ⟨n - 1 - i, by omega, by omega⟩) (fun k klt => by omega)
    (fun j jlt k klt same => by omega) (counted dst) (counted src)]
  constructor
  · intro agree i ilt
    rcases Nat.eq_zero_or_pos (src - dst).toNat with zero | pos
    · rw [zero, Nat.add_zero]
    · have later := agree (n - 1 - i) (by omega) (n - 1 - (i + (src - dst).toNat)) (by omega)
      rw [show n - 1 - (n - 1 - i) = i by omega,
        show n - 1 - (n - 1 - (i + (src - dst).toNat)) = i + (src - dst).toNat by omega] at later
      refine (later ?_).symm
      exact ((add_eq_add_iff (by simp) (lt_of_lt_of_le ilt bound)).mpr rfl).symm
  · intro agree k klt j jlt meet
    have apart := (add_eq_add_iff (by omega) (by omega)).mp meet.symm
    rw [apart]
    exact (agree (n - 1 - k) (by omega)).symm

/-- How far, going on from each byte of the source, the kernel's `memmove` next comes upon what it
has written. -/
def Kernel.distance (dst src n : BitVec 32) : ℕ :=
  if src < dst ∧ src + n > dst then (src - dst).toNat else (dst - src).toNat

theorem Kernel.memmove_moved_iff {dst src n : BitVec 32} {mem : BitVec 32 → Byte} :
    Moved dst src n.toNat mem (Kernel.memmove dst src n mem) ↔
      Repeats mem src n.toNat (Kernel.distance dst src n) := by
  by_cases overlap : src < dst ∧ src + n > dst
  · have count : ((n.toNat : ℕ) : BitVec 32) = n := by
      rw [BitVec.natCast_eq_ofNat, BitVec.ofNat_toNat, BitVec.setWidth_eq]
    have down : Moved dst src n.toNat mem
          (copyDown n.toNat (dst + (n.toNat : BitVec 32)) (src + (n.toNat : BitVec 32)) mem) ↔
        Repeats mem src n.toNat (src - dst).toNat :=
      copyDown_moved_iff n.isLt.le
    rw [count] at down
    simp only [memmove, distance, if_pos overlap]
    exact down
  · simp only [memmove, distance, if_neg overlap]
    exact copyUp_moved_iff n.isLt.le

theorem Ulib.memmove_moved_iff {dst src n : BitVec 32} {mem : BitVec 32 → Byte} :
    Moved dst src n.toInt.toNat mem (Ulib.memmove dst src n mem) ↔
      Repeats mem src n.toInt.toNat (dst - src).toNat := by
  apply copyUp_moved_iff
  have := n.isLt
  rw [BitVec.toInt_eq_toNat_cond]
  split <;> omega

/-- Both copies are right exactly where neither comes upon bytes it has written, or finds in them
what it would have read before. -/
theorem memmoves_moved_iff (dst src n : BitVec 32) (mem : BitVec 32 → Byte) :
    (Moved dst src n.toNat mem (Kernel.memmove dst src n mem) ∧
        Moved dst src n.toInt.toNat mem (Ulib.memmove dst src n mem)) ↔
      Repeats mem src n.toNat (Kernel.distance dst src n) ∧
        Repeats mem src n.toInt.toNat (dst - src).toNat :=
  and_congr Kernel.memmove_moved_iff Ulib.memmove_moved_iff

/-- Four bytes that differ, moved up by one. -/
theorem memmoves_disagree :
    ¬ ∀ (dst src n : BitVec 32) (mem : BitVec 32 → Byte),
      Moved dst src n.toNat mem (Kernel.memmove dst src n mem) ∧
        Moved dst src n.toInt.toNat mem (Ulib.memmove dst src n mem) := by
  intro all
  have third := (all 4097 4096 4 fun a => a.setWidth 8).2.copied 2 (by decide)
  revert third
  decide

theorem repeats_of_le {mem : BitVec 32 → Byte} {src : BitVec 32} {n period : ℕ}
    (le : n ≤ period) : Repeats mem src n period :=
  fun i ilt => by omega

theorem repeats_zero {mem : BitVec 32 → Byte} {src : BitVec 32} {n : ℕ} : Repeats mem src n 0 :=
  fun i _ => by rw [Nat.add_zero]

/-- Where neither range runs over the end of the address space, the kernel's copy is right. -/
theorem Kernel.memmove_moved {dst src n : BitVec 32} {mem : BitVec 32 → Byte}
    (source : src.toNat + n.toNat ≤ 2 ^ 32) (target : dst.toNat + n.toNat ≤ 2 ^ 32) :
    Moved dst src n.toNat mem (Kernel.memmove dst src n mem) := by
  rw [Kernel.memmove_moved_iff]
  rcases eq_or_ne dst src with rfl | apart
  · have zero : Kernel.distance dst dst n = 0 := by simp [Kernel.distance]
    rw [zero]
    exact repeats_zero
  · apply repeats_of_le
    have different : dst.toNat ≠ src.toNat := fun same => apart (BitVec.eq_of_toNat_eq same)
    have := dst.isLt
    have := src.isLt
    unfold Kernel.distance
    split
    all_goals simp only [BitVec.lt_def, gt_iff_lt, BitVec.toNat_add, BitVec.toNat_sub] at *
    all_goals omega

/-- There the library's copy is right where the destination is not inside the source behind its
first byte, or the source repeats itself. -/
theorem Ulib.memmove_moved_iff_of_within {dst src n : BitVec 32} {mem : BitVec 32 → Byte}
    (source : src.toNat + n.toInt.toNat ≤ 2 ^ 32) :
    Moved dst src n.toInt.toNat mem (Ulib.memmove dst src n mem) ↔
      dst ≤ src ∨ src.toNat + n.toInt.toNat ≤ dst.toNat ∨
        Repeats mem src n.toInt.toNat (dst.toNat - src.toNat) := by
  rw [Ulib.memmove_moved_iff]
  have := dst.isLt
  have := src.isLt
  rcases Nat.lt_or_ge src.toNat dst.toNat with above | below
  · have distance : (dst - src).toNat = dst.toNat - src.toNat := by
      rw [BitVec.toNat_sub]
      omega
    rw [distance]
    constructor
    · exact fun repeated => .inr (.inr repeated)
    · rintro (below | apart | repeated)
      · rw [BitVec.le_def] at below
        omega
      · exact repeats_of_le (by omega)
      · exact repeated
  · refine iff_of_true ?_ (.inl below)
    rcases Nat.eq_or_lt_of_le below with same | below
    · rw [BitVec.eq_of_toNat_eq same, BitVec.sub_self]
      exact repeats_zero
    · apply repeats_of_le
      rw [BitVec.toNat_sub]
      omega

end Xv6
