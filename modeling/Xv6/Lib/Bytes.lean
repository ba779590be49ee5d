import Mathlib

/-!
# Numbers in bytes

Unsigned numbers of some bytes, least significant byte first, in an array of bytes.
-/

namespace Bytes

abbrev Byte := BitVec 8

/-- A byte of a number. -/
def byteOf (value m : ℕ) : Byte := BitVec.ofNat 8 (value / 256 ^ m)

/-- The number in `width` bytes. -/
def get (bytes : ℕ → Byte) : ℕ → ℕ → ℕ
  | 0, _ => 0
  | width + 1, offset => (bytes offset).toNat + 256 * get bytes width (offset + 1)

/-- A number is written. -/
def put (bytes : ℕ → Byte) (width offset value : ℕ) (i : ℕ) : Byte :=
  if offset ≤ i ∧ i < offset + width then byteOf value (i - offset) else bytes i

/-- Bytes are written. -/
def splice (bytes : ℕ → Byte) (offset : ℕ) (data : List Byte) (i : ℕ) : Byte :=
  if offset ≤ i ∧ i < offset + data.length then data.getD (i - offset) 0 else bytes i

variable {bytes bytes' : ℕ → Byte} {width width' offset offset' value : ℕ} {data data' : List Byte}

theorem get_eq (width : ℕ) : ∀ value {offset}, (∀ m < width, bytes (offset + m) = byteOf value m) →
    get bytes width offset = value % 256 ^ width := by
  induction width with
  | zero =>
      intro value offset _
      rw [pow_zero, Nat.mod_one]
      rfl
  | succ width ih =>
      intro value offset same
      have first := same 0 (Nat.succ_pos _)
      have rest : get bytes width (offset + 1) = value / 256 % 256 ^ width := ih (value / 256) fun m inside => by
        have later := same (m + 1) (Nat.succ_lt_succ inside)
        rw [Nat.add_assoc, Nat.add_comm 1 m, later]
        unfold byteOf
        rw [pow_succ', ← Nat.div_div_eq_div_mul]
      have split : value % 256 ^ (width + 1) = value % 256 + 256 * (value / 256 % 256 ^ width) := by
        rw [pow_succ', Nat.mod_mul]
      rw [Nat.add_zero] at first
      rw [get, rest, first, split]
      unfold byteOf
      rw [pow_zero, Nat.div_one, BitVec.toNat_ofNat]

theorem get_lt (width : ℕ) : ∀ offset, get bytes width offset < 256 ^ width := by
  induction width with
  | zero => exact fun offset => Nat.one_pos
  | succ width ih =>
      intro offset
      have first := (bytes offset).isLt
      have rest := ih (offset + 1)
      rw [get, pow_succ]
      omega

theorem get_congr (width : ℕ) : ∀ {offset}, (∀ m < width, bytes (offset + m) = bytes' (offset + m)) →
    get bytes width offset = get bytes' width offset := by
  induction width with
  | zero => exact fun _ => rfl
  | succ width ih =>
      intro offset same
      have rest : get bytes width (offset + 1) = get bytes' width (offset + 1) := ih fun m inside => by
        have later := same (m + 1) (Nat.succ_lt_succ inside)
        rwa [Nat.add_assoc, Nat.add_comm 1 m]
      have first := same 0 (Nat.succ_pos _)
      rw [Nat.add_zero] at first
      rw [get, get, rest, first]

/-- The same bytes elsewhere -/
theorem get_shift (width : ℕ) : ∀ {offset offset'}, (∀ m < width, bytes (offset + m) = bytes' (offset' + m)) →
    get bytes width offset = get bytes' width offset' := by
  induction width with
  | zero => exact fun _ => rfl
  | succ width ih =>
      intro offset offset' same
      have rest : get bytes width (offset + 1) = get bytes' width (offset' + 1) := ih fun m inside => by
        have later := same (m + 1) (Nat.succ_lt_succ inside)
        rwa [Nat.add_assoc, Nat.add_assoc, Nat.add_comm 1 m]
      have first := same 0 (Nat.succ_pos _)
      rw [Nat.add_zero, Nat.add_zero] at first
      rw [get, get, rest, first]

theorem get_zero (width : ℕ) : ∀ {offset}, (∀ m < width, bytes (offset + m) = 0) →
    get bytes width offset = 0 := by
  intro offset zero
  rw [get_eq width 0 fun m inside => by rw [zero m inside]; simp [byteOf]]
  exact Nat.zero_mod _

theorem get_put_self (bytes : ℕ → Byte) (fits : value < 256 ^ width) :
    get (put bytes width offset value) width offset = value := by
  rw [get_eq width value fun m inside => ?_, Nat.mod_eq_of_lt fits]
  unfold put
  rw [if_pos ⟨Nat.le_add_right _ _, Nat.add_lt_add_left inside _⟩, Nat.add_sub_cancel_left]

theorem get_put_other (apart : offset + width ≤ offset' ∨ offset' + width' ≤ offset) :
    get (put bytes width offset value) width' offset' = get bytes width' offset' := by
  refine get_congr width' fun m inside => if_neg ?_
  omega

theorem splice_inside {i : ℕ} (inside : i < data.length) :
    splice bytes offset data (offset + i) = data[i] := by
  unfold splice
  rw [if_pos ⟨Nat.le_add_right _ _, Nat.add_lt_add_left inside _⟩, Nat.add_sub_cancel_left,
    List.getD_eq_getElem _ _ inside]

theorem splice_outside {i : ℕ} (outside : i < offset ∨ offset + data.length ≤ i) :
    splice bytes offset data i = bytes i := by
  unfold splice
  rw [if_neg]
  omega

end Bytes
