import Mathlib

/-!
# Rings with free-running counters

A ring of `n` cells between two counters of `w` bits that are never reduced: the cell of a counter
is its value modulo `n`, and the difference of the counters is the number of items. The counters may
wrap around as often as they like if `n` divides `2 ^ w`.
-/

namespace Ring

variable {α : Type*} {n w : ℕ} [NeZero n]

/-- The cell of a counter. -/
def cell (n : ℕ) [NeZero n] (counter : BitVec w) : Fin n := Fin.ofNat n counter.toNat

/-- The items in `count` cells. -/
def window (buf : Fin n → α) (start : BitVec w) (count : ℕ) : List α :=
  (List.range count).map fun k => buf (cell n (start + BitVec.ofNat w k))

/-- The ring holds `items` between the counters. -/
structure Holds (buf : Fin n → α) (start stop : BitVec w) (items : List α) : Prop where
  bound : items.length ≤ n
  stop : stop = start + BitVec.ofNat w items.length
  items : window buf start items.length = items

variable {buf : Fin n → α} {start stop : BitVec w} {items front back : List α} {a : α}

theorem Holds.nil (buf : Fin n → α) (start : BitVec w) : Holds buf start start [] :=
  ⟨Nat.zero_le n, by simp, rfl⟩

/-- Counters that are less than `n` apart have different cells. -/
theorem cell_injective (divides : n ∣ 2 ^ w) (start : BitVec w) {j k : ℕ} (jLt : j < n) (kLt : k < n)
    (same : cell n (start + BitVec.ofNat w j) = cell n (start + BitVec.ofNat w k)) : j = k := by
  have value : ∀ i, (cell n (start + BitVec.ofNat w i)).val = (start.toNat + i) % n := by
    intro i
    rw [cell, Fin.val_ofNat, BitVec.toNat_add, BitVec.toNat_ofNat, Nat.add_mod_mod,
      Nat.mod_mod_of_dvd _ divides]
  have values := congrArg Fin.val same
  rw [value, value] at values
  have congruent : j ≡ k [MOD n] := Nat.ModEq.add_left_cancel' start.toNat values
  have reduced : j % n = k % n := congruent
  rwa [Nat.mod_eq_of_lt jLt, Nat.mod_eq_of_lt kLt] at reduced

theorem window_succ (buf : Fin n → α) (start : BitVec w) (count : ℕ) :
    window buf start (count + 1) =
      window buf start count ++ [buf (cell n (start + BitVec.ofNat w count))] := by
  rw [window, List.range_succ, List.map_append, List.map_singleton]
  rfl

theorem window_cons (buf : Fin n → α) (start : BitVec w) (count : ℕ) :
    window buf start (count + 1) = buf (cell n start) :: window buf (start + 1) count := by
  rw [window, List.range_succ_eq_map, List.map_cons, List.map_map]
  congr 1
  · simp
  · apply List.map_congr_left
    intro k _
    dsimp only [Function.comp_apply]
    have next : start + BitVec.ofNat w (k + 1) = start + 1 + BitVec.ofNat w k := by
      rw [BitVec.ofNat_add, BitVec.add_comm (BitVec.ofNat w k), ← BitVec.add_assoc]
      rfl
    rw [next]

theorem window_append (buf : Fin n → α) (start : BitVec w) (first second : ℕ) :
    window buf start (first + second) =
      window buf start first ++ window buf (start + BitVec.ofNat w first) second := by
  induction second with
  | zero => simp [window]
  | succ second ih =>
      rw [← Nat.add_assoc, window_succ, window_succ, ih, List.append_assoc, BitVec.ofNat_add,
        ← BitVec.add_assoc]

/-- A ring between two counters is two rings with a counter between them. -/
theorem Holds.split (holds : Holds buf start stop (front ++ back)) :
    Holds buf start (start + BitVec.ofNat w front.length) front ∧
      Holds buf (start + BitVec.ofNat w front.length) stop back := by
  have bound := holds.bound
  have isStop := holds.stop
  have items := holds.items
  rw [List.length_append] at bound isStop items
  rw [window_append] at items
  rcases List.append_inj items (by simp [window]) with ⟨inFront, inBack⟩
  rw [BitVec.ofNat_add, ← BitVec.add_assoc] at isStop
  exact ⟨⟨by omega, rfl, inFront⟩, by omega, isStop, inBack⟩

/-! ## Sizes -/

section Size

variable (small : n < 2 ^ w)

include small

theorem Holds.size (holds : Holds buf start stop items) : (stop - start).toNat = items.length := by
  rw [holds.stop, BitVec.add_comm, BitVec.add_sub_cancel, BitVec.toNat_ofNat]
  exact Nat.mod_eq_of_lt (holds.bound.trans_lt small)

theorem Holds.window_eq (holds : Holds buf start stop items) :
    window buf start (stop - start).toNat = items := by
  rw [holds.size small]
  exact holds.items

theorem Holds.empty_iff (holds : Holds buf start stop items) : start = stop ↔ items = [] := by
  have size := holds.size small
  constructor
  · intro same
    rw [same, BitVec.sub_self] at size
    exact List.eq_nil_of_length_eq_zero size.symm
  · intro nil
    rw [holds.stop, nil]
    simp

theorem Holds.full_iff (holds : Holds buf start stop items) :
    stop = start + BitVec.ofNat w n ↔ items.length = n := by
  have size := holds.size small
  constructor
  · intro full
    rw [full, BitVec.add_comm, BitVec.add_sub_cancel, BitVec.toNat_ofNat, Nat.mod_eq_of_lt small] at size
    exact size.symm
  · intro full
    rw [holds.stop, full]

end Size

/-! ## Items come and go -/

theorem Holds.push (divides : n ∣ 2 ^ w) (holds : Holds buf start stop items) (room : items.length < n) (a : α) :
    Holds (Function.update buf (cell n stop) a) start (stop + 1) (items ++ [a]) := by
  have length : (items ++ [a]).length = items.length + 1 := by simp
  refine ⟨?_, ?_, ?_⟩
  · rw [length]
    exact room
  · rw [length, holds.stop, BitVec.ofNat_add, BitVec.add_assoc]
    rfl
  · rw [length, window_succ, ← holds.stop, Function.update_self]
    congr 1
    refine Eq.trans ?_ holds.items
    apply List.map_congr_left
    intro k inside
    rw [Function.update_of_ne]
    intro same
    have isLast := cell_injective divides start ((List.mem_range.1 inside).trans room) room
      (same.trans (congrArg (cell n) holds.stop))
    exact absurd (List.mem_range.1 inside) (by omega)

theorem Holds.pop (holds : Holds buf start stop (a :: items)) :
    buf (cell n start) = a ∧ Holds buf (start + 1) stop items := by
  have window := holds.items
  rw [List.length_cons, window_cons] at window
  rcases List.cons.inj window with ⟨first, rest⟩
  refine ⟨first, (Nat.le_succ _).trans holds.bound, ?_, rest⟩
  rw [holds.stop, List.length_cons, BitVec.ofNat_add, BitVec.add_comm (BitVec.ofNat w items.length),
    ← BitVec.add_assoc]
  rfl

/-- The last item is taken back. -/
theorem Holds.unpush (holds : Holds buf start stop (items ++ [a])) :
    buf (cell n (stop - 1)) = a ∧ Holds buf start (stop - 1) items := by
  have length : (items ++ [a]).length = items.length + 1 := by simp
  have before : stop - 1 = start + BitVec.ofNat w items.length := by
    rw [holds.stop, length, BitVec.ofNat_add, ← BitVec.add_assoc]
    exact BitVec.add_sub_cancel _ _
  have window := holds.items
  rw [length, window_succ, ← before] at window
  rcases List.append_inj' window rfl with ⟨rest, last⟩
  refine ⟨List.singleton_inj.1 last, ?_, before, rest⟩
  have bound := holds.bound
  omega

end Ring
