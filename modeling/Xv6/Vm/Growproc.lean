import Xv6.Vm.Atomic
import Xv6.Vm.Calls

/-!
# `growproc`

What `growproc` does to the size and the pages of a process, for every argument.
-/

namespace Xv6.Vm

open Ownership Fallible

variable {m m' : Mem} {pool : Set Page} {p p' : Proc} {n : BitVec 32}

theorem toNat_of_pos (positive : 0 < n.toInt) : (n.toNat : ℤ) = n.toInt ∧ n.toNat < 2 ^ 31 := by
  have bound := n.isLt
  rw [BitVec.toInt_eq_toNat_cond] at *
  split at positive <;> rename_i low <;> constructor <;> omega

theorem toNat_of_neg (negative : n.toInt < 0) :
    (n.toNat : ℤ) = n.toInt + 2 ^ 32 ∧ 2 ^ 31 ≤ n.toNat := by
  have bound := n.isLt
  rw [BitVec.toInt_eq_toNat_cond] at *
  split at negative <;> rename_i low <;> constructor <;> omega

/-- The ways in which `growproc` can end: memory is added or not, memory is given back, all memory
is given back and the result is -1, or `sz + n` wraps and nothing happens. -/
theorem growproc_cases (space : Space m p.pgdir pool) (some : 0 < p.sz) (size : p.sz < kernbase)
    (above : ∀ w < userPages, pagesOf p.sz ≤ w → image m p.pgdir w = none) :
    (0 < n.toInt ∧ ∃ m', growproc n p m = .ok (false, p, m') ∧
      Becomes p.pgdir pool m m' (image m p.pgdir)) ∨
    (0 < n.toInt ∧ p.sz + n.toNat < kernbase ∧
      ∃ m', growproc n p m = .ok (true, { p with sz := p.sz + n.toNat }, m') ∧
        Becomes p.pgdir pool m m' fun w =>
          if pagesOf p.sz ≤ w ∧ w < pagesOf (p.sz + n.toNat) then .some zeroPage
          else image m p.pgdir w) ∨
    (n.toInt < 0 ∧ 0 < p.sz + n.toInt ∧ ∃ (sz : ℕ) (m' : Mem), (sz : ℤ) = p.sz + n.toInt ∧
      growproc n p m = .ok (true, { p with sz }, m') ∧
      Becomes p.pgdir pool m m' fun w =>
        if pagesOf sz ≤ w ∧ w < pagesOf p.sz then none else image m p.pgdir w) ∨
    (n.toInt < 0 ∧ p.sz + n.toInt = 0 ∧ ∃ m', growproc n p m = .ok (false, p, m') ∧
      Becomes p.pgdir pool m m' fun w => if w < pagesOf p.sz then none else image m p.pgdir w) ∨
    (n.toInt < 0 ∧ p.sz + n.toInt < 0 ∧ growproc n p m = .ok (true, p, m)) ∨
    (n.toInt = 0 ∧ growproc n p m = .ok (true, p, m)) := by
  have size' := size
  unfold kernbase at size'
  unfold growproc
  dsimp only
  rcases lt_trichotomy n.toInt 0 with negative | zero | positive
  · right
    right
    rcases toNat_of_neg negative with ⟨value, high⟩
    rw [if_neg (by omega), if_pos negative]
    rcases lt_trichotomy ((p.sz : ℤ) + n.toInt) 0 with below | empty | more
    · -- the sum wraps, and is larger than the size
      right
      right
      left
      have wrapped : (p.sz + n.toNat) % 2 ^ 32 ≥ p.sz := by omega
      refine ⟨negative, below, ?_⟩
      unfold deallocuvm
      rw [if_pos wrapped]
      simp only [bind_ok]
      rw [if_neg some.ne']
      rfl
    · right
      left
      have newsz : (p.sz + n.toNat) % 2 ^ 32 = 0 := by omega
      rcases space.dealloc size.le some with ⟨m', ran, becomes⟩
      refine ⟨negative, empty, m', ?_, becomes.congr fun w _ => ?_⟩
      · rw [newsz, ran]
        rfl
      · have none : pagesOf 0 = 0 := rfl
        simp only [none, Nat.zero_le, true_and]
    · left
      have newsz : ((p.sz + n.toNat) % 2 ^ 32 : ℕ) = (p.sz + n.toInt).toNat := by omega
      have less : (p.sz + n.toInt).toNat < p.sz := by omega
      rcases space.dealloc size.le less with ⟨m', ran, becomes⟩
      refine ⟨negative, more, _, m', Int.toNat_of_nonneg more.le, ?_, becomes⟩
      rw [newsz, ran]
      simp only [bind_ok]
      rw [if_neg (by omega)]
      rfl
  · refine .inr (.inr (.inr (.inr (.inr ⟨zero, ?_⟩))))
    rw [if_neg (by omega), if_neg (by omega)]
    rfl
  · rcases toNat_of_pos positive with ⟨value, low⟩
    have newsz : (p.sz + n.toNat) % 2 ^ 32 = p.sz + n.toNat := by omega
    rw [if_pos positive, newsz]
    rcases space.alloc (p.sz + n.toNat) size.le fun w from' user => above w user from' with
      ⟨m', ran, becomes, -⟩ | ⟨bound, m', ran, becomes⟩
    · refine .inl ⟨positive, m', ?_, becomes⟩
      rw [ran]
      rfl
    · refine .inr (.inl ⟨positive, bound, m', ?_, becomes⟩)
      rw [ran, max_eq_right (Nat.le_add_right _ _)]
      simp only [bind_ok]
      rw [if_neg (by omega)]
      rfl

/-- What a caller of `growproc` may rely on: after success the size is `sz + n` and exactly the
pages below it are present; after failure nothing has changed. -/
def Grown (p : Proc) (n : BitVec 32) (m : Mem) (result : Bool × Proc × Mem) : Prop :=
  let (ok, p', m') := result
  if ok then
    (p'.sz : ℤ) = p.sz + n.toInt ∧
      ∀ w < userPages, (∃ page, image m' p.pgdir w = some page) ↔ w < pagesOf p'.sz
  else p'.sz = p.sz ∧ ∀ w < userPages, image m' p.pgdir w = image m p.pgdir w

/-- Exactly the pages below the size are present. -/
def Exact (p : Proc) (m : Mem) : Prop :=
  ∀ w < userPages, (∃ page, image m p.pgdir w = some page) ↔ w < pagesOf p.sz

theorem Exact.above (exact : Exact p m) :
    ∀ w < userPages, pagesOf p.sz ≤ w → image m p.pgdir w = none := by
  intro w user from'
  cases present : image m p.pgdir w with
  | none => rfl
  | some page => exact absurd ((exact w user).1 ⟨page, present⟩) (Nat.not_lt.2 from')

/-- `growproc` keeps its promise exactly if the new size is positive. -/
theorem growproc_iff (space : Space m p.pgdir pool) (some : 0 < p.sz) (size : p.sz < kernbase)
    (exact : Exact p m) :
    (∃ result, growproc n p m = .ok result ∧ Grown p n m result) ↔ 0 < (p.sz : ℤ) + n.toInt := by
  constructor
  · rintro ⟨result, ran, grown⟩
    by_contra notPositive
    rcases growproc_cases (n := n) space some size exact.above with
      ⟨positive, -⟩ | ⟨positive, -⟩ | ⟨-, positive, -⟩ | ⟨-, -, m', ran', becomes⟩ |
      ⟨negative, -, ran'⟩ | ⟨zero, -⟩
    · omega
    · omega
    · omega
    · -- all pages are gone, but the result is -1
      cases ran.symm.trans ran'
      have first : 0 < pagesOf p.sz := by
        unfold pagesOf pgsize
        omega
      have gone := becomes.image 0 (by decide)
      rw [if_pos first, grown.2 0 (by decide)] at gone
      rcases (exact 0 (by decide)).2 first with ⟨page, present⟩
      cases present.symm.trans gone
    · -- the result is 0, but the size has not changed
      cases ran.symm.trans ran'
      have same := grown.1
      omega
    · omega
  · intro positive
    rcases growproc_cases (n := n) space some size exact.above with
      ⟨-, m', ran, becomes⟩ | ⟨more, bound, m', ran, becomes⟩ |
      ⟨negative, -, sz, m', value, ran, becomes⟩ | ⟨-, empty, -⟩ | ⟨-, below, -⟩ | ⟨zero, ran⟩
    · exact ⟨_, ran, rfl, becomes.image⟩
    · have value := (toNat_of_pos more).1
      refine ⟨_, ran, ?_, fun w user => ?_⟩
      · push_cast
        rw [value]
      · have pages : pagesOf p.sz ≤ pagesOf (p.sz + n.toNat) := by
          unfold pagesOf pgsize
          omega
        have before := exact w user
        rw [becomes.image w user]
        dsimp only
        split
        · rename_i added
          exact ⟨fun _ => added.2, fun _ => ⟨_, rfl⟩⟩
        · rw [before]
          omega
    · refine ⟨_, ran, value, fun w user => ?_⟩
      have pages : pagesOf sz ≤ pagesOf p.sz := by
        unfold pagesOf pgsize
        omega
      have before := exact w user
      rw [becomes.image w user]
      dsimp only
      split
      · rename_i cleared
        exact ⟨nofun, fun below => absurd below (Nat.not_lt.2 cleared.1)⟩
      · rw [before]
        omega
    · omega
    · omega
    · refine ⟨_, ran, ?_, exact⟩
      omega

end Xv6.Vm
