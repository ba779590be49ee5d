import Xv6.Vm.Lifetime

/-!
# Writing to user memory

`copyout` and `clearpteu` on an address space. Bytes are written to pages that `copyout` finds to be
accessible to the user; everything else stays as it is.
-/

namespace Xv6.Vm

open Ownership Fallible

variable {m m' m₁ m₂ : Mem} {dir x : Page} {pool : Set Page} {v w : ℕ}

/-! ## Bytes -/

/-- The bytes from an offset on. -/
def Holds (bytes : ℕ → BitVec 8) (offset : ℕ) (data : List (BitVec 8)) : Prop :=
  ∀ i < data.length, bytes (offset + i) = data.getD i 0

theorem splice_holds (bytes : ℕ → BitVec 8) (offset : ℕ) (data : List (BitVec 8)) :
    Holds (splice bytes offset data) offset data := by
  intro i inside
  unfold splice
  rw [if_pos ⟨Nat.le_add_right _ _, by omega⟩, Nat.add_sub_cancel_left]

theorem Holds.splice {bytes : ℕ → BitVec 8} {offset offset' : ℕ} {data data' : List (BitVec 8)}
    (holds : Holds bytes offset data) (below : offset' + data'.length ≤ offset) :
    Holds (splice bytes offset' data') offset data := by
  intro i inside
  unfold Vm.splice
  rw [if_neg (by omega)]
  exact holds i inside

/-! ## Writes -/

theorem write_pte (m : Mem) (page : Page) (offset : ℕ) (data : List (BitVec 8)) (other : Page)
    (i : ℕ) : (m.write page offset data).pte other i = m.pte other i := by
  unfold Mem.write Mem.setBytes Mem.pte
  by_cases same : other = page
  · subst same
    simp
  · simp [same]

theorem write_entry (m : Mem) (page : Page) (offset : ℕ) (data : List (BitVec 8)) (dir : Page) :
    (∀ i, tableOf (m.write page offset data) dir i = tableOf m dir i) ∧
    ∀ v, entry (m.write page offset data) dir v = entry m dir v := by
  have tables : ∀ i, tableOf (m.write page offset data) dir i = tableOf m dir i := by
    intro i
    unfold tableOf
    rw [write_pte]
  refine ⟨tables, fun v => ?_⟩
  unfold entry
  rw [tables]
  cases tableOf m dir (v / 1024) with
  | none => rfl
  | some table => exact write_pte _ _ _ _ _ _

theorem Guarded.write (guarded : Guarded m dir) (page : Page) (offset : ℕ)
    (data : List (BitVec 8)) : Guarded (m.write page offset data) dir :=
  guarded.congr fun v _ _ => (write_entry m page offset data dir).2 v

/-- A write to a page of the address space. -/
theorem Space.write {page : UserPage} (space : Space m dir pool) (user : v < userPages)
    (present : image m dir v = some page) (offset : ℕ) (data : List (BitVec 8)) :
    Becomes dir pool m (m.write (entry m dir v).page offset data)
      (Function.update (image m dir) v
        (some { page with bytes := splice page.bytes offset data })) := by
  have isPresent : (entry m dir v).present = true := by
    by_contra notPresent
    rw [image_eq_none.2 (by simpa using notPresent)] at present
    cases present
  have written := write_entry m (entry m dir v).page offset data dir
  have holds := own_page user isPresent
  unfold image at present
  dsimp only at present
  rw [if_pos isPresent, Option.some.injEq] at present
  subst present
  refine ⟨⟨space.nodup, ?_, space.valid⟩, ⟨rfl, rfl, ?_⟩, ?_, fun guarded => guarded.write _ _ _⟩
  · exact space.owned.congr (own_congr (fun i _ => written.1 i) fun w _ => written.2 w)
  · intro y outside
    refine Function.update_of_ne ?_ _ _
    rintro rfl
    exact outside (space.owned.own_mem _ _ holds)
  · intro w user'
    by_cases same : w = v
    · subst same
      rw [Function.update_self]
      unfold image
      dsimp only
      rw [written.2, if_pos isPresent]
      simp [Mem.write, Mem.setBytes]
    · rw [Function.update_of_ne same]
      refine image_congr (written.2 w) fun isPresent' => ?_
      have different : (entry m dir w).page ≠ (entry m dir v).page := by
        intro equal
        cases space.owned.single _ _ _ (own_page user' isPresent') (equal ▸ holds)
        exact same rfl
      unfold Mem.write Mem.setBytes
      dsimp only
      rw [Function.update_of_ne different]

/-! ## `copyout` -/

/-- The user may access a page. -/
def UserAt (m : Mem) (dir : Page) (v : ℕ) : Prop :=
  (entry m dir v).present = true ∧ (entry m dir v).user = true

theorem uva2ka_cases (m : Mem) (dir : Page) (bound : v < 2 ^ 20) :
    (uva2ka dir (v * pgsize) m = none ∧ ¬UserAt m dir v) ∨
    uva2ka dir (v * pgsize) m = some (entry m dir v).page ∧ UserAt m dir v := by
  unfold uva2ka UserAt
  cases holds : tableOf m dir (v / 1024) with
  | none =>
      left
      rw [walkpgdir_none bound holds]
      refine ⟨rfl, ?_⟩
      rw [entry, holds]
      simp
  | some table =>
      rw [walkpgdir_some false bound holds]
      have same : m.pte table (v % 1024) = entry m dir v := by rw [entry, holds]
      dsimp only
      rw [same]
      by_cases present : (entry m dir v).present = true
      · by_cases user : (entry m dir v).user = true
        · simp [present, user]
        · simp [present, user]
      · simp [present]

theorem UserAt.user (userAt : UserAt m dir v) (guarded : Guarded m dir) (bound : v < 2 ^ 20) :
    v < userPages := by
  by_contra kernel
  have notUser := guarded v (Nat.not_lt.1 kernel) bound
  rw [userAt.2] at notUser
  cases notUser

theorem UserAt.image (userAt : UserAt m dir v) :
    ∃ page, image m dir v = some page ∧ page.user = true := by
  let pte := entry m dir v
  let bytes := (m.content pte.page).bytes
  refine ⟨{ writable := pte.writable, user := pte.user, bytes }, ?_, userAt.2⟩
  unfold Vm.image
  dsimp only
  rw [if_pos userAt.1]

theorem UserAt.of_image {page : UserPage} (present : Vm.image m dir v = some page)
    (user : page.user = true) : UserAt m dir v := by
  unfold Vm.image at present
  dsimp only at present
  split at present
  · rename_i isPresent
    cases Option.some.inj present
    exact ⟨isPresent, user⟩
  · cases present

/-- What a write by `copyout` leaves as it is. -/
structure Writes (dir : Page) (pool : Set Page) (m m' : Mem) : Prop where
  space : Space m' dir pool
  after : After pool m m'
  guarded : Guarded m' dir

/-- `copyout` writes to the address space, and succeeds only if the user may access all pages. -/
theorem Space.copyoutLoop (passes : ℕ) :
    ∀ {m va} (buf : List (BitVec 8)), Space m dir pool → Guarded m dir → va < 2 ^ 32 →
      Writes dir pool m (copyoutLoop dir passes va buf m).2 ∧
      ((copyoutLoop dir passes va buf m).1 = true → buf.length ≤ passes → buf ≠ [] →
        UserAt m dir (va / pgsize) ∧ (va + buf.length ≤ 2 ^ 32 →
          ∀ w, va / pgsize ≤ w → w * pgsize < va + buf.length → UserAt m dir w)) := by
  induction passes with
  | zero =>
      intro m va buf space guarded _
      refine ⟨⟨space, .refl, guarded⟩, fun _ short notEmpty => ?_⟩
      exact absurd (List.eq_nil_of_length_eq_zero (Nat.le_zero.1 short)) notEmpty
  | succ passes ih =>
      intro m va buf space guarded bound
      unfold Vm.copyoutLoop
      by_cases more : buf.length > 0
      · rw [if_pos more]
        have inside : va / pgsize < 2 ^ 20 := by
          unfold pgsize
          omega
        dsimp only [pgrounddown]
        rcases uva2ka_cases m dir inside with ⟨none, -⟩ | ⟨found, userAt⟩
        · rw [none]
          exact ⟨⟨space, .refl, guarded⟩, nofun⟩
        · rw [found]
          dsimp only
          have user := userAt.user guarded inside
          rcases userAt.image with ⟨page, present, -⟩
          set n := min (pgsize - (va - va / pgsize * pgsize)) buf.length with hn
          have becomes := space.write user present (va - va / pgsize * pgsize) (buf.take n)
          have written := write_entry m (entry m dir (va / pgsize)).page
            (va - va / pgsize * pgsize) (buf.take n) dir
          have next : (va / pgsize * pgsize + pgsize) % 2 ^ 32 < 2 ^ 32 := Nat.mod_lt _ (by decide)
          rcases ih (buf.drop n) becomes.space (becomes.guarded guarded) next with
            ⟨writes, reached⟩
          refine ⟨⟨writes.space, becomes.after.trans writes.after, writes.guarded⟩, ?_⟩
          intro ok short notEmpty
          refine ⟨userAt, fun noWrap w from' below => ?_⟩
          by_cases first : w = va / pgsize
          · exact first ▸ userAt
          · have n_eq : n = pgsize - (va - va / pgsize * pgsize) := by
              rw [hn]
              unfold pgsize at *
              omega
            have rest : buf.drop n ≠ [] := by
              rw [Ne, List.drop_eq_nil_iff, n_eq]
              unfold pgsize at *
              omega
            have mod : (va / pgsize * pgsize + pgsize) % 2 ^ 32 = (va / pgsize + 1) * pgsize := by
              unfold pgsize at *
              omega
            have short' : (buf.drop n).length ≤ passes := by
              rw [List.length_drop, n_eq]
              unfold pgsize at *
              omega
            have reach := (reached ok short' rest).2
            rw [mod, List.length_drop, n_eq] at reach
            have there := reach (by unfold pgsize at *; omega) w (by unfold pgsize at *; omega)
              (by unfold pgsize at *; omega)
            unfold UserAt at there ⊢
            rwa [(write_entry _ _ _ _ _).2] at there
      · rw [if_neg more]
        refine ⟨⟨space, .refl, guarded⟩, fun _ _ notEmpty => ?_⟩
        exact absurd (List.eq_nil_of_length_eq_zero (by omega)) notEmpty

theorem Space.copyout {va : ℕ} (space : Space m dir pool) (buf : List (BitVec 8))
    (guarded : Guarded m dir) (bound : va < 2 ^ 32) :
    Writes dir pool m (copyout dir va buf m).2 ∧
    ((copyout dir va buf m).1 = true → buf ≠ [] →
      UserAt m dir (va / pgsize) ∧ (va + buf.length ≤ 2 ^ 32 →
        ∀ w, va / pgsize ≤ w → w * pgsize < va + buf.length → UserAt m dir w)) := by
  rcases Space.copyoutLoop buf.length buf space guarded bound with ⟨writes, reached⟩
  exact ⟨writes, fun ok notEmpty => reached ok le_rfl notEmpty⟩

/-- Within one page `copyout` is one write. -/
theorem copyout_page {offset : ℕ} {buf : List (BitVec 8)} (bound : v < 2 ^ 20)
    (userAt : UserAt m dir v) (inside : offset + buf.length ≤ pgsize) (notEmpty : buf ≠ []) :
    copyout dir (v * pgsize + offset) buf m =
      (true, m.write (entry m dir v).page offset buf) := by
  have some : 0 < buf.length := List.length_pos_of_ne_nil notEmpty
  have found : uva2ka dir (v * pgsize) m = .some (entry m dir v).page := by
    rcases uva2ka_cases m dir bound with ⟨-, not⟩ | ⟨found, -⟩
    · exact absurd userAt not
    · exact found
  have va0 : pgrounddown (v * pgsize + offset) = v * pgsize := by
    unfold pgrounddown pgsize at *
    omega
  have all : min (pgsize - offset) buf.length = buf.length := by
    rw [Nat.min_eq_right]
    omega
  have done : ∀ passes va m', Vm.copyoutLoop dir passes va [] m' = (true, m') := by
    intro passes va m'
    cases passes with
    | zero => rfl
    | succ passes => rfl
  unfold Vm.copyout
  cases passes : buf.length with
  | zero => omega
  | succ passes' =>
      unfold Vm.copyoutLoop
      rw [if_pos some, va0]
      dsimp only
      rw [found]
      dsimp only
      rw [Nat.add_sub_cancel_left, all, List.drop_length, List.take_length, done]

/-! ## `clearpteu` -/

/-- `clearpteu` makes a page inaccessible to the user. -/
theorem Space.clearpteu {page : UserPage} (space : Space m dir pool) (user : v < userPages)
    (present : image m dir v = some page) :
    ∃ m', clearpteu dir (v * pgsize) m = .ok m' ∧ Becomes dir pool m m'
      (Function.update (image m dir) v (some { page with user := false })) := by
  have bound : v < 2 ^ 20 := user.trans (by decide)
  rcases tableOf_of_image present with ⟨table, holds⟩
  have same : m.pte table (v % 1024) = entry m dir v := by rw [entry, holds]
  have isPresent : (entry m dir v).present = true := by
    by_contra notPresent
    rw [image_eq_none.2 (by simpa using notPresent)] at present
    cases present
  unfold image at present
  dsimp only at present
  rw [if_pos isPresent, Option.some.injEq] at present
  subst present
  have set := space.setPte { entry m dir v with user := false } bound holds
  refine ⟨m.setPte table (v % 1024) { entry m dir v with user := false }, ?_,
    ⟨space.nodup, ?_, space.valid⟩, ?_, ?_, space.guarded_setPte user holds _⟩
  · unfold Vm.clearpteu
    rw [walkpgdir_some false bound holds]
    dsimp only
    rw [same]
  · refine space.owned.congr fun part => ?_
    cases part with
    | dir => rfl
    | table i =>
        simp only [own]
        rw [set.1]
    | page w =>
        simp only [own]
        by_cases user' : w < userPages
        · rw [set.2 w (user'.trans (by decide))]
          by_cases isV : w = v
          · subst isV
            simp
          · rw [if_neg isV]
        · simp [user']
  · exact setPte_after (space.owned.own_mem _ _ (own_table (index_lt bound) holds)) _
  · intro w user'
    rw [space.image_setPte user holds w user', Function.update_apply]
    simp [isPresent]

end Xv6.Vm
