import Xv6.Vm.Space

/-!
# Mapping and unmapping

What the functions of `vm.c` do to an address space. Each of them keeps the pool of its pages: what
it takes from the free list is in the address space afterwards, or free again.
-/

namespace Xv6.Vm

open Ownership Fallible

variable {m m' m₁ m₂ : Mem} {dir x : Page} {pool : Set Page} {v w : ℕ} {flags : Pte}

/-! ## `mappages` -/

theorem mappages_pages {n : ℕ} {pa : Page} (some : 0 < n) (bound : v + n ≤ 2 ^ 20) :
    mappages dir (v * pgsize) (n * pgsize) pa flags m =
      mappagesLoop dir flags (n - 1) (v * pgsize) pa m := by
  have first : pgrounddown (v * pgsize) = v * pgsize := by
    unfold pgrounddown pgsize
    omega
  have last : pgrounddown ((v * pgsize + n * pgsize - 1) % 2 ^ 32) = (v + (n - 1)) * pgsize := by
    unfold pgrounddown pgsize
    omega
  have left : ((v + (n - 1)) * pgsize + 2 ^ 32 - v * pgsize) % 2 ^ 32 / pgsize = n - 1 := by
    unfold pgsize
    omega
  unfold mappages
  dsimp only
  rw [first, last, left]

theorem mappages_page {pa : Page} (bound : v < 2 ^ 20) :
    mappages dir (v * pgsize) pgsize pa flags m = mappagesLoop dir flags 0 (v * pgsize) pa m := by
  have one : mappages dir (v * pgsize) (1 * pgsize) pa flags m = _ := mappages_pages Nat.one_pos bound
  rwa [Nat.one_mul] at one

/-! ## Changes of one entry -/

section SetPte

variable {table : Page} {pte : Pte}

theorem setPte_after (inPool : table ∈ pool) (i : ℕ) : After pool m (m.setPte table i pte) := by
  refine ⟨rfl, rfl, fun page outside => setPte_content m table page i pte ?_⟩
  rintro rfl
  exact outside inPool

theorem Space.image_setPte (space : Space m dir pool) (user : v < userPages)
    (holds : tableOf m dir (v / 1024) = some table) (w : ℕ) (user' : w < userPages) :
    image (m.setPte table (v % 1024) pte) dir w =
      if w = v then
        if pte.present then
          some { writable := pte.writable, user := pte.user, bytes := (m.content pte.page).bytes }
        else none
      else image m dir w := by
  have set := (space.setPte pte (user.trans (by decide)) holds).2 w
    (user'.trans (by decide))
  by_cases same : w = v
  · rw [if_pos same] at set ⊢
    unfold image
    dsimp only
    rw [set, setPte_bytes]
  · rw [if_neg same] at set ⊢
    exact image_congr set fun _ => setPte_bytes _ _ _ _ _

/-- The places other than that of the entry hold what they held. -/
theorem Space.own_setPte (space : Space m dir pool) (user : v < userPages)
    (holds : tableOf m dir (v / 1024) = some table) (pte : Pte) {part : Part} (different : part ≠ .page v) :
    own (m.setPte table (v % 1024) pte) dir part = own m dir part := by
  have set := space.setPte pte (user.trans (by decide)) holds
  cases part with
  | dir => rfl
  | table i =>
      simp only [own]
      rw [set.1]
  | page w =>
      have notV : w ≠ v := fun same => different (congrArg Part.page same)
      simp only [own]
      by_cases user' : w < userPages
      · rw [set.2 w (user'.trans (by decide)), if_neg notV]
      · simp [user']

theorem Space.guarded_setPte (space : Space m dir pool) (user : v < userPages)
    (holds : tableOf m dir (v / 1024) = some table) (pte : Pte) (guarded : Guarded m dir) :
    Guarded (m.setPte table (v % 1024) pte) dir := by
  refine guarded.congr fun w kernel bound => ?_
  rw [(space.setPte pte (user.trans (by decide)) holds).2 w bound, if_neg]
  exact Nat.ne_of_gt (user.trans_le kernel)

/-- A page in no place is put into an entry that was not present. -/
theorem Space.addPage (space : Space m dir (pool \ {x})) (pte : Pte) (inPool : x ∈ pool)
    (valid : m.linked.kernelEnd ≤ x ∧ x < phystop) (user : v < userPages)
    (holds : tableOf m dir (v / 1024) = some table) (absent : (entry m dir v).present = false)
    (page : pte.page = x) (present : pte.present = true) :
    Becomes dir pool m (m.setPte table (v % 1024) pte)
      (Function.update (image m dir) v
        (some { writable := pte.writable, user := pte.user, bytes := (m.content x).bytes })) := by
  have bound : v < 2 ^ 20 := user.trans (by decide)
  have set := space.setPte pte bound holds
  have tableIn : table ∈ pool \ {x} := space.owned.own_mem _ _ (own_table (index_lt bound) holds)
  refine ⟨⟨space.nodup, ?_, ?_⟩, setPte_after tableIn.1 _, ?_, space.guarded_setPte user holds pte⟩
  · refine space.owned.gain (o := .page v) inPool ?_ ?_ fun part different =>
      space.own_setPte user holds pte different
    · simp [own, absent]
    · rw [own_page user]
      · rw [set.2 v bound, if_pos rfl, page]
      · rw [set.2 v bound, if_pos rfl, present]
  · intro y member
    by_cases same : y = x
    · exact same ▸ valid
    · exact space.valid y ⟨member, same⟩
  · intro w user'
    rw [space.image_setPte user holds w user', if_pos present, page, Function.update_apply]

/-- An entry is cleared, and its page is in no place. -/
theorem Space.clearPage (space : Space m dir pool) (user : v < userPages)
    (holds : tableOf m dir (v / 1024) = some table) (present : (entry m dir v).present = true) :
    Space (m.setPte table (v % 1024) {}) dir (pool \ {(entry m dir v).page}) ∧
      ∀ w < userPages, image (m.setPte table (v % 1024) {}) dir w =
        if w = v then none else image m dir w := by
  have bound : v < 2 ^ 20 := user.trans (by decide)
  have set := space.setPte {} bound holds
  refine ⟨⟨space.nodup, ?_, fun y member => space.valid y member.1⟩, ?_⟩
  · refine space.owned.lose (own_page user present) ?_ fun part different =>
      space.own_setPte user holds {} different
    simp only [own]
    rw [set.2 v bound, if_pos rfl, if_neg]
    simp
  · intro w user'
    rw [space.image_setPte user holds w user']
    rfl

end SetPte

/-- Mapping one user page. -/
theorem Space.mapPage (space : Space m dir (pool \ {x})) (flags : Pte) (inPool : x ∈ pool)
    (valid : m.linked.kernelEnd ≤ x ∧ x < phystop) (user : v < userPages)
    (absent : image m dir v = none) :
    (∃ m', mappages dir (v * pgsize) pgsize x flags m = .ok (false, m') ∧
      Becomes dir (pool \ {x}) m m' (image m dir) ∧ Refused m') ∨
    ∃ m', mappages dir (v * pgsize) pgsize x flags m = .ok (true, m') ∧
      Becomes dir pool m m' (Function.update (image m dir) v
        (some { writable := flags.writable, user := flags.user, bytes := (m.content x).bytes })) := by
  have bound : v < 2 ^ 20 := user.trans (by decide)
  rw [mappages_page bound]
  rcases space.walk bound with ⟨m', walked, grows, refused, -⟩ | ⟨table, m₁, walked, holds, grows, -⟩
  · left
    refine ⟨m', ?_, grows.becomes space, refused⟩
    unfold mappagesLoop
    rw [walked]
  · right
    have absent₁ : (entry m₁ dir v).present = false := by
      rw [grows.entries v bound]
      exact image_eq_none.1 absent
    have notPresent : ¬(m₁.pte table (v % 1024)).present = true := by
      have same := absent₁
      rw [entry, holds] at same
      simp [same]
    have notFree : x ∉ m.freelist := fun member => (space.owned.free_mem x member).2 rfl
    have added := grows.space.addPage { flags with page := x, present := true } inPool
      (grows.after.linked ▸ valid) user holds absent₁ rfl rfl
    refine ⟨m₁.setPte table (v % 1024) { flags with page := x, present := true }, ?_, ?_⟩
    · unfold mappagesLoop
      rw [walked]
      dsimp only
      rw [if_neg notPresent]
    · have before := grows.becomes space
      refine ⟨added.space, (before.after.mono Set.sdiff_subset).trans added.after, ?_,
        fun guarded => added.guarded (before.guarded guarded)⟩
      intro w user'
      rw [added.image w user', grows.takes.bytes x notFree]
      by_cases same : w = v
      · simp [same]
      · rw [Function.update_of_ne same, Function.update_of_ne same]
        exact before.image w user'

/-! ## `deallocuvm` -/

/-- The number of pages that a size takes up. -/
def pagesOf (size : ℕ) : ℕ := (size + (pgsize - 1)) / pgsize

theorem pgroundup_eq {size : ℕ} (bound : size ≤ kernbase) :
    pgroundup size = pagesOf size * pgsize := by
  unfold pgroundup pagesOf kernbase pgsize at *
  rw [Nat.mod_eq_of_lt (by omega)]

theorem lt_pagesOf {size : ℕ} : v < pagesOf size ↔ v * pgsize < size := by
  unfold pagesOf pgsize
  omega

theorem pagesOf_le {size : ℕ} (bound : size ≤ kernbase) : pagesOf size ≤ userPages := by
  unfold pagesOf kernbase userPages pgsize at *
  omega

theorem pagesOf_mono {size size' : ℕ} (le : size ≤ size') : pagesOf size ≤ pagesOf size' := by
  unfold pagesOf pgsize
  omega

theorem nextTable (user : v < userPages) :
    pgaddr (pdx (v * pgsize) + 1) - pgsize + pgsize = (v / 1024 + 1) * 1024 * pgsize := by
  unfold pgaddr pdx pgsize userPages at *
  omega

/-- `kfree` of a page and the update of a page table do not depend on each other. -/
theorem setPte_kfree {table : Page} {i : ℕ} {pte : Pte} (different : table ≠ x) :
    ({ m with content := Function.update m.content x junk, freelist := x :: m.freelist } :
      Mem).setPte table i pte =
    { m.setPte table i pte with
      content := Function.update (m.setPte table i pte).content x junk,
      freelist := x :: (m.setPte table i pte).freelist } := by
  unfold Mem.setPte
  dsimp only
  rw [Function.update_of_ne different, Function.update_comm different]

/-- One pass of the loop of `deallocuvm` over a present page. -/
theorem Space.freePage {table : Page} (space : Space m dir pool) (user : v < userPages)
    (holds : tableOf m dir (v / 1024) = some table) (present : (entry m dir v).present = true) :
    (entry m dir v).page ≠ 0 ∧
    ∃ m₁, Vm.kfree (entry m dir v).page m = .ok m₁ ∧
      Becomes dir pool m (m₁.setPte table (v % 1024) {}) (Function.update (image m dir) v none) := by
  have bound : v < 2 ^ 20 := user.trans (by decide)
  have inPool := space.owned.own_mem _ _ (own_page user present)
  have valid := space.valid _ inPool
  have kernel := m.linked.inside
  have text := m.linked.text
  have different : table ≠ (entry m dir v).page := by
    intro same
    cases space.owned.single _ _ _ (own_table (index_lt bound) holds)
      (same ▸ own_page user present)
  rcases space.clearPage user holds present with ⟨space₁, images⟩
  rcases space₁.kfree inPool valid with ⟨m', freed, becomes⟩
  have notNull : (entry m dir v).page ≠ 0 :=
    Nat.ne_of_gt ((Nat.zero_lt_of_lt text).trans_le (kernel.trans valid.1))
  have valid₁ : (m.setPte table (v % 1024) {}).linked.kernelEnd ≤ (entry m dir v).page ∧
      (entry m dir v).page < phystop := valid
  refine ⟨notNull, _, kfree_ok valid, ?_⟩
  rw [kfree_ok valid₁] at freed
  rw [setPte_kfree different, Except.ok.inj freed]
  refine ⟨becomes.space, ?_, fun w user' => ?_,
    fun guarded => becomes.guarded (space.guarded_setPte user holds {} guarded)⟩
  · exact (setPte_after (space.owned.own_mem _ _ (own_table (index_lt bound) holds)) _).trans
      becomes.after
  · rw [becomes.image w user', images w user', Function.update_apply]

theorem Space.deallocLoop {oldsz : ℕ} (bound : oldsz ≤ kernbase) (passes : ℕ) :
    ∀ {m v}, Space m dir pool → pagesOf oldsz ≤ v + passes →
      ∃ m', deallocuvmLoop dir oldsz passes (v * pgsize) m = .ok m' ∧
        Becomes dir pool m m' fun w =>
          if v ≤ w ∧ w < pagesOf oldsz then none else image m dir w := by
  induction passes with
  | zero =>
      intro m v space enough
      refine ⟨m, rfl, (Becomes.refl space).congr fun w user => ?_⟩
      rw [if_neg]
      omega
  | succ passes ih =>
      intro m v space enough
      unfold deallocuvmLoop
      by_cases done : v * pgsize < oldsz
      · rw [if_pos done]
        have inside := lt_pagesOf.2 done
        have user := inside.trans_le (pagesOf_le bound)
        have bound' : v < 2 ^ 20 := user.trans (by decide)
        have next : v * pgsize + pgsize = (v + 1) * pgsize := by rw [Nat.add_mul, Nat.one_mul]
        cases holds : tableOf m dir (v / 1024) with
        | none =>
            rw [walkpgdir_none bound' holds]
            dsimp only
            rw [nextTable user]
            rcases ih (v := (v / 1024 + 1) * 1024) space (by omega) with ⟨m', ran, becomes⟩
            refine ⟨m', ran, becomes.congr fun w user' => ?_⟩
            by_cases skipped : v ≤ w ∧ w < (v / 1024 + 1) * 1024
            · have absent : image m dir w = none := by
                have index : w / 1024 = v / 1024 := by omega
                rw [image_eq_none, entry, index, holds]
              rw [absent]
              simp
            · have iff : (v / 1024 + 1) * 1024 ≤ w ↔ v ≤ w := by omega
              simp only [iff]
        | some table =>
            rw [walkpgdir_some false bound' holds]
            dsimp only
            have same : m.pte table (v % 1024) = entry m dir v := by rw [entry, holds]
            rw [same, next]
            by_cases present : (entry m dir v).present = true
            · rcases space.freePage user holds present with ⟨notNull, m₁, freed, becomes⟩
              rw [if_pos present, if_neg notNull, freed]
              rcases ih (v := v + 1) becomes.space (by omega) with ⟨m', ran, becomes'⟩
              refine ⟨m', ran, (becomes.trans becomes').congr fun w user' => ?_⟩
              rw [becomes.image w user', Function.update_apply]
              by_cases isV : w = v
              · subst isV
                simp [inside]
              · have iff : v + 1 ≤ w ↔ v ≤ w := by omega
                simp only [iff, isV, if_false]
            · rw [if_neg present]
              rcases ih (v := v + 1) space (by omega) with ⟨m', ran, becomes⟩
              refine ⟨m', ran, becomes.congr fun w user' => ?_⟩
              by_cases isV : w = v
              · subst isV
                have absent : image m dir w = none := image_eq_none.2 (by simpa using present)
                simp [absent]
              · have iff : v + 1 ≤ w ↔ v ≤ w := by omega
                simp only [iff]
      · rw [if_neg done]
        refine ⟨m, rfl, (Becomes.refl space).congr fun w user => ?_⟩
        rw [if_neg]
        exact fun both => done (lt_pagesOf.1 (both.1.trans_lt both.2))

/-- `deallocuvm` frees the pages between the sizes. -/
theorem Space.dealloc {oldsz newsz : ℕ} (space : Space m dir pool) (bound : oldsz ≤ kernbase)
    (less : newsz < oldsz) :
    ∃ m', deallocuvm dir oldsz newsz m = .ok (newsz, m') ∧
      Becomes dir pool m m' fun w =>
        if pagesOf newsz ≤ w ∧ w < pagesOf oldsz then none else image m dir w := by
  have enough : pagesOf oldsz ≤ pagesOf newsz + (oldsz / pgsize + 1) := by
    unfold pagesOf pgsize
    omega
  rcases space.deallocLoop bound _ enough with ⟨m', ran, becomes⟩
  refine ⟨m', ?_, becomes⟩
  unfold deallocuvm
  rw [if_neg (Nat.not_le.2 less), pgroundup_eq (less.le.trans bound), ran]
  rfl

/-! ## The number of pages -/

theorem ncard_free (nodup : m.freelist.Nodup) : m.free.ncard = m.freelist.length := by
  have same : m.free = (m.freelist.toFinset : Set Page) := by
    ext x
    simp [Mem.free]
  rw [same, Set.ncard_coe_finset, List.toFinset_card_of_nodup nodup]

/-- There are not many pages more than free ones if there are no user pages from `hi` on, and no page
tables below `lo`. -/
theorem Space.card_le (lo hi : ℕ) (space : Space m dir pool)
    (noTables : ∀ i < lo, tableOf m dir i = none)
    (noPages : ∀ v < userPages, hi ≤ v → image m dir v = none) :
    pool.ncard ≤ m.freelist.length + (1 + (1024 - lo) + hi) := by
  let tables : Finset Page := (Finset.Ico lo 1024).image fun i => (tableOf m dir i).getD 0
  let present : Finset Page := (Finset.range hi).image fun v => (entry m dir v).page
  have covered : pool ⊆
      ((m.freelist.toFinset ∪ (({dir} ∪ tables) ∪ present) : Finset Page) : Set Page) := by
    intro x inPool
    simp only [Finset.coe_union, Set.mem_union, Finset.mem_coe, List.mem_toFinset]
    rcases space.owned.covered x inPool with isFree | ⟨part, holds⟩
    · exact .inl isFree
    · right
      cases part with
      | dir =>
          cases holds
          exact .inl (.inl (Finset.mem_singleton_self dir))
      | table i =>
          refine .inl (.inr ?_)
          simp only [own] at holds
          split at holds
          · rename_i inside
            refine Finset.mem_image.2 ⟨i, Finset.mem_Ico.2 ⟨?_, inside⟩, by rw [holds]; rfl⟩
            by_contra below
            cases (noTables i (Nat.not_le.1 below)).symm.trans holds
          · cases holds
      | page v =>
          simp only [own] at holds
          split at holds
          · rename_i both
            right
            cases holds
            refine Finset.mem_image.2 ⟨v, Finset.mem_range.2 ?_, rfl⟩
            by_contra above
            have absent := image_eq_none.1 (noPages v both.1 (Nat.not_lt.1 above))
            rw [both.2] at absent
            cases absent
          · cases holds
  calc pool.ncard
      ≤ ((m.freelist.toFinset ∪ (({dir} ∪ tables) ∪ present) : Finset Page) : Set Page).ncard :=
        Set.ncard_le_ncard covered (Finset.finite_toSet _)
    _ = (m.freelist.toFinset ∪ (({dir} ∪ tables) ∪ present)).card := Set.ncard_coe_finset _
    _ ≤ m.freelist.toFinset.card + (({dir} ∪ tables) ∪ present).card := Finset.card_union_le _ _
    _ ≤ m.freelist.length + (1 + (1024 - lo) + hi) := by
        refine Nat.add_le_add (List.toFinset_card_le _) ((Finset.card_union_le _ _).trans ?_)
        refine Nat.add_le_add ((Finset.card_union_le _ _).trans ?_) ?_
        · refine Nat.add_le_add (Finset.card_singleton dir).le ?_
          exact Finset.card_image_le.trans (Nat.card_Ico lo 1024).le
        · exact Finset.card_image_le.trans (Finset.card_range hi).le

/-- A call of `kalloc` may fail, or there are few pages for an address space of `n` pages. -/
def Tight (m : Mem) (pool : Set Page) (n : ℕ) : Prop :=
  pool.ncard ≤ 1026 + n ∨ ∃ call, m.fails call = true

theorem Tight.mono {n n' : ℕ} (tight : Tight m pool n) (more : n ≤ n') : Tight m pool n' := by
  apply tight.imp_left
  intro few
  omega

theorem Tight.before {n : ℕ} (tight : Tight m' pool n) (after : After pool m m') : Tight m pool n := by
  unfold Tight at tight ⊢
  rwa [← after.fails]

/-- Where `kalloc` fails, the pages are in the address space, but for one at most. -/
theorem Space.tight {rest : Set Page} (space : Space m' dir rest) (refused : Refused m')
    (above : ∀ w < userPages, v ≤ w → image m' dir w = none) (fails : m'.fails = m.fails)
    (few : pool.ncard ≤ rest.ncard + 1) : Tight m pool v := by
  apply refused.imp
  · intro empty
    have card := space.card_le 0 v (fun _ impossible => absurd impossible (Nat.not_lt_zero _)) above
    rw [empty, List.length_nil] at card
    omega
  · rintro ⟨call, failed⟩
    rw [fails] at failed
    exact ⟨call, failed⟩

/-! ## `allocuvm` -/

/-- `kalloc` has returned a page, which is filled. -/
theorem Space.takePage {freelist : List Page} (space : Space m dir pool)
    (list : m.freelist = x :: freelist) (content : Contents) :
    let m' := { m with
      calls := m.calls + 1, freelist, content := Function.update m.content x content }
    Space m' dir (pool \ {x}) ∧ After pool m m' ∧ x ∈ pool ∧
      (∀ v < userPages, image m' dir v = image m dir v) ∧ (Guarded m dir → Guarded m' dir) := by
  intro m'
  rcases space.take list with ⟨partition, inPool⟩
  have space₁ : Space { m with calls := m.calls + 1, freelist } dir (pool \ {x}) := partition
  have after : After {x} { m with calls := m.calls + 1, freelist } m' :=
    ⟨rfl, rfl, fun page outside => Function.update_of_ne outside _ _⟩
  have framed := frame dir (fun part page holds => (space₁.owned.own_mem part page holds).2) after
  refine ⟨⟨space₁.nodup, space₁.owned.congr framed.2.2.1, space₁.valid⟩, ⟨rfl, rfl, ?_⟩, inPool,
    framed.2.2.2, fun guarded => guarded.congr fun v _ bound => framed.2.1 v bound⟩
  intro page outside
  refine Function.update_of_ne ?_ _ _
  rintro rfl
  exact outside inPool

/-- A new page of user memory. -/
def zeroPage : UserPage := { writable := true, user := true, bytes := fun _ => 0 }

/-- One pass of the loop: the memory does not suffice, and the pages are given back, or a page of
zeroes is added. -/
theorem Space.allocPage {oldsz newsz : ℕ} (space : Space m dir pool) (bound : newsz < kernbase)
    (passes : ℕ) (from' : pagesOf oldsz ≤ v) (inside : v < pagesOf newsz)
    (above : ∀ w < userPages, v ≤ w → image m dir w = none) :
    (∃ m', allocuvmLoop dir oldsz newsz (passes + 1) (v * pgsize) m = .ok (0, m') ∧
      (Becomes dir pool m m' fun w =>
        if pagesOf oldsz ≤ w ∧ w < pagesOf newsz then none else image m dir w) ∧ Tight m pool v) ∨
    ∃ m', allocuvmLoop dir oldsz newsz (passes + 1) (v * pgsize) m =
        allocuvmLoop dir oldsz newsz passes ((v + 1) * pgsize) m' ∧
      Becomes dir pool m m' fun w => if w = v then some zeroPage else image m dir w := by
  have user := inside.trans_le (pagesOf_le bound.le)
  have absent := above v user le_rfl
  have below := lt_pagesOf.1 inside
  have less : oldsz < newsz := by
    by_contra notLess
    exact absurd (lt_pagesOf.2 (below.trans_le (Nat.not_lt.1 notLess))) (Nat.not_lt.2 from')
  rw [allocuvmLoop, if_pos below]
  rcases kalloc_cases m with failed | ⟨page, freelist, list, allocated⟩
  · left
    have refused := kalloc_refused (congrArg Prod.fst failed)
    rw [failed] at refused ⊢
    have grows := space.calls (m.calls + 1)
    rcases grows.space.dealloc bound.le less with ⟨m', ran, becomes⟩
    dsimp only
    rw [ran]
    exact ⟨m', rfl, (grows.becomes space).trans becomes,
      grows.space.tight refused above rfl (Nat.le_add_right _ _)⟩
  rw [allocated]
  rcases space.takePage list zeroed with ⟨space₁, after, inPool, images, guards⟩
  have valid := space.valid page inPool
  have absent₁ := (images v user).trans absent
  dsimp only
  rcases space₁.mapPage writableUser inPool valid user absent₁ with
    ⟨m', mapped, becomes, refused⟩ | ⟨m', mapped, becomes⟩
  · left
    have mapped' : mappages dir (v * pgsize) pgsize page writableUser
        ({ m with calls := m.calls + 1, freelist }.zero page) = .ok (false, m') := mapped
    rw [mapped']
    rcases becomes.space.dealloc bound.le less with ⟨m₂, ran, cleared⟩
    have valid₂ : m₂.linked.kernelEnd ≤ page ∧ page < phystop := by
      rw [cleared.after.linked, becomes.after.linked]
      exact valid
    rcases cleared.space.kfree inPool valid₂ with ⟨m₃, freed, given⟩
    have few : pool.ncard ≤ (pool \ {page}).ncard + 1 := by
      have less' := Set.pred_ncard_le_ncard_sdiff_singleton pool page
      omega
    refine ⟨m₃, ?_, ⟨given.space, ?_, ?_, fun guarded =>
      given.guarded (cleared.guarded (becomes.guarded (guards guarded)))⟩,
      becomes.space.tight refused (fun w user' from'' => ?_) (becomes.after.fails.trans after.fails) few⟩
    · simp only [bind_ok, Bool.false_eq_true, if_false, ran, freed, pure_eq]
    · exact ((after.trans (becomes.after.mono Set.sdiff_subset)).trans
        (cleared.after.mono Set.sdiff_subset)).trans given.after
    · intro w user'
      rw [given.image w user', cleared.image w user', becomes.image w user', images w user']
    · rw [becomes.image w user', images w user']
      exact above w user' from''
  · right
    have mapped' : mappages dir (v * pgsize) pgsize page writableUser
        ({ m with calls := m.calls + 1, freelist }.zero page) = .ok (true, m') := mapped
    rw [mapped']
    have next : v * pgsize + pgsize = (v + 1) * pgsize := by rw [Nat.add_mul, Nat.one_mul]
    simp only [bind_ok, if_true, next]
    refine ⟨m', rfl, becomes.space, after.trans becomes.after, fun w user' => ?_,
      fun guarded => becomes.guarded (guards guarded)⟩
    rw [becomes.image w user', Function.update_apply]
    split
    · simp [writableUser, zeroPage, zeroed]
    · exact images w user'

theorem Space.allocLoop {oldsz newsz : ℕ} (bound : newsz < kernbase) (passes : ℕ) :
    ∀ {m v}, Space m dir pool → pagesOf oldsz ≤ v → pagesOf newsz ≤ v + passes →
      (∀ w < userPages, v ≤ w → image m dir w = none) →
      (∃ m', allocuvmLoop dir oldsz newsz passes (v * pgsize) m = .ok (newsz, m') ∧
        Becomes dir pool m m' fun w =>
          if v ≤ w ∧ w < pagesOf newsz then some zeroPage else image m dir w) ∨
      ∃ m', allocuvmLoop dir oldsz newsz passes (v * pgsize) m = .ok (0, m') ∧
        (Becomes dir pool m m' fun w =>
          if pagesOf oldsz ≤ w ∧ w < pagesOf newsz then none else image m dir w) ∧
        Tight m pool (pagesOf newsz) := by
  induction passes with
  | zero =>
      intro m v space _ enough _
      refine .inl ⟨m, rfl, (Becomes.refl space).congr fun w user => ?_⟩
      rw [if_neg]
      omega
  | succ passes ih =>
      intro m v space from' enough absent
      by_cases done : v * pgsize < newsz
      · have inside := lt_pagesOf.2 done
        rcases space.allocPage bound passes from' inside absent with
          ⟨m', failed, becomes, tight⟩ | ⟨m', ran, becomes⟩
        · exact .inr ⟨m', failed, becomes, tight.mono inside.le⟩
        rw [ran]
        have absent₂ : ∀ w < userPages, v + 1 ≤ w → image m' dir w = none := by
          intro w user above
          rw [becomes.image w user, if_neg (by omega)]
          exact absent w user (by omega)
        rcases ih becomes.space (by omega) (by omega) absent₂ with
          ⟨m₂, ran, becomes₂⟩ | ⟨m₂, ran, becomes₂, tight⟩
        · left
          refine ⟨m₂, ran, (becomes.trans becomes₂).congr fun w user' => ?_⟩
          rw [becomes.image w user']
          by_cases isV : w = v
          · subst isV
            simp [inside]
          · have iff : v + 1 ≤ w ↔ v ≤ w := by omega
            simp only [iff, isV, if_false]
        · right
          refine ⟨m₂, ran, (becomes.trans becomes₂).congr fun w user' => ?_, tight.before becomes.after⟩
          rw [becomes.image w user']
          by_cases isV : w = v
          · subst isV
            simp [from', inside]
          · rw [if_neg isV]
      · unfold allocuvmLoop
        rw [if_neg done]
        refine .inl ⟨m, rfl, (Becomes.refl space).congr fun w user => ?_⟩
        rw [if_neg]
        exact fun both => done (lt_pagesOf.1 (both.1.trans_lt both.2))

/-- `allocuvm` adds pages of zeroes between the sizes, or fails and changes nothing, as the size is too
large or the memory does not suffice. -/
theorem Space.alloc {oldsz : ℕ} (newsz : ℕ) (space : Space m dir pool) (old : oldsz ≤ kernbase)
    (absent : ∀ w, pagesOf oldsz ≤ w → w < userPages → image m dir w = none) :
    (∃ m', allocuvm dir oldsz newsz m = .ok (0, m') ∧ Becomes dir pool m m' (image m dir) ∧
      (kernbase ≤ newsz ∨ Tight m pool (pagesOf newsz))) ∨
    newsz < kernbase ∧ ∃ m', allocuvm dir oldsz newsz m = .ok (max oldsz newsz, m') ∧
      Becomes dir pool m m' fun w =>
        if pagesOf oldsz ≤ w ∧ w < pagesOf newsz then some zeroPage else image m dir w := by
  unfold allocuvm
  by_cases high : newsz ≥ kernbase
  · rw [if_pos high]
    exact .inl ⟨m, rfl, .refl space, .inl high⟩
  · have bound : newsz < kernbase := Nat.not_le.1 high
    rw [if_neg high]
    by_cases less : newsz < oldsz
    · rw [if_pos less, max_eq_left less.le]
      refine .inr ⟨bound, m, rfl, (Becomes.refl space).congr fun w user => ?_⟩
      rw [if_neg]
      unfold pagesOf pgsize
      omega
    · rw [if_neg less, max_eq_right (Nat.not_lt.1 less), pgroundup_eq old]
      have enough : pagesOf newsz ≤ pagesOf oldsz + (newsz / pgsize + 1) := by
        unfold pagesOf pgsize
        omega
      rcases space.allocLoop bound _ le_rfl enough fun w user from' => absent w from' user with
        ⟨m', ran, becomes⟩ | ⟨m', ran, becomes, tight⟩
      · exact .inr ⟨bound, m', ran, becomes⟩
      · refine .inl ⟨m', ran, becomes.congr fun w user => ?_, .inr tight⟩
        split
        · rename_i both
          exact (absent w both.1 user).symm
        · rfl

end Xv6.Vm
