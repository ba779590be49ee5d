import Xv6.Vm.Conservation

/-!
# Page by page

`deallocuvm` skips regions without a page table. It has the same effect as a visit to each page, and
`allocuvm` maps its pages or gives them back.
-/

namespace Xv6.Vm

open Ownership Fallible

variable {m m' m₁ m₂ : Mem} {dir x : Page} {pool : Set Page} {v w n oldsz newsz : ℕ} {flags : Pte}

/-- A visit to one page: if it is present, it is freed and its entry is cleared. -/
def deallocPage (dir : Page) (m : Mem) (v : ℕ) : Except Fault Mem :=
  match walkpgdir dir (v * pgsize) false m with
  | (none, m) => .ok m
  | (some (table, i), m) =>
      let pte := m.pte table i
      if pte.present then
        if pte.page = 0 then .error .kfree
        else do
          let m ← kfree pte.page m
          return m.setPte table i {}
      else .ok m

/-- The pages of `[PGROUNDUP(newsz), oldsz)` -/
def pagesBetween (newsz oldsz : ℕ) : List ℕ := List.range' (pagesOf newsz) (pagesOf oldsz - pagesOf newsz)

theorem mem_pagesBetween : v ∈ pagesBetween newsz oldsz ↔ pagesOf newsz ≤ v ∧ v < pagesOf oldsz := by
  unfold pagesBetween
  rw [List.mem_range'_1]
  omega

/-- Pages without a page table are not changed. -/
theorem deallocPages_skip (bound : v + n ≤ 2 ^ 20)
    (absent : ∀ w, v ≤ w → w < v + n → tableOf m dir (w / 1024) = none) :
    (List.range' v n).foldlM (deallocPage dir) m = .ok m := by
  induction n generalizing v with
  | zero => rfl
  | succ n ih =>
      have visit : deallocPage dir m v = .ok m := by
        unfold deallocPage
        rw [walkpgdir_none (by omega) (absent v le_rfl (by omega))]
      rw [List.range'_succ, List.foldlM_cons, visit, bind_ok]
      exact ih (by omega) fun w above below => absent w (by omega) (by omega)

/-- Where a page table is missing, the visits go on behind its pages. -/
theorem deallocPages_nextTable (bound : oldsz ≤ kernbase) (inside : v < pagesOf oldsz)
    (missing : tableOf m dir (v / 1024) = none) :
    (List.range' v (pagesOf oldsz - v)).foldlM (deallocPage dir) m =
      (List.range' ((v / 1024 + 1) * 1024) (pagesOf oldsz - (v / 1024 + 1) * 1024)).foldlM
        (deallocPage dir) m := by
  -- the pages up to the next page table, or to the end
  generalize isN : min (pagesOf oldsz - v) ((v / 1024 + 1) * 1024 - v) = n
  have split : List.range' v (pagesOf oldsz - v) =
      List.range' v n ++ List.range' (v + n) (pagesOf oldsz - v - n) := by
    rw [List.range'_append_1]
    congr 1
    omega
  have last := pagesOf_le bound
  have skipped : (List.range' v n).foldlM (deallocPage dir) m = .ok m := by
    unfold userPages at last
    refine deallocPages_skip (by omega) fun w above below => ?_
    have index : w / 1024 = v / 1024 := by omega
    rw [index, missing]
  rw [split, List.foldlM_append, skipped, bind_ok]
  by_cases final : pagesOf oldsz ≤ (v / 1024 + 1) * 1024
  · have none : pagesOf oldsz - (v / 1024 + 1) * 1024 = 0 := by omega
    have none' : pagesOf oldsz - v - n = 0 := by omega
    rw [none, none']
    rfl
  · have isNext : v + n = (v / 1024 + 1) * 1024 := by omega
    have rest : pagesOf oldsz - v - n = pagesOf oldsz - (v / 1024 + 1) * 1024 := by omega
    rw [isNext, rest]

/-- The loop of `deallocuvm` visits each page. -/
theorem deallocuvmLoop_eq (bound : oldsz ≤ kernbase) (passes : ℕ) : ∀ {m v}, pagesOf oldsz ≤ v + passes →
    deallocuvmLoop dir oldsz passes (v * pgsize) m =
      (List.range' v (pagesOf oldsz - v)).foldlM (deallocPage dir) m := by
  induction passes with
  | zero =>
      intro m v enough
      have none : pagesOf oldsz - v = 0 := by omega
      rw [none]
      rfl
  | succ passes ih =>
      intro m v enough
      unfold deallocuvmLoop
      by_cases done : v * pgsize < oldsz
      · have inside := lt_pagesOf.2 done
        have user := inside.trans_le (pagesOf_le bound)
        have bound' : v < 2 ^ 20 := user.trans (by decide)
        have next : v * pgsize + pgsize = (v + 1) * pgsize := by rw [Nat.add_mul, Nat.one_mul]
        have first : pagesOf oldsz - v = pagesOf oldsz - (v + 1) + 1 := by omega
        rw [if_pos done]
        cases holds : tableOf m dir (v / 1024) with
        | none =>
            rw [walkpgdir_none bound' holds]
            dsimp only
            rw [nextTable user, ih (by omega), deallocPages_nextTable bound inside holds]
        | some table =>
            rw [first, List.range'_succ, List.foldlM_cons]
            unfold deallocPage
            rw [walkpgdir_some false bound' holds]
            dsimp only
            rw [next]
            split
            · split
              · rfl
              · cases kfree (m.pte table (v % 1024)).page m with
                | error fault => rfl
                | ok m₁ =>
                    rw [bind_ok, bind_ok, pure_eq, bind_ok]
                    exact ih (by omega)
            · rw [bind_ok]
              exact ih (by omega)
      · have none : pagesOf oldsz - v = 0 := by
          have notLess := mt lt_pagesOf.1 done
          omega
        rw [if_neg done, none]
        rfl

/-- `deallocuvm` has the effect of visits to all pages between the sizes. -/
theorem deallocuvm_eq (bound : oldsz ≤ kernbase) : deallocuvm dir oldsz newsz m = (do
    let m ← (pagesBetween newsz oldsz).foldlM (deallocPage dir) m
    return (min newsz oldsz, m)) := by
  unfold deallocuvm pagesBetween
  by_cases grows : newsz ≥ oldsz
  · have none : pagesOf oldsz - pagesOf newsz = 0 := by
      unfold pagesOf pgsize
      omega
    rw [if_pos grows, none, min_eq_right grows]
    rfl
  · have less := Nat.not_le.1 grows
    have enough : pagesOf oldsz ≤ pagesOf newsz + (oldsz / pgsize + 1) := by
      unfold pagesOf pgsize
      omega
    rw [if_neg grows, pgroundup_eq (less.le.trans bound), deallocuvmLoop_eq bound _ enough, min_eq_left less.le]

/-! ## Freeing pages -/

/-- The frames of the pages that are present. -/
def framesOf (m : Mem) (dir : Page) (pages : List ℕ) : List Page :=
  (pages.filter fun v => (entry m dir v).present).map fun v => (entry m dir v).page

/-- Exactly the present pages among these have been freed, each once, and their entries cleared. -/
structure Deallocated (dir : Page) (pool : Set Page) (pages : List ℕ) (m m' : Mem) : Prop where
  space : Space m' dir pool
  after : After pool m m'
  freed : m'.freelist = (framesOf m dir pages).reverse ++ m.freelist
  tables : ∀ i < 1024, tableOf m' dir i = tableOf m dir i
  entries : ∀ w < 2 ^ 20, entry m' dir w =
    if w ∈ pages ∧ (entry m dir w).present = true then {} else entry m dir w

/-- One page that is present. -/
theorem Space.freeOne {table : Page} (space : Space m dir pool) (user : v < userPages)
    (holds : tableOf m dir (v / 1024) = some table) (present : (entry m dir v).present = true) :
    ∃ m', deallocPage dir m v = .ok m' ∧ Deallocated dir pool [v] m m' := by
  have bound : v < 2 ^ 20 := user.trans (by decide)
  have inPool := space.owned.own_mem _ _ (own_page user present)
  have valid := space.valid _ inPool
  have same : m.pte table (v % 1024) = entry m dir v := by rw [entry, holds]
  have different : table ≠ (entry m dir v).page := by
    intro same
    cases space.owned.single _ _ _ (own_table (index_lt bound) holds) (same ▸ own_page user present)
  rcases space.freePage user holds present with ⟨notNull, m₁, freed, becomes⟩
  rcases space.clearPage user holds present with ⟨space₁, _⟩
  have valid₁ : (m.setPte table (v % 1024) {}).linked.kernelEnd ≤ (entry m dir v).page ∧
      (entry m dir v).page < phystop := valid
  rcases space₁.give inPool valid₁ with ⟨m₂, freed₂, _, after₂⟩
  have isFreed := Except.ok.inj (freed.symm.trans (kfree_ok valid))
  have isFreed₂ := Except.ok.inj (freed₂.symm.trans (kfree_ok valid₁))
  have isSame : m₁.setPte table (v % 1024) {} = m₂ := by rw [isFreed, isFreed₂, setPte_kfree different]
  have framed := frame dir (fun part page holds => (space₁.owned.own_mem part page holds).2) after₂
  have set := space.setPte {} bound holds
  refine ⟨_, ?_, becomes.space, becomes.after, ?_, fun i inside => ?_, fun w bound' => ?_⟩
  · unfold deallocPage
    rw [walkpgdir_some false bound holds]
    dsimp only
    rw [same, if_pos present, if_neg notNull, freed]
    rfl
  · have isOne : framesOf m dir [v] = [(entry m dir v).page] := by
      unfold framesOf
      simp [present]
    rw [isFreed, isOne]
    rfl
  · rw [isSame, framed.1 i inside, set.1]
  · rw [isSame, framed.2.1 w bound', set.2 w bound']
    by_cases isV : w = v
    · rw [if_pos isV, if_pos]
      rw [isV]
      exact ⟨List.mem_singleton_self v, present⟩
    · rw [if_neg isV, if_neg]
      exact fun both => isV (List.mem_singleton.1 both.1)

theorem Deallocated.refl (space : Space m dir pool) {pages : List ℕ}
    (absent : ∀ w ∈ pages, (entry m dir w).present = false) : Deallocated dir pool pages m m := by
  refine ⟨space, .refl, ?_, fun _ _ => rfl, fun w _ => (if_neg ?_).symm⟩
  · have none : pages.filter (fun v => (entry m dir v).present) = [] := by
      rw [List.filter_eq_nil_iff]
      intro w member
      rw [absent w member]
      decide
    unfold framesOf
    rw [none]
    rfl
  · rintro ⟨member, present⟩
    rw [absent w member] at present
    exact Bool.false_ne_true present

theorem Deallocated.trans {pages pages' : List ℕ} (first : Deallocated dir pool pages m m₁)
    (second : Deallocated dir pool pages' m₁ m₂) (small : ∀ w ∈ pages', w < 2 ^ 20)
    (disjoint : ∀ w ∈ pages', w ∉ pages) : Deallocated dir pool (pages ++ pages') m m₂ := by
  have same : ∀ w ∈ pages', entry m₁ dir w = entry m dir w := by
    intro w member
    rw [first.entries w (small w member), if_neg fun both => disjoint w member both.1]
  have isFrames : framesOf m₁ dir pages' = framesOf m dir pages' := by
    unfold framesOf
    rw [List.filter_congr fun w member => by rw [same w member]]
    exact List.map_congr_left fun w member => by rw [same w (List.mem_filter.1 member).1]
  refine ⟨second.space, first.after.trans second.after, ?_, fun i inside => ?_, fun w bound => ?_⟩
  · rw [second.freed, isFrames, first.freed]
    unfold framesOf
    rw [List.filter_append, List.map_append, List.reverse_append, List.append_assoc]
  · rw [second.tables i inside, first.tables i inside]
  · rw [second.entries w bound]
    by_cases member : w ∈ pages'
    · simp only [same w member, List.mem_append, member, or_true]
    · have isFirst := first.entries w bound
      rw [if_neg fun both => member both.1, isFirst]
      simp only [List.mem_append, member, or_false]

/-- Visits to pages, one after the other. -/
theorem Space.deallocPages (n : ℕ) : ∀ {m v}, Space m dir pool → v + n ≤ userPages →
    ∃ m', (List.range' v n).foldlM (deallocPage dir) m = .ok m' ∧
      Deallocated dir pool (List.range' v n) m m' := by
  induction n with
  | zero =>
      intro m v space _
      exact ⟨m, rfl, .refl space fun w member => absurd member List.not_mem_nil⟩
  | succ n ih =>
      intro m v space bound
      have user : v < userPages := by omega
      have visit : ∃ m₁, deallocPage dir m v = .ok m₁ ∧ Deallocated dir pool [v] m m₁ := by
        by_cases present : (entry m dir v).present = true
        · cases holds : tableOf m dir (v / 1024) with
          | none =>
              rw [entry, holds] at present
              cases present
          | some table => exact space.freeOne user holds present
        · have absent : (entry m dir v).present = false := by simpa using present
          refine ⟨m, ?_, .refl space fun w member => by rw [List.mem_singleton.1 member, absent]⟩
          unfold deallocPage
          have bound' : v < 2 ^ 20 := user.trans (by decide)
          cases holds : tableOf m dir (v / 1024) with
          | none => rw [walkpgdir_none bound' holds]
          | some table =>
              rw [entry, holds] at absent
              rw [walkpgdir_some false bound' holds]
              dsimp only
              rw [if_neg]
              rw [absent]
              decide
      rcases visit with ⟨m₁, ran, first⟩
      rcases ih first.space (show v + 1 + n ≤ userPages by omega) with ⟨m', ran', rest⟩
      refine ⟨m', ?_, ?_⟩
      · rw [List.range'_succ, List.foldlM_cons, ran, bind_ok]
        exact ran'
      · have small : ∀ w ∈ List.range' (v + 1) n, w < 2 ^ 20 := by
          intro w member
          rw [List.mem_range'_1] at member
          unfold userPages at bound
          omega
        have disjoint : ∀ w ∈ List.range' (v + 1) n, w ∉ [v] := by
          intro w member
          rw [List.mem_range'_1] at member
          rw [List.mem_singleton]
          omega
        rw [List.range'_succ]
        exact first.trans rest small disjoint

/-! ## Mapping pages -/

/-- One entry has been set, with page tables as needed. -/
structure Entered (dir : Page) (pool : Set Page) (v : ℕ) (pte : Pte) (m m' : Mem) : Prop where
  space : Space m' dir pool
  after : After pool m m'
  takes : Takes m m'
  tables : ∀ i table, tableOf m dir i = some table → tableOf m' dir i = some table
  entries : ∀ w < 2 ^ 20, entry m' dir w = if w = v then pte else entry m dir w

/-- Mapping one user page sets one entry. -/
theorem Space.mapEntry (space : Space m dir (pool \ {x})) (flags : Pte) (inPool : x ∈ pool)
    (valid : m.linked.kernelEnd ≤ x ∧ x < phystop) (user : v < userPages)
    (absent : (entry m dir v).present = false) :
    (∃ m', mappages dir (v * pgsize) pgsize x flags m = .ok (false, m') ∧ Grows dir (pool \ {x}) m m') ∨
    ∃ m', mappages dir (v * pgsize) pgsize x flags m = .ok (true, m') ∧
      Entered dir pool v { flags with page := x, present := true } m m' := by
  have bound : v < 2 ^ 20 := user.trans (by decide)
  rw [mappages_page bound]
  rcases space.walk bound with ⟨m', walked, grows, -, -⟩ | ⟨table, m₁, walked, holds, grows, -⟩
  · left
    refine ⟨m', ?_, grows⟩
    unfold mappagesLoop
    rw [walked]
  · right
    have absent₁ : (entry m₁ dir v).present = false := by
      rw [grows.entries v bound]
      exact absent
    have notPresent : ¬(m₁.pte table (v % 1024)).present = true := by
      have same := absent₁
      rw [entry, holds] at same
      simp [same]
    have added := grows.space.addPage { flags with page := x, present := true } inPool
      (grows.after.linked ▸ valid) user holds absent₁ rfl rfl
    have set := grows.space.setPte { flags with page := x, present := true } bound holds
    refine ⟨m₁.setPte table (v % 1024) { flags with page := x, present := true }, ?_, added.space,
      (grows.after.mono Set.sdiff_subset).trans added.after, ?_, fun i table' holds' => ?_, fun w bound' => ?_⟩
    · unfold mappagesLoop
      rw [walked]
      dsimp only
      rw [if_neg notPresent]
    · exact grows.takes.trans ⟨fun page member => member, fun page _ => setPte_bytes _ _ _ _ _⟩
    · rw [set.1 i]
      exact grows.tables i table' holds'
    · rw [set.2 w bound', grows.entries w bound']

/-- A page that `kalloc` has returned is filled; nothing else of the address space changes. -/
theorem Space.fillPage {freelist : List Page} (space : Space m dir pool) (list : m.freelist = x :: freelist)
    (content : Contents) :
    let m' := { m with
      calls := m.calls + 1, freelist, content := Function.update m.content x content }
    (∀ i < 1024, tableOf m' dir i = tableOf m dir i) ∧ ∀ w < 2 ^ 20, entry m' dir w = entry m dir w := by
  intro m'
  have space₁ : Space { m with calls := m.calls + 1, freelist } dir (pool \ {x}) := (space.take list).1
  have after : After {x} { m with calls := m.calls + 1, freelist } m' :=
    ⟨rfl, rfl, fun page outside => Function.update_of_ne outside _ _⟩
  have framed := frame dir (fun part page holds => (space₁.owned.own_mem part page holds).2) after
  exact ⟨framed.1, framed.2.1⟩

/-- The pages from `lo` to `hi` are mapped to new frames of zeroes, and all other entries are as before. -/
structure Allocated (dir : Page) (pool : Set Page) (lo hi : ℕ) (m m' : Mem) : Prop where
  space : Space m' dir pool
  after : After pool m m'
  tables : ∀ i < 1024, ∀ table, tableOf m dir i = some table → tableOf m' dir i = some table
  others : ∀ w < 2 ^ 20, ¬(lo ≤ w ∧ w < hi) → entry m' dir w = entry m dir w
  frames : ∀ w, lo ≤ w → w < hi → ∃ x ∈ m.freelist,
    entry m' dir w = { writableUser with page := x, present := true } ∧ (m'.content x).bytes = fun _ => 0
  free : ∀ x ∈ m'.freelist, x ∈ m.freelist

/-- The pages from `lo` to `hi` are not present and all other entries are as before; what has been taken is
free again, or a new page table. -/
structure Undone (dir : Page) (pool : Set Page) (lo hi : ℕ) (m m' : Mem) : Prop where
  space : Space m' dir pool
  after : After pool m m'
  others : ∀ w < 2 ^ 20, ¬(lo ≤ w ∧ w < hi) → entry m' dir w = entry m dir w
  absent : ∀ w, lo ≤ w → w < hi → (entry m' dir w).present = false
  given : ∀ x ∈ m.freelist, x ∈ m'.freelist ∨ ∃ i < 1024, tableOf m dir i = none ∧ tableOf m' dir i = some x

theorem Allocated.refl (space : Space m dir pool) (lo : ℕ) : Allocated dir pool lo lo m m :=
  ⟨space, .refl, fun _ _ _ holds => holds, fun _ _ _ => rfl,
    fun _ above below => absurd (above.trans_lt below) (lt_irrefl lo), fun _ member => member⟩

/-- Every frame is in one place only. -/
theorem Allocated.distinct {lo hi : ℕ} (allocated : Allocated dir pool lo hi m m') (user : hi ≤ userPages)
    (above : lo ≤ v) (below : v < hi) (user' : w < userPages) (present : (entry m' dir w).present = true)
    (same : (entry m' dir v).page = (entry m' dir w).page) : v = w := by
  rcases allocated.frames v above below with ⟨x, _, isEntry, _⟩
  have present' : (entry m' dir v).present = true := by rw [isEntry]
  have holds := own_page (below.trans_le user) present'
  have holds' := own_page user' present
  rw [same] at holds
  cases allocated.space.owned.single _ _ _ holds holds'
  rfl

/-- A further page is mapped. -/
theorem Allocated.next {lo : ℕ} {freelist : List Page} (allocated : Allocated dir pool lo v m₁ m) (above : lo ≤ v)
    (user : v < userPages) (list : m.freelist = x :: freelist)
    (entered : Entered dir pool v { writableUser with page := x, present := true }
      ({ m with calls := m.calls + 1, freelist }.zero x) m') : Allocated dir pool lo (v + 1) m₁ m' := by
  have space := allocated.space
  have filled := space.fillPage list zeroed
  have nodup := space.nodup
  rw [list, List.nodup_cons] at nodup
  have isFree : x ∈ m.freelist := by rw [list]; exact List.mem_cons_self
  have after := (space.takePage list zeroed).2.1
  refine ⟨entered.space, (allocated.after.trans after).trans entered.after, fun i inside table holds => ?_,
    fun w bound outside => ?_, fun w above' below => ?_, fun y member => ?_⟩
  · refine entered.tables i table ((filled.1 i inside).trans ?_)
    exact allocated.tables i inside table holds
  · rw [entered.entries w bound, if_neg (by omega)]
    exact (filled.2 w bound).trans (allocated.others w bound (by omega))
  · have bound : w < 2 ^ 20 := by
      unfold userPages at user
      omega
    have isEntry := entered.entries w bound
    by_cases isV : w = v
    · rw [if_pos isV] at isEntry
      refine ⟨x, allocated.free x isFree, isEntry, ?_⟩
      have zero : (({ m with calls := m.calls + 1, freelist } : Mem).zero x).content x = zeroed :=
        Function.update_self _ _ _
      rw [entered.takes.bytes x nodup.1, zero]
      rfl
    · rw [if_neg isV] at isEntry
      rcases allocated.frames w above' (by omega) with ⟨y, member, isOld, zero⟩
      have old : entry m' dir w = entry m dir w := isEntry.trans (filled.2 w bound)
      have present : (entry m dir w).present = true := by rw [isOld]
      have holds := own_page (show w < userPages by omega) present
      rw [isOld] at holds
      have notFree : y ∉ m.freelist := space.not_free holds
      rw [list, List.mem_cons, not_or] at notFree
      refine ⟨y, member, old.trans isOld, ?_⟩
      have same : (({ m with calls := m.calls + 1, freelist } : Mem).zero x).content y = m.content y :=
        zero_content _ _ _ notFree.1
      rw [entered.takes.bytes y notFree.2, same]
      exact zero
  · refine allocated.free y ?_
    rw [list]
    exact List.mem_cons_of_mem _ (entered.takes.free y member)

/-- What has been taken and is not free is a page table. -/
theorem Undone.of_entries {lo hi : ℕ} (space : Space m dir pool) (space' : Space m' dir pool)
    (after : After pool m m')
    (tables : ∀ i < 1024, ∀ table, tableOf m dir i = some table → tableOf m' dir i = some table)
    (others : ∀ w < 2 ^ 20, ¬(lo ≤ w ∧ w < hi) → entry m' dir w = entry m dir w)
    (absent : ∀ w, lo ≤ w → w < hi → (entry m' dir w).present = false) : Undone dir pool lo hi m m' := by
  refine ⟨space', after, others, absent, fun x isFree => ?_⟩
  rcases space'.owned.covered x (space.owned.free_mem x isFree) with free | ⟨part, holds⟩
  · exact .inl free
  · right
    cases part with
    | dir =>
        cases holds
        exact absurd isFree (space.not_free (rfl : own m dir .dir = some dir))
    | table i =>
        simp only [own] at holds
        split at holds
        · rename_i inside
          refine ⟨i, inside, ?_, holds⟩
          cases before : tableOf m dir i with
          | none => rfl
          | some table =>
              have same := (tables i inside table before).symm.trans holds
              rw [Option.some.injEq] at same
              rw [same] at before
              exact absurd isFree (space.not_free (own_table inside before))
        · cases holds
    | page w =>
        simp only [own] at holds
        split at holds
        · rename_i both
          have bound : w < 2 ^ 20 := both.1.trans (by decide)
          by_cases range : lo ≤ w ∧ w < hi
          · have missing := absent w range.1 range.2
            rw [both.2] at missing
            cases missing
          · rw [others w bound range, Option.some.injEq] at holds
            have present := both.2
            rw [others w bound range] at present
            exact absurd isFree (space.not_free (holds ▸ own_page both.1 present))
        · cases holds

/-- `deallocuvm` frees the pages between the sizes, each once. -/
theorem Space.deallocuvm (space : Space m dir pool) (bound : oldsz ≤ kernbase) (newsz : ℕ) :
    ∃ m', Vm.deallocuvm dir oldsz newsz m = .ok (min newsz oldsz, m') ∧
      Deallocated dir pool (pagesBetween newsz oldsz) m m' := by
  by_cases more : pagesOf newsz ≤ pagesOf oldsz
  · have last := pagesOf_le bound
    rcases space.deallocPages (pagesOf oldsz - pagesOf newsz) (show pagesOf newsz + _ ≤ userPages by omega) with
      ⟨m', ran, deallocated⟩
    refine ⟨m', ?_, deallocated⟩
    rw [deallocuvm_eq bound]
    unfold pagesBetween
    rw [ran]
    rfl
  · have none : pagesBetween newsz oldsz = [] := by
      unfold pagesBetween
      rw [Nat.sub_eq_zero_of_le (Nat.not_le.1 more).le]
      rfl
    refine ⟨m, ?_, ?_⟩
    · rw [deallocuvm_eq bound, none]
      rfl
    · rw [none]
      exact .refl space fun w member => absurd member List.not_mem_nil

/-- The pages that have been mapped are given back. -/
theorem Allocated.undo {pool' : Set Page} (allocated : Allocated dir pool (pagesOf oldsz) v m m₁)
    (inside : v ≤ pagesOf newsz) (bound : newsz ≤ kernbase)
    (tables : ∀ i < 1024, ∀ table, tableOf m₁ dir i = some table → tableOf m₂ dir i = some table)
    (entries : ∀ w < 2 ^ 20, entry m₂ dir w = entry m₁ dir w)
    (deallocated : Deallocated dir pool' (pagesBetween oldsz newsz) m₂ m') :
    (∀ i < 1024, ∀ table, tableOf m dir i = some table → tableOf m' dir i = some table) ∧
    (∀ w < 2 ^ 20, ¬(pagesOf oldsz ≤ w ∧ w < pagesOf newsz) → entry m' dir w = entry m dir w) ∧
    ∀ w, pagesOf oldsz ≤ w → w < pagesOf newsz → (entry m' dir w).present = false := by
  refine ⟨fun i inside' table holds => ?_, fun w bound' outside => ?_, fun w above below => ?_⟩
  · rw [deallocated.tables i inside']
    exact tables i inside' table (allocated.tables i inside' table holds)
  · rw [deallocated.entries w bound', if_neg fun both => outside (mem_pagesBetween.1 both.1), entries w bound']
    exact allocated.others w bound' fun both => outside ⟨both.1, both.2.trans_le inside⟩
  · have bound' : w < 2 ^ 20 := (below.trans_le (pagesOf_le bound)).trans (by decide)
    rw [deallocated.entries w bound']
    split
    · rfl
    · rename_i notPresent
      rw [not_and, Bool.not_eq_true] at notPresent
      exact notPresent (mem_pagesBetween.2 ⟨above, below⟩)

/-- One pass of the loop of `allocuvm`: it fails and gives back what has been mapped, or maps the
next page. -/
theorem Allocated.pass {m₁ : Mem} (space : Space m dir pool) (bound : newsz < kernbase)
    (absent : ∀ w, pagesOf oldsz ≤ w → w < pagesOf newsz → (entry m dir w).present = false)
    (passes : ℕ) (allocated : Allocated dir pool (pagesOf oldsz) v m m₁) (above : pagesOf oldsz ≤ v)
    (below : v < pagesOf newsz) :
    (∃ m', allocuvmLoop dir oldsz newsz (passes + 1) (v * pgsize) m₁ = .ok (0, m') ∧
      Undone dir pool (pagesOf oldsz) (pagesOf newsz) m m') ∨
    ∃ m₂, allocuvmLoop dir oldsz newsz (passes + 1) (v * pgsize) m₁ =
        allocuvmLoop dir oldsz newsz passes ((v + 1) * pgsize) m₂ ∧
      Allocated dir pool (pagesOf oldsz) (v + 1) m m₂ := by
  have user := below.trans_le (pagesOf_le bound.le)
  have bound' : v < 2 ^ 20 := user.trans (by decide)
  rw [Vm.allocuvmLoop, if_pos (lt_pagesOf.1 below)]
  rcases kalloc_cases m₁ with failed | ⟨page, freelist, list, isPage⟩
  · left
    have grows := allocated.space.calls (m₁.calls + 1)
    rcases grows.space.deallocuvm bound.le oldsz with ⟨m', ran, deallocated⟩
    rcases allocated.undo below.le bound.le (fun i _ => grows.tables i) grows.entries deallocated with
      ⟨tables, others, missing⟩
    refine ⟨m', ?_, .of_entries space deallocated.space
      ((allocated.after.trans grows.after).trans deallocated.after) tables others missing⟩
    rw [failed]
    dsimp only
    rw [ran]
    rfl
  have filled := allocated.space.fillPage list zeroed
  rcases allocated.space.takePage list zeroed with ⟨space₁, after, inPool, -, -⟩
  have valid := allocated.space.valid page inPool
  have absent₁ :
      (entry ({ m₁ with calls := m₁.calls + 1, freelist }.zero page) dir v).present = false := by
    have same := (filled.2 v bound').trans
      (allocated.others v bound' fun both => absurd both.2 (lt_irrefl v))
    exact (congrArg Pte.present same).trans (absent v above below)
  rw [isPage]
  dsimp only
  rcases space₁.mapEntry writableUser inPool valid user absent₁ with
    ⟨m₂, mapped, grows⟩ | ⟨m₂, mapped, entered⟩
  · left
    have mapped' : mappages dir (v * pgsize) pgsize page writableUser
        ({ m₁ with calls := m₁.calls + 1, freelist }.zero page) = .ok (false, m₂) := mapped
    rcases grows.space.deallocuvm bound.le oldsz with ⟨m₃, ran, deallocated⟩
    rcases allocated.undo below.le bound.le
      (fun i inside' table holds => grows.tables i table ((filled.1 i inside').trans holds))
      (fun w bound'' => (grows.entries w bound'').trans (filled.2 w bound'')) deallocated with
      ⟨tables, others, missing⟩
    have after₃ := ((allocated.after.trans after).trans (grows.after.mono Set.sdiff_subset)).trans
      (deallocated.after.mono Set.sdiff_subset)
    have valid₃ : m₃.linked.kernelEnd ≤ page ∧ page < phystop := by
      rw [after₃.linked, ← allocated.after.linked]
      exact valid
    rcases deallocated.space.give inPool valid₃ with ⟨m', freed, given, after'⟩
    have framed := frame dir
      (fun part page holds => (deallocated.space.owned.own_mem part page holds).2) after'
    refine ⟨m', ?_, .of_entries space (given.congr framed.2.2.1)
      (after₃.trans (after'.mono (Set.singleton_subset_iff.2 inPool)))
      (fun i inside' table holds => ?_) (fun w bound'' outside => ?_) fun w above' below' => ?_⟩
    · rw [mapped']
      simp only [bind_ok, Bool.false_eq_true, if_false, ran, freed, pure_eq]
    · rw [framed.1 i inside']
      exact tables i inside' table holds
    · rw [framed.2.1 w bound'']
      exact others w bound'' outside
    · rw [framed.2.1 w ((below'.trans_le (pagesOf_le bound.le)).trans (by decide))]
      exact missing w above' below'
  · right
    have mapped' : mappages dir (v * pgsize) pgsize page writableUser
        ({ m₁ with calls := m₁.calls + 1, freelist }.zero page) = .ok (true, m₂) := mapped
    have next : v * pgsize + pgsize = (v + 1) * pgsize := by rw [Nat.add_mul, Nat.one_mul]
    rw [mapped']
    simp only [bind_ok, if_true, next]
    exact ⟨m₂, rfl, allocated.next above user list entered⟩

/-- The loop of `allocuvm` maps all pages, or fails and gives back what it has mapped. -/
theorem Space.allocuvmLoop (space : Space m dir pool) (bound : newsz < kernbase)
    (absent : ∀ w, pagesOf oldsz ≤ w → w < pagesOf newsz → (entry m dir w).present = false) (passes : ℕ) :
    ∀ {m₁ v}, Allocated dir pool (pagesOf oldsz) v m m₁ → pagesOf oldsz ≤ v → v ≤ pagesOf newsz →
      pagesOf newsz ≤ v + passes → ∃ m',
      (allocuvmLoop dir oldsz newsz passes (v * pgsize) m₁ = .ok (newsz, m') ∧
        Allocated dir pool (pagesOf oldsz) (pagesOf newsz) m m') ∨
      (allocuvmLoop dir oldsz newsz passes (v * pgsize) m₁ = .ok (0, m') ∧
        Undone dir pool (pagesOf oldsz) (pagesOf newsz) m m') := by
  induction passes with
  | zero =>
      intro m₁ v allocated _ inside enough
      have isEnd : v = pagesOf newsz := by omega
      exact ⟨m₁, .inl ⟨rfl, isEnd ▸ allocated⟩⟩
  | succ passes ih =>
      intro m₁ v allocated above inside enough
      by_cases done : v * pgsize < newsz
      · have below := lt_pagesOf.2 done
        rcases allocated.pass space bound absent passes above below with
          ⟨m', ran, undone⟩ | ⟨m₂, ran, allocated₂⟩
        · exact ⟨m', .inr ⟨ran, undone⟩⟩
        · rw [ran]
          exact ih allocated₂ (by omega) (by omega) (by omega)
      · have isEnd : v = pagesOf newsz := by
          have notLess := mt lt_pagesOf.1 done
          omega
        unfold Vm.allocuvmLoop
        rw [if_neg done]
        exact ⟨m₁, .inl ⟨rfl, isEnd ▸ allocated⟩⟩

/-- The frames from `lo` to `hi` are in no other place of the user memory. -/
def Distinct (m : Mem) (dir : Page) (lo hi : ℕ) : Prop :=
  ∀ v w, lo ≤ v → v < hi → w < userPages → (entry m dir w).present = true →
    (entry m dir v).page = (entry m dir w).page → v = w

/-- `deallocuvm` visits its pages, and `allocuvm` maps its pages or gives them back. -/
structure ResizeCorrect (dir : Page) (pool : Set Page) (oldsz newsz : ℕ) (m : Mem) : Prop where
  visits : deallocuvm dir oldsz newsz m = (do
    let m ← (pagesBetween newsz oldsz).foldlM (deallocPage dir) m
    return (min newsz oldsz, m))
  dealloc : ∃ m', deallocuvm dir oldsz newsz m = .ok (min newsz oldsz, m') ∧
    Deallocated dir pool (pagesBetween newsz oldsz) m m'
  high : kernbase ≤ newsz → allocuvm dir oldsz newsz m = .ok (0, m)
  shrinks : newsz < kernbase → newsz < oldsz → allocuvm dir oldsz newsz m = .ok (oldsz, m)
  grows : newsz < kernbase → oldsz ≤ newsz →
    (∀ v ∈ pagesBetween oldsz newsz, (entry m dir v).present = false) → ∃ m',
    (allocuvm dir oldsz newsz m = .ok (newsz, m') ∧
      Allocated dir pool (pagesOf oldsz) (pagesOf newsz) m m' ∧ Distinct m' dir (pagesOf oldsz) (pagesOf newsz)) ∨
    (allocuvm dir oldsz newsz m = .ok (0, m') ∧ Undone dir pool (pagesOf oldsz) (pagesOf newsz) m m')

end Xv6.Vm
