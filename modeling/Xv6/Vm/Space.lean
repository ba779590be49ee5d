import Xv6.Lib.Ownership
import Xv6.Vm.Basic

/-!
# Address spaces

A page directory with its page tables and its user pages. `Space` says that they and the free pages
make up a pool, each page of which is used once; every operation on an address space keeps this for
the same pool, and leaves all other pages alone (`After`). Addresses are virtual page numbers here.
-/

namespace Xv6.Vm

open Ownership Fallible

variable {m m' m₁ m₂ : Mem} {dir x : Page} {pool : Set Page} {v w : ℕ}

/-- The page table for the entries from `1024 * i` on. -/
def tableOf (m : Mem) (dir : Page) (i : ℕ) : Option Page :=
  if (m.pte dir i).present then some (m.pte dir i).page else none

/-- The entry of a virtual page. -/
def entry (m : Mem) (dir : Page) (v : ℕ) : Pte :=
  match tableOf m dir (v / 1024) with
  | some table => m.pte table (v % 1024)
  | none => {}

/-- The places of an address space that hold a page. -/
inductive Part where
  | dir
  | table (i : ℕ)
  | page (v : ℕ)
  deriving DecidableEq

/-- The pages that an address space owns. The kernel part of the tables points to pages that it
does not own. -/
def own (m : Mem) (dir : Page) : Part → Option Page
  | .dir => some dir
  | .table i => if i < 1024 then tableOf m dir i else none
  | .page v =>
      if v < userPages ∧ (entry m dir v).present = true then some (entry m dir v).page else none

/-- The free pages. -/
def Mem.free (m : Mem) : Set Page := {page | page ∈ m.freelist}

/-- The pages of the pool are pages that `kfree` accepts, and each of them is free, once, or has
exactly one owner. -/
structure Partition {ω : Type*} (m : Mem) (own : ω → Option Page) (pool : Set Page) : Prop where
  nodup : m.freelist.Nodup
  owned : Owned m.free own pool
  valid : ∀ page ∈ pool, m.linked.kernelEnd ≤ page ∧ page < phystop

/-- The pool consists of the free pages and those of the address space. -/
abbrev Space (m : Mem) (dir : Page) (pool : Set Page) : Prop := Partition m (own m dir) pool

/-- Nothing outside the pool changes. -/
structure After (pool : Set Page) (m m' : Mem) : Prop where
  linked : m'.linked = m.linked
  fails : m'.fails = m.fails
  outside : ∀ page ∉ pool, m'.content page = m.content page

theorem After.refl : After pool m m := ⟨rfl, rfl, fun _ _ => rfl⟩

theorem After.trans (first : After pool m m₁) (second : After pool m₁ m₂) : After pool m m₂ :=
  ⟨second.linked.trans first.linked, second.fails.trans first.fails,
    fun page outside => (second.outside page outside).trans (first.outside page outside)⟩

theorem After.mono {pool' : Set Page} (after : After pool m m') (subset : pool ⊆ pool') :
    After pool' m m' :=
  ⟨after.linked, after.fails, fun page outside => after.outside page fun inside => outside (subset inside)⟩

/-- Pages are only taken from the free list; the others keep their bytes. -/
structure Takes (m m' : Mem) : Prop where
  free : ∀ page ∈ m'.freelist, page ∈ m.freelist
  bytes : ∀ page ∉ m.freelist, (m'.content page).bytes = (m.content page).bytes

theorem Takes.refl : Takes m m := ⟨fun _ member => member, fun _ _ => rfl⟩

theorem Takes.trans (first : Takes m m₁) (second : Takes m₁ m₂) : Takes m m₂ :=
  ⟨fun page member => first.free page (second.free page member), fun page notFree =>
    (second.bytes page fun member => notFree (first.free page member)).trans
      (first.bytes page notFree)⟩

/-- A page of user memory, as its process sees it. -/
structure UserPage where
  writable : Bool
  user : Bool
  bytes : ℕ → BitVec 8

/-- The user memory that an address space stands for. -/
def image (m : Mem) (dir : Page) (v : ℕ) : Option UserPage :=
  let pte := entry m dir v
  if pte.present then
    some { writable := pte.writable, user := pte.user, bytes := (m.content pte.page).bytes }
  else none

/-- Kernel pages are not accessible to the user. -/
def Guarded (m : Mem) (dir : Page) : Prop :=
  ∀ v, userPages ≤ v → v < 2 ^ 20 → (entry m dir v).user = false

/-- The address space keeps its pool and stands for `img` now. -/
structure Becomes (dir : Page) (pool : Set Page) (m m' : Mem) (img : ℕ → Option UserPage) :
    Prop where
  space : Space m' dir pool
  after : After pool m m'
  image : ∀ v < userPages, image m' dir v = img v
  guarded : Guarded m dir → Guarded m' dir

theorem Becomes.refl (space : Space m dir pool) : Becomes dir pool m m (Vm.image m dir) :=
  ⟨space, .refl, fun _ _ => rfl, id⟩

theorem Becomes.trans {img img' : ℕ → Option UserPage} (first : Becomes dir pool m m₁ img)
    (second : Becomes dir pool m₁ m₂ img') : Becomes dir pool m m₂ img' :=
  ⟨second.space, first.after.trans second.after, second.image,
    fun guarded => second.guarded (first.guarded guarded)⟩

theorem Becomes.congr {img img' : ℕ → Option UserPage} (becomes : Becomes dir pool m m' img)
    (same : ∀ v < userPages, img v = img' v) : Becomes dir pool m m' img' :=
  ⟨becomes.space, becomes.after, fun v user => (becomes.image v user).trans (same v user),
    becomes.guarded⟩

theorem Guarded.congr (guarded : Guarded m dir)
    (same : ∀ v, userPages ≤ v → v < 2 ^ 20 → entry m' dir v = entry m dir v) : Guarded m' dir := by
  intro v kernel bound
  rw [same v kernel bound]
  exact guarded v kernel bound

/-! ## Addresses -/

theorem pdx_page (bound : v < 2 ^ 20) : pdx (v * pgsize) = v / 1024 := by
  unfold pdx pgsize
  omega

theorem ptx_page (v : ℕ) : ptx (v * pgsize) = v % 1024 := by
  unfold ptx pgsize
  omega

theorem index_lt (bound : v < 2 ^ 20) : v / 1024 < 1024 := by omega

theorem page_ext (index : v / 1024 = w / 1024) (offset : v % 1024 = w % 1024) : v = w := by
  omega

/-! ## Entries -/

theorem setPte_content (m : Mem) (table page : Page) (i : ℕ) (pte : Pte) (different : page ≠ table) :
    (m.setPte table i pte).content page = m.content page :=
  Function.update_of_ne different _ _

theorem setPte_pte (m : Mem) (table : Page) (i : ℕ) (pte : Pte) (page : Page) (j : ℕ) :
    (m.setPte table i pte).pte page j = if page = table ∧ j = i then pte else m.pte page j := by
  unfold Mem.setPte Mem.pte
  by_cases same : page = table
  · subst same
    by_cases index : j = i
    · simp [index]
    · simp [index]
  · simp [same]

theorem setPte_bytes (m : Mem) (table : Page) (i : ℕ) (pte : Pte) (page : Page) :
    ((m.setPte table i pte).content page).bytes = (m.content page).bytes := by
  unfold Mem.setPte
  by_cases same : page = table
  · subst same
    simp
  · simp [same]

theorem zero_content (m : Mem) (page other : Page) (different : other ≠ page) :
    (m.zero page).content other = m.content other :=
  Function.update_of_ne different _ _

theorem Space.dir_mem (space : Space m dir pool) : dir ∈ pool := space.owned.own_mem .dir dir rfl

theorem own_table {table : Page} {i : ℕ} (inside : i < 1024) (holds : tableOf m dir i = some table) :
    own m dir (.table i) = some table := by
  simp [own, inside, holds]

theorem own_page (user : v < userPages) (present : (entry m dir v).present = true) :
    own m dir (.page v) = some (entry m dir v).page := by
  simp only [own]
  rw [if_pos ⟨user, present⟩]

theorem Space.table_ne_dir {table : Page} {i : ℕ} (space : Space m dir pool) (inside : i < 1024)
    (holds : tableOf m dir i = some table) : table ≠ dir := by
  rintro rfl
  cases space.owned.single .dir (.table i) table rfl (own_table inside holds)

theorem Space.table_injective {table : Page} {i j : ℕ} (space : Space m dir pool) (inside : i < 1024)
    (inside' : j < 1024) (first : tableOf m dir i = some table)
    (second : tableOf m dir j = some table) : i = j := by
  cases space.owned.single _ _ table (own_table inside first) (own_table inside' second)
  rfl

theorem Space.not_free {part : Part} (space : Space m dir pool) (holds : own m dir part = some x) :
    x ∉ m.freelist := space.owned.apart part x holds

/-- What an entry of one of the page tables is set to can be seen in this entry only. -/
theorem Space.setPte {table : Page} (space : Space m dir pool) (pte : Pte) (bound : v < 2 ^ 20)
    (holds : tableOf m dir (v / 1024) = some table) :
    (∀ i, tableOf (m.setPte table (v % 1024) pte) dir i = tableOf m dir i) ∧
    ∀ w < 2 ^ 20, entry (m.setPte table (v % 1024) pte) dir w =
      if w = v then pte else entry m dir w := by
  have notDir := space.table_ne_dir (index_lt bound) holds
  have tables : ∀ i, tableOf (m.setPte table (v % 1024) pte) dir i = tableOf m dir i := by
    intro i
    have same : (m.setPte table (v % 1024) pte).pte dir i = m.pte dir i := by
      rw [setPte_pte]
      exact if_neg fun both => notDir both.1.symm
    unfold tableOf
    rw [same]
  refine ⟨tables, fun w bound' => ?_⟩
  unfold entry
  rw [tables]
  by_cases same : w = v
  · subst same
    rw [if_pos rfl, holds]
    simp [setPte_pte]
  · rw [if_neg same]
    cases holds' : tableOf m dir (w / 1024) with
    | none => rfl
    | some table' =>
        simp only [setPte_pte]
        rw [if_neg]
        rintro ⟨rfl, offset⟩
        have index := space.table_injective (index_lt bound') (index_lt bound) holds' holds
        exact same (page_ext index offset)

/-! ## Kernel entries and pages -/

theorem own_congr (tables : ∀ i < 1024, tableOf m' dir i = tableOf m dir i)
    (entries : ∀ v < userPages, entry m' dir v = entry m dir v) (part : Part) :
    own m' dir part = own m dir part := by
  cases part with
  | dir => rfl
  | table i =>
      simp only [own]
      split
      · rename_i inside
        exact tables i inside
      · rfl
  | page v =>
      simp only [own]
      by_cases user : v < userPages
      · rw [entries v user]
      · simp [user]

theorem image_congr (same : entry m' dir v = entry m dir v)
    (bytes : (entry m dir v).present = true →
      (m'.content (entry m dir v).page).bytes = (m.content (entry m dir v).page).bytes) :
    image m' dir v = image m dir v := by
  unfold image
  dsimp only
  rw [same]
  by_cases present : (entry m dir v).present = true
  · rw [if_pos present, if_pos present, bytes present]
  · rw [if_neg present, if_neg present]

/-- Everything about an address space is in the content of its pages. -/
theorem space_content (content : m'.content = m.content) :
    (∀ part, own m' dir part = own m dir part) ∧ ∀ v, image m' dir v = image m dir v := by
  have tables : ∀ i, tableOf m' dir i = tableOf m dir i := by
    intro i
    unfold tableOf Mem.pte
    rw [content]
  have entries : ∀ v, entry m' dir v = entry m dir v := by
    intro v
    unfold entry Mem.pte
    rw [tables, content]
  refine ⟨own_congr (fun i _ => tables i) fun v _ => entries v, fun v => ?_⟩
  refine image_congr (entries v) fun _ => by rw [content]

theorem image_eq_none : image m dir v = none ↔ (entry m dir v).present = false := by
  unfold image
  dsimp only
  split
  · rename_i present
    simp [present]
  · rename_i notPresent
    simp [notPresent]

/-- What lies outside the pool is not affected by operations on the pool. -/
theorem frame {pool' : Set Page} (dir : Page)
    (apart : ∀ part page, own m dir part = some page → page ∉ pool') (after : After pool' m m') :
    (∀ i < 1024, tableOf m' dir i = tableOf m dir i) ∧
    (∀ w < 2 ^ 20, entry m' dir w = entry m dir w) ∧
    (∀ part, own m' dir part = own m dir part) ∧
    ∀ v < userPages, image m' dir v = image m dir v := by
  have same : ∀ part page, own m dir part = some page → m'.content page = m.content page :=
    fun part page holds => after.outside page (apart part page holds)
  have tables : ∀ i < 1024, tableOf m' dir i = tableOf m dir i := by
    intro i _
    unfold tableOf Mem.pte
    rw [same .dir dir rfl]
  have entries : ∀ w < 2 ^ 20, entry m' dir w = entry m dir w := by
    intro w bound
    unfold entry
    rw [tables _ (index_lt bound)]
    cases holds : tableOf m dir (w / 1024) with
    | none => rfl
    | some table =>
        dsimp only
        rw [Mem.pte, same _ table (own_table (index_lt bound) holds), Mem.pte]
  refine ⟨tables, entries, own_congr tables fun v user => entries v (user.trans (by decide)), ?_⟩
  intro v user
  refine image_congr (entries v (user.trans (by decide))) fun present => ?_
  rw [same _ _ (own_page user present)]

theorem kalloc_cases (m : Mem) :
    kalloc m = (none, { m with calls := m.calls + 1 }) ∨
    ∃ page freelist, m.freelist = page :: freelist ∧
      kalloc m = (some page, { m with calls := m.calls + 1, freelist }) := by
  unfold kalloc
  dsimp only
  split
  · exact .inl rfl
  · split
    · exact .inl rfl
    · rename_i page freelist list
      exact .inr ⟨page, freelist, list, rfl⟩

section Partition

variable {ω : Type*} {own : ω → Option Page}

/-- `kalloc` takes a page out of the pool. -/
theorem Partition.take {freelist : List Page} (partition : Partition m own pool)
    (list : m.freelist = x :: freelist) :
    Partition { m with calls := m.calls + 1, freelist } own (pool \ {x}) ∧ x ∈ pool := by
  have nodup := partition.nodup
  rw [list, List.nodup_cons] at nodup
  have isFree : x ∈ m.free := by simp [Mem.free, list]
  have free : Mem.free { m with calls := m.calls + 1, freelist } = m.free \ {x} := by
    ext page
    simp only [Mem.free, list, Set.mem_ofPred_eq, Set.mem_sdiff, Set.mem_singleton_iff, List.mem_cons]
    constructor
    · intro member
      refine ⟨.inr member, ?_⟩
      rintro rfl
      exact nodup.1 member
    · rintro ⟨member, different⟩
      exact member.resolve_left different
  refine ⟨⟨nodup.2, ?_, fun page member => partition.valid page member.1⟩,
    partition.owned.free_mem x isFree⟩
  rw [free]
  exact partition.owned.take isFree

theorem kfree_ok (valid : m.linked.kernelEnd ≤ x ∧ x < phystop) :
    kfree x m = .ok { m with
      content := Function.update m.content x junk, freelist := x :: m.freelist } := by
  unfold kfree
  rw [if_neg]
  rintro (low | high)
  · exact Nat.not_lt_of_le valid.1 low
  · exact Nat.not_lt_of_le high valid.2

/-- `kfree` gives a page back that has no owner. -/
theorem Partition.give (partition : Partition m own (pool \ {x})) (inPool : x ∈ pool)
    (valid : m.linked.kernelEnd ≤ x ∧ x < phystop) :
    ∃ m', kfree x m = .ok m' ∧ Partition m' own pool ∧ After {x} m m' := by
  have free : Mem.free { m with
      content := Function.update m.content x junk, freelist := x :: m.freelist } =
        insert x m.free := by
    ext page
    simp [Mem.free]
  refine ⟨_, kfree_ok valid, ⟨?_, ?_, ?_⟩, ⟨rfl, rfl, ?_⟩⟩
  · exact List.nodup_cons.2 ⟨fun member => (partition.owned.free_mem x member).2 rfl,
      partition.nodup⟩
  · rw [free]
    exact partition.owned.give inPool
  · intro page member
    by_cases isX : page = x
    · exact isX ▸ valid
    · exact partition.valid page ⟨member, isX⟩
  · exact fun page outside => Function.update_of_ne outside _ _

/-- A page that has been taken out of the pool gets an owner. -/
theorem Partition.gain {own' : ω → Option Page} {o : ω} (partition : Partition m own (pool \ {x}))
    (inPool : x ∈ pool) (valid : m.linked.kernelEnd ≤ x ∧ x < phystop) (empty : own o = none)
    (self : own' o = some x) (others : ∀ o' ≠ o, own' o' = own o') : Partition m own' pool := by
  refine ⟨partition.nodup, partition.owned.gain inPool empty self others, fun page member => ?_⟩
  by_cases isX : page = x
  · exact isX ▸ valid
  · exact partition.valid page ⟨member, isX⟩

theorem Partition.congr {own' : ω → Option Page} (partition : Partition m own pool)
    (same : ∀ o, own' o = own o) : Partition m own' pool :=
  ⟨partition.nodup, partition.owned.congr same, partition.valid⟩

end Partition

/-- A page that is in no place of the address space becomes free. -/
theorem Space.kfree (space : Space m dir (pool \ {x})) (inPool : x ∈ pool)
    (valid : m.linked.kernelEnd ≤ x ∧ x < phystop) :
    ∃ m', kfree x m = .ok m' ∧ Becomes dir pool m m' (image m dir) := by
  rcases space.give inPool valid with ⟨m', freed, partition, after⟩
  have framed := frame dir (fun part page holds => (space.owned.own_mem part page holds).2) after
  exact ⟨m', freed, partition.congr framed.2.2.1, after.mono (Set.singleton_subset_iff.2 inPool),
    framed.2.2.2, fun guarded => guarded.congr fun v _ bound => framed.2.1 v bound⟩

/-! ## `walkpgdir` -/

theorem walkpgdir_some {table : Page} (alloc : Bool) (bound : v < 2 ^ 20)
    (holds : tableOf m dir (v / 1024) = some table) :
    walkpgdir dir (v * pgsize) alloc m = (some (table, v % 1024), m) := by
  unfold tableOf at holds
  split at holds
  · rename_i present
    unfold walkpgdir
    rw [pdx_page bound, ptx_page]
    dsimp only
    rw [if_pos present, Option.some.inj holds]
  · cases holds

theorem walkpgdir_none (bound : v < 2 ^ 20) (absent : tableOf m dir (v / 1024) = none) :
    walkpgdir dir (v * pgsize) false m = (none, m) := by
  unfold tableOf at absent
  split at absent
  · cases absent
  · rename_i notPresent
    unfold walkpgdir
    rw [pdx_page bound]
    simp [notPresent]

/-- Page tables are added, and entries stay as they are. -/
structure Grows (dir : Page) (pool : Set Page) (m m' : Mem) : Prop where
  space : Space m' dir pool
  after : After pool m m'
  takes : Takes m m'
  tables : ∀ i table, tableOf m dir i = some table → tableOf m' dir i = some table
  entries : ∀ w < 2 ^ 20, entry m' dir w = entry m dir w

theorem Grows.refl (space : Space m dir pool) : Grows dir pool m m :=
  ⟨space, .refl, .refl, fun _ _ holds => holds, fun _ _ => rfl⟩

theorem Space.calls (space : Space m dir pool) (calls : ℕ) :
    Grows dir pool m { m with calls } :=
  ⟨⟨space.nodup, space.owned, space.valid⟩, ⟨rfl, rfl, fun _ _ => rfl⟩,
    ⟨fun _ member => member, fun _ _ => rfl⟩, fun _ _ holds => holds, fun _ _ => rfl⟩

theorem Grows.trans (first : Grows dir pool m m₁) (second : Grows dir pool m₁ m₂) :
    Grows dir pool m m₂ :=
  ⟨second.space, first.after.trans second.after, first.takes.trans second.takes,
    fun i table holds => second.tables i table (first.tables i table holds),
    fun w bound => (second.entries w bound).trans (first.entries w bound)⟩

theorem Grows.becomes (space : Space m dir pool) (grows : Grows dir pool m m') :
    Becomes dir pool m m' (image m dir) := by
  refine ⟨grows.space, grows.after, fun v user => ?_,
    fun guarded => guarded.congr fun v _ bound => grows.entries v bound⟩
  refine image_congr (grows.entries v (user.trans (by decide))) fun present => ?_
  exact grows.takes.bytes _ (space.not_free (own_page user present))

/-- A free page becomes a page table in which no entry is present. -/
theorem Space.addTable {freelist : List Page} (space : Space m dir pool) (bound : v < 2 ^ 20)
    (absent : tableOf m dir (v / 1024) = none) (list : m.freelist = x :: freelist) :
    let m' := ({ m with calls := m.calls + 1, freelist }.zero x).setPte dir (v / 1024)
      { page := x, present := true, writable := true, user := true }
    Grows dir pool m m' ∧ tableOf m' dir (v / 1024) = some x ∧
      ∀ i ≠ v / 1024, tableOf m' dir i = tableOf m dir i := by
  intro m'
  rcases space.take list with ⟨space₁, inPool⟩
  have isFree : x ∈ m.freelist := by simp [list]
  have notDir : x ≠ dir := by
    rintro rfl
    exact space.not_free (rfl : own m x .dir = some x) isFree
  have pte : ∀ page i, page ≠ x → m'.pte page i =
      if page = dir ∧ i = v / 1024 then
        { page := x, present := true, writable := true, user := true }
      else m.pte page i := by
    intro page i different
    have same : ({ m with calls := m.calls + 1, freelist }.zero x).content page = m.content page :=
      zero_content _ _ _ different
    rw [setPte_pte, Mem.pte, same]
    rfl
  have tables : ∀ i, tableOf m' dir i = if i = v / 1024 then some x else tableOf m dir i := by
    intro i
    unfold tableOf
    rw [pte dir i notDir.symm]
    by_cases index : i = v / 1024
    · simp [index]
    · simp [index]
  have entries : ∀ w < 2 ^ 20, entry m' dir w = entry m dir w := by
    intro w bound'
    unfold entry
    rw [tables]
    by_cases index : w / 1024 = v / 1024
    · rw [if_pos index, index, absent]
      have zero : ({ m with calls := m.calls + 1, freelist }.zero x).content x = zeroed :=
        Function.update_self _ _ _
      dsimp only
      rw [setPte_pte, if_neg fun both => notDir both.1, Mem.pte, zero]
      rfl
    · rw [if_neg index]
      cases holds : tableOf m dir (w / 1024) with
      | none => rfl
      | some table =>
          have owns := own_table (index_lt bound') holds
          have notX : table ≠ x := by
            rintro rfl
            exact space.not_free owns isFree
          have notDir' := space.table_ne_dir (index_lt bound') holds
          dsimp only
          rw [pte table _ notX, if_neg fun both => notDir' both.1]
  have content : ∀ page, page ≠ x → page ≠ dir → m'.content page = m.content page := by
    intro page notX notDir'
    rw [setPte_content _ _ _ _ _ notDir']
    exact zero_content _ _ _ notX
  have bytes : ∀ page, page ≠ x → (m'.content page).bytes = (m.content page).bytes := by
    intro page notX
    rw [setPte_bytes, zero_content _ _ _ notX]
  have ownTable : own m dir (.table (v / 1024)) = none := by simp [own, absent]
  have owned : Owned m'.free (own m' dir) pool := by
    refine space₁.owned.gain (o := .table (v / 1024)) inPool ownTable ?_ ?_
    · simp [own, index_lt bound, tables]
    · intro part different
      cases part with
      | dir => rfl
      | table i =>
          have index : i ≠ v / 1024 := fun same => different (congrArg Part.table same)
          change (if i < 1024 then tableOf m' dir i else none) =
            if i < 1024 then tableOf m dir i else none
          rw [tables, if_neg index]
      | page w =>
          change (if w < userPages ∧ (entry m' dir w).present = true then
            some (entry m' dir w).page else none) =
            if w < userPages ∧ (entry m dir w).present = true then
              some (entry m dir w).page else none
          by_cases user : w < userPages
          · rw [entries w (user.trans (by decide))]
          · rw [if_neg fun both => user both.1, if_neg fun both => user both.1]
  refine ⟨⟨⟨space₁.nodup, owned, space.valid⟩, ?_, ?_, ?_, entries⟩, ?_⟩
  · refine ⟨rfl, rfl, fun page outside => content page ?_ ?_⟩
    · rintro rfl
      exact outside inPool
    · rintro rfl
      exact outside space.dir_mem
  · refine ⟨fun page member => ?_, fun page notFree => bytes page ?_⟩
    · rw [list]
      exact List.mem_cons_of_mem _ member
    · rintro rfl
      exact notFree isFree
  · intro i table holds
    rw [tables]
    split
    · rename_i index
      rw [index, absent] at holds
      cases holds
    · exact holds
  · exact ⟨by rw [tables, if_pos rfl], fun i index => by rw [tables, if_neg index]⟩

/-- A call of `kalloc` has failed. -/
def Refused (m : Mem) : Prop := m.freelist = [] ∨ ∃ call, m.fails call = true

theorem kalloc_refused (failed : (kalloc m).1 = none) : Refused (kalloc m).2 := by
  unfold kalloc at failed ⊢
  dsimp only at failed ⊢
  split
  · rename_i fails
    exact .inr ⟨m.calls, fails⟩
  · rename_i notFails
    rw [if_neg notFails] at failed
    split
    · rename_i empty
      exact .inl empty
    · rename_i list
      rw [list] at failed
      cases failed

/-- `walkpgdir` with `alloc` finds a page table or makes one, unless `kalloc` fails. -/
theorem Space.walk (space : Space m dir pool) (bound : v < 2 ^ 20) :
    (∃ m', walkpgdir dir (v * pgsize) true m = (none, m') ∧ Grows dir pool m m' ∧ Refused m' ∧
      ∀ i ≠ v / 1024, tableOf m' dir i = tableOf m dir i) ∨
    ∃ table m', walkpgdir dir (v * pgsize) true m = (some (table, v % 1024), m') ∧
      tableOf m' dir (v / 1024) = some table ∧ Grows dir pool m m' ∧
      ∀ i ≠ v / 1024, tableOf m' dir i = tableOf m dir i := by
  cases holds : tableOf m dir (v / 1024) with
  | some table =>
      exact .inr ⟨table, m, walkpgdir_some true bound holds, holds, .refl space, fun _ _ => rfl⟩
  | none =>
      have notPresent : ¬(m.pte dir (pdx (v * pgsize))).present = true := by
        intro present
        rw [pdx_page bound] at present
        simp [tableOf, present] at holds
      rcases kalloc_cases m with failed | ⟨page, freelist, list, allocated⟩
      · left
        have refused := kalloc_refused (congrArg Prod.fst failed)
        rw [failed] at refused
        refine ⟨_, ?_, space.calls (m.calls + 1), refused, fun _ _ => rfl⟩
        unfold walkpgdir
        dsimp only
        rw [if_neg notPresent, failed]
        rfl
      · right
        rcases space.addTable bound holds list with ⟨grows, table, others⟩
        refine ⟨page, _, ?_, table, grows, others⟩
        unfold walkpgdir
        dsimp only
        rw [if_neg notPresent, allocated, pdx_page bound, ptx_page]
        rfl

end Xv6.Vm
