import Xv6.Vm.Mapping

/-!
# Making and destroying address spaces

`freevm` gives back all pages of an address space. `setupkvm` and `copyuvm` make a new one from
free pages, or give back all that they have taken.
-/

namespace Xv6.Vm

open Ownership Fallible

variable {m m' m₁ m₂ : Mem} {dir src x : Page} {pool : Set Page} {v w : ℕ}

/-! ## `freevm` -/

/-- All pages of the pool are free. -/
structure Idle (m : Mem) (pool : Set Page) : Prop where
  nodup : m.freelist.Nodup
  free : m.free = pool
  valid : ∀ page ∈ pool, m.linked.kernelEnd ≤ page ∧ page < phystop

/-- The page directory and some of its page tables. -/
def tablesOwn (m : Mem) (dir : Page) (indices : List ℕ) : Part → Option Page
  | .dir => some dir
  | .table i => if i ∈ indices then tableOf m dir i else none
  | .page _ => none

/-- An owner gives its page back. -/
theorem Partition.release {ω : Type*} {own own' : ω → Option Page} {o : ω}
    (partition : Partition m own pool) (holds : own o = some x) (self : own' o = none)
    (others : ∀ o' ≠ o, own' o' = own o') :
    ∃ m', Vm.kfree x m = .ok m' ∧ Partition m' own' pool ∧ After {x} m m' := by
  have inPool := partition.owned.own_mem o x holds
  have lost : Partition m own' (pool \ {x}) :=
    ⟨partition.nodup, partition.owned.lose holds self others,
      fun page member => partition.valid page member.1⟩
  exact lost.give inPool (partition.valid x inPool)

theorem freeTables_ok (indices : List ℕ) :
    ∀ {m}, indices.Nodup → Partition m (tablesOwn m dir indices) pool →
      ∃ m', freeTables dir indices m = .ok m' ∧ Partition m' (tablesOwn m' dir []) pool ∧
        After pool m m' := by
  induction indices with
  | nil => exact fun _ partition => ⟨_, rfl, partition, .refl⟩
  | cons i indices ih =>
      intro m nodup partition
      rw [List.nodup_cons] at nodup
      unfold freeTables
      by_cases present : (m.pte dir i).present = true
      · have holds : tablesOwn m dir (i :: indices) (.table i) = some (m.pte dir i).page := by
          simp [tablesOwn, tableOf, present]
        have self : tablesOwn m dir indices (.table i) = none := by simp [tablesOwn, nodup.1]
        have others : ∀ part ≠ Part.table i,
            tablesOwn m dir indices part = tablesOwn m dir (i :: indices) part := by
          intro part different
          cases part with
          | dir => rfl
          | page v => rfl
          | table j =>
              have notI : j ≠ i := fun same => different (congrArg Part.table same)
              simp [tablesOwn, notI]
        rcases partition.release holds self others with ⟨m₁, freed, partition₁, after⟩
        have notDir : dir ≠ (m.pte dir i).page := by
          intro same
          cases partition.owned.single .dir (.table i) dir rfl (holds.trans (congrArg some same.symm))
        have pte : ∀ j, m₁.pte dir j = m.pte dir j := by
          intro j
          unfold Mem.pte
          rw [after.outside dir notDir]
        have same : ∀ part, tablesOwn m₁ dir indices part = tablesOwn m dir indices part := by
          intro part
          cases part with
          | dir => rfl
          | page v => rfl
          | table j => simp [tablesOwn, tableOf, pte]
        have inPool := partition.owned.own_mem _ _ holds
        rcases ih nodup.2 (partition₁.congr same) with ⟨m', ran, partition', after'⟩
        rw [if_pos present, freed]
        exact ⟨m', ran, partition', (after.mono (Set.singleton_subset_iff.2 inPool)).trans after'⟩
      · rw [if_neg present]
        refine ih nodup.2 (partition.congr fun part => ?_)
        cases part with
        | dir => rfl
        | page v => rfl
        | table j =>
            by_cases isI : j = i
            · subst isI
              simp [tablesOwn, tableOf, present, nodup.1]
            · simp [tablesOwn, isI]

theorem Idle.of_partition {ω : Type*} {own : ω → Option Page} (partition : Partition m own pool)
    (empty : ∀ o, own o = none) : Idle m pool := by
  refine ⟨partition.nodup, Set.Subset.antisymm partition.owned.free_mem fun page member => ?_,
    partition.valid⟩
  rcases partition.owned.covered page member with isFree | ⟨o, holds⟩
  · exact isFree
  · rw [empty] at holds
    cases holds

/-- `freevm` gives back the whole address space. -/
theorem Space.freevm (space : Space m dir pool) :
    ∃ m', freevm dir m = .ok m' ∧ Idle m' pool ∧ After pool m m' := by
  rcases space.dealloc le_rfl (show 0 < kernbase by decide) with ⟨m₁, cleared, becomes⟩
  have noPages : ∀ v < userPages, (entry m₁ dir v).present = false := by
    intro v user
    rw [← image_eq_none, becomes.image v user, if_pos]
    exact ⟨Nat.zero_le v, user⟩
  have tables : ∀ part, tablesOwn m₁ dir (List.range 1024) part = own m₁ dir part := by
    intro part
    cases part with
    | dir => rfl
    | table i => simp [tablesOwn, own]
    | page v =>
        simp only [tablesOwn, own]
        rw [if_neg]
        rintro ⟨user, present⟩
        rw [noPages v user] at present
        cases present
  rcases freeTables_ok (List.range 1024) List.nodup_range (becomes.space.congr tables) with
    ⟨m₂, freed, partition, after⟩
  have onlyDir : ∀ part ≠ Part.dir, (none : Option Page) = tablesOwn m₂ dir [] part := by
    intro part different
    cases part with
    | dir => exact absurd rfl different
    | table i => simp [tablesOwn]
    | page v => rfl
  have dirIn := partition.owned.own_mem .dir dir rfl
  rcases partition.release (show tablesOwn m₂ dir [] .dir = some dir from rfl) rfl onlyDir with
    ⟨m', freedDir, partition', after'⟩
  refine ⟨m', ?_, .of_partition partition' fun _ => rfl, (becomes.after.trans after).trans
    (after'.mono (Set.singleton_subset_iff.2 dirIn))⟩
  have text := m.linked.text
  have kernel := m.linked.inside
  have valid := space.valid dir space.dir_mem
  have notNull : dir ≠ 0 :=
    Nat.ne_of_gt ((Nat.zero_lt_of_lt text).trans_le (kernel.trans valid.1))
  unfold Vm.freevm
  rw [if_neg notNull, cleared]
  simp only [bind_ok]
  rw [freed]
  simp only [bind_ok]
  exact freedDir

/-- `freevm` gives back one of several address spaces. -/
theorem Partition.freevm {ω : Type*} {own₁ own' : ω → Option Page} (place : Part → ω)
    (partition : Partition m own₁ pool) (injective : Function.Injective place)
    (same : ∀ part, own m dir part = own₁ (place part)) (inside : ∀ part, own' (place part) = none)
    (outside : ∀ o ∉ Set.range place, own' o = own₁ o) :
    ∃ m', Vm.freevm dir m = .ok m' ∧ Partition m' own' pool ∧
      After (pool \ rest own₁ place) m m' := by
  have space : Space m dir (pool \ rest own₁ place) :=
    ⟨partition.nodup, partition.owned.focus injective same,
      fun page member => partition.valid page member.1⟩
  rcases space.freevm with ⟨m', freed, idle, after⟩
  have empty : Owned m'.free (fun _ : Part => none) (pool \ rest own₁ place) := by
    rw [idle.free]
    exact ⟨fun _ isFree => isFree, nofun, nofun, nofun, fun _ inPool => .inl inPool⟩
  refine ⟨m', freed, ⟨idle.nodup, partition.owned.unfocus place empty inside outside, ?_⟩, after⟩
  rw [after.linked]
  exact partition.valid

/-! ## `setupkvm` -/

/-- Kernel entries from `lo` to `hi` may have changed. -/
structure KernelMaps (dir : Page) (pool : Set Page) (lo hi : ℕ) (m m' : Mem) : Prop where
  space : Space m' dir pool
  after : After pool m m'
  takes : Takes m m'
  userTables : ∀ i < 512, tableOf m' dir i = tableOf m dir i
  entries : ∀ w < 2 ^ 20, (w < lo ∨ hi ≤ w) → entry m' dir w = entry m dir w
  guarded : Guarded m dir → Guarded m' dir

/-- Setting a kernel entry changes no owner. -/
theorem Space.setKernel {table : Page} {pte : Pte} (space : Space m dir pool)
    (notUser : pte.user = false) (kernel : userPages ≤ v) (bound : v < 2 ^ 20)
    (holds : tableOf m dir (v / 1024) = some table) :
    KernelMaps dir pool v (v + 1) m (m.setPte table (v % 1024) pte) := by
  have set := space.setPte pte bound holds
  have entries : ∀ w < 2 ^ 20, (w < v ∨ v + 1 ≤ w) →
      entry (m.setPte table (v % 1024) pte) dir w = entry m dir w := by
    intro w bound' outside
    rw [set.2 w bound', if_neg]
    omega
  refine ⟨⟨space.nodup, ?_, space.valid⟩, ?_, ?_, fun i _ => set.1 i, entries, ?_⟩
  · refine space.owned.congr (own_congr (fun i _ => set.1 i) fun w user => ?_)
    exact entries w (user.trans (by decide)) (.inl (user.trans_le kernel))
  · exact setPte_after (space.owned.own_mem _ _ (own_table (index_lt bound) holds)) _
  · exact ⟨fun page member => member, fun page _ => setPte_bytes _ _ _ _ _⟩
  · intro guarded w kernel' bound'
    rw [set.2 w bound']
    split
    · exact notUser
    · exact guarded w kernel' bound'

theorem KernelMaps.mono {lo hi hi' : ℕ} (maps : KernelMaps dir pool lo hi m m') (more : hi ≤ hi') :
    KernelMaps dir pool lo hi' m m' :=
  ⟨maps.space, maps.after, maps.takes, maps.userTables,
    fun w bound outside => maps.entries w bound (by omega), maps.guarded⟩

theorem KernelMaps.trans {lo mid hi : ℕ} (first : KernelMaps dir pool lo mid m m₁)
    (second : KernelMaps dir pool mid hi m₁ m₂) (below : lo ≤ mid) (above : mid ≤ hi) :
    KernelMaps dir pool lo hi m m₂ :=
  ⟨second.space, first.after.trans second.after, first.takes.trans second.takes,
    fun i user => (second.userTables i user).trans (first.userTables i user),
    fun w bound outside => (second.entries w bound (by omega)).trans
      (first.entries w bound (by omega)),
    fun guarded => second.guarded (first.guarded guarded)⟩

/-- One pass of `mappages` over a kernel page. -/
theorem Space.walkKernel (space : Space m dir pool) (kernel : userPages ≤ v) (bound : v < 2 ^ 20)
    (absent : (entry m dir v).present = false) :
    (∃ m', walkpgdir dir (v * pgsize) true m = (none, m') ∧ KernelMaps dir pool v (v + 1) m m' ∧
      Refused m') ∨
    ∃ table m₁, walkpgdir dir (v * pgsize) true m = (some (table, v % 1024), m₁) ∧
      ¬(m₁.pte table (v % 1024)).present = true ∧
      ∀ pte : Pte, pte.user = false →
        KernelMaps dir pool v (v + 1) m (m₁.setPte table (v % 1024) pte) := by
  have notUser : ∀ i < 512, i ≠ v / 1024 := by
    intro i user
    unfold userPages at kernel
    omega
  rcases space.walk bound with
    ⟨m', walked, grows, refused, others⟩ | ⟨table, m₁, walked, holds, grows, others⟩
  · left
    exact ⟨m', walked, ⟨grows.space, grows.after, grows.takes, fun i user => others i (notUser i user),
      fun w bound' _ => grows.entries w bound',
      fun guarded => guarded.congr fun w _ bound' => grows.entries w bound'⟩, refused⟩
  · right
    refine ⟨table, m₁, walked, ?_, fun pte plain => ?_⟩
    · have same := grows.entries v bound
      rw [entry, holds] at same
      simp [same, absent]
    · have set := grows.space.setKernel plain kernel bound holds
      exact ⟨set.space, grows.after.trans set.after, grows.takes.trans set.takes,
        fun i user => (set.userTables i user).trans (others i (notUser i user)),
        fun w bound' outside => (set.entries w bound' outside).trans (grows.entries w bound'),
        fun guarded => set.guarded
          (guarded.congr fun w _ bound' => grows.entries w bound')⟩

theorem Space.mapKernel {flags : Pte} (plain : flags.user = false) (left : ℕ) :
    ∀ {m v} (pa : Page), Space m dir pool → userPages ≤ v → v + left < 2 ^ 20 →
      (∀ w, v ≤ w → w ≤ v + left → (entry m dir w).present = false) →
      ∃ mapped m', mappagesLoop dir flags left (v * pgsize) pa m = .ok (mapped, m') ∧
        KernelMaps dir pool v (v + left + 1) m m' ∧ (mapped = false → Refused m') := by
  induction left with
  | zero =>
      intro m v pa space kernel bound absent
      unfold mappagesLoop
      rcases space.walkKernel kernel bound (absent v le_rfl le_rfl) with
        ⟨m', walked, maps, refused⟩ | ⟨table, m₁, walked, notPresent, maps⟩
      · rw [walked]
        exact ⟨false, m', rfl, maps, fun _ => refused⟩
      · rw [walked]
        dsimp only
        rw [if_neg notPresent]
        exact ⟨true, _, rfl, maps _ plain, fun stopped => absurd stopped (by decide)⟩
  | succ left ih =>
      intro m v pa space kernel bound absent
      unfold mappagesLoop
      have bound' : v < 2 ^ 20 := by omega
      rcases space.walkKernel kernel bound' (absent v le_rfl (by omega)) with
        ⟨m', walked, maps, refused⟩ | ⟨table, m₁, walked, notPresent, maps⟩
      · rw [walked]
        refine ⟨false, m', rfl, maps.mono (by omega), fun _ => refused⟩
      · rw [walked]
        have next : v * pgsize + pgsize = (v + 1) * pgsize := by rw [Nat.add_mul, Nat.one_mul]
        have first := maps { flags with page := pa, present := true } plain
        have absent' : ∀ w, v + 1 ≤ w → w ≤ v + 1 + left →
            (entry (m₁.setPte table (v % 1024) { flags with page := pa, present := true }) dir
              w).present = false := by
          intro w above below
          rw [first.entries w (by omega) (.inr above)]
          exact absent w (by omega) (by omega)
        rcases ih (pa + 1) first.space (by omega) (by omega) absent' with
          ⟨mapped, m', ran, maps', refused⟩
        have range : v + 1 + left + 1 = v + (left + 1) + 1 := by omega
        dsimp only
        rw [if_neg notPresent, next]
        exact ⟨mapped, m', ran, range ▸ first.trans maps' (by omega) (by omega), refused⟩

/-- The lines of `kmap` are kernel addresses and do not overlap. -/
theorem kmap_lines (linked : Linked) :
    (∀ k ∈ kmap linked, userPages ≤ k.virt ∧ 0 < k.size ∧ k.virt + k.size ≤ 2 ^ 20) ∧
    (kmap linked).Pairwise fun k k' => k.virt + k.size ≤ k'.virt := by
  have text := linked.text
  have inside := linked.inside
  have room := linked.room
  unfold kmap userPages devspace phystop at *
  constructor
  · intro k member
    simp only [List.mem_cons, List.not_mem_nil, or_false] at member
    rcases member with rfl | rfl | rfl | rfl
    · exact ⟨by decide, by decide, by decide⟩
    · dsimp only
      omega
    · dsimp only
      omega
    · exact ⟨by decide, by decide, by decide⟩
  · simp only [List.pairwise_cons, List.mem_cons, List.not_mem_nil, or_false]
    refine ⟨?_, ?_, ?_, nofun, .nil⟩
    · rintro k (rfl | rfl | rfl) <;> dsimp only <;> omega
    · rintro k (rfl | rfl) <;> dsimp only <;> omega
    · rintro k rfl
      dsimp only
      omega

theorem Space.setupLoop (lines : List Kmap) :
    ∀ {m}, Space m dir pool →
      (∀ k ∈ lines, userPages ≤ k.virt ∧ 0 < k.size ∧ k.virt + k.size ≤ 2 ^ 20) →
      (lines.Pairwise fun k k' => k.virt + k.size ≤ k'.virt) →
      (∀ k ∈ lines, ∀ w, k.virt ≤ w → w < k.virt + k.size → (entry m dir w).present = false) →
      ∃ mapped m', setupkvmLoop dir lines m = .ok (mapped, m') ∧
        KernelMaps dir pool userPages (2 ^ 20) m m' ∧ (mapped = false → Refused m') := by
  induction lines with
  | nil =>
      intro m space _ _ _
      exact ⟨true, m, rfl, ⟨space, .refl, .refl, fun _ _ => rfl, fun _ _ _ => rfl, id⟩, nofun⟩
  | cons k lines ih =>
      intro m space kernel apart absent
      rw [List.pairwise_cons] at apart
      rcases kernel k (by simp) with ⟨low, some, high⟩
      have absent' : ∀ w, k.virt ≤ w → w ≤ k.virt + (k.size - 1) →
          (entry m dir w).present = false := by
        intro w above below
        exact absent k (by simp) w above (by omega)
      have plain : ({ writable := k.writable } : Pte).user = false := rfl
      rcases Space.mapKernel plain (k.size - 1) k.physStart space low (by omega) absent' with
        ⟨mapped, m₁, ran, maps, refused⟩
      rw [← mappages_pages some high] at ran
      have wide : KernelMaps dir pool userPages (2 ^ 20) m m₁ :=
        ⟨maps.space, maps.after, maps.takes, maps.userTables,
          fun w bound outside => maps.entries w bound (by omega), maps.guarded⟩
      unfold setupkvmLoop
      rw [ran]
      cases mapped with
      | false => exact ⟨false, m₁, rfl, wide, refused⟩
      | true =>
          have absent₁ : ∀ k' ∈ lines, ∀ w, k'.virt ≤ w → w < k'.virt + k'.size →
              (entry m₁ dir w).present = false := by
            intro k' member w above below
            have ordered := apart.1 k' member
            have inside := (kernel k' (List.mem_cons_of_mem _ member)).2.2
            rw [maps.entries w (by omega) (by omega)]
            exact absent k' (List.mem_cons_of_mem _ member) w above below
          rcases ih maps.space (fun k' member => kernel k' (List.mem_cons_of_mem _ member)) apart.2
            absent₁ with ⟨mapped, m', ran', maps', refused'⟩
          exact ⟨mapped, m', ran', ⟨maps'.space, wide.after.trans maps'.after,
            wide.takes.trans maps'.takes,
            fun i user => (maps'.userTables i user).trans (wide.userTables i user),
            fun w bound outside => (maps'.entries w bound outside).trans
              (wide.entries w bound outside),
            fun guarded => maps'.guarded (wide.guarded guarded)⟩, refused'⟩

/-- All pages being free, the first one becomes an empty page directory. -/
theorem Idle.directory {freelist : List Page} (idle : Idle m pool) (list : m.freelist = x :: freelist) :
    let m' := { m with calls := m.calls + 1, freelist }.zero x
    Space m' x pool ∧ After pool m m' ∧ (∀ i, tableOf m' x i = none) ∧
      ∀ w, entry m' x w = {} := by
  intro m'
  have zero : ∀ i, m'.pte x i = {} := by
    intro i
    have content : m'.content x = zeroed := Function.update_self _ _ _
    rw [Mem.pte, content]
    rfl
  have tables : ∀ i, tableOf m' x i = none := by
    intro i
    unfold tableOf
    rw [zero, if_neg (by decide)]
  have entries : ∀ w, entry m' x w = {} := by
    intro w
    rw [entry, tables]
  have nodup := idle.nodup
  rw [list, List.nodup_cons] at nodup
  have member : x ∈ pool := by
    rw [← idle.free]
    simp [Mem.free, list]
  have free : m'.free = pool \ {x} := by
    ext page
    simp only [← idle.free, Mem.free, list, Set.mem_ofPred_eq, Set.mem_sdiff, Set.mem_singleton_iff,
      List.mem_cons]
    constructor
    · intro isFree
      refine ⟨.inr isFree, ?_⟩
      rintro rfl
      exact nodup.1 isFree
    · rintro ⟨isFree, different⟩
      exact isFree.resolve_left different
  have before : Owned m'.free (fun _ : Part => none) (pool \ {x}) := by
    rw [free]
    refine ⟨fun _ isFree => isFree, ?_, ?_, ?_, fun _ isFree => .inl isFree⟩
    · intro o x held
      cases held
    · intro o x held
      cases held
    · intro o o' x held
      cases held
  refine ⟨⟨nodup.2, ?_, idle.valid⟩, ⟨rfl, rfl, ?_⟩, tables, entries⟩
  · refine before.gain (o := .dir) member rfl rfl fun part different => ?_
    cases part with
    | dir => exact absurd rfl different
    | table i => simp [own, tables]
    | page v => simp [own, entries]
  · intro page outside
    refine zero_content _ _ _ ?_
    rintro rfl
    exact outside member

/-- A new address space whose user memory is `img`. -/
structure Made (dir : Page) (pool : Set Page) (m m' : Mem) (img : ℕ → Option UserPage) : Prop where
  space : Space m' dir pool
  after : After pool m m'
  image : ∀ v < userPages, image m' dir v = img v
  guarded : Guarded m' dir

theorem Made.trans {img img' : ℕ → Option UserPage} (made : Made dir pool m m₁ img)
    (becomes : Becomes dir pool m₁ m₂ img') : Made dir pool m m₂ img' :=
  ⟨becomes.space, made.after.trans becomes.after, becomes.image, becomes.guarded made.guarded⟩

theorem Made.congr {img img' : ℕ → Option UserPage} (made : Made dir pool m m' img)
    (same : ∀ v < userPages, img v = img' v) : Made dir pool m m' img' :=
  ⟨made.space, made.after, fun v user => (made.image v user).trans (same v user), made.guarded⟩

/-- A call of `kalloc` may fail, or there are few pages. -/
def Scarce (m : Mem) (pool : Set Page) : Prop := pool.ncard ≤ 513 ∨ ∃ call, m.fails call = true

/-- `setupkvm` makes an address space without user memory, or gives everything back. -/
theorem Idle.setupkvm (idle : Idle m pool) :
    (∃ m', setupkvm m = .ok (none, m') ∧ Idle m' pool ∧ After pool m m' ∧ Scarce m pool) ∨
    ∃ dir m', setupkvm m = .ok (some dir, m') ∧ (Made dir pool m m' fun _ => none) ∧
      ∀ i < 512, tableOf m' dir i = none := by
  unfold Vm.setupkvm
  rcases kalloc_cases m with failed | ⟨page, freelist, list, allocated⟩
  · left
    have refused := kalloc_refused (congrArg Prod.fst failed)
    rw [failed] at refused
    rw [failed]
    refine ⟨_, rfl, ⟨idle.nodup, idle.free, idle.valid⟩, ⟨rfl, rfl, fun _ _ => rfl⟩,
      refused.imp_left fun empty => ?_⟩
    have none : m.free = ∅ := Set.eq_empty_of_forall_notMem fun x member => by
      simp [Mem.free, show m.freelist = [] from empty] at member
    rw [← idle.free, none, Set.ncard_empty]
    exact Nat.zero_le _
  · rw [allocated]
    rcases idle.directory list with ⟨space, after, tables, empty⟩
    dsimp only
    generalize made : ({ m with calls := m.calls + 1, freelist } : Mem).zero page = m₁ at *
    rcases kmap_lines m₁.linked with ⟨kernel, apart⟩
    rcases space.setupLoop (kmap m₁.linked) kernel apart fun _ _ w _ _ => by rw [empty] with
      ⟨mapped, m₂, ran, maps, refused⟩
    rw [ran]
    have images : ∀ v < userPages, image m₂ page v = none := by
      intro v user
      rw [image_eq_none, maps.entries v (user.trans (by decide)) (.inl user), empty]
    have noTables : ∀ i < 512, tableOf m₂ page i = none := by
      intro i low
      rw [maps.userTables i low, tables i]
    cases mapped with
    | false =>
        left
        rcases maps.space.freevm with ⟨m', freed, idle', after'⟩
        refine ⟨m', ?_, idle', (after.trans maps.after).trans after',
          (refused rfl).imp (fun none => ?_) fun failed => failed.imp fun call fails => ?_⟩
        · simp only [bind_ok, Bool.false_eq_true, if_false, freed, pure_eq]
        · have card := maps.space.card_le 512 0 noTables fun v user _ => images v user
          rw [none] at card
          exact card
        · rwa [← (after.trans maps.after).fails]
    | true =>
        right
        exact ⟨page, m₂, rfl, ⟨maps.space, after.trans maps.after, images,
          maps.guarded fun v _ _ => by rw [empty]⟩, noTables⟩

/-! ## `copyuvm` -/

/-- Nothing of an address space is in a pool. -/
def Apart (m : Mem) (dir : Page) (pool : Set Page) : Prop :=
  ∀ part page, own m dir part = some page → page ∉ pool

theorem Apart.after (apart : Apart m src pool) (after : After pool m m') : Apart m' src pool := by
  intro part page holds
  rw [(frame src apart after).2.2.1] at holds
  exact apart part page holds

theorem tableOf_of_image {page : UserPage} (present : image m dir v = some page) :
    ∃ table, tableOf m dir (v / 1024) = some table := by
  cases holds : tableOf m dir (v / 1024) with
  | some table => exact ⟨table, rfl⟩
  | none =>
      have absent : image m dir v = none := by rw [image_eq_none, entry, holds]
      cases absent.symm.trans present

/-- One pass of the loop: the page is missing, the memory does not suffice, or it is copied. -/
theorem Space.copyPage {d : Page} {size : ℕ} (space : Space m d pool)
    (bound : size ≤ kernbase) (passes : ℕ) (inside : v < pagesOf size)
    (above : ∀ w < userPages, v ≤ w → image m d w = none) :
    (∃ fault ≠ .file, copyuvmLoop src d size (passes + 1) (v * pgsize) m = .error fault ∧
      image m src v = none) ∨
    (∃ m', copyuvmLoop src d size (passes + 1) (v * pgsize) m = .ok (false, m') ∧
      Space m' d pool ∧ After pool m m' ∧ Tight m pool v) ∨
    ∃ m', copyuvmLoop src d size (passes + 1) (v * pgsize) m =
        copyuvmLoop src d size passes ((v + 1) * pgsize) m' ∧
      Becomes d pool m m' fun w => if w = v then image m src v else image m d w := by
  have user := inside.trans_le (pagesOf_le bound)
  have bound' : v < 2 ^ 20 := user.trans (by decide)
  have absent := above v user le_rfl
  rw [copyuvmLoop, if_pos (lt_pagesOf.1 inside)]
  cases source : image m src v with
  | none =>
      left
      cases holds : tableOf m src (v / 1024) with
      | none =>
          rw [walkpgdir_none bound' holds]
          exact ⟨.copyuvmExists, by decide, rfl, rfl⟩
      | some table =>
          have notPresent : ¬(m.pte table (v % 1024)).present = true := by
            have missing := image_eq_none.1 source
            rw [entry, holds] at missing
            simp [missing]
          rw [walkpgdir_some false bound' holds]
          dsimp only
          rw [if_neg notPresent]
          exact ⟨.copyuvmPresent, by decide, rfl, rfl⟩
  | some page =>
      right
      rcases tableOf_of_image source with ⟨table, holds⟩
      have same : m.pte table (v % 1024) = entry m src v := by rw [entry, holds]
      have present : (entry m src v).present = true := by
        by_contra notPresent
        rw [image_eq_none.2 (by simpa using notPresent)] at source
        cases source
      rw [walkpgdir_some false bound' holds]
      dsimp only
      rw [same, if_pos present]
      rcases kalloc_cases m with failed | ⟨mem, freelist, list, allocated⟩
      · left
        have refused := kalloc_refused (congrArg Prod.fst failed)
        rw [failed] at refused ⊢
        have grows := space.calls (m.calls + 1)
        exact ⟨_, rfl, grows.space, grows.after, grows.space.tight refused above rfl (Nat.le_add_right _ _)⟩
      rw [allocated]
      rcases space.takePage list (m.content (entry m src v).page) with
        ⟨space₁, after₁, inPool, images, guards⟩
      have valid := space.valid mem inPool
      have absent₁ := (images v user).trans absent
      dsimp only
      rcases space₁.mapPage (entry m src v) inPool valid user absent₁ with
        ⟨m₂, mapped, becomes, refused⟩ | ⟨m₂, mapped, becomes⟩
      · left
        rw [mapped]
        have after₂ := after₁.trans (becomes.after.mono Set.sdiff_subset)
        rcases becomes.space.kfree inPool (after₂.linked ▸ valid) with ⟨m₃, freed, given⟩
        have few : pool.ncard ≤ (pool \ {mem}).ncard + 1 := by
          have less := Set.pred_ncard_le_ncard_sdiff_singleton pool mem
          omega
        refine ⟨m₃, ?_, given.space, after₂.trans given.after,
          becomes.space.tight refused (fun w user' from' => ?_) after₂.fails few⟩
        · simp only [bind_ok, Bool.false_eq_true, if_false, freed, pure_eq]
        · rw [becomes.image w user', images w user']
          exact above w user' from'
      · right
        rw [mapped]
        have next : v * pgsize + pgsize = (v + 1) * pgsize := by
          rw [Nat.add_mul, Nat.one_mul]
        simp only [bind_ok, if_true, next]
        refine ⟨m₂, rfl, becomes.space, after₁.trans becomes.after, fun w user' => ?_,
          fun guarded => becomes.guarded (guards guarded)⟩
        rw [becomes.image w user', Function.update_apply, ← source]
        split
        · simp [image, present]
        · exact images w user'

theorem Space.copyLoop {d : Page} {size : ℕ} (bound : size ≤ kernbase) (passes : ℕ) :
    ∀ {m v}, Space m d pool → Apart m src pool → pagesOf size ≤ v + passes →
      (∀ w < userPages, v ≤ w → image m d w = none) →
      (∃ fault ≠ .file, copyuvmLoop src d size passes (v * pgsize) m = .error fault ∧
        ∃ w < pagesOf size, image m src w = none) ∨
      (∃ m', copyuvmLoop src d size passes (v * pgsize) m = .ok (false, m') ∧
        Space m' d pool ∧ After pool m m' ∧ Tight m pool (pagesOf size)) ∨
      ∃ m', copyuvmLoop src d size passes (v * pgsize) m = .ok (true, m') ∧
        Becomes d pool m m' fun w =>
          if v ≤ w ∧ w < pagesOf size then image m src w else image m d w := by
  induction passes with
  | zero =>
      intro m v space _ enough _
      refine .inr (.inr ⟨m, rfl, (Becomes.refl space).congr fun w user => ?_⟩)
      rw [if_neg]
      omega
  | succ passes ih =>
      intro m v space apart enough absent
      by_cases done : v * pgsize < size
      · have inside := lt_pagesOf.2 done
        rcases space.copyPage bound passes inside absent with
          ⟨fault, other, ran, missing⟩ | ⟨m₂, ran, space₂, after₂, tight⟩ | ⟨m₂, ran, becomes⟩
        · exact .inl ⟨fault, other, ran, v, inside, missing⟩
        · exact .inr (.inl ⟨m₂, ran, space₂, after₂, tight.mono inside.le⟩)
        rw [ran]
        have framed := (frame src apart becomes.after).2.2.2
        have absent₂ : ∀ w < userPages, v + 1 ≤ w → image m₂ d w = none := by
          intro w user above
          rw [becomes.image w user, if_neg (by omega)]
          exact absent w user (by omega)
        rcases ih becomes.space (apart.after becomes.after) (by omega) absent₂ with
          ⟨fault, other, ran, w, inside', missing⟩ | ⟨m₃, ran, space₃, after₃, tight⟩ |
          ⟨m₃, ran, becomes₃⟩
        · left
          refine ⟨fault, other, ran, w, inside', ?_⟩
          rw [← framed w (inside'.trans_le (pagesOf_le bound))]
          exact missing
        · exact .inr (.inl ⟨m₃, ran, space₃, becomes.after.trans after₃, tight.before becomes.after⟩)
        · right
          right
          refine ⟨m₃, ran, (becomes.trans becomes₃).congr fun w user' => ?_⟩
          rw [becomes.image w user', framed w user']
          by_cases isV : w = v
          · subst isV
            simp [inside]
          · have iff : v + 1 ≤ w ↔ v ≤ w := by omega
            simp only [iff, isV, if_false]
      · unfold copyuvmLoop
        rw [if_neg done]
        refine .inr (.inr ⟨m, rfl, (Becomes.refl space).congr fun w user => ?_⟩)
        rw [if_neg]
        exact fun both => done (lt_pagesOf.1 (both.1.trans_lt both.2))

/-- `copyuvm` panics if a page is missing; otherwise it makes a copy or gives everything back. -/
theorem Idle.copyuvm {size : ℕ} (idle : Idle m pool) (apart : Apart m src pool)
    (bound : size ≤ kernbase) :
    (∃ fault ≠ .file, copyuvm src size m = .error fault ∧ ∃ w < pagesOf size, image m src w = none) ∨
    (∃ m', copyuvm src size m = .ok (none, m') ∧ Idle m' pool ∧ After pool m m' ∧
      Tight m pool (pagesOf size)) ∨
    ∃ d m', copyuvm src size m = .ok (some d, m') ∧
      Made d pool m m' fun w => if w < pagesOf size then image m src w else none := by
  unfold Vm.copyuvm
  rcases idle.setupkvm with ⟨m', failed, idle', after, scarce⟩ | ⟨d, m₁, made, becomes, -⟩
  · rw [failed]
    refine .inr (.inl ⟨m', rfl, idle', after, scarce.imp_left fun few => ?_⟩)
    omega
  · rw [made]
    have framed := (frame src apart becomes.after).2.2.2
    have enough : pagesOf size ≤ 0 + (size / pgsize + 1) := by
      unfold pagesOf pgsize
      omega
    have absent : ∀ w < userPages, 0 ≤ w → image m₁ d w = none :=
      fun w user _ => becomes.image w user
    have loop := becomes.space.copyLoop bound _ (apart.after becomes.after) enough absent
    rw [Nat.zero_mul] at loop
    simp only [bind_ok]
    rcases loop with ⟨fault, other, ran, w, inside, missing⟩ | ⟨m₂, ran, space₂, after₂, tight⟩ |
      ⟨m₂, ran, becomes₂⟩
    · left
      rw [ran]
      rw [framed w (inside.trans_le (pagesOf_le bound))] at missing
      exact ⟨fault, other, rfl, w, inside, missing⟩
    · right
      left
      rw [ran]
      rcases space₂.freevm with ⟨m₃, freed, idle₃, after₃⟩
      refine ⟨m₃, ?_, idle₃, (becomes.after.trans after₂).trans after₃, tight.before becomes.after⟩
      simp only [bind_ok, Bool.false_eq_true, if_false, freed, pure_eq]
    · right
      right
      rw [ran]
      refine ⟨d, m₂, rfl, (becomes.trans becomes₂).congr fun w user => ?_⟩
      rw [framed w user, becomes.image w user]
      simp

end Xv6.Vm
