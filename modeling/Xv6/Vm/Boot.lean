import Xv6.Vm.Turnover

/-!
# Boot

The boot sequence establishes the invariant, and the memory suffices for it.
-/

namespace Xv6.Vm

open Ownership Fallible References

variable {s s' : System} {m m' : Mem} {pool : Set Page} {kpgdir x : Page} {linked : Linked}
  {ncpu : ℕ} {init : List (BitVec 8)}

/-! ## `freerange` -/

section Freerange

variable {ω : Type*} {own : ω → Option Page}

/-- A page is handed to the allocator. -/
theorem Partition.add (partition : Partition m own pool) (new : x ∉ pool)
    (valid : m.linked.kernelEnd ≤ x ∧ x < phystop) :
    ∃ m', Vm.kfree x m = .ok m' ∧ Partition m' own (insert x pool) ∧ After {x} m m' ∧
      m'.freelist = x :: m.freelist := by
  have same : insert x pool \ {x} = pool := Set.insert_sdiff_self_of_notMem new
  have before : Partition m own (insert x pool \ {x}) := by
    rw [same]
    exact partition
  rcases before.give (Set.mem_insert x pool) valid with ⟨m', freed, given, after⟩
  refine ⟨m', freed, given, after, ?_⟩
  cases (kfree_ok valid).symm.trans freed
  rfl

theorem Partition.freerange (n : ℕ) :
    ∀ vstart {m pool}, Partition m own pool → (∀ page ∈ Set.Ico vstart (vstart + n), page ∉ pool) →
      (∀ page ∈ Set.Ico vstart (vstart + n), m.linked.kernelEnd ≤ page ∧ page < phystop) →
      ∃ m', (List.range' vstart n).foldlM (fun m page => Vm.kfree page m) m = .ok m' ∧
        Partition m' own (pool ∪ Set.Ico vstart (vstart + n)) ∧
        After (Set.Ico vstart (vstart + n)) m m' ∧
        m'.freelist.length = m.freelist.length + n := by
  induction n with
  | zero =>
      intro vstart m pool partition _ _
      refine ⟨m, rfl, ?_, .refl, rfl⟩
      simpa using partition
  | succ n ih =>
      intro vstart m pool partition new valid
      have first : vstart ∈ Set.Ico vstart (vstart + (n + 1)) := ⟨le_rfl, by omega⟩
      have later : Set.Ico (vstart + 1) (vstart + 1 + n) ⊆ Set.Ico vstart (vstart + (n + 1)) :=
        fun page member => ⟨by have := member.1; omega, by have := member.2; omega⟩
      have whole : insert vstart (Set.Ico (vstart + 1) (vstart + 1 + n)) =
          Set.Ico vstart (vstart + (n + 1)) := by
        ext page
        simp only [Set.mem_insert_iff, Set.mem_Ico]
        omega
      rcases partition.add (new vstart first) (valid vstart first) with
        ⟨m₁, freed, partition₁, after₁, list⟩
      have new₁ : ∀ page ∈ Set.Ico (vstart + 1) (vstart + 1 + n), page ∉ insert vstart pool := by
        rintro page member (rfl | inPool)
        · exact Nat.not_succ_le_self _ member.1
        · exact new page (later member) inPool
      rcases ih (vstart + 1) partition₁ new₁ fun page member => after₁.linked ▸ valid page (later member) with
        ⟨m', ran, partition', after', length⟩
      refine ⟨m', ?_, ?_, (after₁.mono (Set.singleton_subset_iff.2 first)).trans (after'.mono later),
        ?_⟩
      · rw [List.range'_succ, List.foldlM_cons, freed]
        exact ran
      · rw [Set.insert_union, ← Set.union_insert, whole] at partition'
        exact partition'
      · rw [length, list, List.length_cons]
        omega

end Freerange

/-! ## The other CPUs -/

/-- The state before there are processes. -/
def booting (m : Mem) (kpgdir : Page) (cpuStacks : List Page) : System := { mem := m, kpgdir, cpuStacks }

theorem owns_booting (stack : List Page) (o : Owner) :
    owns (booting m kpgdir stack) o = match o with
      | .kpgdir part => own m kpgdir part
      | .cpuStack i => stack[i]?
      | _ => none := by
  cases o <;> rfl

theorem startothers_ok (left : ℕ) :
    ∀ {m taken}, Partition m (owns (booting m kpgdir taken)) pool →
      (∃ m', startothers left taken m = (none, m') ∧
        (m.freelist.length < left ∨ ∃ call, m.fails call = true)) ∨
      ∃ taken' m', startothers left taken m = (some taken', m') ∧
        Partition m' (owns (booting m' kpgdir taken')) pool ∧ After ∅ m m' := by
  induction left with
  | zero => exact fun partition => .inr ⟨_, _, rfl, partition, .refl⟩
  | succ left ih =>
      intro m taken partition
      unfold startothers
      rcases kalloc_cases m with failed | ⟨x, freelist, list, allocated⟩
      · have refused := kalloc_refused (congrArg Prod.fst failed)
        rw [failed] at refused ⊢
        refine .inl ⟨_, rfl, refused.imp_left fun empty => ?_⟩
        have empty : m.freelist = [] := empty
        rw [empty]
        exact Nat.succ_pos left
      · rw [allocated]
        rcases partition.take list with ⟨out, inPool⟩
        have last : owns (booting m kpgdir taken) (.cpuStack taken.length) = none :=
          List.getElem?_eq_none le_rfl
        have gained : Partition { m with calls := m.calls + 1, freelist }
            (owns (booting { m with calls := m.calls + 1, freelist } kpgdir (taken ++ [x]))) pool := by
          refine out.gain inPool (partition.valid x inPool) last ?_ fun o different => ?_
          · exact List.getElem?_concat_length
          · rw [owns_booting, owns_booting]
            cases o with
            | kpgdir part => exact (space_content rfl).1 part
            | cpuStack i =>
                have notLast : i ≠ taken.length := fun same => different (congrArg _ same)
                dsimp only
                by_cases inside : i < taken.length
                · exact List.getElem?_append_left inside
                · rw [List.getElem?_eq_none (Nat.not_lt.1 inside), List.getElem?_eq_none]
                  rw [List.length_append, List.length_singleton]
                  omega
            | kstack p => rfl
            | space p part => rfl
            | pipe page => rfl
        rcases ih gained with ⟨m', ran, scarce⟩ | ⟨taken', m', ran, partition', after⟩
        · refine .inl ⟨m', ran, scarce.imp_left fun few => ?_⟩
          rw [list, List.length_cons]
          exact Nat.succ_lt_succ few
        · exact .inr ⟨taken', m', ran, partition', after.linked, after.fails, after.outside⟩

/-! ## The first process -/

/-- The only user page is the first one. -/
def OnePage (img : ℕ → Option UserPage) : Prop := ∀ v < userPages, img v = none ↔ v ≠ 0

theorem Made.inituvm {dir : Page} (made : Made dir pool m m' fun _ => none)
    (short : init.length < pgsize) :
    (inituvm dir init m' = .ok none ∧ Tight m' pool 0) ∨
    ∃ m₂ img, inituvm dir init m' = .ok (some m₂) ∧ Made dir pool m m₂ img ∧ OnePage img := by
  unfold Vm.inituvm
  rw [if_neg (Nat.not_le.2 short)]
  rcases kalloc_cases m' with failed | ⟨x, freelist, list, allocated⟩
  · left
    have refused := kalloc_refused (congrArg Prod.fst failed)
    rw [failed] at refused ⊢
    have grows := made.space.calls (m'.calls + 1)
    exact ⟨rfl, grows.space.tight refused (fun v user _ => made.image v user) rfl (Nat.le_add_right _ _)⟩
  · rw [allocated]
    rcases made.space.takePage list zeroed with ⟨space₁, after₁, inPool, images, guards⟩
    have valid := made.space.valid x inPool
    have first : 0 < userPages := by decide
    have absent := (images 0 first).trans (made.image 0 first)
    have mapped := space₁.mapPage writableUser inPool valid first absent
    rw [Nat.zero_mul] at mapped
    dsimp only
    rcases mapped with ⟨m₂, ran, becomes, refused⟩ | ⟨m₂, ran, becomes⟩
    · left
      have ran' : mappages dir 0 pgsize x writableUser
          ({ m' with calls := m'.calls + 1, freelist }.zero x) = .ok (false, m₂) := ran
      rw [ran']
      have few : pool.ncard ≤ (pool \ {x}).ncard + 1 := by
        have less := Set.pred_ncard_le_ncard_sdiff_singleton pool x
        omega
      refine ⟨rfl, becomes.space.tight refused (fun v user _ => ?_) (becomes.after.fails.trans after₁.fails) few⟩
      rw [becomes.image v user, images v user]
      exact made.image v user
    · right
      have ran' : mappages dir 0 pgsize x writableUser
          ({ m' with calls := m'.calls + 1, freelist }.zero x) = .ok (true, m₂) := ran
      rw [ran']
      have written := write_entry m₂ x 0 init dir
      have space : Space (m₂.write x 0 init) dir pool := ⟨becomes.space.nodup,
        becomes.space.owned.congr (own_congr (fun i _ => written.1 i) fun w _ => written.2 w),
        becomes.space.valid⟩
      have after₂ : After pool m₂ (m₂.write x 0 init) := by
        refine ⟨rfl, rfl, fun page outside => Function.update_of_ne ?_ _ _⟩
        rintro rfl
        exact outside inPool
      refine ⟨_, Vm.image (m₂.write x 0 init) dir, rfl, ⟨space,
        ((made.after.trans after₁).trans becomes.after).trans after₂, fun _ _ => rfl,
        (becomes.guarded (guards made.guarded)).write x 0 init⟩, fun v user => ?_⟩
      rw [image_eq_none, written.2, ← image_eq_none, becomes.image v user]
      by_cases isFirst : v = 0
      · rw [isFirst, Function.update_self]
        simp
      · rw [Function.update_of_ne isFirst]
        exact ⟨fun _ => isFirst, fun _ => (images v user).trans (made.image v user)⟩

/-- No pages are missing. -/
structure Ready (s : System) : Prop where
  inv : Inv s
  filled : ∀ q, Used s q → Filled s q

theorem pagesOf_pgsize : pagesOf pgsize = 1 := rfl

/-- The first process is the only one, it has one page, and no file is open. -/
structure Started (s : System) : Prop where
  first : ∃ p, s.initproc = some p ∧ (s.proc p).sz = pgsize ∧ (s.proc p).parent = none ∧
    ∀ q, Used s q → q = p
  file : s.file = fun _ => {}
  closed : ∀ q, (s.proc q).ofile = fun _ => none

/-- `userinit` makes the first process, if there are pages for it. -/
theorem userinit_ok (consistent : Consistent s [] (pages s.mem)) (nobody : ∀ q, ¬Used s q)
    (closed : ∀ q fd, (s.proc q).ofile fd = none) (parents : ∀ q, (s.proc q).parent = none) (short : init.length < pgsize) :
    (userinit init s = .ok none ∧
      (s.mem.freelist.length ≤ 1027 ∨ ∃ call, s.mem.fails call = true)) ∨
    ∃ s', userinit init s = .ok (some s') ∧ Ready s' ∧ (s.file = (fun _ => {}) → Started s') ∧
      s.mem.freelist.length ≤ s'.mem.freelist.length + 1027 := by
  unfold userinit
  rcases consistent.allocproc with ⟨-, all⟩ | ⟨t, -, refused, failed⟩ |
    ⟨p, x, m₁, unused, isFree, allocated, partition, free, after, length⟩
  · exact absurd (all 0) (nobody 0)
  · rw [failed]
    refine .inl ⟨rfl, refused.imp_left fun none => ?_⟩
    rw [none]
    exact Nat.zero_le _
  rw [allocated]
  have idle : Idle m₁ m₁.free := ⟨partition.nodup, rfl, fun page member =>
    partition.valid page (partition.owned.free_mem page member)⟩
  have count := ncard_free partition.nodup
  have fails : ∀ {m'}, After m₁.free m₁ m' → (∃ call, m'.fails call = true) →
      ∃ call, s.mem.fails call = true := by
    intro m' after' failing
    rwa [after'.fails, after.fails] at failing
  rcases idle.setupkvm with ⟨m₂, failed, -, -, scarce⟩ | ⟨d, m₂, ran, made, -⟩
  · have failed' : setupkvm ({ s with mem := m₁ }.setProc p
        { s.proc p with kstack := x, state := .embryo }).mem = .ok (none, m₂) := failed
    dsimp only
    rw [failed']
    refine .inl ⟨rfl, scarce.imp (fun few => ?_) (fails .refl)⟩
    omega
  have ran' : setupkvm ({ s with mem := m₁ }.setProc p
      { s.proc p with kstack := x, state := .embryo }).mem = .ok (some d, m₂) := ran
  dsimp only
  rw [ran']
  simp only [bind_ok]
  rcases made.inituvm short with ⟨failed, scarce⟩ | ⟨m₃, img, filled, made', one⟩
  · rw [failed]
    refine .inl ⟨rfl, scarce.imp (fun few => ?_) (fails made.after)⟩
    omega
  rw [filled]
  right
  let proc := { s.proc p with
    kstack := x, state := .embryo, pgdir := d, sz := pgsize, esp := pgsize, eip := 0
    priority := mdpr }
  have embryo : Consistent ({ s with mem := m₃ }.setProc p proc) [] (pages s.mem) :=
    consistent.embryo unused partition free after made' rfl rfl rfl
  let running := ({ s with mem := m₃ }.setProc p proc).setProc p { proc with state := .runnable }
  let final := { running with initproc := some p }
  have self : final.proc p = { proc with state := .runnable } := setProc_self _ _ _
  have others : ∀ q ≠ p, final.proc q = s.proc q := fun q different =>
    (setProc_other _ _ different).trans (setProc_other _ _ different)
  have unused' : ∀ q ≠ p, ¬Used final q := by
    intro q different used
    unfold Used at used
    rw [others q different] at used
    exact nobody q used
  have active : Active final p := by
    unfold Active
    rw [self]
    exact ⟨nofun, nofun, nofun⟩
  have onlyP : ∀ q, Used final q → q = p := fun q used =>
    not_not.1 fun different => unused' q different used
  have linked : m₃.linked = s.mem.linked := made'.after.linked.trans after.linked
  have images : ∀ w < userPages, image m₃ d w = none ↔ w ≠ 0 := fun w user => by
    rw [made'.image w user]
    exact one w user
  have consistent' : Consistent final [] (pages s.mem) := by
    have consistent : Consistent running [] (pages s.mem) := by
      refine embryo.setProc ?_ ?_ ?_ ?_
      all_goals rw [setProc_self]
      exact ⟨nofun, nofun⟩
    have files := consistent.files
    exact consistent.congr ⟨files.refs, files.unused, files.opened, files.single⟩
      (owns_congr running final rfl rfl rfl rfl (fun _ => .rfl) (fun _ => rfl) fun _ => rfl) rfl
  refine ⟨final, ?_, ⟨⟨?_, fun q used => ?_, fun q _ fd => ?_, fun q => ?_, fun q r used isParent => ?_,
    p, rfl, active⟩, fun q used w below => ?_⟩, fun files => ⟨⟨p, rfl, ?_, ?_, onlyP⟩, files, fun q => ?_⟩, ?_⟩
  · simp only [System.setProc, Function.update_self, Function.update_idem, bind_ok, pure_eq, final,
      running, proc]
  · have same : pages final.mem = pages s.mem := by
      unfold pages
      rw [show final.mem.linked = s.mem.linked from linked]
    rw [same]
    exact consistent'
  · cases onlyP q used
    refine ⟨?_, ?_, fun w user from' => ?_⟩
    · rw [self]
      exact show 0 < pgsize by decide
    · rw [self]
      exact show pgsize < kernbase by decide
    · rw [self] at from' ⊢
      have above : pagesOf pgsize ≤ w := from'
      rw [pagesOf_pgsize] at above
      exact (images w user).2 (Nat.one_le_iff_ne_zero.1 above)
  · by_cases isP : q = p
    · subst isP
      rw [self]
      exact closed q fd
    · rw [others q isP]
      exact closed q fd
  · by_cases isP : q = p
    · rw [isP, self]
      nofun
    · rw [others q isP, not_not.1 (nobody q)]
      nofun
  · cases onlyP q used
    rw [self] at isParent
    cases (parents p).symm.trans isParent
  · cases onlyP q used
    rw [self] at below ⊢
    have below' : w < pagesOf pgsize := below
    rw [pagesOf_pgsize] at below'
    have isFirst : w = 0 := Nat.lt_one_iff.1 below'
    exact Option.ne_none_iff_exists'.1 fun none =>
      (images w (isFirst ▸ (by decide : 0 < userPages))).1 none isFirst
  · rw [self]
  · rw [self]
    exact parents p
  · funext fd
    by_cases isP : q = p
    · rw [isP, self]
      exact closed p fd
    · rw [others q isP]
      exact closed q fd
  · have card := made'.space.card_le 0 1 (fun _ impossible => absurd impossible (Nat.not_lt_zero _))
      fun v user from' => (images v user).2 (Nat.one_le_iff_ne_zero.1 from')
    have left : final.mem.freelist.length = m₃.freelist.length := rfl
    omega

/-! ## The whole sequence -/

theorem owned_none (pool : Set Page) {ω : Type*} : Owned pool (fun _ : ω => (none : Option Page)) pool :=
  ⟨fun _ isFree => isFree, nofun, nofun, nofun, fun _ inPool => .inl inPool⟩

theorem page_union {first page : ℕ} (low : first ≤ 1024) :
    first ≤ page ∧ page < first + (1024 - first) ∨
      1024 ≤ page ∧ page < 1024 + (phystop - 1024) ↔ first ≤ page ∧ page < phystop := by
  unfold phystop
  omega

/-- No file is open before the first process. -/
theorem files_booting (m : Mem) (kpgdir : Page) (taken : List Page) :
    Files (booting m kpgdir taken) [] := by
  refine ⟨fun f => ?_, fun f _ => rfl, fun _ writable => ⟨fun isOpen => ?_, ?_⟩,
    fun _ _ _ _ is => ?_⟩
  · have none : count (descriptors (booting m kpgdir taken)) f = 0 :=
      count_eq_zero.2 fun x holds => by cases holds
    rw [none]
    rfl
  · cases writable <;> cases isOpen
  · rintro ⟨f, isPipe, -⟩
    cases isPipe
  · cases is.1

/-- The boot sequence makes a state in which all pages are present and most are free, unless the
memory does not suffice for it. -/
theorem boot_ok (linked : Linked) (ncpu : ℕ) (short : init.length < pgsize) :
    (boot linked ncpu init = .ok none ∧ (500 < linked.kernelEnd ∨ 8 < ncpu)) ∨
    ∃ s, boot linked ncpu init = .ok (some s) ∧ Ready s ∧ Started s ∧ 50000 ≤ s.mem.freelist.length := by
  let m₀ : Mem := { linked, content := fun _ => zeroed, freelist := [] }
  let low := Set.Ico linked.kernelEnd (linked.kernelEnd + (1024 - linked.kernelEnd))
  have start : Partition m₀ (fun _ : Part => none) ∅ := by
    refine ⟨List.nodup_nil, ?_, nofun⟩
    have none : m₀.free = ∅ := Set.eq_empty_of_forall_notMem fun x member => by
      cases member
    rw [none]
    exact owned_none ∅
  have room := linked.room
  have lowValid : ∀ page ∈ low, linked.kernelEnd ≤ page ∧ page < 1024 := by
    rintro page ⟨above, below⟩
    exact ⟨above, by omega⟩
  rcases start.freerange (1024 - linked.kernelEnd) linked.kernelEnd (fun _ _ => id)
    (fun page member => ⟨(lowValid page member).1, (lowValid page member).2.trans (by decide)⟩) with
    ⟨m₁, freed, partition₁, after₁, length₁⟩
  rw [Set.empty_union] at partition₁
  have idle : Idle m₁ low := .of_partition partition₁ fun _ => rfl
  have card : low.ncard = 1024 - linked.kernelEnd := by
    rw [← idle.free, ncard_free idle.nodup, length₁]
    exact Nat.zero_add _
  unfold boot freerange
  rw [freed]
  simp only [bind_ok]
  have reliable : ∀ {m' : Mem}, m'.fails = m₁.fails → ¬∃ call, m'.fails call = true := by
    rintro m' same ⟨call, fails⟩
    rw [same, after₁.fails] at fails
    cases fails
  rcases idle.setupkvm with ⟨m₂, failed, -, -, scarce⟩ | ⟨kpgdir, m₂, ran, made, noTables⟩
  · rw [failed]
    refine .inl ⟨rfl, .inl ?_⟩
    have few := scarce.resolve_right (reliable rfl)
    omega
  rw [ran]
  simp only [bind_ok]
  have kernel := lowValid kpgdir made.space.dir_mem
  have enough := made.space.card_le 512 0 noTables fun v user _ => made.image v user
  have partition₂ : Partition m₂ (owns (booting m₂ kpgdir [])) low := by
    refine ⟨made.space.nodup, ?_, made.space.valid⟩
    refine (owned_none low).extend Owner.kpgdir made.space.owned (fun _ => rfl) (fun _ => rfl) ?_
    intro o outside
    cases o with
    | kpgdir part => exact absurd ⟨part, rfl⟩ outside
    | cpuStack i => rfl
    | kstack p => rfl
    | space p part => rfl
    | pipe page => rfl
  rcases startothers_ok (ncpu - 1) partition₂ with ⟨m₃, failed, scarce⟩ |
    ⟨taken, m₃, ran₃, partition₃, after₃⟩
  · rw [failed]
    refine .inl ⟨rfl, ?_⟩
    have few := scarce.resolve_right (reliable made.after.fails)
    omega
  rw [ran₃]
  dsimp only
  let high := Set.Ico 1024 (1024 + (phystop - 1024))
  have isLinked : m₃.linked = linked :=
    (after₃.linked.trans made.after.linked).trans after₁.linked
  have highNew : ∀ page ∈ high, page ∉ low := fun page member inLow =>
    Nat.not_lt.2 member.1 (lowValid page inLow).2
  have highValid : ∀ page ∈ high, m₃.linked.kernelEnd ≤ page ∧ page < phystop := by
    intro page member
    rw [isLinked]
    exact ⟨kernel.1.trans (kernel.2.le.trans member.1), member.2⟩
  rcases partition₃.freerange (phystop - 1024) 1024 highNew highValid with
    ⟨m₄, freed₄, partition₄, after₄, length₄⟩
  rw [freed₄]
  simp only [bind_ok]
  have many : m₄.freelist.length = m₃.freelist.length + (phystop - 1024) := length₄
  have : phystop = 0xE000 := rfl
  have framed : ∀ o, owns (booting m₄ kpgdir taken) o = owns (booting m₃ kpgdir taken) o :=
    fun o => owns_frame (s := booting m₃ kpgdir taken) (fun _ => False)
      (fun o x _ holds inHigh => highNew x inHigh (partition₃.owned.own_mem o x holds)) after₄ o
      fun _ _ impossible => impossible.elim
  have all : low ∪ high = pages m₄ := by
    ext page
    have whole : m₄.linked = linked := after₄.linked.trans isLinked
    simp only [low, high, pages, whole, Set.mem_union, Set.mem_Ico, Set.mem_ofPred_eq]
    exact page_union (kernel.1.trans kernel.2.le)
  have consistent : Consistent (booting m₄ kpgdir taken) [] (pages m₄) := by
    refine ⟨files_booting m₄ kpgdir taken, ?_⟩
    rw [← all]
    exact partition₄.congr framed
  rcases userinit_ok consistent (fun _ used => used rfl) (fun _ _ => rfl) (fun _ => rfl) short with
    ⟨failed, scarce⟩ | ⟨s, made', ready, started, left⟩
  · left
    refine ⟨failed, ?_⟩
    have few := scarce.resolve_right (reliable
      ((after₄.fails.trans after₃.fails).trans made.after.fails))
    have few' : m₄.freelist.length ≤ 1027 := few
    omega
  · have left : m₄.freelist.length ≤ s.mem.freelist.length + 1027 := left
    exact .inr ⟨s, made', ready, started rfl, by omega⟩

end Xv6.Vm
