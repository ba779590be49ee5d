import Xv6.Vm.Program

/-!
# Atomicity of `exec`

`exec` either leaves its caller as it was, all pages being free again that it had taken, or gives it
the new image with the arguments on the stack. What it does to the file system is balanced.
-/

namespace Xv6.Vm

open Ownership Fallible

variable {m m' m₁ m₂ : Mem} {dir old : Page} {pool : Set Page} {v w : ℕ} {s s' s₁ s₂ : Exec}
  {argv : List (List (BitVec 8))} {page : UserPage}

/-- `argc`, `argv` and the argument strings are in the page at `base`, and `sp` points to the fake
return address before them. -/
def UserStack (bytes : ℕ → BitVec 8) (base sp : ℕ) (argv : List (List (BitVec 8))) : Prop :=
  ∃ addresses : List ℕ,
    base ≤ sp ∧ sp + 4 * (argv.length + 4) ≤ base + pgsize ∧
    Holds bytes (sp - base)
      (([0xffffffff, argv.length, sp + 12] ++ addresses ++ [0]).flatMap uintBytes) ∧
    StringsAt bytes base (sp + 4 * (argv.length + 4)) (base + pgsize) addresses argv

/-- How much of the stack `exec` fills. -/
def stackBytes (argv : List (List (BitVec 8))) : ℕ := stringBytes argv + 4 * (argv.length + 4)

theorem length_flatMap_uintBytes (values : List ℕ) :
    (values.flatMap uintBytes).length = 4 * values.length := by
  induction values with
  | nil => rfl
  | cons value values ih =>
      rw [List.flatMap_cons, List.length_append, ih, List.length_cons]
      change 4 + _ = _
      omega

theorem pushArguments_ok (top : TopPage m dir pool v page) (few : argv.length < maxarg)
    (short : ∀ arg ∈ argv, arg.length < kernbase) :
    (∃ m', pushArguments dir argv ((v + 1) * pgsize) m = (none, m') ∧ Writes dir pool m m' ∧
      pgsize < stackBytes argv) ∨
    ∃ sp page' m', pushArguments dir argv ((v + 1) * pgsize) m = (some sp, m') ∧
      TopPage m' dir pool v page' ∧ page'.access = page.access ∧
      Becomes dir pool m m' (Function.update (image m dir) v page') ∧
      UserStack page'.bytes (v * pgsize) sp argv := by
  have top_eq : (v + 1) * pgsize = v * pgsize + pgsize := by rw [Nat.add_mul, Nat.one_mul]
  have userV := top.user
  have positive := top.positive
  have whole : (v + 1) * pgsize % 4 = 0 := by
    unfold pgsize
    omega
  unfold pushArguments
  rcases pushStrings_ok argv [] top (by rw [top_eq]; exact Nat.le_add_right _ _) le_rfl short with
    ⟨m', ran, writes, full⟩ | ⟨addresses, sp', page', m₁, ran, top', access, becomes, low, high, kept,
      strings, ends⟩
  · rw [ran]
    have less := full whole (by rw [List.length_nil, Nat.zero_add]; exact few.le)
    rw [top_eq] at less
    exact .inl ⟨m', rfl, writes, (Nat.lt_of_add_lt_add_left less).trans_le (Nat.le_add_right _ _)⟩
  · rw [ran, List.nil_append]
    dsimp only
    have count : addresses.length = argv.length := strings.length_eq
    rw [count]
    generalize stack : ([0xffffffff, argv.length, usub sp' ((argv.length + 1) * 4)] ++ addresses ++
      [0]).flatMap uintBytes = buf
    have length : buf.length = 4 * (argv.length + 4) := by
      rw [← stack, length_flatMap_uintBytes]
      simp only [List.length_append, List.length_cons, List.length_nil, count]
      omega
    have room : 4 * (argv.length + 4) ≤ sp' := by
      unfold maxarg pgsize at *
      omega
    have small : sp' < 2 ^ 32 := by
      unfold userPages pgsize at *
      omega
    have va : usub sp' ((3 + argv.length + 1) * 4) = sp' - 4 * (argv.length + 4) := by
      unfold usub
      omega
    have vector : usub sp' ((argv.length + 1) * 4) = sp' - 4 * (argv.length + 4) + 12 := by
      unfold usub
      omega
    rw [va]
    have notEmpty : buf ≠ [] := by
      intro empty
      rw [empty] at length
      simp at length
    have place : kernbase ≤ sp' - 4 * (argv.length + 4) ∨
        sp' - 4 * (argv.length + 4) + buf.length ≤ sp' ∧
          sp' < sp' - 4 * (argv.length + 4) + buf.length + 4 := by
      right
      rw [length]
      omega
    rcases top'.push notEmpty (by omega) low high place with ⟨writes, pushes⟩
    cases result : copyout dir (sp' - 4 * (argv.length + 4)) buf m₁ with
    | mk ok m₂ =>
        rw [result] at writes pushes
        cases ok with
        | false =>
            refine .inl ⟨m₂, rfl, ⟨writes.space, becomes.after.trans writes.after, writes.guarded⟩, ?_⟩
            by_contra fits
            unfold stackBytes at fits
            have strings : stringBytes argv + 4 * (argv.length + 4) ≤ pgsize := Nat.not_lt.1 fits
            have isEnd := ends whole (by rw [top_eq]; exact Nat.add_le_add_left (by omega) _)
            rw [top_eq] at isEnd high
            have inside : (copyout dir (sp' - 4 * (argv.length + 4)) buf m₁).1 = true := by
              apply top'.inside notEmpty
              · rw [isEnd]
                omega
              · rw [length, top_eq]
                omega
            rw [result] at inside
            cases inside
        | true =>
            rcases pushes rfl with ⟨inside, -, once⟩
            cases once
            rcases top'.write (sp' - 4 * (argv.length + 4) - v * pgsize) buf with ⟨top₂, becomes₂⟩
            right
            refine ⟨_, _, _, rfl, top₂, (access_bytes _ _).trans access, ?_, addresses, inside, ?_,
              ?_, ?_⟩
            · refine (becomes.trans becomes₂).congr fun w user => ?_
              by_cases isV : w = v
              · rw [isV, Function.update_self, Function.update_self]
              · rw [Function.update_of_ne isV, Function.update_of_ne isV, becomes.image w user,
                  Function.update_of_ne isV]
            · rw [top_eq] at high
              omega
            · rw [← vector, stack]
              exact splice_holds _ _ _
            · have whole : sp' - 4 * (argv.length + 4) + 4 * (argv.length + 4) = sp' := by omega
              rw [whole, ← top_eq]
              refine strings.imp fun address arg ⟨from', to', holds⟩ => ⟨from', to', ?_⟩
              refine holds.splice ?_
              rw [length]
              omega

/-! ## Two address spaces -/

theorem Space.idle (space : Space m old pool) : Idle m m.free :=
  ⟨space.nodup, rfl, fun page isFree => space.valid page (space.owned.free_mem page isFree)⟩

theorem Space.apart (space : Space m old pool) : Apart m old m.free :=
  fun part page holds => space.owned.apart part page holds

/-- The old address space is given up for one that has been made from free pages. -/
theorem Space.replace (space : Space m old pool) (new : Space m' dir m.free)
    (after : After m.free m m') :
    ∃ m₂, Vm.freevm old m' = .ok m₂ ∧ Space m₂ dir pool ∧ After pool m m₂ ∧
      (∀ v < 2 ^ 20, entry m₂ dir v = entry m' dir v) ∧
      ∀ v < userPages, image m₂ dir v = image m' dir v := by
  let both : Part ⊕ Part → Option Page := Sum.elim (own m old) (own m' dir)
  have subset : m.free ⊆ pool := space.owned.free_mem
  have outer : Owned m.free (Sum.elim (own m old) (fun _ : Part => none)) pool := by
    refine ⟨space.owned.free_mem, ?_, ?_, ?_, fun x inPool => ?_⟩
    · rintro (part | part) x holds
      · exact space.owned.own_mem part x holds
      · cases holds
    · rintro (part | part) x holds
      · exact space.owned.apart part x holds
      · cases holds
    · rintro (part | part) (part' | part') x holds holds'
      · exact congrArg _ (space.owned.single part part' x holds holds')
      · cases holds'
      · cases holds
      · cases holds
    · exact (space.owned.covered x inPool).imp_right fun ⟨part, holds⟩ => ⟨.inl part, holds⟩
  have all : Owned m'.free both pool := by
    refine outer.extend Sum.inr new.owned (fun _ => rfl) (fun _ => rfl) ?_
    rintro (part | part) outside
    · rfl
    · exact absurd ⟨part, rfl⟩ outside
  have framed := frame old space.apart after
  have partition : Partition m' both pool := by
    refine ⟨new.nodup, all, ?_⟩
    rw [after.linked]
    exact space.valid
  have apart : Apart m' dir (pool \ rest both Sum.inl) := by
    rintro part page holds ⟨-, notRest⟩
    refine notRest ⟨.inr part, ?_, holds⟩
    rintro ⟨part', same⟩
    cases same
  let one : Part ⊕ Part → Option Page := Sum.elim (fun _ => none) (own m' dir)
  have outside : ∀ o ∉ Set.range Sum.inl, one o = both o := by
    rintro (part | part) outside
    · exact absurd ⟨part, rfl⟩ outside
    · rfl
  rcases partition.freevm Sum.inl Sum.inl_injective framed.2.2.1 (fun _ => rfl) outside with
    ⟨m₂, freed, given, after₂⟩
  have framed₂ := frame dir apart after₂
  have owned : Owned m₂.free (own m₂ dir) pool := by
    refine given.owned.drop Sum.inr_injective framed₂.2.2.1 ?_
    rintro (part | part) outside
    · rfl
    · exact absurd ⟨part, rfl⟩ outside
  have afterAll : After pool m m₂ :=
    (after.mono subset).trans (after₂.mono Set.sdiff_subset)
  exact ⟨m₂, freed, ⟨given.nodup, owned, given.valid⟩, afterAll, framed₂.2.1, framed₂.2.2.2⟩

/-! ## `exec` -/

/-- The image of a program with a stack that holds its arguments. -/
structure NewImage (m : Mem) (dir : Page) (sz sp : ℕ) (argv : List (List (BitVec 8))) : Prop where
  aligned : sz % pgsize = 0
  two : 2 * pgsize ≤ sz
  bound : sz < kernbase
  pages : ∀ w < userPages, (∃ page, image m dir w = some page) ↔ w * pgsize < sz
  guard : ∃ page, image m dir (sz / pgsize - 2) = some page ∧ page.user = false
  stack : ∃ page, image m dir (sz / pgsize - 1) = some page ∧ page.user = true ∧
    UserStack page.bytes (sz - pgsize) sp argv

theorem NewImage.of_pages {n sp : ℕ} (bound : (n + 2) * pgsize < kernbase)
    (pages : ∀ w < userPages, (∃ page, image m dir w = some page) ↔ w < n + 2)
    (guard : ∃ page, image m dir n = some page ∧ page.user = false)
    (present : image m dir (n + 1) = some page) (user : page.user = true)
    (stack : UserStack page.bytes ((n + 1) * pgsize) sp argv) :
    NewImage m dir ((n + 2) * pgsize) sp argv := by
  have lower : (n + 2) * pgsize / pgsize - 2 = n := by
    unfold pgsize
    omega
  have upper : (n + 2) * pgsize / pgsize - 1 = n + 1 := by
    unfold pgsize
    omega
  have base : (n + 2) * pgsize - pgsize = (n + 1) * pgsize := by
    unfold pgsize
    omega
  refine ⟨Nat.mul_mod_left _ _, ?_, bound, fun w user => ?_, ?_, ⟨page, ?_, user, ?_⟩⟩
  · unfold pgsize
    omega
  · rw [pages w user]
    unfold pgsize
    omega
  · rw [lower]
    exact guard
  · rw [upper]
    exact present
  · rw [base]
    exact stack

/-- The caller is as it was, and what had been taken is free again. -/
structure Unchanged (s s' : Exec) : Prop where
  proc : s'.proc = s.proc
  idle : Idle s'.mem s.mem.free
  after : After s.mem.free s.mem s'.mem

/-- The caller runs the new image. -/
structure Replaced (build : Build) (path : List (BitVec 8)) (argv : List (List (BitVec 8)))
    (pool : Set Page) (s s' : Exec) : Prop where
  space : Space s'.mem s'.proc.pgdir pool
  after : After pool s.mem s'.mem
  guarded : Guarded s'.mem s'.proc.pgdir
  image : NewImage s'.mem s'.proc.pgdir s'.proc.sz s'.proc.esp argv
  name : s'.proc.name = programName path
  priority : s'.proc.priority = if build = .dmlq then mdpr else s.proc.priority
  others : { s'.proc with
      pgdir := s.proc.pgdir, sz := s.proc.sz, eip := s.proc.eip, esp := s.proc.esp
      name := s.proc.name, priority := s.proc.priority } = s.proc

theorem execBad_ok (dirs : Option Page) (locked : Bool)
    (stopped : ∀ dir ∈ dirs, Space s₁.mem dir s.mem.free)
    (none : dirs = none → Idle s₁.mem s.mem.free) (after : After s.mem.free s.mem s₁.mem)
    (proc : s₁.proc = s.proc) :
    ∃ s', execBad dirs locked s₁ = .ok (false, s') ∧ Unchanged s s' ∧
      s'.trace = if locked then s₁.trace ++ [.iunlockput, .endOp] else s₁.trace := by
  have freed : ∃ m', dirs.elim (.ok s₁.mem) (freevm · s₁.mem) = .ok m' ∧
      Idle m' s.mem.free ∧ After s.mem.free s.mem m' := by
    cases dirs with
    | none => exact ⟨_, rfl, none rfl, after⟩
    | some dir =>
        rcases (stopped dir rfl).freevm with ⟨m', ran, idle, after'⟩
        exact ⟨m', ran, idle, after.trans after'⟩
  rcases freed with ⟨m', ran, idle, after'⟩
  unfold execBad
  rw [ran]
  cases locked with
  | false => exact ⟨_, rfl, ⟨proc, idle, after'⟩, rfl⟩
  | true => exact ⟨_, rfl, ⟨proc, idle, after'⟩, by simp [Exec.act]⟩

theorem pagesOf_mul (n : ℕ) : pagesOf (n * pgsize) = n := by
  unfold pagesOf pgsize
  omega

theorem not_userAt_of_image (present : image m dir v = some page) (notUser : page.user = false) :
    ¬UserAt m dir v := by
  intro userAt
  rcases userAt.image with ⟨page', present', user⟩
  cases present.symm.trans present'
  rw [notUser] at user
  cases user

/-- Of the two pages after a flat image, the lower one becomes the guard of the upper one. -/
theorem Space.stackPages {n : ℕ} (space : Space m dir pool) (guarded : Guarded m dir)
    (bound : n + 2 ≤ userPages) (flat : Flat m dir ((n + 2) * pgsize))
    (zero : ∀ w, n ≤ w → w < n + 2 → image m dir w = some zeroPage) :
    ∃ m', Vm.clearpteu dir (n * pgsize) m = .ok m' ∧ After pool m m' ∧
      TopPage m' dir pool (n + 1) zeroPage ∧
      (∃ page, image m' dir n = some page ∧ page.user = false) ∧
      (∀ w < userPages, (∃ page, image m' dir w = some page) ↔ w < n + 2) ∧
      ∀ w < n, image m' dir w = image m dir w := by
  have userN : n < userPages := by omega
  have userV : n + 1 < userPages := by omega
  rcases space.clearpteu userN (zero n le_rfl (by omega)) with ⟨m', cleared, becomes⟩
  have guard : image m' dir n = some { zeroPage with user := false } := by
    rw [becomes.image n userN, Function.update_self]
  refine ⟨m', cleared, becomes.after, ⟨becomes.space, becomes.guarded guarded, by omega, userV, ?_,
    rfl, ?_⟩, ⟨_, guard, rfl⟩, fun w user => ?_, fun w below => ?_⟩
  · rw [becomes.image _ userV, Function.update_of_ne (by omega)]
    exact zero _ (by omega) (by omega)
  · rw [Nat.add_sub_cancel]
    exact not_userAt_of_image guard rfl
  · rw [becomes.image w user]
    by_cases isN : w = n
    · subst isN
      rw [Function.update_self]
      exact ⟨fun _ => by omega, fun _ => ⟨_, rfl⟩⟩
    · rw [Function.update_of_ne isN]
      have holds := flat w user
      rw [pagesOf_mul] at holds
      constructor
      · rintro ⟨page, present⟩
        by_contra above
        rw [if_neg above, shape_eq_none, present] at holds
        cases holds
      · intro below
        rw [if_pos below, shape] at holds
        rcases Option.map_eq_some_iff.1 holds with ⟨page, present, -⟩
        exact ⟨page, present⟩
  · rw [becomes.image w (below.trans userN), Function.update_of_ne below.ne]

theorem execStack_ok {build : Build} {path : List (BitVec 8)} {entry sz : ℕ}
    (space : Space s.mem s.proc.pgdir pool) (space₁ : Space s₁.mem dir s.mem.free)
    (after₁ : After s.mem.free s.mem s₁.mem) (guarded : Guarded s₁.mem dir)
    (flat₁ : Flat s₁.mem dir sz) (size₁ : sz < kernbase) (proc₁ : s₁.proc = s.proc) (few : argv.length < maxarg)
    (short : ∀ arg ∈ argv, arg.length < kernbase) :
    ∃ ok s', execStack build path argv dir entry sz s₁ = .ok (ok, s') ∧ s'.trace = s₁.trace ∧
      (ok = false → Unchanged s s' ∧ (stackBytes argv ≤ pgsize → ∀ limit, sz ≤ limit →
        (pagesOf limit + 2) * pgsize < kernbase → Tight s₁.mem s.mem.free (pagesOf limit + 2))) ∧
      (ok = true → Replaced build path argv pool s s' ∧ s'.proc.eip = entry ∧ ∀ bytes,
        Shows s₁.mem dir sz bytes → Shows s'.mem s'.proc.pgdir (s'.proc.sz - 2 * pgsize) bytes) := by
  have round := pgroundup_eq size₁.le
  have old : pgroundup sz ≤ kernbase := by
    have := pagesOf_le size₁.le
    unfold userPages kernbase pgsize at *
    omega
  have flat : Flat s₁.mem dir (pgroundup sz) := by
    intro w user
    rw [flat₁ w user, round, pagesOf_mul]
  -- `execBad` with the new page directory, after the file has been released
  have bad : ∀ m', Space m' dir s.mem.free → After s.mem.free s.mem m' →
      ∃ s', execBad (some dir) false { s₁ with mem := m' } = .ok (false, s') ∧ Unchanged s s' ∧
        s'.trace = s₁.trace := by
    intro m' space' after'
    have stopped : ∀ dir' ∈ some dir, Space m' dir' s.mem.free := by
      rintro dir' ⟨⟩
      exact space'
    exact execBad_ok (some dir) false stopped nofun after' proc₁
  unfold execStack
  rcases space₁.allocFlat (pgroundup sz + 2 * pgsize) old flat with
    ⟨sz', m', ran, space', after', guarded', reason, more⟩
  rw [ran]
  simp only [bind_ok]
  have pages' : pgroundup sz + 2 * pgsize = (pagesOf sz + 2) * pgsize := by rw [round, Nat.add_mul]
  by_cases failed : sz' = 0
  · rw [if_pos failed]
    rcases bad m' space' (after₁.trans after') with ⟨s', ran', unchanged, trace⟩
    refine ⟨false, s', ran', trace, fun _ => ⟨unchanged, fun _ limit below bound => ?_⟩, nofun⟩
    have more' : pagesOf sz + 2 ≤ pagesOf limit + 2 := Nat.add_le_add_right (pagesOf_mono below) 2
    rw [pages', pagesOf_mul] at reason
    refine (reason failed ?_ ((Nat.mul_le_mul_right _ more').trans_lt bound)).mono more'
    exact Nat.mul_pos (Nat.succ_pos _) (by decide)
  rw [if_neg failed]
  rcases more failed with ⟨size, bound, flat', kept, zero⟩
  have pages : sz' = (pagesOf sz + 2) * pgsize := by
    rw [size, round, Nat.add_mul]
    exact max_eq_right (Nat.le_add_right _ _)
  have guardAt : sz' - 2 * pgsize = pagesOf sz * pgsize := by
    rw [pages, Nat.add_mul, Nat.add_sub_cancel]
  have topAt : sz' = (pagesOf sz + 1 + 1) * pgsize := pages
  have inside : pagesOf sz + 2 ≤ userPages := by
    rw [round] at bound
    unfold kernbase userPages pgsize at *
    omega
  rw [pages] at flat' zero
  rw [round, pagesOf_mul, pagesOf_mul] at zero
  rw [round, pagesOf_mul] at kept
  rcases space'.stackPages (guarded' guarded) inside flat' zero with
    ⟨m₂, cleared, after₂, top, guard, present, below⟩
  have after₂' := (after₁.trans after').trans after₂
  rw [guardAt, cleared]
  simp only [bind_ok]
  rw [topAt]
  rcases pushArguments_ok top few short with
    ⟨m₃, pushed, writes, full⟩ | ⟨sp, page', m₃, pushed, top', access, becomes, stack⟩
  · rw [pushed]
    rcases bad m₃ writes.space (after₂'.trans writes.after) with ⟨s', ran', unchanged, trace⟩
    exact ⟨false, s', ran', trace, fun _ => ⟨unchanged, fun fits => absurd fits (Nat.not_le.2 full)⟩, nofun⟩
  · rw [pushed]
    have after₃ := after₂'.trans becomes.after
    rcases space.replace top'.space after₃ with ⟨m₄, freed, space₄, after₄, entries, images⟩
    rw [← proc₁] at freed
    dsimp only
    rw [freed]
    have others : ∀ w < userPages, w ≠ pagesOf sz + 1 → image m₄ dir w = image m₂ dir w := by
      intro w user different
      rw [images w user, becomes.image w user, Function.update_of_ne different]
    refine ⟨true, _, rfl, rfl, nofun,
      fun _ => ⟨⟨space₄, after₄, ?_, ?_, rfl, ?_, ?_⟩, rfl, fun bytes shown => ?_⟩⟩
    · exact top'.guarded.congr fun v _ bound' => entries v bound'
    · have page_eq : image m₄ dir (pagesOf sz + 1) = some page' :=
        (images _ top'.user).trans top'.present
      have bound' : (pagesOf sz + 2) * pgsize < kernbase := by
        rw [round, ← Nat.add_mul] at bound
        exact bound
      refine .of_pages bound' (fun w user => ?_) ?_ page_eq (congrArg Prod.snd access) stack
      · by_cases isTop : w = pagesOf sz + 1
        · subst isTop
          exact ⟨fun _ => by omega, fun _ => ⟨page', page_eq⟩⟩
        · rw [others w user isTop]
          exact present w user
      · rw [others _ (by omega) (by omega)]
        exact guard
    · rw [proc₁]
    · rw [proc₁]
    · have lower : pagesOf ((pagesOf sz + 1 + 1) * pgsize - 2 * pgsize) = pagesOf sz := by
        rw [← topAt, guardAt, pagesOf_mul]
      have shown' : Shows m₄ dir sz bytes := shown.congr fun w low =>
        (others w (by omega) (by omega)).trans ((below w low).trans (kept w low))
      exact shown'.resize lower

/-- What `exec` does to the file system, whatever its result is: the inode is released once if it
has been found, and one `end_op` follows one `begin_op`. -/
def fileActions : Option Inode → List Action
  | none => [.beginOp, .endOp]
  | some _ => [.beginOp, .namei, .ilock, .iunlockput, .endOp]

theorem readi_act (ip : Inode) (off n : ℕ) (s : Exec) (action : Action) :
    (readi ip off n (s.act action)).1 = (readi ip off n s).1 := by
  unfold readi Exec.act
  split
  · rfl
  · split <;> rfl

/-- The file has an ELF header. The caller goes on at its entry point, and the pages below the guard
page show the segments. -/
def Enters (ip : Option Inode) (s s' : Exec) : Prop :=
  ∃ file elf, ip = some file ∧ (readi file 0 52 s).1 = some elf ∧ elf.length = 52 ∧
    field elf 0 4 = elfMagic ∧ s'.proc.eip = field elf 24 4 ∧
    (file.device = none → Shows s'.mem s'.proc.pgdir (s'.proc.sz - 2 * pgsize)
      (segmentBytes file.content (field elf 44 2) (field elf 28 4) fun _ => 0))

theorem limit_lt {limit : ℕ} (bound : (pagesOf limit + 2) * pgsize < kernbase) : limit < kernbase := by
  refine lt_of_le_of_lt ?_ bound
  unfold pagesOf pgsize
  omega

/-- A file that `exec` can run: its segments end at most at `limit`. -/
structure Executable (ip : Inode) (limit : ℕ) : Prop where
  header : Covers ip 0 52
  magic : field (ip.content.take 52) 0 4 = elfMagic
  segments : Segments ip limit (field (ip.content.take 52) 44 2) (field (ip.content.take 52) 28 4)

/-- The file, the arguments or the memory do not suffice. -/
def Insufficient (ip : Option Inode) (argv : List (List (BitVec 8))) (s : Exec) : Prop :=
  ∀ file limit, ip = some file → Executable file limit → stackBytes argv ≤ pgsize →
    (pagesOf limit + 2) * pgsize < kernbase → Tight s.mem s.mem.free (pagesOf limit + 2)

theorem exec_cases (build : Build) (path : List (BitVec 8)) (ip : Option Inode)
    (space : Space s.mem s.proc.pgdir pool) (few : argv.length < maxarg)
    (short : ∀ arg ∈ argv, arg.length < kernbase) :
    ∃ ok s', exec build path ip argv s = .ok (ok, s') ∧
      s'.trace = s.trace ++ fileActions ip ∧ (ok = false → Unchanged s s' ∧ Insufficient ip argv s) ∧
      (ok = true → Replaced build path argv pool s s' ∧ Enters ip s s') := by
  unfold exec
  dsimp only
  cases ip with
  | none =>
      exact ⟨false, _, rfl, by simp [Exec.act, fileActions],
        fun _ => ⟨⟨rfl, space.idle, .refl⟩, fun _ _ isSome => by cases isSome⟩, nofun⟩
  | some ip =>
      -- the labels `bad` before the file is released
      have bad : ∀ dirs s₁, (∀ dir ∈ dirs, Space s₁.mem dir s.mem.free) →
          (dirs = none → Idle s₁.mem s.mem.free) → After s.mem.free s.mem s₁.mem →
          s₁.proc = s.proc → s₁.trace = s.trace ++ [.beginOp, .namei, .ilock] →
          Insufficient (some ip) argv s →
          ∃ ok s', execBad dirs true s₁ = .ok (ok, s') ∧
            s'.trace = s.trace ++ fileActions (some ip) ∧
            (ok = false → Unchanged s s' ∧ Insufficient (some ip) argv s) ∧
            (ok = true → Replaced build path argv pool s s' ∧ Enters (some ip) s s') := by
        intro dirs s₁ stopped none after proc trace reason
        rcases execBad_ok dirs true stopped none after proc with ⟨s', ran, unchanged, trace'⟩
        refine ⟨false, s', ran, ?_, fun _ => ⟨unchanged, reason⟩, nofun⟩
        rw [trace', trace]
        simp [fileActions]
      dsimp only
      generalize begun : ((s.act .beginOp).act .namei).act .ilock = s₀
      have mem : s₀.mem = s.mem := by rw [← begun]; rfl
      have proc : s₀.proc = s.proc := by rw [← begun]; rfl
      have trace : s₀.trace = s.trace ++ [.beginOp, .namei, .ilock] := by
        rw [← begun]
        simp [Exec.act]
      have state := readi_state ip 0 52 s₀
      cases result : readi ip 0 52 s₀ with
      | mk elf s₁ =>
          rw [result] at state
          have mem₁ : s₁.mem = s.mem := state.1.trans mem
          have proc₁ : s₁.proc = s.proc := state.2.1.trans proc
          have trace₁ := state.2.2.trans trace
          have idle : Idle s₁.mem s.mem.free := by
            rw [mem₁]
            exact space.idle
          have after : After s.mem.free s.mem s₁.mem := by
            rw [mem₁]
            exact .refl
          have early := bad none s₁ (fun _ held => by cases held) (fun _ => idle) after proc₁ trace₁
          have isFirst : Covers ip 0 52 → elf = some (ip.content.take 52) := fun covers =>
            (congrArg Prod.fst result).symm.trans (congrArg Prod.fst (covers.readi s₀).1)
          cases elf with
          | none => exact early fun _ _ same executable => by cases same; cases isFirst executable.header
          | some elf =>
              dsimp only
              by_cases whole : elf.length ≠ 52
              · rw [if_pos whole]
                refine early fun _ _ same executable => ?_
                cases same
                cases isFirst executable.header
                exact absurd (executable.header.readi s₀).2 whole
              rw [if_neg whole]
              by_cases magic : field elf 0 4 ≠ elfMagic
              · rw [if_pos magic]
                refine early fun _ _ same executable => ?_
                cases same
                cases isFirst executable.header
                exact absurd executable.magic magic
              rw [if_neg magic]
              rcases idle.setupkvm with ⟨m', failed, idle', after', scarce⟩ | ⟨dir, m', made, new, -⟩
              · rw [failed]
                refine bad none { s₁ with mem := m' } (fun _ held => by cases held) (fun _ => idle')
                  (after.trans after') proc₁ trace₁ fun _ _ _ _ _ _ => ?_
                rw [mem₁] at scarce
                exact scarce.imp_left fun few => few.trans (by omega)
              · rw [made]
                simp only [bind_ok]
                have loaded : Loaded dir s.mem.free { s₁ with mem := m' } 0
                    { s₁ with mem := m' } :=
                  ⟨new.space, .refl, id, fun w user => by rw [shape, new.image w user]; rfl,
                    by decide, rfl, rfl⟩
                have after₁ := after.trans new.after
                rcases loaded.segments ip (field elf 44 2) (field elf 28 4) with
                  ⟨s₂, ran, stopped, reason⟩ | ⟨sz, s₂, ran, loaded', below, fills⟩
                · rw [ran]
                  refine bad (some dir) s₂ ?_ (fun isNone => by cases isNone)
                    (after₁.trans stopped.after) (stopped.proc.trans proc₁)
                    (stopped.trace.trans trace₁) fun _ limit same executable _ bound => ?_
                  · rintro dir' ⟨⟩
                    exact stopped.space
                  · cases same
                    cases isFirst executable.header
                    have tight := reason limit (limit_lt bound) executable.segments
                    exact (tight.before after₁).mono (Nat.le_add_right _ _)
                · rw [ran]
                  simp only [bind_ok]
                  have stack : ∃ ok s', execStack build path argv dir (field elf 24 4) sz
                      ((s₂.act .iunlockput).act .endOp) = .ok (ok, s') ∧
                      s'.trace = ((s₂.act .iunlockput).act .endOp).trace ∧
                      (ok = false → Unchanged s s' ∧ (stackBytes argv ≤ pgsize → ∀ limit, sz ≤ limit →
                        (pagesOf limit + 2) * pgsize < kernbase →
                          Tight ((s₂.act .iunlockput).act .endOp).mem s.mem.free (pagesOf limit + 2))) ∧
                      (ok = true → Replaced build path argv pool s s' ∧
                        s'.proc.eip = field elf 24 4 ∧ ∀ bytes,
                        Shows ((s₂.act .iunlockput).act .endOp).mem dir sz bytes →
                          Shows s'.mem s'.proc.pgdir (s'.proc.sz - 2 * pgsize) bytes) :=
                    execStack_ok space loaded'.space (after₁.trans loaded'.after)
                      (loaded'.guarded new.guarded) loaded'.flat loaded'.size
                      (loaded'.proc.trans proc₁) few short
                  rcases stack with ⟨ok, s', ran', trace', unchanged, replaced⟩
                  have header : (readi ip 0 52 s).1 = some elf := by
                    rw [← readi_act ip 0 52 s .beginOp, ← readi_act ip 0 52 _ .namei,
                      ← readi_act ip 0 52 _ .ilock, begun, result]
                  refine ⟨ok, s', ran', ?_,
                    fun failure => ⟨(unchanged failure).1, fun _ limit same executable fits bound => ?_⟩,
                    fun success => ⟨(replaced success).1, ip, elf, rfl, header, not_not.1 whole,
                      not_not.1 magic, (replaced success).2.1, fun isFile => ?_⟩⟩
                  · have trace₂ := loaded'.trace.trans trace₁
                    rw [trace', Exec.act, Exec.act]
                    dsimp only
                    rw [trace₂]
                    simp [fileActions]
                  · cases same
                    cases isFirst executable.header
                    have low := below limit (limit_lt bound) executable.segments
                    rw [Nat.max_eq_right (Nat.zero_le limit)] at low
                    exact ((unchanged failure).2 fits limit low bound).before (after₁.trans loaded'.after)
                  · have shown := fills isFile (field_lt elf 28 4) (fun _ => 0) (Shows.empty m' dir)
                    exact (replaced success).2.2 _ shown

theorem exec_ok {build : Build} {path : List (BitVec 8)} {ip : Option Inode}
    (space : Space s.mem s.proc.pgdir pool) (few : argv.length < maxarg)
    (short : ∀ arg ∈ argv, arg.length < kernbase) :
    ∃ ok s', exec build path ip argv s = .ok (ok, s') ∧
      s'.trace = s.trace ++ fileActions ip ∧ (ok = false → Unchanged s s') ∧
      (ok = true → Replaced build path argv pool s s' ∧ Enters ip s s') := by
  rcases exec_cases build path ip space few short with
    ⟨ok, s', ran, trace, unchanged, replaced⟩
  exact ⟨ok, s', ran, trace, fun failure => (unchanged failure).1, replaced⟩

/-- `exec` runs every executable file whose arguments fit into a page, if the memory suffices. -/
theorem exec_succeeds {file : Inode} {limit : ℕ} (build : Build) (path : List (BitVec 8))
    (space : Space s.mem s.proc.pgdir pool) (few : argv.length < maxarg)
    (short : ∀ arg ∈ argv, arg.length < kernbase) (executable : Executable file limit)
    (fits : stackBytes argv ≤ pgsize) (bound : (pagesOf limit + 2) * pgsize < kernbase)
    (ample : ¬Tight s.mem s.mem.free (pagesOf limit + 2)) :
    ∃ s', exec build path (some file) argv s = .ok (true, s') := by
  rcases exec_cases build path (some file) space few short with
    ⟨ok, s', ran, -, unchanged, -⟩
  cases ok with
  | true => exact ⟨s', ran⟩
  | false => exact absurd ((unchanged rfl).2 file limit rfl executable fits bound) ample

/-! ## The arguments of `sys_exec` -/

theorem fetchstr_length {user : ℕ → BitVec 8} {sz addr : ℕ} {string : List (BitVec 8)}
    (fetched : fetchstr user sz addr = some string) : string.length < sz := by
  unfold fetchstr at fetched
  split at fetched
  · cases fetched
  · dsimp only at fetched
    split at fetched
    · rename_i short
      cases fetched
      omega
    · cases fetched

theorem fetchArguments_short {user : ℕ → BitVec 8} {sz uargv : ℕ} (left : ℕ) :
    ∀ {i argv}, fetchArguments user sz uargv left i = some argv →
      argv.length < left ∧ ∀ arg ∈ argv, arg.length < sz := by
  induction left with
  | zero => exact nofun
  | succ left ih =>
      intro i argv fetched
      unfold fetchArguments at fetched
      split at fetched
      · cases fetched
      · split at fetched
        · cases fetched
          exact ⟨Nat.succ_pos _, nofun⟩
        · split at fetched
          · cases fetched
          · rename_i arg string
            rcases Option.map_eq_some_iff.1 fetched with ⟨args, rest, rfl⟩
            rcases ih rest with ⟨few, short⟩
            refine ⟨Nat.succ_lt_succ few, ?_⟩
            rintro arg' (_ | ⟨_, member⟩)
            · exact fetchstr_length string
            · exact short arg' member

/-- `exec` of any file, with arguments that `sys_exec` accepts, either fails and leaves its caller
as it was, or succeeds and the caller runs the new image; its file system actions are balanced, and
none of the panics is reached. -/
theorem exec_atomicity (build : Build) (path : List (BitVec 8)) (ip : Option Inode)
    (user : ℕ → BitVec 8) (uargv : ℕ) (argv : List (List (BitVec 8))) (s : Exec) (pool : Set Page)
    (space : Space s.mem s.proc.pgdir pool) (size : s.proc.sz < kernbase)
    (accepted : fetchArguments user s.proc.sz uargv maxarg 0 = some argv) :
    ∃ ok s', exec build path ip argv s = .ok (ok, s') ∧
      s'.trace = s.trace ++ fileActions ip ∧ (ok = false → Unchanged s s') ∧
      (ok = true → Replaced build path argv pool s s' ∧ Enters ip s s') := by
  rcases fetchArguments_short maxarg accepted with ⟨few, short⟩
  exact exec_ok space few fun arg member => (short arg member).trans size

/-- Two thousand free pages. -/
def manyPages : Mem :=
  { linked :=
      { data := 0x108, kernelEnd := 0x110, text := by decide, inside := by decide
        room := by decide }
    content := fun _ => zeroed
    freelist := List.range' 0x1000 2000 }

theorem manyPages_idle : Idle manyPages manyPages.free := by
  refine ⟨List.nodup_range', rfl, fun page member => ?_⟩
  rcases List.mem_range'.1 member with ⟨i, inside, rfl⟩
  constructor
  · exact show (0x110 : ℕ) ≤ 0x1000 + 1 * i by omega
  · exact show (0x1000 : ℕ) + 1 * i < 0xE000 by omega

/-- A process whose page directory is the first of the pages. -/
def soleProcess : Exec :=
  { mem := { manyPages with calls := 1, freelist := List.range' 0x1001 1999 }.zero 0x1000
    proc := { pgdir := 0x1000, sz := pgsize, state := .running } }

theorem soleProcess_ample : ¬Tight soleProcess.mem soleProcess.mem.free 3 := by
  have free : soleProcess.mem.free.ncard = 1999 := by
    rw [ncard_free List.nodup_range']
    exact List.length_range'
  rintro (few | ⟨call, fails⟩)
  · rw [free] at few
    omega
  · cases fails

/-- A program with one segment, whose four bytes are those behind its header. -/
def smallProgram : Inode where
  content := [0x7f, 0x45, 0x4c, 0x46] ++ List.replicate 20 0 ++ [0x02, 0, 0, 0, 0x34, 0, 0, 0] ++
    List.replicate 12 0 ++ [0x01, 0] ++ List.replicate 6 0 ++
    [0x01, 0, 0, 0, 0x54, 0, 0, 0] ++ List.replicate 8 0 ++ [0x04, 0, 0, 0, 0x08, 0, 0, 0] ++
    List.replicate 8 0 ++ [0xeb, 0xfe, 0x90, 0xc3]

theorem smallProgram_executable : Executable smallProgram 8 := by
  have count : field (smallProgram.content.take 52) 44 2 = 1 := by decide
  have offset : field (smallProgram.content.take 52) 28 4 = 52 := by decide
  refine ⟨⟨rfl, by decide, by decide⟩, by decide, ?_⟩
  rw [count, offset]
  exact ⟨⟨rfl, by decide, by decide⟩,
    fun _ => ⟨by decide, by decide, by decide, by decide, ⟨rfl, by decide, by decide⟩⟩, trivial⟩

/-- The user memory of a process that calls `exec` with one argument, at the address 16. -/
def oneArgument (a : ℕ) : BitVec 8 := if a = 0 then 0x10 else if a = 16 then 0x61 else 0

/-- The sole process executes the small program with an argument. -/
theorem exec_atomicity_smallProgram :
    ∃ s', exec .dmlq [0x61] (some smallProgram) [[0x61]] soleProcess = .ok (true, s') ∧
      s'.trace = [] ++ fileActions (some smallProgram) ∧
      Replaced .dmlq [0x61] [[0x61]] manyPages.free soleProcess s' ∧
      Enters (some smallProgram) soleProcess s' := by
  have space := (manyPages_idle.directory rfl).1
  have atomic := exec_atomicity .dmlq [0x61] (some smallProgram) oneArgument 0 [[0x61]] soleProcess
    manyPages.free space (by decide) (by decide +kernel)
  have succeeds : ∃ s', exec .dmlq [0x61] (some smallProgram) [[0x61]] soleProcess = .ok (true, s') :=
    exec_succeeds .dmlq [0x61] space (by decide) (by decide) smallProgram_executable (by decide) (by decide)
      soleProcess_ample
  rcases atomic with ⟨ok, s', ran, trace, -, replaced⟩
  rcases succeeds with ⟨s'', success⟩
  cases ran.symm.trans success
  exact ⟨s', ran, trace, replaced rfl⟩

end Xv6.Vm
