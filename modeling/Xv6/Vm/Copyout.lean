import Xv6.Vm.Atomic

/-!
# `copyout` byte by byte

`copyout` goes through the pages of its target. Here it is compared with a store of one byte after
the other. `uva2ka` does not test the pointer that `walkpgdir` returns, so that it reads an entry at
address 0 where a page has no page table; here that is an error. Entries and the bytes of user pages
are kept apart in the model of memory, and `Frames` says of a page directory that they are so in it.
-/

namespace Xv6.Vm.Copyout

inductive Fault where
  /-- the entry that `walkpgdir` has not found is used -/
  | nullPte
  deriving DecidableEq, Repr

/-- `P2V` of the address of a page -/
def p2v (page : Page) : ℕ := (page * pgsize + kernbase) % 2 ^ 32

example : p2v 0x80000 = 0 := rfl

/-- The page at a kernel address -/
def pageAt (ka : ℕ) : Page := (ka + (2 ^ 32 - kernbase)) % 2 ^ 32 / pgsize

/-- `uva2ka`; the result is a kernel address, or 0. -/
def uva2ka (pgdir : Page) (uva : ℕ) (m : Mem) : Except Fault ℕ :=
  match walkpgdir pgdir uva false m with
  | (none, _) => .error .nullPte
  | (some (table, i), m) =>
      let pte := m.pte table i
      if !pte.present then .ok 0
      else if !pte.user then .ok 0
      else .ok (p2v pte.page)

/-- The loop of `copyout`; the number bounds its passes. The result is whether all has been
copied. -/
def copyoutLoop (pgdir : Page) : ℕ → ℕ → List (BitVec 8) → Mem → Except Fault (Bool × Mem)
  | 0, _, _, m => .ok (true, m)
  | passes + 1, va, buf, m =>
      if buf.length > 0 then do
        let va0 := pgrounddown va
        let pa0 ← uva2ka pgdir va0 m
        if pa0 = 0 then return (false, m)
        else
          let n := min (pgsize - (va - va0)) buf.length
          copyoutLoop pgdir passes ((va0 + pgsize) % 2 ^ 32) (buf.drop n)
            (m.write (pageAt pa0) (va - va0) (buf.take n))
      else return (true, m)

def copyout (pgdir : Page) (va : ℕ) (buf : List (BitVec 8)) (m : Mem) : Except Fault (Bool × Mem) :=
  copyoutLoop pgdir buf.length va buf m

/-! ## Bytes -/

/-- The page on which the user finds the address, if the user may access it. -/
def userPage (pgdir : Page) (va : ℕ) (m : Mem) : Option Page := Vm.uva2ka pgdir va m

/-- The tables of a page directory and the pages that the user may access are memory that the kernel
has mapped from `KERNBASE` on, and no page that the user may access is the directory or one of its
tables, so that a store changes no entry. -/
structure Frames (pgdir : Page) (m : Mem) : Prop where
  tables : ∀ i < 1024, (m.pte pgdir i).present = true → (m.pte pgdir i).page < phystop
  memory : ∀ va page, userPage pgdir va m = some page → page < phystop
  notDirectory : ∀ va, userPage pgdir va m ≠ some pgdir
  notTable : ∀ va, ∀ i < 1024, (m.pte pgdir i).present = true →
    userPage pgdir va m ≠ some (m.pte pgdir i).page

/-- The address is on a page for which there is a page table. -/
def HasTable (pgdir : Page) (va : ℕ) (m : Mem) : Prop := (walkpgdir pgdir va false m).1 ≠ none

/-- Byte `i` of a range that may wrap. -/
def byteAt (va i : ℕ) : ℕ := (va + i) % 2 ^ 32

/-- Bytes are stored one after the other, up to the first that the user may not access. -/
def store (pgdir : Page) : ℕ → List (BitVec 8) → Mem → Mem
  | _, [], m => m
  | va, x :: data, m =>
      match userPage pgdir va m with
      | none => m
      | some page => store pgdir (byteAt va 1) data (m.write page (va % pgsize) [x])

/-- The user may access the whole range. -/
def Accessible (pgdir : Page) (va len : ℕ) (m : Mem) : Prop :=
  ∀ i < len, userPage pgdir (byteAt va i) m ≠ none

/-- The first page of the range that the user may not access has a page table. -/
def Tables (pgdir : Page) (va len : ℕ) (m : Mem) : Prop :=
  ∀ i < len, Accessible pgdir va i m → HasTable pgdir (byteAt va i) m

variable {m : Mem} {pgdir page : Page} {va : ℕ} {x : BitVec 8} {data buf rest : List (BitVec 8)}

theorem walkpgdir_eq (m : Mem) : walkpgdir pgdir va false m =
    if (m.pte pgdir (pdx va)).present then (some ((m.pte pgdir (pdx va)).page, ptx va), m)
    else (none, m) := by
  unfold walkpgdir
  simp

/-- Addresses of one page have one entry. -/
theorem walkpgdir_congr {va' : ℕ} (same : va / pgsize = va' / pgsize) :
    walkpgdir pgdir va false m = walkpgdir pgdir va' false m := by
  have index : pdx va = pdx va' := by
    unfold pdx pgsize at *
    omega
  have index' : ptx va = ptx va' := by
    unfold ptx pgsize at *
    omega
  rw [walkpgdir_eq, walkpgdir_eq, index, index']

theorem userPage_congr (pgdir : Page) (m : Mem) {va' : ℕ} (same : va / pgsize = va' / pgsize) :
    userPage pgdir va m = userPage pgdir va' m := by
  unfold userPage Vm.uva2ka
  rw [walkpgdir_congr same]

/-- Writes to user memory do not change entries. -/
theorem userPage_write (page : Page) (offset : ℕ) :
    userPage pgdir va (m.write page offset data) = userPage pgdir va m := by
  unfold userPage Vm.uva2ka
  rw [walkpgdir_eq, walkpgdir_eq, write_pte]
  by_cases present : (m.pte pgdir (pdx va)).present = true
  · rw [if_pos present, if_pos present]
    dsimp only
    rw [write_pte]
  · rw [if_neg present, if_neg present]

theorem hasTable_write (page : Page) (offset : ℕ) :
    HasTable pgdir va (m.write page offset data) ↔ HasTable pgdir va m := by
  unfold HasTable
  rw [walkpgdir_eq, walkpgdir_eq, write_pte]
  by_cases present : (m.pte pgdir (pdx va)).present = true
  · rw [if_pos present, if_pos present]
  · rw [if_neg present, if_neg present]

theorem Frames.write (frames : Frames pgdir m) (page : Page) (offset : ℕ) (data : List (BitVec 8)) :
    Frames pgdir (m.write page offset data) := by
  constructor
  · intro i
    rw [write_pte]
    exact frames.tables i
  · intro va page'
    rw [userPage_write]
    exact frames.memory va page'
  · intro va
    rw [userPage_write]
    exact frames.notDirectory va
  · intro va i
    rw [userPage_write, write_pte]
    exact frames.notTable va i

/-- The page directories that the kernel makes are so. -/
theorem frames_of_space {pool : Set Page} (space : Space m pgdir pool) (guarded : Guarded m pgdir) :
    Frames pgdir m := by
  have owned : ∀ va page, userPage pgdir va m = some page → ∃ v, own m pgdir (.page v) = some page := by
    intro va page found
    have bound : va / pgsize % 2 ^ 20 < 2 ^ 20 := Nat.mod_lt _ (by decide)
    have same : walkpgdir pgdir va false m = walkpgdir pgdir (va / pgsize % 2 ^ 20 * pgsize) false m := by
      have index : pdx va = pdx (va / pgsize % 2 ^ 20 * pgsize) := by
        unfold pdx pgsize
        omega
      have index' : ptx va = ptx (va / pgsize % 2 ^ 20 * pgsize) := by
        unfold ptx pgsize
        omega
      rw [walkpgdir_eq, walkpgdir_eq, index, index']
    unfold userPage Vm.uva2ka at found
    rw [same] at found
    rcases uva2ka_cases m pgdir bound with ⟨none, -⟩ | ⟨isPage, present, user⟩
    · cases none.symm.trans found
    · cases isPage.symm.trans found
      refine ⟨_, own_page ?_ present⟩
      by_contra kernel
      rw [guarded _ (Nat.le_of_not_lt kernel) bound] at user
      cases user
  have table : ∀ i < 1024, (m.pte pgdir i).present = true →
      own m pgdir (.table i) = some (m.pte pgdir i).page := by
    intro i inside present
    exact own_table inside (if_pos present)
  constructor
  · intro i inside present
    exact (space.valid _ (space.owned.own_mem _ _ (table i inside present))).2
  · intro va page found
    rcases owned va page found with ⟨v, holds⟩
    exact (space.valid _ (space.owned.own_mem _ _ holds)).2
  · intro va found
    rcases owned va pgdir found with ⟨v, holds⟩
    cases space.owned.single _ .dir _ holds rfl
  · intro va i inside present found
    rcases owned va _ found with ⟨v, holds⟩
    cases space.owned.single _ _ _ holds (table i inside present)

/-- The kernel address of memory leads back to it, and is not null. -/
theorem p2v_memory {frame : ℕ} (memory : frame < phystop) : p2v frame ≠ 0 ∧ pageAt (p2v frame) = frame := by
  unfold phystop at memory
  have isSum : p2v frame = frame * 4096 + 0x80000000 := by
    unfold p2v pgsize kernbase
    omega
  have back : (frame * 4096 + 0x80000000 + (2 ^ 32 - 0x80000000)) % 2 ^ 32 / 4096 = frame := by omega
  rw [isSum]
  exact ⟨by omega, back⟩

/-- `uva2ka` is right where there is a page table. -/
theorem Frames.uva2ka_eq (frames : Frames pgdir m) (va : ℕ) :
    (HasTable pgdir va m ∧ ∃ pa0, uva2ka pgdir va m = .ok pa0 ∧
      ((pa0 = 0 ∧ userPage pgdir va m = none) ∨ (pa0 ≠ 0 ∧ userPage pgdir va m = some (pageAt pa0)))) ∨
    (¬HasTable pgdir va m ∧ uva2ka pgdir va m = .error .nullPte) := by
  have memory := frames.memory va
  unfold userPage Vm.uva2ka at memory
  unfold HasTable uva2ka userPage Vm.uva2ka
  rw [walkpgdir_eq] at memory ⊢
  by_cases present : (m.pte pgdir (pdx va)).present = true
  · rw [if_pos present] at memory ⊢
    left
    refine ⟨by simp, ?_⟩
    dsimp only at memory ⊢
    split
    · exact ⟨0, rfl, .inl ⟨rfl, rfl⟩⟩
    · rename_i isPresent
      rw [if_neg isPresent] at memory
      split
      · exact ⟨0, rfl, .inl ⟨rfl, rfl⟩⟩
      · rename_i isUser
        rw [if_neg isUser] at memory
        rcases p2v_memory (memory _ rfl) with ⟨notNull, back⟩
        exact ⟨_, rfl, .inr ⟨notNull, congrArg some back.symm⟩⟩
  · rw [if_neg present]
    right
    exact ⟨by simp, rfl⟩

/-- A page that the user may access has a page table. -/
theorem userPage_hasTable (accessible : userPage pgdir va m = some page) : HasTable pgdir va m := by
  unfold userPage Vm.uva2ka at accessible
  unfold HasTable
  rw [walkpgdir_eq] at accessible ⊢
  by_cases present : (m.pte pgdir (pdx va)).present = true
  · rw [if_pos present]
    simp
  · rw [if_neg present] at accessible
    cases accessible

/-- Where no entry is missing, this is the `copyout` of `exec`. -/
theorem copyoutLoop_agrees (passes : ℕ) : ∀ {va buf m result}, Frames pgdir m →
    copyoutLoop pgdir passes va buf m = .ok result → Vm.copyoutLoop pgdir passes va buf m = result := by
  induction passes with
  | zero =>
      intro va buf m result _ run
      exact Except.ok.inj run
  | succ passes ih =>
      intro va buf m result frames run
      unfold copyoutLoop at run
      unfold Vm.copyoutLoop
      split at run
      · rename_i some
        rw [if_pos some]
        dsimp only at run ⊢
        rcases frames.uva2ka_eq (pgrounddown va) with ⟨-, pa0, eq, found⟩ | ⟨-, eq⟩
        · rw [eq, Fallible.bind_ok] at run
          unfold userPage at found
          rcases found with ⟨null, found⟩ | ⟨notNull, found⟩
          · rw [if_pos null] at run
            rw [found]
            exact Except.ok.inj run
          · rw [if_neg notNull] at run
            rw [found]
            exact ih (frames.write _ _ _) run
        · rw [eq, Fallible.bind_error] at run
          cases run
      · rename_i empty
        rw [if_neg empty]
        exact Except.ok.inj run

theorem copyout_agrees (frames : Frames pgdir m) {result : Bool × Mem}
    (run : copyout pgdir va buf m = .ok result) : Vm.copyout pgdir va buf m = result :=
  copyoutLoop_agrees buf.length frames run

/-! ## One page -/

theorem write_nil (offset : ℕ) : m.write page offset [] = m := by
  unfold Mem.write Mem.setBytes
  rw [splice_nil]
  simp

theorem write_cons (offset : ℕ) :
    (m.write page offset [x]).write page (offset + 1) data = m.write page offset (x :: data) := by
  have same := splice_append (m.content page).bytes offset [x] data
  rw [List.length_singleton, List.singleton_append] at same
  unfold Mem.write Mem.setBytes
  simp only [Function.update_self, Function.update_idem]
  rw [same]

theorem byteAt_add (va i j : ℕ) : byteAt (byteAt va i) j = byteAt va (i + j) := by
  unfold byteAt
  rw [Nat.mod_add_mod, Nat.add_assoc]

theorem byteAt_lt (va i : ℕ) : byteAt va i < 2 ^ 32 := Nat.mod_lt _ (by decide)

theorem byteAt_small {i : ℕ} (bound : va + i < 2 ^ 32) : byteAt va i = va + i :=
  Nat.mod_eq_of_lt bound

/-- Bytes that fit into the rest of a page are one write. -/
theorem store_page (rest : List (BitVec 8)) (accessible : userPage pgdir va m = some page)
    (inside : va % pgsize + data.length ≤ pgsize) (bound : va < 2 ^ 32) :
    store pgdir va (data ++ rest) m =
      store pgdir (byteAt va data.length) rest (m.write page (va % pgsize) data) := by
  induction data generalizing va m with
  | nil =>
      rw [List.nil_append, List.length_nil, byteAt_small (by omega), write_nil]
      rfl
  | cons x data ih =>
      rw [List.length_cons] at inside
      rw [List.cons_append, store, accessible]
      dsimp only
      cases data with
      | nil => rfl
      | cons y data =>
          rw [List.length_cons] at inside
          have next : byteAt va 1 = va + 1 := by
            apply byteAt_small
            unfold pgsize at inside
            omega
          have page' : userPage pgdir (byteAt va 1) (m.write page (va % pgsize) [x]) = some page := by
            rw [userPage_write, next, ← accessible]
            apply userPage_congr
            unfold pgsize at *
            omega
          have offset : (va + 1) % pgsize = va % pgsize + 1 := by
            unfold pgsize at *
            omega
          rw [ih page' (by rw [next, offset, List.length_cons]; omega) (by rw [next]; unfold pgsize at *; omega)]
          rw [byteAt_add, next, offset, write_cons, Nat.add_comm 1]
          rfl

/-! ## The loop -/

/-- What the loop does, if it is told how far the user may access the range. -/
structure Copies (pgdir : Page) (va : ℕ) (buf : List (BitVec 8)) (m : Mem)
    (result : Except Fault (Bool × Mem)) : Prop where
  tables : Tables pgdir va buf.length m → ∃ done, result = .ok (done, store pgdir va buf m) ∧
    (done = true ↔ Accessible pgdir va buf.length m)
  absent : ¬Tables pgdir va buf.length m → result = .error .nullPte

theorem accessible_write (offset len : ℕ) :
    Accessible pgdir va len (m.write page offset data) ↔ Accessible pgdir va len m := by
  unfold Accessible
  simp only [userPage_write]

/-- The range is split after its part of the first page. -/
theorem accessible_split {n len : ℕ} (first : ∀ i < n, userPage pgdir (byteAt va i) m ≠ none) :
    Accessible pgdir va (n + len) m ↔ Accessible pgdir (byteAt va n) len m := by
  constructor
  · intro accessible i inside
    rw [byteAt_add]
    exact accessible (n + i) (by omega)
  · intro accessible i inside
    by_cases early : i < n
    · exact first i early
    · have later := accessible (i - n) (by omega)
      rw [byteAt_add, Nat.add_sub_of_le (by omega)] at later
      exact later

theorem tables_split {n len : ℕ} (first : ∀ i < n, userPage pgdir (byteAt va i) m ≠ none) :
    Tables pgdir va (n + len) m ↔ Tables pgdir (byteAt va n) len m := by
  constructor
  · intro tables i inside accessible
    rw [byteAt_add]
    exact tables (n + i) (by omega) ((accessible_split first).mpr accessible)
  · intro tables i inside accessible
    by_cases early : i < n
    · rcases Option.ne_none_iff_exists'.mp (first i early) with ⟨page, found⟩
      exact userPage_hasTable found
    · have split : i = n + (i - n) := by omega
      rw [split] at accessible
      have later := tables (i - n) (by omega) ((accessible_split first).mp accessible)
      rw [byteAt_add, ← split] at later
      exact later

theorem tables_write (offset len : ℕ) :
    Tables pgdir va len (m.write page offset data) ↔ Tables pgdir va len m := by
  unfold Tables
  simp only [accessible_write, hasTable_write]

/-- Where nothing is left to copy, the address does not matter. -/
theorem Copies.of_nil {va' : ℕ} {result : Except Fault (Bool × Mem)}
    (copies : Copies pgdir va [] m result) : Copies pgdir va' [] m result := by
  refine ⟨fun _ => ?_, fun absent => absurd (by simp [Tables]) absent⟩
  rcases copies.tables (by simp [Tables]) with ⟨done, run, isDone⟩
  refine ⟨done, run, isDone.trans ?_⟩
  simp [Accessible]

/-- The rest of the range is copied after its part of the first page. -/
theorem Copies.after {n : ℕ} {result : Except Fault (Bool × Mem)} (bound : va < 2 ^ 32)
    (found : userPage pgdir va m = some page) (part : n ≤ buf.length) (inside : va % pgsize + n ≤ pgsize)
    (copies : Copies pgdir (byteAt va n) (buf.drop n) (m.write page (va % pgsize) (buf.take n)) result) :
    Copies pgdir va buf m result := by
  have first : ∀ i < n, userPage pgdir (byteAt va i) m ≠ none := by
    intro i early
    have address : byteAt va i = va + i := by
      apply byteAt_small
      unfold pgsize at inside
      omega
    have same : userPage pgdir (va + i) m = userPage pgdir va m := by
      apply userPage_congr
      unfold pgsize at *
      omega
    rw [address, same, found]
    simp
  have stored : store pgdir va buf m =
      store pgdir (byteAt va n) (buf.drop n) (m.write page (va % pgsize) (buf.take n)) := by
    have split := store_page (buf.drop n) found
      (by rw [List.length_take_of_le part]; exact inside) bound
    rw [List.take_append_drop, List.length_take_of_le part] at split
    exact split
  have length : buf.length = n + (buf.drop n).length := by
    rw [List.length_drop]
    omega
  have tables : Tables pgdir va buf.length m ↔ Tables pgdir (byteAt va n) (buf.drop n).length
      (m.write page (va % pgsize) (buf.take n)) := by
    rw [tables_write, length]
    exact tables_split first
  have accessible : Accessible pgdir va buf.length m ↔ Accessible pgdir (byteAt va n)
      (buf.drop n).length (m.write page (va % pgsize) (buf.take n)) := by
    rw [accessible_write, length]
    exact accessible_split first
  refine ⟨fun present => ?_, fun absent => copies.absent fun present => absent (tables.mpr present)⟩
  rcases copies.tables (tables.mp present) with ⟨done, run, isDone⟩
  exact ⟨done, stored ▸ run, isDone.trans accessible.symm⟩

/-- The first page of the range decides. -/
theorem Copies.stop (some : 0 < buf.length) (hasTable : HasTable pgdir va m)
    (notFound : userPage pgdir va m = none) (bound : va < 2 ^ 32) :
    Copies pgdir va buf m (.ok (false, m)) := by
  have first : userPage pgdir (byteAt va 0) m = none := by
    rw [byteAt_small (by omega)]
    exact notFound
  refine ⟨fun _ => ⟨false, ?_, ?_⟩, fun absent => absurd (fun i inside accessible => ?_) absent⟩
  · rcases List.exists_cons_of_length_pos some with ⟨x, data, rfl⟩
    rw [store, notFound]
  · simp only [Bool.false_eq_true, false_iff]
    intro accessible
    exact accessible 0 some first
  · cases i with
    | zero =>
        rw [byteAt_small (by omega)]
        exact hasTable
    | succ i => exact absurd first (accessible 0 (Nat.succ_pos i))

theorem copyoutLoop_copies (passes : ℕ) : ∀ {va buf m}, Frames pgdir m → buf.length ≤ passes → va < 2 ^ 32 →
    Copies pgdir va buf m (copyoutLoop pgdir passes va buf m) := by
  have nothing : ∀ va m, Copies pgdir va [] m (.ok (true, m)) := by
    intro va m
    refine ⟨fun _ => ⟨true, rfl, ?_⟩, fun absent => absurd ?_ absent⟩
    · simp [Accessible]
    · simp [Tables]
  induction passes with
  | zero =>
      intro va buf m _ short _
      rw [List.eq_nil_of_length_eq_zero (by omega : buf.length = 0)]
      exact nothing va m
  | succ passes ih =>
      intro va buf m frames short bound
      unfold copyoutLoop
      split
      · rename_i some
        have samePage : pgrounddown va / pgsize = va / pgsize := by
          unfold pgrounddown pgsize
          omega
        have offset : va - pgrounddown va = va % pgsize := by
          unfold pgrounddown pgsize
          omega
        have hasTable : HasTable pgdir (pgrounddown va) m ↔ HasTable pgdir va m := by
          unfold HasTable
          rw [walkpgdir_congr samePage]
        have found := userPage_congr pgdir m samePage
        rcases frames.uva2ka_eq (pgrounddown va) with
          ⟨present, pa0, eq, ⟨null, onPage⟩ | ⟨notNull, onPage⟩⟩ | ⟨absent, eq⟩
        · dsimp only
          rw [eq, Fallible.bind_ok, if_pos null]
          exact .stop some (hasTable.mp present) (found.symm.trans onPage) bound
        · dsimp only
          rw [eq, offset, Fallible.bind_ok, if_neg notNull]
          have part := Nat.min_le_right (pgsize - va % pgsize) buf.length
          refine Copies.after bound (found.symm.trans onPage) part (by unfold pgsize; omega) ?_
          have next : (pgrounddown va + pgsize) % 2 ^ 32 < 2 ^ 32 := Nat.mod_lt _ (by decide)
          have rest : (buf.drop (min (pgsize - va % pgsize) buf.length)).length ≤ passes := by
            rw [List.length_drop]
            unfold pgsize at *
            omega
          have copies := ih (frames.write (pageAt pa0) (va % pgsize)
            (buf.take (min (pgsize - va % pgsize) buf.length))) rest next
          by_cases whole : pgsize - va % pgsize ≤ buf.length
          · have same : byteAt va (min (pgsize - va % pgsize) buf.length) =
                (pgrounddown va + pgsize) % 2 ^ 32 := by
              rw [Nat.min_eq_left whole]
              unfold byteAt pgrounddown pgsize
              congr 1
              omega
            rw [same]
            exact copies
          · have all : min (pgsize - va % pgsize) buf.length = buf.length :=
              Nat.min_eq_right (by omega)
            rw [all, List.drop_length] at copies ⊢
            exact copies.of_nil
        · dsimp only
          rw [eq, Fallible.bind_error]
          refine ⟨fun tables => absurd ?_ absent, fun _ => rfl⟩
          have first := tables 0 some fun i inside => absurd inside (Nat.not_lt_zero i)
          rw [byteAt_small (by omega)] at first
          exact hasTable.mpr first
      · rename_i empty
        rw [List.eq_nil_of_length_eq_zero (by omega : buf.length = 0)]
        exact nothing va m

/-! ## What is written -/

/-- Byte `i` of the range is at the offset of the page. -/
def IsAt (pgdir : Page) (va i : ℕ) (m : Mem) (page : Page) (offset : ℕ) : Prop :=
  userPage pgdir (byteAt va i) m = some page ∧ byteAt va i % pgsize = offset

theorem isAt_write (page' : Page) (offset' i offset : ℕ) :
    IsAt pgdir va i (m.write page' offset' data) page offset ↔ IsAt pgdir va i m page offset := by
  unfold IsAt
  rw [userPage_write]

theorem isAt_next (i offset : ℕ) :
    IsAt pgdir (byteAt va 1) i m page offset ↔ IsAt pgdir va (i + 1) m page offset := by
  unfold IsAt
  rw [byteAt_add, Nat.add_comm]

theorem isAt_first (bound : va < 2 ^ 32) (offset : ℕ) :
    IsAt pgdir va 0 m page offset ↔ userPage pgdir va m = some page ∧ va % pgsize = offset := by
  unfold IsAt
  rw [byteAt_small (by omega), Nat.add_zero]

/-- A byte in memory after one byte has been written. -/
theorem write_byte (page' offset' offset : ℕ) :
    ((m.write page' offset' [x]).content page).bytes offset =
      if page = page' ∧ offset = offset' then x else (m.content page).bytes offset := by
  unfold Mem.write Mem.setBytes
  by_cases same : page = page'
  · subst same
    simp only [Function.update_self, true_and, splice, List.length_cons, List.length_nil]
    by_cases here : offset = offset'
    · subst here
      rw [if_pos (by omega), if_pos rfl, Nat.sub_self]
      rfl
    · rw [if_neg (by omega), if_neg here]
  · simp [same]

theorem write_ptes (page' offset' : ℕ) :
    ((m.write page' offset' data).content page).ptes = (m.content page).ptes := by
  funext i
  exact write_pte m page' offset' data page i

/-- Only bytes of the range that the user may access are written. -/
theorem store_frame (buf : List (BitVec 8)) : ∀ {va m}, va < 2 ^ 32 → ∀ page offset,
    (∀ i < buf.length, ¬IsAt pgdir va i m page offset) →
    ((store pgdir va buf m).content page).bytes offset = (m.content page).bytes offset := by
  induction buf with
  | nil =>
      intro va m _ page offset _
      rfl
  | cons x buf ih =>
      intro va m bound page offset outside
      rw [store]
      cases found : userPage pgdir va m with
      | none => rfl
      | some page' =>
          dsimp only
          have first := outside 0 (Nat.succ_pos _)
          rw [isAt_first bound, found, Option.some.injEq] at first
          rw [ih (byteAt_lt va 1) page offset fun i inside => ?_, write_byte, if_neg]
          · rintro ⟨rfl, rfl⟩
            exact first ⟨rfl, rfl⟩
          · rw [isAt_write, isAt_next]
            exact outside (i + 1) (Nat.succ_lt_succ inside)

/-- Page tables and everything else stay as they are. -/
theorem store_rest (buf : List (BitVec 8)) : ∀ {va m},
    (∀ page, ((store pgdir va buf m).content page).ptes = (m.content page).ptes) ∧
    store pgdir va buf m = { m with content := (store pgdir va buf m).content } := by
  induction buf with
  | nil =>
      intro va m
      exact ⟨fun _ => rfl, rfl⟩
  | cons x buf ih =>
      intro va m
      rw [store]
      cases found : userPage pgdir va m with
      | none => exact ⟨fun _ => rfl, rfl⟩
      | some page' =>
          rcases @ih (byteAt va 1) (m.write page' (va % pgsize) [x]) with ⟨ptes, rest⟩
          exact ⟨fun page => (ptes page).trans (write_ptes _ _), rest⟩

/-- A byte of the range has its value, unless a later byte is in the same place. -/
theorem store_written (buf : List (BitVec 8)) : ∀ {va m}, va < 2 ^ 32 →
    Accessible pgdir va buf.length m → ∀ i < buf.length, ∀ page offset,
    IsAt pgdir va i m page offset → (∀ j < buf.length, i < j → ¬IsAt pgdir va j m page offset) →
    ((store pgdir va buf m).content page).bytes offset = buf.getD i 0 := by
  induction buf with
  | nil =>
      intro va m _ _ i inside
      exact absurd inside (Nat.not_lt_zero i)
  | cons x buf ih =>
      intro va m bound accessible i inside page offset isAt last
      have reached := accessible 0 (Nat.succ_pos _)
      rw [byteAt_small (by omega), Nat.add_zero] at reached
      rcases Option.ne_none_iff_exists'.mp reached with ⟨page', found⟩
      rw [store, found]
      dsimp only
      cases i with
      | zero =>
          rw [isAt_first bound, found, Option.some.injEq] at isAt
          rw [store_frame buf (byteAt_lt va 1) page offset fun j inside => ?_, write_byte,
            if_pos ⟨isAt.1.symm, isAt.2.symm⟩]
          · rfl
          · rw [isAt_write, isAt_next]
            exact last (j + 1) (Nat.succ_lt_succ inside) (Nat.succ_pos j)
      | succ i =>
          have rest : Accessible pgdir (byteAt va 1) buf.length (m.write page' (va % pgsize) [x]) := by
            rw [accessible_write]
            intro j inside
            rw [byteAt_add, Nat.add_comm]
            exact accessible (j + 1) (Nat.succ_lt_succ inside)
          rw [ih (byteAt_lt va 1) rest i (Nat.lt_of_succ_lt_succ inside) page offset
            (by rw [isAt_write, isAt_next]; exact isAt) fun j inside later => ?_]
          · rfl
          · rw [isAt_write, isAt_next]
            exact last (j + 1) (Nat.succ_lt_succ inside) (Nat.succ_lt_succ later)

/-- `copyout` copies the bytes to the range if the user may access all of it, and otherwise the bytes
before the first that the user may not access. It uses no entry that `walkpgdir` has not found. -/
structure CopyoutCorrect (pgdir : Page) (va : ℕ) (buf : List (BitVec 8)) (m : Mem) (done : Bool)
    (m' : Mem) : Prop where
  run : copyout pgdir va buf m = .ok (done, m')
  success : done = true ↔ Accessible pgdir va buf.length m
  stored : m' = store pgdir va buf m
  written : done = true → ∀ i < buf.length, ∀ page offset, IsAt pgdir va i m page offset →
    (∀ j < buf.length, i < j → ¬IsAt pgdir va j m page offset) →
    (m'.content page).bytes offset = buf.getD i 0
  frame : ∀ page offset, (∀ i < buf.length, ¬IsAt pgdir va i m page offset) →
    (m'.content page).bytes offset = (m.content page).bytes offset
  rest : (∀ page, (m'.content page).ptes = (m.content page).ptes) ∧
    m' = { m with content := m'.content }

/-- `copyout` is right if and only if the first page of the range that the user may not access, if
there is one, has a page table. -/
theorem copyout_iff (pgdir : Page) (buf : List (BitVec 8)) (m : Mem) (frames : Frames pgdir m)
    (bound : va < 2 ^ 32) :
    (∃ done m', CopyoutCorrect pgdir va buf m done m') ↔ Tables pgdir va buf.length m := by
  have copies : Copies pgdir va buf m (copyout pgdir va buf m) :=
    copyoutLoop_copies buf.length frames le_rfl bound
  constructor
  · rintro ⟨done, m', correct⟩
    by_contra absent
    cases correct.run.symm.trans (copies.absent absent)
  · intro tables
    rcases copies.tables tables with ⟨done, run, success⟩
    refine ⟨done, _, run, success, rfl, fun isDone => ?_, store_frame buf bound, store_rest buf⟩
    exact store_written buf bound (success.mp isDone)

/-- A new image of one page with its guard page and its stack, as `exec` has it when it pushes the
argument strings. The kernel has page tables for its memory and its devices. -/
def onePageImage : Mem where
  linked := manyPages.linked
  content page :=
    { ptes := fun i =>
        if page = 1 then
          if i = 0 then { page := 2, present := true, writable := true, user := true }
          else if 512 ≤ i ∧ i < 568 ∨ 1016 ≤ i then
            { page := 3, present := true, writable := true, user := true }
          else {}
        else if page = 2 then
          if i = 0 ∨ i = 2 then { page := 4 + i, present := true, writable := true, user := true }
          else if i = 1 then { page := 5, present := true, writable := true }
          else {}
        else { present := true, writable := true }
      bytes := fun _ => 0 }
  freelist := []

theorem onePageImage_table {i : ℕ} (present : (onePageImage.pte 1 i).present = true) :
    (onePageImage.pte 1 i).page = 2 ∨ (onePageImage.pte 1 i).page = 3 := by
  simp only [onePageImage, Mem.pte] at present ⊢
  repeat' split at present
  all_goals simp_all

/-- The user finds two pages there, which are no tables. -/
theorem onePageImage_userPage (found : userPage 1 va onePageImage = some page) : page = 4 ∨ page = 6 := by
  unfold userPage Vm.uva2ka at found
  rw [walkpgdir_eq] at found
  split at found <;> rename_i isWalk
  · cases found
  · split at isWalk <;> cases isWalk
    rename_i present
    rcases onePageImage_table present with isTwo | isThree
    · rw [isTwo] at found
      by_cases inside : ptx va = 0 ∨ ptx va = 2
      · rcases inside with first | stack
        · rw [first] at found
          exact .inl (Option.some_inj.1 found).symm
        · rw [stack] at found
          exact .inr (Option.some_inj.1 found).symm
      · by_cases guard : ptx va = 1
        · rw [guard] at found
          cases found
        · simp [Mem.pte, onePageImage, inside, guard] at found
    · rw [isThree] at found
      cases found

theorem onePageImage_frames : Frames 1 onePageImage := by
  constructor
  · intro i _ present
    rcases onePageImage_table present with isTwo | isThree
    · rw [isTwo]
      decide
    · rw [isThree]
      decide
  · intro va page found
    rcases onePageImage_userPage found with rfl | rfl
    · decide
    · decide
  · intro va found
    exact absurd (onePageImage_userPage found) (by decide)
  · intro va i _ present found
    have isPage := onePageImage_userPage found
    rcases onePageImage_table present with isTable | isTable
    · rw [isTable] at isPage
      exact absurd isPage (by decide)
    · rw [isTable] at isPage
      exact absurd isPage (by decide)

/-- The stack pointer after the first argument string has been pushed to the stack of `onePageImage`. -/
def firstArgument (arg : List (BitVec 8)) : ℕ := alignDown (usub (3 * pgsize) (arg.length + 1))

/-- `exec` pushes the string "a". -/
theorem copyout_iff_string :
    (∃ done m', CopyoutCorrect 1 (firstArgument [0x61]) ([0x61] ++ [0]) onePageImage done m') ↔
      Tables 1 (firstArgument [0x61]) ([0x61] ++ [0] : List (BitVec 8)).length onePageImage :=
  copyout_iff 1 ([0x61] ++ [0]) onePageImage onePageImage_frames (by decide)

/-- An argument of 64 MB takes the stack pointer to addresses between the memory of the kernel and its
devices, for which there is no page table. -/
theorem copyout_iff_incorrect :
    ¬∀ arg : List (BitVec 8), arg.length < 2 ^ 27 →
      ∃ done m', CopyoutCorrect 1 (firstArgument arg) (arg ++ [0]) onePageImage done m' := by
  intro claimed
  have argument : ∃ arg : List (BitVec 8), arg.length = 2 ^ 26 :=
    ⟨List.replicate (2 ^ 26) 0x61, List.length_replicate⟩
  rcases argument with ⟨arg, length⟩
  have correct := claimed arg (by rw [length]; decide)
  have sp : firstArgument arg = 0xFC002FFC := by
    unfold firstArgument
    rw [length]
    rfl
  rw [sp] at correct
  have tables := (copyout_iff 1 _ onePageImage onePageImage_frames (by decide)).mp correct 0 (by simp) (by simp [Accessible])
  exact tables rfl

end Xv6.Vm.Copyout
