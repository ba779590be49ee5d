import Xv6.Vm.Exec
import Xv6.Vm.UserMemory

/-!
# The new image

What `exec` does to the address space that it builds: the segments of the file are loaded from page
0 on, two pages are added, and the arguments are pushed onto the upper one. As the lower one is not
accessible to the user, `copyout` fails if the arguments do not fit.
-/

namespace Xv6.Vm

open Ownership Fallible

variable {m m' m₁ m₂ : Mem} {dir : Page} {pool : Set Page} {v w : ℕ} {s s' s₁ s₂ : Exec}

/-- What a program may do with a page. -/
def UserPage.access (page : UserPage) : Bool × Bool := (page.writable, page.user)

/-- The pages that are present, and what a program may do with them. -/
def shape (m : Mem) (dir : Page) (v : ℕ) : Option (Bool × Bool) := (image m dir v).map UserPage.access

/-! ## The bytes of the segments -/

/-- What the segments of a file make of memory: the bytes of each are put in its place, one segment
after the other. -/
def segmentBytes (content : List (BitVec 8)) : ℕ → ℕ → (ℕ → BitVec 8) → ℕ → BitVec 8
  | 0, _, bytes => bytes
  | left + 1, off, bytes =>
      let ph := (content.drop off).take 32
      let next := (off + 32) % 2 ^ 32
      if field ph 0 4 ≠ 1 then segmentBytes content left next bytes
      else
        segmentBytes content left next
          (splice bytes (field ph 8 4) ((content.drop (field ph 4 4)).take (field ph 16 4)))

/-- The pages below a size show these bytes, and there are no more. -/
structure Shows (m : Mem) (dir : Page) (sz : ℕ) (bytes : ℕ → BitVec 8) : Prop where
  pages : ∀ w < pagesOf sz, ∀ page, image m dir w = some page →
    ∀ j < pgsize, page.bytes j = bytes (w * pgsize + j)
  zero : ∀ a, pagesOf sz * pgsize ≤ a → bytes a = 0

theorem splice_append (bytes : ℕ → BitVec 8) (offset : ℕ) (data data' : List (BitVec 8)) :
    splice (splice bytes offset data) (offset + data.length) data' = splice bytes offset (data ++ data') := by
  funext i
  unfold splice
  rw [List.length_append]
  by_cases first : offset ≤ i ∧ i < offset + data.length
  · rw [if_neg (by omega), if_pos first, if_pos (by omega), List.getD_append _ _ _ _ (by omega)]
  · rw [if_neg first]
    by_cases second : offset + data.length ≤ i ∧ i < offset + data.length + data'.length
    · rw [if_pos second, if_pos (by omega), List.getD_append_right _ _ _ _ (by omega)]
      congr 1
      omega
    · rw [if_neg second, if_neg (by omega)]

theorem splice_nil (bytes : ℕ → BitVec 8) (offset : ℕ) : splice bytes offset [] = bytes := by
  funext i
  unfold splice
  rw [if_neg (by simp)]

/-- A page is written from its start on. -/
theorem Shows.write {page : UserPage} {sz : ℕ} {bytes : ℕ → BitVec 8} {data : List (BitVec 8)}
    (shown : Shows m dir sz bytes) (space : Space m dir pool) (user : v < userPages)
    (present : image m dir v = some page) (below : v < pagesOf sz) (inside : pagesOf sz ≤ userPages)
    (short : data.length ≤ pgsize) :
    Shows (m.write (entry m dir v).page 0 data) dir sz (splice bytes (v * pgsize) data) := by
  have becomes := space.write user present 0 data
  refine ⟨fun w low page' holds j less => ?_, fun a above => ?_⟩
  · rw [becomes.image w (low.trans_le inside)] at holds
    by_cases same : w = v
    · subst same
      rw [Function.update_self] at holds
      cases holds
      have old := shown.pages w low page present j less
      change splice page.bytes 0 data j = _
      unfold splice
      rw [Nat.zero_add, Nat.sub_zero, Nat.add_sub_cancel_left, old]
      by_cases written : j < data.length
      · rw [if_pos ⟨Nat.zero_le j, written⟩, if_pos ⟨Nat.le_add_right _ _, by omega⟩]
      · rw [if_neg fun both => written both.2, if_neg (by omega)]
    · rw [Function.update_of_ne same] at holds
      rw [shown.pages w low page' holds j less]
      have apart : ¬(v * pgsize ≤ w * pgsize + j ∧ w * pgsize + j < v * pgsize + data.length) := by
        unfold pgsize at *
        omega
      unfold splice
      rw [if_neg apart]
  · have beyond : ¬(v * pgsize ≤ a ∧ a < v * pgsize + data.length) := by
      unfold pgsize at *
      omega
    unfold splice
    rw [if_neg beyond]
    exact shown.zero a above

theorem Shows.congr {sz : ℕ} {bytes : ℕ → BitVec 8} (shown : Shows m dir sz bytes)
    (same : ∀ w < pagesOf sz, image m' dir w = image m dir w) : Shows m' dir sz bytes :=
  ⟨fun w below page holds => shown.pages w below page ((same w below).symm.trans holds), shown.zero⟩

theorem Shows.resize {sz sz' : ℕ} {bytes : ℕ → BitVec 8} (shown : Shows m dir sz bytes)
    (same : pagesOf sz' = pagesOf sz) : Shows m dir sz' bytes := by
  refine ⟨?_, ?_⟩ <;> rw [same]
  · exact shown.pages
  · exact shown.zero

theorem Shows.empty (m : Mem) (dir : Page) : Shows m dir 0 fun _ => 0 :=
  ⟨fun w below => absurd below (Nat.not_lt_zero w), fun _ _ => rfl⟩

/-- Pages of zeroes are added. -/
theorem Shows.grow {oldsz sz : ℕ} {bytes : ℕ → BitVec 8} (shown : Shows m dir oldsz bytes) (le : oldsz ≤ sz)
    (same : ∀ w < pagesOf oldsz, image m' dir w = image m dir w)
    (fresh : ∀ w, pagesOf oldsz ≤ w → w < pagesOf sz → image m' dir w = some zeroPage) :
    Shows m' dir sz bytes := by
  have pages : pagesOf oldsz ≤ pagesOf sz := by
    unfold pagesOf pgsize
    omega
  refine ⟨fun w below page holds j less => ?_, fun a above => shown.zero a ?_⟩
  · by_cases before : w < pagesOf oldsz
    · exact shown.pages w before page ((same w before).symm.trans holds) j less
    · rw [fresh w (Nat.not_lt.1 before) below] at holds
      cases holds
      rw [shown.zero (w * pgsize + j) (by unfold pgsize at *; omega)]
      rfl
  · exact (Nat.mul_le_mul_right _ pages).trans above

/-! ## Loading the file -/

/-- Reading the file into the address space changes bytes only. -/
structure Loads (dir : Page) (pool : Set Page) (s s' : Exec) : Prop where
  space : Space s'.mem dir pool
  after : After pool s.mem s'.mem
  guarded : Guarded s.mem dir → Guarded s'.mem dir
  shape : ∀ w < userPages, shape s'.mem dir w = shape s.mem dir w
  proc : s'.proc = s.proc
  trace : s'.trace = s.trace

theorem Loads.refl (space : Space s.mem dir pool) : Loads dir pool s s :=
  ⟨space, .refl, id, fun _ _ => rfl, rfl, rfl⟩

theorem Loads.trans (first : Loads dir pool s s₁) (second : Loads dir pool s₁ s₂) :
    Loads dir pool s s₂ :=
  ⟨second.space, first.after.trans second.after,
    fun guarded => second.guarded (first.guarded guarded),
    fun w user => (second.shape w user).trans (first.shape w user),
    second.proc.trans first.proc, second.trace.trans first.trace⟩

theorem readi_state (ip : Inode) (off n : ℕ) (s : Exec) :
    (readi ip off n s).2.mem = s.mem ∧ (readi ip off n s).2.proc = s.proc ∧
      (readi ip off n s).2.trace = s.trace := by
  unfold readi
  cases ip.device with
  | some read => exact ⟨rfl, rfl, rfl⟩
  | none =>
      dsimp only
      split
      · exact ⟨rfl, rfl, rfl⟩
      · exact ⟨rfl, rfl, rfl⟩

theorem Loads.readi (space : Space s.mem dir pool) (ip : Inode) (off n : ℕ) :
    Loads dir pool s (readi ip off n s).2 := by
  rcases readi_state ip off n s with ⟨mem, proc, trace⟩
  refine ⟨mem ▸ space, ?_, ?_, ?_, proc, trace⟩
  · rw [mem]
    exact .refl
  · rw [mem]
    exact id
  · rw [mem]
    exact fun _ _ => rfl

theorem access_bytes (page : UserPage) (bytes : ℕ → BitVec 8) :
    UserPage.access { page with bytes } = page.access := rfl

theorem shape_update {page page' : UserPage} (present : image m dir v = some page)
    (same : page'.access = page.access) :
    (Function.update (image m dir) v (some page') w).map UserPage.access = shape m dir w := by
  by_cases isV : w = v
  · subst isV
    rw [Function.update_self, shape, present, Option.map_some, Option.map_some, same]
  · rw [Function.update_of_ne isV, shape]

theorem Loads.write {page : UserPage} (space : Space s.mem dir pool) (user : v < userPages)
    (present : image s.mem dir v = some page) (offset : ℕ) (data : List (BitVec 8)) :
    Loads dir pool s
      { s with mem := s.mem.write (entry s.mem dir v).page offset data } := by
  have becomes := space.write user present offset data
  refine ⟨becomes.space, becomes.after, becomes.guarded, fun w user' => ?_, rfl, rfl⟩
  rw [Vm.shape, becomes.image w user']
  exact shape_update present rfl

/-- What `readi` finds of a file that has so many bytes there. -/
theorem readi_file {ip : Inode} {off n : ℕ} {data : List (BitVec 8)} (isFile : ip.device = none)
    (small : off < 2 ^ 32) (few : n < 2 ^ 32) (read : (readi ip off n s).1 = some data)
    (whole : data.length = n) :
    data = (ip.content.drop off).take n ∧ off + n ≤ ip.content.length ∧ off + n < 2 ^ 32 := by
  unfold readi at read
  rw [isFile] at read
  dsimp only at read
  split at read
  · cases read
  · rename_i accepted
    rw [not_or, Nat.not_lt, Nat.not_lt] at accepted
    cases read
    rw [List.length_take, List.length_drop] at whole
    split at whole
    · have none : ip.content.length - off = n := by omega
      exact ⟨by rw [if_pos ‹_›, none], by omega, by omega⟩
    · exact ⟨by rw [if_neg ‹_›], by omega, by omega⟩

/-- The first bytes of a segment of the file, from `a` on. -/
structure SegmentShown (ip : Inode) (offset n a : ℕ) (bytes : ℕ → BitVec 8) (m : Mem) (dir : Page) (sz : ℕ) :
    Prop where
  shown : Shows m dir sz (splice bytes (a * pgsize) ((ip.content.drop offset).take n))
  inside : n = 0 ∨ offset + n ≤ ip.content.length ∧ offset + n < 2 ^ 32

/-- One page more of the segment. -/
theorem SegmentShown.write {ip : Inode} {offset k n a sz : ℕ} {bytes : ℕ → BitVec 8} {page : UserPage}
    {data : List (BitVec 8)} (filled : SegmentShown ip offset (k * pgsize) a bytes m dir sz)
    (space : Space m dir pool) (isFile : ip.device = none) (small : offset < 2 ^ 32) (few : n ≤ pgsize)
    (read : (readi ip ((offset + k * pgsize) % 2 ^ 32) n s).1 = some data) (whole : data.length = n)
    (user : a + k < userPages) (present : image m dir (a + k) = some page) (below : a + k < pagesOf sz)
    (inside : pagesOf sz ≤ userPages) :
    SegmentShown ip offset (k * pgsize + n) a bytes (m.write (entry m dir (a + k)).page 0 data) dir sz := by
  have noWrap : (offset + k * pgsize) % 2 ^ 32 = offset + k * pgsize := by
    rcases filled.inside with isFirst | ⟨-, bound⟩
    · rw [isFirst, Nat.add_zero, Nat.mod_eq_of_lt small]
    · rw [Nat.mod_eq_of_lt bound]
  rw [noWrap] at read
  have found := readi_file isFile (by omega) (by unfold pgsize at few; omega) read whole
  rcases found with ⟨isData, covered, bound⟩
  have start : ((ip.content.drop offset).take (k * pgsize)).length = k * pgsize := by
    rw [List.length_take, List.length_drop]
    omega
  have parts : (ip.content.drop offset).take (k * pgsize + n) =
      (ip.content.drop offset).take (k * pgsize) ++ data := by
    rw [isData, List.take_add, List.drop_drop]
  have address : (a + k) * pgsize = a * pgsize + ((ip.content.drop offset).take (k * pgsize)).length := by
    rw [start, Nat.add_mul]
  refine ⟨?_, .inr ⟨by omega, by omega⟩⟩
  rw [parts, ← splice_append, ← address]
  exact filled.shown.write space user present below inside (whole.trans_le few)

/-- The file has these bytes. -/
structure Covers (ip : Inode) (offset n : ℕ) : Prop where
  isFile : ip.device = none
  inside : offset + n ≤ ip.content.length
  small : offset + n < 2 ^ 32

theorem Covers.readi {ip : Inode} {off n : ℕ} (covers : Covers ip off n) (s : Exec) :
    readi ip off n s = (some ((ip.content.drop off).take n), s) ∧
      ((ip.content.drop off).take n).length = n := by
  have inside := covers.inside
  have small := covers.small
  constructor
  · unfold Vm.readi
    rw [covers.isFile]
    dsimp only
    rw [if_neg (by omega), if_neg (by omega)]
  · rw [List.length_take, List.length_drop]
    omega

theorem Covers.part {ip : Inode} {off n i k : ℕ} (covers : Covers ip off n) (inside : i + k ≤ n) :
    Covers ip ((off + i) % 2 ^ 32) k := by
  have bound := covers.inside
  have small := covers.small
  rw [Nat.mod_eq_of_lt (by omega)]
  exact ⟨covers.isFile, by omega, by omega⟩

theorem add_portion {i n sz : ℕ} (more : i < sz) :
    i + (if sz - i < n then sz - i else n) = min (i + n) sz := by
  split <;> omega

/-- Where the loop of `loaduvm` gets to its end, the segment of a file is in memory. -/
def Fills (ip : Inode) (offset sz k passes a : ℕ) (dir : Page) (m m' : Mem) : Prop :=
  ip.device = none → offset < 2 ^ 32 → sz ≤ (k + passes) * pgsize →
    ∀ size bytes, a + pagesOf sz ≤ pagesOf size → pagesOf size ≤ userPages →
      SegmentShown ip offset (min (k * pgsize) sz) a bytes m dir size →
        SegmentShown ip offset sz a bytes m' dir size

theorem Loads.loop {a : ℕ} {ip : Inode} {offset sz : ℕ} (inside : a + pagesOf sz ≤ userPages)
    (passes : ℕ) :
    ∀ {k s}, Space s.mem dir pool →
      (∀ w, a + k ≤ w → w < a + pagesOf sz → ∃ page, image s.mem dir w = some page) →
      ∃ ok s', loaduvmLoop dir (a * pgsize) ip offset sz passes (k * pgsize) s = .ok (ok, s') ∧
        Loads dir pool s s' ∧ (ok = true → Fills ip offset sz k passes a dir s.mem s'.mem) ∧
        (Covers ip offset sz → ok = true) := by
  -- the bytes are all there once `k` pages have been read
  have done : ∀ {k passes m}, sz ≤ k * pgsize → Fills ip offset sz k passes a dir m m := by
    intro k passes m all _ _ _ size bytes _ _ filled
    rwa [Nat.min_eq_right all] at filled
  induction passes with
  | zero =>
      exact fun space _ =>
        ⟨true, _, rfl, .refl space, fun _ isFile small all => done all isFile small all, fun _ => rfl⟩
  | succ passes ih =>
      intro k s space present
      unfold loaduvmLoop
      by_cases more : k * pgsize < sz
      · have below : a + k < a + pagesOf sz := by
          have := lt_pagesOf.2 more
          omega
        have user := below.trans_le inside
        have bound : a + k < 2 ^ 20 := user.trans (by decide)
        rcases present (a + k) le_rfl below with ⟨page, holds⟩
        rcases tableOf_of_image holds with ⟨table, tableHolds⟩
        have same : s.mem.pte table ((a + k) % 1024) = entry s.mem dir (a + k) := by
          rw [entry, tableHolds]
        have address : a * pgsize + k * pgsize = (a + k) * pgsize := (Nat.add_mul _ _ _).symm
        have next : k * pgsize + pgsize = (k + 1) * pgsize := by rw [Nat.add_mul, Nat.one_mul]
        rw [if_pos more, address, walkpgdir_some false bound tableHolds]
        dsimp only
        rw [same]
        have few : (if sz - k * pgsize < pgsize then sz - k * pgsize else pgsize) ≤ pgsize := by
          split
          · exact Nat.le_of_lt ‹_›
          · exact le_rfl
        have isMin : k * pgsize + (if sz - k * pgsize < pgsize then sz - k * pgsize else pgsize) =
            min ((k + 1) * pgsize) sz := by
          rw [← next, add_portion more]
        generalize (if sz - k * pgsize < pgsize then sz - k * pgsize else pgsize) = n at few isMin ⊢
        have read := Loads.readi space ip ((offset + k * pgsize) % 2 ^ 32) n
        have mem := (readi_state ip ((offset + k * pgsize) % 2 ^ 32) n s).1
        cases result : Vm.readi ip ((offset + k * pgsize) % 2 ^ 32) n s with
        | mk data s₁ =>
            rw [result] at read mem
            cases data with
            | none =>
                refine ⟨false, s₁, rfl, read, by simp, fun covers => ?_⟩
                rw [((covers.part (isMin.le.trans (min_le_right _ _))).readi s).1] at result
                cases result
            | some data =>
                dsimp only at read mem ⊢
                rw [← mem] at holds ⊢
                have write := read.trans (Loads.write read.space user holds 0 data)
                split
                · rename_i whole
                  have present' : ∀ w, a + (k + 1) ≤ w → w < a + pagesOf sz →
                      ∃ page, image (s₁.mem.write (entry s₁.mem dir (a + k)).page 0 data) dir w =
                        some page := by
                    intro w from' below'
                    rcases present w (by omega) below' with ⟨page', holds'⟩
                    have kept := write.shape w (below'.trans_le inside)
                    rw [Vm.shape, Vm.shape, holds'] at kept
                    rcases Option.map_eq_some_iff.1 kept with ⟨page'', holds'', -⟩
                    exact ⟨page'', holds''⟩
                  rw [next]
                  rcases ih write.space present' with ⟨ok, s', ran, loads, fills, complete⟩
                  refine ⟨ok, s', ran, write.trans loads,
                    fun isOk isFile small all size bytes low high filled => ?_, complete⟩
                  rw [Nat.min_eq_left more.le] at filled
                  have grown := filled.write read.space isFile small few (congrArg Prod.fst result)
                    whole user holds (below.trans_le low) high
                  have all' : sz ≤ (k + 1 + passes) * pgsize := by
                    rwa [Nat.add_assoc, Nat.add_comm 1 passes]
                  refine fills isOk isFile small all' size bytes low high ?_
                  rwa [isMin] at grown
                · rename_i short
                  refine ⟨false, _, rfl, write, by simp, fun covers => ?_⟩
                  have readi := (covers.part (isMin.le.trans (min_le_right _ _))).readi s
                  rw [readi.1] at result
                  cases result
                  exact absurd readi.2 short
      · rw [if_neg more]
        exact ⟨true, s, rfl, .refl space, fun _ => done (Nat.not_lt.1 more), fun _ => rfl⟩

/-- `loaduvm` finds all pages that it reads into. -/
theorem Space.loaduvm {addr sz size : ℕ} (space : Space s.mem dir pool) (ip : Inode) (offset : ℕ)
    (aligned : addr % pgsize = 0) (inside : addr + sz ≤ size) (bound : size ≤ kernbase)
    (present : ∀ w < pagesOf size, ∃ page, image s.mem dir w = some page) :
    ∃ ok s', loaduvm dir addr ip offset sz s = .ok (ok, s') ∧ Loads dir pool s s' ∧
      (Covers ip offset sz → ok = true) ∧
      (ok = true → ip.device = none → offset < 2 ^ 32 → ∀ bytes, Shows s.mem dir size bytes →
        Shows s'.mem dir size (splice bytes addr ((ip.content.drop offset).take sz))) := by
  have whole : addr / pgsize * pgsize = addr := by
    unfold pgsize at *
    omega
  have pages : addr / pgsize + pagesOf sz ≤ pagesOf size := by
    unfold pagesOf pgsize at *
    omega
  have user := pagesOf_le bound
  have loop : ∃ ok s', loaduvmLoop dir (addr / pgsize * pgsize) ip offset sz (sz / pgsize + 1)
      (0 * pgsize) s = .ok (ok, s') ∧ Loads dir pool s s' ∧
      (ok = true → Fills ip offset sz 0 (sz / pgsize + 1) (addr / pgsize) dir s.mem s'.mem) ∧
      (Covers ip offset sz → ok = true) :=
    Loads.loop (pages.trans user) _ space fun w _ below => present w (below.trans_le pages)
  rcases loop with ⟨ok, s', ran, loads, fills, complete⟩
  rw [Nat.zero_mul, whole] at ran
  refine ⟨ok, s', ?_, loads, complete, fun isOk isFile small bytes shown => ?_⟩
  · unfold Vm.loaduvm
    rw [if_neg (not_not_intro aligned)]
    exact ran
  · have passes : sz ≤ (0 + (sz / pgsize + 1)) * pgsize := by
      unfold pgsize
      omega
    have filled := fills isOk isFile small passes size bytes pages user ⟨?_, .inl (by simp)⟩
    · have all := filled.shown
      rwa [whole] at all
    · rwa [Nat.zero_mul, Nat.zero_min, List.take_zero, splice_nil]

/-- All pages below a size are present, accessible and writable, and no others. -/
def Flat (m : Mem) (dir : Page) (sz : ℕ) : Prop :=
  ∀ w < userPages, shape m dir w = if w < pagesOf sz then some (true, true) else none

theorem shape_eq_none : shape m dir v = none ↔ image m dir v = none := by
  unfold shape
  exact Option.map_eq_none_iff

theorem Flat.present {sz : ℕ} (flat : Flat m dir sz) (bound : sz ≤ kernbase) (below : w < pagesOf sz) :
    ∃ page, image m dir w = some page ∧ page.user = true := by
  have holds := flat w (below.trans_le (pagesOf_le bound))
  rw [if_pos below, shape] at holds
  rcases Option.map_eq_some_iff.1 holds with ⟨page, holds, access⟩
  exact ⟨page, holds, congrArg Prod.snd access⟩

theorem Flat.absent {sz : ℕ} (flat : Flat m dir sz) (user : w < userPages) (above : pagesOf sz ≤ w) :
    image m dir w = none := by
  rw [← shape_eq_none, flat w user, if_neg (Nat.not_lt.2 above)]

/-- `allocuvm` on an address space without holes. -/
theorem Space.allocFlat {oldsz : ℕ} (newsz : ℕ) (space : Space m dir pool) (old : oldsz ≤ kernbase)
    (flat : Flat m dir oldsz) :
    ∃ sz m', allocuvm dir oldsz newsz m = .ok (sz, m') ∧ Space m' dir pool ∧ After pool m m' ∧
      (Guarded m dir → Guarded m' dir) ∧
      (sz = 0 → 0 < newsz → newsz < kernbase → Tight m pool (pagesOf newsz)) ∧
      (sz ≠ 0 → sz = max oldsz newsz ∧ newsz < kernbase ∧ Flat m' dir sz ∧
        (∀ w < pagesOf oldsz, image m' dir w = image m dir w) ∧
        ∀ w, pagesOf oldsz ≤ w → w < pagesOf sz → image m' dir w = some zeroPage) := by
  rcases space.alloc newsz old fun w above user => flat.absent user above with
    ⟨m', ran, becomes, reason⟩ | ⟨bound, m', ran, becomes⟩
  · exact ⟨0, m', ran, becomes.space, becomes.after, becomes.guarded,
      fun _ _ less => reason.resolve_left (Nat.not_le.2 less), fun not => absurd rfl not⟩
  · refine ⟨_, m', ran, becomes.space, becomes.after, becomes.guarded, fun none some => by omega,
      fun _ => ⟨rfl, bound, fun w user => ?_, fun w below => ?_, fun w above below => ?_⟩⟩
    · have pages : pagesOf (max oldsz newsz) = max (pagesOf oldsz) (pagesOf newsz) := by
        unfold pagesOf pgsize
        omega
      rw [shape, becomes.image w user, pages]
      by_cases added : pagesOf oldsz ≤ w ∧ w < pagesOf newsz
      · rw [if_pos added, if_pos (by omega)]
        rfl
      · rw [if_neg added]
        change shape m dir w = _
        rw [flat w user]
        by_cases before : w < pagesOf oldsz
        · rw [if_pos before, if_pos (by omega)]
        · rw [if_neg before, if_neg (by omega)]
    · rw [becomes.image w (below.trans_le (pagesOf_le old)),
        if_neg fun both => Nat.not_le.2 below both.1]
    · have inside : w < pagesOf newsz := by
        unfold pagesOf pgsize at *
        omega
      rw [becomes.image w (inside.trans_le (pagesOf_le bound.le)), if_pos ⟨above, inside⟩]

/-- The program has been loaded up to a size. -/
structure Loaded (dir : Page) (pool : Set Page) (s : Exec) (sz : ℕ) (s' : Exec) : Prop where
  space : Space s'.mem dir pool
  after : After pool s.mem s'.mem
  guarded : Guarded s.mem dir → Guarded s'.mem dir
  flat : Flat s'.mem dir sz
  size : sz < kernbase
  proc : s'.proc = s.proc
  trace : s'.trace = s.trace

theorem Loaded.loads {sz : ℕ} (loaded : Loaded dir pool s sz s₁) (loads : Loads dir pool s₁ s₂) :
    Loaded dir pool s sz s₂ :=
  ⟨loads.space, loaded.after.trans loads.after,
    fun guarded => loads.guarded (loaded.guarded guarded),
    fun w user => (loads.shape w user).trans (loaded.flat w user), loaded.size,
    loads.proc.trans loaded.proc, loads.trace.trans loaded.trace⟩

/-- What remains when `exec` gives up. -/
structure Stopped (dir : Page) (pool : Set Page) (s s' : Exec) : Prop where
  space : Space s'.mem dir pool
  after : After pool s.mem s'.mem
  proc : s'.proc = s.proc
  trace : s'.trace = s.trace

theorem Loaded.stopped {sz : ℕ} (loaded : Loaded dir pool s sz s') : Stopped dir pool s s' :=
  ⟨loaded.space, loaded.after, loaded.proc, loaded.trace⟩

theorem field_lt (header : List (BitVec 8)) (offset size : ℕ) : field header offset size < 256 ^ size := by
  induction size generalizing offset with
  | zero => exact Nat.one_pos
  | succ size ih =>
      have low := (header.getD offset 0).isLt
      have high := ih (offset + 1)
      unfold field
      rw [Nat.pow_succ]
      omega

/-- The segment of a program header is in the file, and its memory ends at most at `limit`. -/
structure Segment (ip : Inode) (limit : ℕ) (ph : List (BitVec 8)) : Prop where
  memsz : field ph 16 4 ≤ field ph 20 4
  aligned : field ph 8 4 % pgsize = 0
  some : 0 < field ph 8 4 + field ph 20 4
  limit : field ph 8 4 + field ph 20 4 ≤ limit
  covers : Covers ip (field ph 4 4) (field ph 16 4)

/-- So many program headers from an offset on, whose segments `exec` can load. -/
def Segments (ip : Inode) (limit : ℕ) : ℕ → ℕ → Prop
  | 0, _ => True
  | left + 1, off =>
      let ph := (ip.content.drop off).take 32
      Covers ip off 32 ∧ (field ph 0 4 = 1 → Segment ip limit ph) ∧
        Segments ip limit left ((off + 32) % 2 ^ 32)

theorem Loaded.segments {sz : ℕ} (loaded : Loaded dir pool s sz s₁) (ip : Inode) (left off : ℕ) :
    (∃ s', loadSegments dir ip left off sz s₁ = .ok (none, s') ∧ Stopped dir pool s s' ∧
      ∀ limit < kernbase, Segments ip limit left off → Tight s.mem pool (pagesOf limit)) ∨
    ∃ sz' s', loadSegments dir ip left off sz s₁ = .ok (some sz', s') ∧
      Loaded dir pool s sz' s' ∧ (∀ limit < kernbase, Segments ip limit left off → sz' ≤ max sz limit) ∧
      (ip.device = none → off < 2 ^ 32 → ∀ bytes, Shows s₁.mem dir sz bytes →
        Shows s'.mem dir sz' (segmentBytes ip.content left off bytes)) := by
  induction left generalizing off sz s₁ with
  | zero => exact .inr ⟨_, _, rfl, loaded, fun _ _ _ => le_max_left _ _, fun _ _ _ shown => shown⟩
  | succ left ih =>
      unfold loadSegments
      have read := loaded.loads (Loads.readi loaded.space ip off 32)
      have mem := (readi_state ip off 32 s₁).1
      have small : (off + 32) % 2 ^ 32 < 2 ^ 32 := Nat.mod_lt _ (by decide)
      cases result : readi ip off 32 s₁ with
      | mk ph s₂ =>
          rw [result] at read mem
          have isFirst : Covers ip off 32 → ph = some ((ip.content.drop off).take 32) := fun covers =>
            (congrArg Prod.fst result).symm.trans (congrArg Prod.fst (covers.readi s₁).1)
          cases ph with
          | none => exact .inl ⟨s₂, rfl, read.stopped, fun _ _ segments => by cases isFirst segments.1⟩
          | some ph =>
              dsimp only at read ⊢
              by_cases whole : ph.length ≠ 32
              · rw [if_pos whole]
                refine .inl ⟨s₂, rfl, read.stopped, fun _ _ segments => ?_⟩
                cases isFirst segments.1
                exact absurd (segments.1.readi s₁).2 whole
              rw [if_neg whole]
              have isHeader : ip.device = none → off < 2 ^ 32 → ph = (ip.content.drop off).take 32 :=
                fun isFile less =>
                  (readi_file isFile less (by decide) (congrArg Prod.fst result) (not_not.1 whole)).1
              by_cases other : field ph 0 4 ≠ 1
              · rw [if_pos other]
                rcases ih read ((off + 32) % 2 ^ 32) with
                  stopped | ⟨sz', s', ran, loaded', bound, rest⟩
                · rcases stopped with ⟨s', ran, stopped, reason⟩
                  exact .inl ⟨s', ran, stopped, fun limit low segments => reason limit low segments.2.2⟩
                · refine .inr ⟨sz', s', ran, loaded',
                    fun limit low segments => bound limit low segments.2.2, fun isFile less bytes shown => ?_⟩
                  rw [isHeader isFile less] at other
                  unfold segmentBytes
                  dsimp only
                  rw [if_pos other]
                  exact rest isFile small bytes (mem ▸ shown)
              rw [if_neg other]
              have isSegment : ∀ {limit}, Segments ip limit (left + 1) off → Segment ip limit ph := by
                intro limit segments
                cases isFirst segments.1
                exact segments.2.1 (not_not.1 other)
              by_cases short : field ph 20 4 < field ph 16 4
              · rw [if_pos short]
                exact .inl ⟨s₂, rfl, read.stopped,
                  fun _ _ segments => absurd (isSegment segments).memsz (Nat.not_le.2 short)⟩
              rw [if_neg short]
              have noWrap : ∀ {limit}, limit < kernbase → Segments ip limit (left + 1) off →
                  (field ph 8 4 + field ph 20 4) % 2 ^ 32 = field ph 8 4 + field ph 20 4 :=
                fun low segments => Nat.mod_eq_of_lt
                  ((isSegment segments).limit.trans_lt (low.trans (by decide)))
              by_cases wraps : (field ph 8 4 + field ph 20 4) % 2 ^ 32 < field ph 8 4
              · rw [if_pos wraps]
                refine .inl ⟨s₂, rfl, read.stopped, fun _ low segments => ?_⟩
                rw [noWrap low segments] at wraps
                exact absurd (Nat.le_add_right _ _) (Nat.not_le.2 wraps)
              rw [if_neg wraps]
              rcases read.space.allocFlat ((field ph 8 4 + field ph 20 4) % 2 ^ 32)
                read.size.le read.flat with ⟨sz', m', ran, space', after', guarded', reason, more⟩
              rw [ran]
              simp only [bind_ok]
              have stopped : Stopped dir pool s { s₂ with mem := m' } :=
                ⟨space', read.after.trans after', read.proc, read.trace⟩
              by_cases failed : sz' = 0
              · rw [if_pos failed]
                refine .inl ⟨_, rfl, stopped, fun limit low segments => ?_⟩
                have segment := isSegment segments
                rw [noWrap low segments] at reason
                have tight := reason failed segment.some (segment.limit.trans_lt low)
                exact (tight.before read.after).mono (pagesOf_mono segment.limit)
              rw [if_neg failed]
              by_cases aligned : field ph 8 4 % pgsize ≠ 0
              · rw [if_pos aligned]
                exact .inl ⟨_, rfl, stopped, fun _ _ segments => absurd (isSegment segments).aligned aligned⟩
              rw [if_neg aligned]
              rcases more failed with ⟨size, bound, flat, kept, fresh⟩
              have size' : sz' < kernbase := size ▸ max_lt read.size bound
              have alloc : Loaded dir pool s sz' { s₂ with mem := m' } :=
                ⟨space', read.after.trans after', fun guarded => guarded' (read.guarded guarded),
                  flat, size', read.proc, read.trace⟩
              have inside : field ph 8 4 + field ph 16 4 ≤ sz' := by
                have noWrap : (field ph 8 4 + field ph 20 4) % 2 ^ 32 =
                    field ph 8 4 + field ph 20 4 := by
                  have vaddr := field_lt ph 8 4
                  have memsz := field_lt ph 20 4
                  omega
                rw [noWrap] at size
                omega
              have loaduvm := alloc.space.loaduvm ip (field ph 4 4)
                (not_not.1 aligned) inside size'.le fun w below =>
                  (flat.present size'.le below).imp fun _ both => both.1
              rcases loaduvm with ⟨ok, s₃, loaded', loads, complete, fills⟩
              rw [loaded']
              simp only [bind_ok]
              cases ok with
              | false =>
                  exact .inl ⟨s₃, rfl, (alloc.loads loads).stopped,
                    fun _ _ segments => by cases complete (isSegment segments).covers⟩
              | true =>
                  rcases ih (alloc.loads loads) ((off + 32) % 2 ^ 32) with
                    stopped' | ⟨sz'', s', ran', all, bound', rest⟩
                  · rcases stopped' with ⟨s', ran', stopped', reason'⟩
                    exact .inl ⟨s', ran', stopped', fun limit low segments => reason' limit low segments.2.2⟩
                  · refine .inr ⟨sz'', s', ran', all, fun limit low segments => ?_,
                      fun isFile less bytes shown => ?_⟩
                    · refine (bound' limit low segments.2.2).trans ?_
                      have segment := isSegment segments
                      rw [size, noWrap low segments]
                      exact max_le (max_le_max_left _ segment.limit) (le_max_right _ _)
                    rw [← mem] at shown
                    have grown := shown.grow (size ▸ le_max_left _ _) kept fresh
                    have filled := fills rfl isFile (field_lt ph 4 4) bytes grown
                    rw [isHeader isFile less] at filled other
                    unfold segmentBytes
                    dsimp only
                    rw [if_neg other]
                    exact rest isFile small _ filled

/-! ## The arguments -/

/-- The upper of two pages at the end, of which the lower one is not accessible to the user. -/
structure TopPage (m : Mem) (dir : Page) (pool : Set Page) (v : ℕ) (page : UserPage) : Prop where
  space : Space m dir pool
  guarded : Guarded m dir
  positive : 0 < v
  user : v < userPages
  present : image m dir v = some page
  accessible : page.user = true
  guard : ¬UserAt m dir (v - 1)

/-- What a write to the top page changes. -/
theorem TopPage.write {page : UserPage} (top : TopPage m dir pool v page) (offset : ℕ)
    (data : List (BitVec 8)) :
    let m' := m.write (entry m dir v).page offset data
    let page' := { page with bytes := splice page.bytes offset data }
    TopPage m' dir pool v page' ∧ Becomes dir pool m m' (Function.update (image m dir) v page') := by
  intro m' page'
  have becomes := top.space.write top.user top.present offset data
  refine ⟨⟨becomes.space, becomes.guarded top.guarded, top.positive, top.user, ?_, top.accessible, ?_⟩,
    becomes⟩
  · rw [becomes.image v top.user, Function.update_self]
  · unfold UserAt
    rw [(write_entry _ _ _ _ _).2]
    exact top.guard

/-- What is inside the top page is written. -/
theorem TopPage.inside {page : UserPage} {va : ℕ} {data : List (BitVec 8)} (top : TopPage m dir pool v page)
    (notEmpty : data ≠ []) (low : v * pgsize ≤ va) (fits : va + data.length ≤ (v + 1) * pgsize) :
    (copyout dir va data m).1 = true := by
  have room : va - v * pgsize + data.length ≤ pgsize := by
    unfold pgsize at *
    omega
  have once := copyout_page (top.user.trans (by decide)) (.of_image top.present top.accessible) room notEmpty
  rw [Nat.add_sub_cancel' low] at once
  rw [once]

/-- Pushing onto the stack in the top page stays in the page, or fails. -/
theorem TopPage.push {page : UserPage} {va sp : ℕ} {data : List (BitVec 8)}
    (top : TopPage m dir pool v page) (notEmpty : data ≠ []) (bound : va < 2 ^ 32)
    (low : v * pgsize ≤ sp) (high : sp ≤ (v + 1) * pgsize)
    (place : kernbase ≤ va ∨ va + data.length ≤ sp ∧ sp < va + data.length + 4) :
    Writes dir pool m (copyout dir va data m).2 ∧ ((copyout dir va data m).1 = true →
      v * pgsize ≤ va ∧ va + data.length ≤ sp ∧
      copyout dir va data m =
        (true, m.write (entry m dir v).page (va - v * pgsize) data)) := by
  have length : 0 < data.length := List.length_pos_of_ne_nil notEmpty
  rcases top.space.copyout data top.guarded bound with ⟨writes, reached⟩
  refine ⟨writes, fun ok => ?_⟩
  rcases reached ok notEmpty with ⟨first, all⟩
  have user := first.user top.guarded (by unfold pgsize; omega)
  have positive := top.positive
  have userV := top.user
  rcases place with kernel | ⟨below, close⟩
  · unfold userPages pgsize kernbase at *
    omega
  · have inside : v * pgsize ≤ va := by
      by_contra outside
      refine top.guard (all ?_ (v - 1) ?_ ?_)
      · unfold userPages pgsize at *
        omega
      · unfold pgsize at *
        omega
      · unfold pgsize at *
        omega
    refine ⟨inside, below, ?_⟩
    have fits : va - v * pgsize + data.length ≤ pgsize := by
      unfold pgsize at *
      omega
    have address : v * pgsize + (va - v * pgsize) = va := Nat.add_sub_cancel' inside
    have bound' : v < 2 ^ 20 := top.user.trans (by decide)
    have once := copyout_page bound' (.of_image top.present top.accessible) fits notEmpty
    rwa [address] at once

/-- The strings are on the stack from `sp` on, below `limit`. -/
def StringsAt (bytes : ℕ → BitVec 8) (base sp limit : ℕ) (addresses : List ℕ)
    (args : List (List (BitVec 8))) : Prop :=
  List.Forall₂ (fun address arg => sp ≤ address ∧ address + (arg.length + 1) ≤ limit ∧
    Holds bytes (address - base) (arg ++ [0])) addresses args

/-- How much of the stack the strings take. -/
def stringBytes : List (List (BitVec 8)) → ℕ
  | [] => 0
  | arg :: args => (arg.length + 4) / 4 * 4 + stringBytes args

theorem pushStrings_ok (args : List (List (BitVec 8))) :
    ∀ {m page sp} (pushed : List ℕ), TopPage m dir pool v page → v * pgsize ≤ sp →
      sp ≤ (v + 1) * pgsize → (∀ arg ∈ args, arg.length < kernbase) →
      (∃ m', pushStrings dir args pushed sp m = (none, m') ∧ Writes dir pool m m' ∧
        (sp % 4 = 0 → pushed.length + args.length ≤ maxarg → sp < v * pgsize + stringBytes args)) ∨
      ∃ addresses sp' page' m', pushStrings dir args pushed sp m =
          (some (pushed ++ addresses, sp'), m') ∧
        TopPage m' dir pool v page' ∧ page'.access = page.access ∧
        Becomes dir pool m m' (Function.update (image m dir) v page') ∧
        v * pgsize ≤ sp' ∧ sp' ≤ sp ∧
        (∀ offset data, sp - v * pgsize ≤ offset → Holds page.bytes offset data →
          Holds page'.bytes offset data) ∧
        StringsAt page'.bytes (v * pgsize) sp' sp addresses args ∧
        (sp % 4 = 0 → v * pgsize + stringBytes args ≤ sp → sp' = sp - stringBytes args) := by
  induction args with
  | nil =>
      intro m page sp pushed top low high _
      refine .inr ⟨[], sp, page, m, ?_, top, rfl, ?_, low, le_rfl, fun _ _ _ holds => holds, .nil,
        fun _ _ => rfl⟩
      · rw [List.append_nil, pushStrings]
      · refine (Becomes.refl top.space).congr fun w user => ?_
        by_cases isV : w = v
        · rw [isV, Function.update_self, top.present]
        · rw [Function.update_of_ne isV]
  | cons arg args ih =>
      intro m page sp pushed top low high short
      unfold pushStrings
      by_cases many : pushed.length ≥ maxarg
      · rw [if_pos many]
        refine .inl ⟨m, rfl, ⟨top.space, .refl, top.guarded⟩, fun _ few => ?_⟩
        rw [List.length_cons] at few
        omega
      rw [if_neg many]
      dsimp only
      have userV := top.user
      have length := short arg (by simp)
      generalize address : alignDown (usub sp (arg.length + 1)) = va
      have length' : (arg ++ [(0 : BitVec 8)]).length = arg.length + 1 := by simp
      have bound : va < 2 ^ 32 := by
        rw [← address]
        unfold alignDown usub
        omega
      have place : kernbase ≤ va ∨ va + (arg ++ [(0 : BitVec 8)]).length ≤ sp ∧
          sp < va + (arg ++ [(0 : BitVec 8)]).length + 4 := by
        rw [length', ← address]
        unfold alignDown usub userPages kernbase pgsize at *
        omega
      rcases top.push (by simp) bound low high place with ⟨writes, pushes⟩
      -- where the string goes if it fits
      have aligned : va % 4 = 0 := by
        rw [← address]
        exact Nat.mul_mod_left _ _
      have next : sp % 4 = 0 → v * pgsize + stringBytes (arg :: args) ≤ sp →
          va = sp - (arg.length + 4) / 4 * 4 := by
        intro whole fits
        rw [← address]
        unfold stringBytes at fits
        unfold alignDown usub
        unfold userPages pgsize at *
        omega
      cases result : copyout dir va (arg ++ [0]) m with
      | mk ok m₁ =>
          rw [result] at writes pushes
          cases ok with
          | false =>
              refine .inl ⟨m₁, rfl, writes, fun whole _ => ?_⟩
              by_contra fits
              have isVa := next whole (Nat.not_lt.1 fits)
              unfold stringBytes at fits
              have inside : (copyout dir va (arg ++ [0]) m).1 = true := by
                apply top.inside
                · simp
                · omega
                · rw [length']
                  omega
              rw [result] at inside
              cases inside
          | true =>
              rcases pushes rfl with ⟨inside, below, once⟩
              cases once
              rcases top.write (va - v * pgsize) (arg ++ [0]) with ⟨top₁, becomes₁⟩
              have low' : va ≤ sp := by omega
              rcases ih (pushed ++ [va]) top₁ inside (low'.trans high)
                (fun arg' member => short arg' (List.mem_cons_of_mem _ member)) with
                ⟨m', ran, writes', full⟩ | ⟨addresses, sp', page', m', ran, top', access, becomes', lowest,
                  lower, kept, strings, ends⟩
              · refine .inl ⟨m', ran, ⟨writes'.space, becomes₁.after.trans writes'.after,
                  writes'.guarded⟩, fun whole few => ?_⟩
                rw [List.length_cons] at few
                have less := full aligned (by rw [List.length_append, List.length_singleton]; omega)
                by_contra fits
                have isVa := next whole (Nat.not_lt.1 fits)
                unfold stringBytes at fits
                omega
              · right
                refine ⟨va :: addresses, sp', page', m', ?_, top', access.trans (access_bytes _ _), ?_, lowest,
                  lower.trans low', fun offset data from' holds => ?_, .cons ⟨lower, ?_, ?_⟩ ?_,
                  fun whole fits => ?_⟩
                · have list : pushed ++ va :: addresses = pushed ++ [va] ++ addresses := by simp
                  rw [list]
                  exact ran
                · refine (becomes₁.trans becomes').congr fun w user => ?_
                  by_cases isV : w = v
                  · rw [isV, Function.update_self, Function.update_self]
                  · rw [Function.update_of_ne isV, Function.update_of_ne isV,
                      becomes₁.image w user, Function.update_of_ne isV]
                · refine kept offset data (by omega) (holds.splice ?_)
                  omega
                · rw [← length']
                  exact below
                · exact kept _ _ le_rfl (splice_holds _ _ _)
                · exact strings.imp fun address' arg' ⟨from', to', holds⟩ =>
                    ⟨from', to'.trans low', holds⟩
                · have isVa := next whole fits
                  unfold stringBytes at fits ⊢
                  have rest : v * pgsize + stringBytes args ≤ va := by
                    rw [isVa]
                    apply Nat.le_sub_of_add_le
                    rwa [Nat.add_assoc, Nat.add_comm (stringBytes args)]
                  rw [ends aligned rest, isVa, Nat.sub_sub]

end Xv6.Vm
