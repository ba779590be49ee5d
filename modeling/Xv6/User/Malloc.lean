import Xv6.User.Heap

/-!
# Allocation from the heap

`malloc` takes a block from the free list, whole or its end, and asks `sbrk` for a region if no block
is large enough. One region is always enough.
-/

namespace Xv6.User

open Fallible LinkedPath

variable {h h' : Heap} {cells front back init live : List ℕ} {p q x y z nunits nu passes : ℕ}

/-! ## Taking a block -/

theorem Before.apart (before : Before h p q) : Apart h p q := by
  have small := size_le_extent h p
  unfold Before at before
  unfold Apart
  omega

/-- The blocks of the list are apart from each other. -/
theorem Circle.apart (circle : Circle h (init ++ y :: back)) :
    (∀ q ∈ init, Apart h y q) ∧ ∀ q ∈ back, Apart h y q := by
  rcases pairwise_split.mp circle.sorted with ⟨-, -, before, after, -⟩
  exact ⟨fun q member => apart_comm.mp (before q member).apart, fun q member => (after q member).apart⟩

theorem apart_congr (same : h'.size p = h.size p) (same' : h'.size q = h.size q) :
    Apart h' p q ↔ Apart h p q := by
  unfold Apart
  rw [same, same']

/-- What `malloc` gives to the program. -/
structure Taken (h : Heap) (live : List ℕ) (nunits : ℕ) (result : ℕ × Heap) (p : ℕ)
    (cells : List ℕ) : Prop where
  inv : HeapInv result.2 cells (p :: live)
  pointer : result.1 = p + header
  size : result.2.size p = nunits
  rest : result.2 = { h with ptr := result.2.ptr, size := result.2.size, freep := result.2.freep }
  sizes : ∀ p ∈ live, result.2.size p = h.size p

/-- The block at `y` is taken whole. -/
theorem HeapInv.takeWhole (inv : HeapInv h (init ++ x :: y :: back) live) (notBase : y ≠ h.base)
    (exact : h.size y = nunits) :
    Taken h live nunits (y + header, { h.setPtr x (h.ptr y) with freep := x }) y (init ++ x :: back) := by
  have circle := inv.circle
  have split : init ++ x :: y :: back = (init ++ [x]) ++ y :: back := by simp
  have leads := circle.leads
  rw [split] at leads
  have circle' := circle
  rw [split] at circle'
  have apart := circle'.apart
  have sublist : (init ++ x :: back).Sublist (init ++ x :: y :: back) :=
    ((List.sublist_cons_self y back).cons_cons x).append_left init
  rcases pairwise_split.mp circle.sorted with ⟨-, -, before, after, -⟩
  have initNe : ∀ w ∈ init, w ≠ x := fun w member => (before w member).lt.ne
  have backNe : ∀ w ∈ back, w ≠ x := fun w member =>
    (after w (List.mem_cons_of_mem y member)).lt.ne'
  have newLeads : Leads (Function.update h.ptr x (h.ptr y)) h.base (init ++ x :: back) h.base := by
    rcases leads_append.mp leads with ⟨c, first, second⟩
    have first' : Leads (Function.update h.ptr x (h.ptr y)) h.base (init ++ [x]) (h.ptr y) :=
      first.relink (Function.update_self ..) fun w member =>
        Function.update_of_ne (initNe w member) _ _
    have second' : Leads (Function.update h.ptr x (h.ptr y)) (h.ptr y) back h.base := by
      refine second.2.congr fun w member => ?_
      exact Function.update_of_ne (backNe w member) _ _
    have all := leads_append.mpr ⟨_, first', second'⟩
    rwa [List.append_assoc, List.singleton_append] at all
  have fromY : ∀ q ∈ init ++ x :: back, Apart h y q := by
    intro q member
    simp only [List.mem_append, List.mem_cons] at member
    rcases member with early | rfl | late
    · exact apart.1 q (by simp [early])
    · exact apart.1 q (by simp)
    · exact apart.2 q late
  have isFree : y ∈ init ++ x :: y :: back := by simp
  refine ⟨⟨⟨newLeads, by simp, circle.sorted.sublist sublist, circle.base, fun p member =>
    circle.sizes p (sublist.subset member), by simp⟩, ?_, ?_, ?_, fun a => ?_, inv.regions, inv.place⟩,
    rfl, exact, rfl, fun _ _ => rfl⟩
  · exact List.forall_mem_cons.mpr ⟨circle.sizes y isFree notBase, inv.liveSize⟩
  · exact List.pairwise_cons.mpr ⟨fun q member => apart_comm.mp (inv.freeApart q member y isFree),
      inv.liveApart⟩
  · exact List.forall_mem_cons.mpr ⟨fromY, fun p member q isFree =>
      inv.freeApart p member q (sublist.subset isFree)⟩
  · have cover := inv.cover a
    change InRegions h a ↔ InBlocks h (init ++ x :: back) a ∨ InBlocks h (y :: live) a
    rw [cover, inBlocks_append, inBlocks_cons, inBlocks_cons, inBlocks_append, inBlocks_cons, inBlocks_cons]
    tauto

theorem or_parts {p q r s t : Prop} : (p ∨ (q ∨ r) ∨ s) ∨ t ↔ (p ∨ r ∨ s) ∨ q ∨ t := by
  tauto

/-- What is cut from a block at its end. -/
structure Cut (h h' : Heap) (y z nunits : ℕ) : Prop where
  place : z + header * nunits = y + header * h.size y
  after : y < z
  rest : y + header * h'.size y = z
  positive : 0 < h'.size y
  new : h'.size z = nunits
  other : ∀ p, p ≠ y → p ≠ z → h'.size p = h.size p

theorem Cut.covers (cut : Cut h h' y z nunits) (a : ℕ) :
    Covers h y a ↔ Covers h' z a ∨ Covers h' y a := by
  rcases cut with ⟨place, after, rest, -, new, -⟩
  unfold Covers
  rw [new]
  omega

/-- A block that is apart from the one that is cut is apart from both parts. -/
theorem Cut.apart (cut : Cut h h' y z nunits) (apart : Apart h p y) (positive : 0 < nunits) :
    p ≠ y ∧ p ≠ z ∧ Apart h' z p ∧ Apart h' p y := by
  rcases cut with ⟨place, after, rest, remains, new, other⟩
  unfold Apart header at *
  have notY : p ≠ y := by
    rintro rfl
    omega
  have notZ : p ≠ z := by
    rintro rfl
    omega
  rw [new, other p notY notZ]
  omega

theorem Cut.sorted (cut : Cut h h' y z nunits) (positive : 0 < h.size y)
    (sorted : (init ++ y :: back).Pairwise (Before h)) :
    (∀ p ∈ init ++ y :: back, p ≠ z) ∧ (init ++ y :: back).Pairwise (Before h') := by
  rcases cut with ⟨place, later, rest, remains, new, other⟩
  rcases pairwise_split.mp sorted with ⟨first, second, before, after, between⟩
  have shrunk : extent h' y ≤ extent h y := by
    rw [extent_eq positive, extent_eq remains]
    omega
  have initNe : ∀ p ∈ init, p ≠ y ∧ p ≠ z := by
    intro p member
    have isBelow := (before p member).lt
    exact ⟨isBelow.ne, (isBelow.trans later).ne⟩
  have backNe : ∀ p ∈ back, p ≠ y ∧ p ≠ z := by
    intro p member
    have isAbove := after p member
    unfold Before at isAbove
    rw [extent_eq positive] at isAbove
    omega
  have initSame : ∀ p ∈ init, ∀ q, Before h' p q ↔ Before h p q := fun p member q =>
    before_congr (other p (initNe p member).1 (initNe p member).2)
  refine ⟨fun p member => ?_, pairwise_split.mpr ⟨?_, ?_, fun p member => ?_, fun q member => ?_,
    fun p member q member' => ?_⟩⟩
  · rcases List.mem_append.mp member with early | late
    · exact (initNe p early).2
    · rcases List.mem_cons.mp late with rfl | late
      · exact later.ne
      · exact (backNe p late).2
  · exact first.imp_of_mem fun {p q} member _ order => (initSame p member q).mpr order
  · exact second.imp_of_mem fun {p q} member _ order =>
      (before_congr (other p (backNe p member).1 (backNe p member).2)).mpr order
  · exact (initSame p member y).mpr (before p member)
  · have isAfter := after q member
    unfold Before at *
    omega
  · exact (initSame p member q).mpr (between p member q member')

/-- A block is cut into a free one and one for the program. -/
theorem Cut.heapInv (cut : Cut h h' y z nunits) (inv : HeapInv h (init ++ y :: back) live)
    (positive : 0 < nunits) (notEmpty : 0 < h.size y) (isPtr : h'.ptr = h.ptr) (isBase : h'.base = h.base)
    (isRegions : h'.regions = h.regions) (isFreep : h'.freep ∈ init ++ y :: back) :
    HeapInv h' (init ++ y :: back) (z :: live) ∧ ∀ p ∈ live, h'.size p = h.size p := by
  have circle := inv.circle
  have apart := circle.apart
  have isFree : y ∈ init ++ y :: back := by simp
  have notBase : y ≠ h.base := by
    rintro rfl
    rw [circle.base] at notEmpty
    omega
  rcases cut.sorted notEmpty circle.sorted with ⟨notZ, sorted⟩
  have liveCut : ∀ p ∈ live, p ≠ y ∧ p ≠ z ∧ Apart h' z p ∧ Apart h' p y := fun p member =>
    cut.apart (inv.freeApart p member y isFree) positive
  have liveSame : ∀ p ∈ live, h'.size p = h.size p := fun p member =>
    cut.other p (liveCut p member).1 (liveCut p member).2.1
  have freeSame : ∀ p ∈ init ++ y :: back, p ≠ y → h'.size p = h.size p := fun p member notY =>
    cut.other p notY (notZ p member)
  have freeCut : ∀ q ∈ init ++ y :: back, Apart h' z q := by
    intro q member
    by_cases isY : q = y
    · rw [isY]
      exact .inr cut.rest.le
    · have fromY : Apart h q y := by
        rw [apart_comm]
        simp only [List.mem_append, List.mem_cons] at member
        rcases member with early | same | late
        · exact apart.1 q early
        · exact absurd same isY
        · exact apart.2 q late
      exact (cut.apart fromY positive).2.2.1
  refine ⟨⟨⟨?_, circle.notEmpty, sorted, ?_, fun p member different => ?_, isFreep⟩, ?_, ?_, ?_,
    fun a => ?_, ?_, ?_⟩, liveSame⟩
  · rw [isPtr, isBase]
    exact circle.leads
  · rw [isBase, freeSame h.base circle.base_mem notBase.symm]
    exact circle.base
  · by_cases isY : p = y
    · exact isY ▸ cut.positive
    · rw [freeSame p member isY]
      exact circle.sizes p member fun isBase' => different (isBase'.trans isBase.symm)
  · refine List.forall_mem_cons.mpr ⟨?_, fun p member => ?_⟩
    · rw [cut.new]
      exact positive
    · rw [liveSame p member]
      exact inv.liveSize p member
  · refine List.pairwise_cons.mpr ⟨fun p member => (liveCut p member).2.2.1, ?_⟩
    exact inv.liveApart.imp_of_mem fun {p q} member member' order =>
      (apart_congr (liveSame p member) (liveSame q member')).mpr order
  · refine List.forall_mem_cons.mpr ⟨freeCut, fun p member q isFree => ?_⟩
    by_cases isY : q = y
    · exact isY ▸ (liveCut p member).2.2.2
    · exact (apart_congr (liveSame p member) (freeSame q isFree isY)).mpr
        (inv.freeApart p member q isFree)
  · have cover := inv.cover a
    rw [inBlocks_append, inBlocks_cons, cut.covers] at cover
    have inInit : InBlocks h' init a ↔ InBlocks h init a := inBlocks_congr (fun p member =>
      freeSame p (by simp [member]) (circle.lt.1 p member).ne) a
    have inBack : InBlocks h' back a ↔ InBlocks h back a := inBlocks_congr (fun p member =>
      freeSame p (by simp [member]) (circle.lt.2 p member).ne') a
    have inLive : InBlocks h' live a ↔ InBlocks h live a := inBlocks_congr liveSame a
    rw [inBlocks_append, inBlocks_cons, inBlocks_cons, inInit, inBack, inLive]
    unfold InRegions at *
    rw [isRegions, cover]
    exact or_parts
  · rw [isRegions, isBase]
    exact inv.regions
  · rw [isBase]
    exact inv.place

/-- The end of the block at `y` is taken. -/
theorem HeapInv.takeEnd (inv : HeapInv h (init ++ y :: back) live) (isPrev : x ∈ init ++ y :: back)
    (positive : 0 < nunits) (larger : nunits < h.size y)
    (isEnd : z = y + header * (h.size y - nunits)) :
    Taken h live nunits
      (z + header, { (h.setSize y (h.size y - nunits)).setSize z nunits with freep := x }) z
      (init ++ y :: back) := by
  have later : y < z := by
    unfold header at isEnd
    omega
  have sizeY : ((h.setSize y (h.size y - nunits)).setSize z nunits).size y = h.size y - nunits := by
    simp [Heap.setSize, Function.update_of_ne later.ne]
  have cut : Cut h { (h.setSize y (h.size y - nunits)).setSize z nunits with freep := x } y z nunits := by
    refine ⟨?_, later, ?_, ?_, by simp [Heap.setSize], fun p notY notZ => ?_⟩
    · unfold header at *
      omega
    · dsimp only
      rw [sizeY, isEnd]
    · dsimp only
      rw [sizeY]
      omega
    · simp [Heap.setSize, Function.update_of_ne notY, Function.update_of_ne notZ]
  rcases cut.heapInv inv positive (by omega) rfl rfl rfl isPrev with ⟨inv', same⟩
  exact ⟨inv', rfl, cut.new, rfl, same⟩

/-- `malloc` takes a block that it has found. -/
theorem HeapInv.take (inv : HeapInv h cells live) (isFree : z ∈ cells) (link : h.ptr z = y)
    (positive : 0 < nunits) (large : nunits ≤ h.size y) :
    ∃ p cells', Taken h live nunits (take nunits z y h) p cells' := by
  have circle := inv.circle
  have notBase : y ≠ h.base := by
    rintro rfl
    rw [circle.base] at large
    omega
  rcases List.append_of_mem isFree with ⟨init, rest, rfl⟩
  have isNext := circle.ptr
  cases rest with
  | nil => exact absurd (link.symm.trans isNext) notBase
  | cons y' back =>
      rw [List.headD_cons, link] at isNext
      subst isNext
      unfold User.take
      split
      · rename_i exact
        exact ⟨y, _, inv.takeWhole notBase exact⟩
      · have split : init ++ z :: y :: back = (init ++ [z]) ++ y :: back := by simp
        rw [split] at inv
        have taken := inv.takeEnd (x := z) (by simp) positive (by omega) rfl
        have own : (h.setSize y (h.size y - nunits)).size y = h.size y - nunits := by
          simp [Heap.setSize]
        refine ⟨y + header * (h.size y - nunits), init ++ [z] ++ y :: back, ?_⟩
        dsimp only
        rw [own]
        exact taken

/-! ## The search of `malloc` -/

theorem mallocLoop_found (large : nunits ≤ h.size p) :
    mallocLoop nunits (passes + 1) z p h = .ok (take nunits z p h) := by
  unfold mallocLoop
  rw [if_pos large]

theorem mallocLoop_next (small : h.size p < nunits) (notFreep : p ≠ h.freep) :
    mallocLoop nunits (passes + 1) z p h = mallocLoop nunits passes p (h.ptr p) h := by
  conv_lhs => unfold mallocLoop
  rw [if_neg (by omega), if_neg notFreep]

theorem mallocLoop_freep (small : h.size h.freep < nunits) :
    mallocLoop nunits (passes + 1) z h.freep h = (do
      match ← morecore nunits h with
      | (none, h) => return (0, h)
      | (some p, h) => mallocLoop nunits passes p (h.ptr p) h) := by
  conv_lhs => unfold mallocLoop
  have notLarge : ¬h.size h.freep ≥ nunits := by omega
  exact (if_neg notLarge).trans (if_pos rfl)

/-- The search takes the first block that is large enough. -/
theorem mallocLoop_finds (path : Leads h.ptr p (cells ++ [h.freep]) q) (notFreep : h.freep ∉ cells)
    (link : h.ptr z = p) (large : ∃ y ∈ cells ++ [h.freep], nunits ≤ h.size y)
    (enough : cells.length < passes) :
    ∃ x y, (x = z ∨ x ∈ cells) ∧ h.ptr x = y ∧ nunits ≤ h.size y ∧
      mallocLoop nunits passes z p h = .ok (take nunits x y h) := by
  induction cells generalizing z p passes with
  | nil =>
      rcases Nat.exists_eq_succ_of_ne_zero (by omega : passes ≠ 0) with ⟨passes, rfl⟩
      rcases large with ⟨y, member, large⟩
      rw [List.nil_append, List.mem_singleton] at member
      have isFreep : p = h.freep := path.1
      refine ⟨z, p, .inl rfl, link, ?_, mallocLoop_found ?_⟩
      · exact isFreep ▸ member ▸ large
      · exact isFreep ▸ member ▸ large
  | cons x cells ih =>
      rw [List.length_cons] at enough
      rcases Nat.exists_eq_succ_of_ne_zero (by omega : passes ≠ 0) with ⟨passes, rfl⟩
      rcases path with ⟨rfl, path⟩
      rw [List.mem_cons, not_or] at notFreep
      by_cases here : nunits ≤ h.size p
      · exact ⟨z, p, .inl rfl, link, here, mallocLoop_found here⟩
      · have later : ∃ y ∈ cells ++ [h.freep], nunits ≤ h.size y := by
          rcases large with ⟨y, member, large⟩
          rcases List.mem_cons.mp member with rfl | member
          · exact absurd large here
          · exact ⟨y, member, large⟩
        have less : cells.length < passes := by omega
        rcases ih path notFreep.2 rfl later less with ⟨x, y, member, link, large, found⟩
        refine ⟨x, y, .inr ?_, link, large, ?_⟩
        · rcases member with rfl | member
          · exact List.mem_cons_self
          · exact List.mem_cons_of_mem _ member
        · rw [mallocLoop_next (by omega) (Ne.symm notFreep.1)]
          exact found

/-- If every block is too small, the search arrives at `freep`. -/
theorem mallocLoop_arrives (path : Leads h.ptr p (cells ++ [h.freep]) q) (notFreep : h.freep ∉ cells)
    (small : ∀ y ∈ cells, h.size y < nunits) (passes : ℕ) :
    ∃ x, mallocLoop nunits (cells.length + passes) z p h = mallocLoop nunits passes x h.freep h := by
  induction cells generalizing z p with
  | nil =>
      have isFreep : p = h.freep := path.1
      exact ⟨z, by rw [List.length_nil, Nat.zero_add, isFreep]⟩
  | cons x cells ih =>
      rcases path with ⟨rfl, path⟩
      rw [List.mem_cons, not_or] at notFreep
      rcases ih path notFreep.2 (fun y member => small y (List.mem_cons_of_mem _ member)) with
        ⟨x, arrives⟩
      refine ⟨x, ?_⟩
      rw [List.length_cons, Nat.add_right_comm, mallocLoop_next (small p List.mem_cons_self)
        (Ne.symm notFreep.1)]
      exact arrives

/-! ## A new region -/

/-- The number of headers that `morecore` asks for. -/
def asked (nu : ℕ) : ℕ := max nu 4096

/-- `n` bytes at `q` that `sbrk` may return: above `base`, with a gap, and above all earlier regions. -/
structure Fresh (h : Heap) (n q : ℕ) : Prop where
  base : h.base + header < q
  regions : ∀ r ∈ h.regions, r.2 ≤ q
  below : q + n ≤ kernbase

/-- The heap with a new region, which is a block of its own. -/
def grown (h : Heap) (q n : ℕ) (answers : List (Option ℕ)) : Heap :=
  { h with answers, regions := h.regions ++ [(q, q + header * n)] }.setSize q n

theorem morecore_none {answers : List (Option ℕ)} (failed : h.answers = none :: answers) :
    morecore nu h = .ok (none, { h with answers }) := by
  unfold morecore sbrk
  rw [failed]
  rfl

theorem morecore_some {answers : List (Option ℕ)} (answer : h.answers = some q :: answers)
    (range : header * asked nu < 2 ^ 32) :
    morecore nu h = (do
      let h ← free (q + header) (grown h q (asked nu) answers)
      return (some h.freep, h)) := by
  have isAsked : (if nu < 4096 then 4096 else nu) = asked nu := by
    unfold asked
    split
    · omega
    · omega
  have noWrap : asked nu * header % 2 ^ 32 = header * asked nu := by
    rw [Nat.mul_comm, Nat.mod_eq_of_lt range]
  unfold morecore
  dsimp only
  rw [isAsked, noWrap]
  unfold sbrk
  rw [answer]
  rfl

/-- The blocks lie below a new region. -/
theorem HeapInv.below_fresh {n : ℕ} (inv : HeapInv h cells live) (fresh : Fresh h n q)
    (member : p ∈ cells ++ live) : p + header * h.size p ≤ q ∧ p < q := by
  by_cases empty : h.size p = 0
  · rcases List.mem_append.mp member with isFree | isLive
    · by_cases isBase : p = h.base
      · have above := fresh.base
        rw [empty, isBase]
        omega
      · have positive := inv.circle.sizes p isFree isBase
        omega
    · have positive := inv.liveSize p isLive
      omega
  · have covered : Covers h p (p + header * h.size p - 1) := by
      unfold Covers header
      omega
    have inRegions : InRegions h (p + header * h.size p - 1) := by
      rw [inv.cover]
      rcases List.mem_append.mp member with isFree | isLive
      · exact .inl ⟨p, isFree, covered⟩
      · exact .inr ⟨p, isLive, covered⟩
    rcases inRegions with ⟨r, isRegion, -, before⟩
    have isBelow := fresh.regions r isRegion
    unfold header at *
    omega

/-- A new region is a block that is not free yet. -/
theorem HeapInv.grown {n : ℕ} (inv : HeapInv h cells live) (fresh : Fresh h (header * n) q)
    (positive : 0 < n) (answers : List (Option ℕ)) :
    HeapInv (grown h q n answers) cells (q :: live) := by
  have circle := inv.circle
  have isBelow : ∀ p ∈ cells ++ live, p + header * h.size p ≤ q ∧ p < q := fun p member =>
    inv.below_fresh fresh member
  have same : ∀ p ∈ cells ++ live, (User.grown h q n answers).size p = h.size p := fun p member =>
    Function.update_of_ne (isBelow p member).2.ne _ _
  have own : (User.grown h q n answers).size q = n := Function.update_self ..
  have freeSame : ∀ p ∈ cells, (User.grown h q n answers).size p = h.size p := fun p member =>
    same p (List.mem_append_left live member)
  have liveSame : ∀ p ∈ live, (User.grown h q n answers).size p = h.size p := fun p member =>
    same p (List.mem_append_right cells member)
  have below : ∀ p ∈ cells ++ live, Apart (User.grown h q n answers) q p := by
    intro p member
    refine .inr ?_
    rw [same p member]
    exact (isBelow p member).1
  refine ⟨⟨circle.leads, circle.notEmpty, ?_, ?_, fun p member notBase => ?_, circle.freep⟩, ?_, ?_, ?_,
    fun a => ?_, fun r member => ?_, inv.place⟩
  · exact circle.sorted.imp_of_mem fun member _ order =>
      (before_congr (freeSame _ member)).mpr order
  · exact (freeSame h.base circle.base_mem).trans circle.base
  · rw [freeSame p member]
    exact circle.sizes p member notBase
  · refine List.forall_mem_cons.mpr ⟨own.symm ▸ positive, fun p member => ?_⟩
    rw [liveSame p member]
    exact inv.liveSize p member
  · refine List.pairwise_cons.mpr ⟨fun p member => below p (List.mem_append_right cells member), ?_⟩
    exact inv.liveApart.imp_of_mem fun member member' apart =>
      (apart_congr (liveSame _ member) (liveSame _ member')).mpr apart
  · refine List.forall_mem_cons.mpr ⟨fun p member => below p (List.mem_append_left live member),
      fun p member q isFree => ?_⟩
    exact (apart_congr (liveSame p member) (freeSame q isFree)).mpr (inv.freeApart p member q isFree)
  · have cover := inv.cover a
    have new : Covers (User.grown h q n answers) q a ↔ q ≤ a ∧ a < q + header * n := by
      unfold Covers
      rw [own]
    have all : InRegions (User.grown h q n answers) a ↔
        InRegions h a ∨ (q ≤ a ∧ a < q + header * n) := by
      unfold InRegions
      change (∃ r ∈ h.regions ++ [(q, q + header * n)], _) ↔ _
      simp only [List.mem_append, List.mem_singleton, or_and_right, exists_or, exists_eq_left]
    rw [all, cover, inBlocks_congr freeSame, inBlocks_cons, inBlocks_congr liveSame, new]
    tauto
  · rcases List.mem_append.mp member with old | new
    · exact inv.regions r old
    · rw [List.mem_singleton.mp new]
      exact ⟨fresh.base, fresh.below⟩

/-- `morecore` adds a region, in which there is room. -/
theorem HeapInv.morecore {answers : List (Option ℕ)} (inv : HeapInv h cells live)
    (answer : h.answers = some q :: answers) (fresh : Fresh h (header * asked nu) q) :
    ∃ h' cells', morecore nu h = .ok (some h'.freep, h') ∧ HeapInv h' cells' live ∧
      h'.base = h.base ∧ h'.answers = answers ∧ (∀ p ∈ live, h'.size p = h.size p) ∧
      ∃ p ∈ cells', nu ≤ h'.size p := by
  have positive : 0 < asked nu := by
    unfold asked
    omega
  have range : header * asked nu < 2 ^ 32 := by
    have below := fresh.below
    unfold kernbase at below
    omega
  have added := inv.grown fresh positive answers
  rcases added.free with ⟨h', cells', run, inv', rest, sizes, p, member, -, large⟩
  have own : (User.grown h q (asked nu) answers).size q = asked nu := Function.update_self ..
  refine ⟨h', cells', ?_, inv', ?_, ?_, fun p member => ?_, p, member, ?_⟩
  · rw [morecore_some answer range, run]
    rfl
  · rw [rest]
    rfl
  · rw [rest]
    rfl
  · rw [sizes p member]
    exact Function.update_of_ne (inv.below_fresh fresh (List.mem_append_right cells member)).2.ne _ _
  · rw [own] at large
    unfold asked at large
    omega

/-! ## `malloc` -/

/-- The way of `malloc` around the circle, which ends at `freep`. -/
theorem Circle.path (circle : Circle h cells) :
    ∃ todo, Leads h.ptr (h.ptr h.freep) (todo ++ [h.freep]) (h.ptr h.freep) ∧ h.freep ∉ todo ∧
      (∀ y, y ∈ todo ++ [h.freep] ↔ y ∈ cells) ∧ cells.length = todo.length + 1 := by
  rcases List.append_of_mem circle.freep with ⟨front, back, rfl⟩
  have leads := circle.leads.rotate
  rcases circle.lt with ⟨before, after⟩
  refine ⟨back ++ front, leads_append.mpr ⟨h.freep, leads.2, rfl, rfl⟩, fun member => ?_, fun y => ?_,
    ?_⟩
  · rcases List.mem_append.mp member with late | early
    · exact lt_irrefl _ (after h.freep late)
    · exact lt_irrefl _ (before h.freep early)
  · simp only [List.mem_append, List.mem_cons, List.not_mem_nil, or_false]
    tauto
  · simp only [List.length_append, List.length_cons]
    omega

theorem HeapInv.search (inv : HeapInv h cells live) (positive : 0 < nunits)
    (large : ∃ y ∈ cells, nunits ≤ h.size y) (enough : cells.length ≤ passes) :
    ∃ result p cells', mallocLoop nunits passes h.freep (h.ptr h.freep) h = .ok result ∧
      Taken h live nunits result p cells' := by
  rcases inv.circle.path with ⟨todo, path, notFreep, same, length⟩
  rcases large with ⟨y, isFree, large⟩
  have less : todo.length < passes := by omega
  rcases mallocLoop_finds path notFreep rfl ⟨y, (same y).mpr isFree, large⟩ less with
    ⟨x, y, member, link, large, found⟩
  have isCell : x ∈ cells := by
    rw [← same]
    rcases member with rfl | member
    · simp
    · simp [member]
  rcases inv.take isCell link positive large with ⟨p, cells', taken⟩
  exact ⟨_, p, cells', found, taken⟩

theorem HeapInv.arrives (inv : HeapInv h cells live) (small : ∀ y ∈ cells, h.size y < nunits)
    (passes : ℕ) :
    ∃ x, mallocLoop nunits (cells.length + passes) h.freep (h.ptr h.freep) h =
      mallocLoop nunits (passes + 1) x h.freep h := by
  rcases inv.circle.path with ⟨todo, path, notFreep, same, length⟩
  have small' : ∀ y ∈ todo, h.size y < nunits := fun y member =>
    small y ((same y).mp (List.mem_append_left _ member))
  rcases mallocLoop_arrives path notFreep small' (passes + 1) with ⟨x, arrives⟩
  refine ⟨x, ?_⟩
  rw [length, Nat.add_assoc, Nat.add_comm 1]
  exact arrives

/-- What `malloc` does: it returns 0 if `sbrk` fails, and otherwise a block. -/
inductive Allocated (h : Heap) (live : List ℕ) (nunits : ℕ) (answer : Option ℕ) : ℕ × Heap → Prop
  | failed (h' : Heap) (isNone : answer = none) (same : h' = { h with answers := [] }) :
      Allocated h live nunits answer (0, h')
  | block (h' : Heap) (p : ℕ) (cells : List ℕ) (inv : HeapInv h' cells (p :: live))
      (size : h'.size p = nunits) (base : h'.base = h.base)
      (sizes : ∀ q ∈ live, h'.size q = h.size q) :
      Allocated h live nunits answer (p + header, h')

theorem Taken.allocated {result : ℕ × Heap} {answer : Option ℕ} (taken : Taken h live nunits result p cells)
    (base : h.base = h'.base) (sizes : ∀ q ∈ live, h.size q = h'.size q) :
    Allocated h' live nunits answer result := by
  rcases result with ⟨ap, g⟩
  rcases taken with ⟨inv, pointer, size, rest, same⟩
  dsimp only at *
  subst pointer
  refine .block g p cells inv size ?_ fun q member => (same q member).trans (sizes q member)
  rw [rest]
  exact base

theorem HeapInv.mallocLoop {answer : Option ℕ} (inv : HeapInv h cells live) (positive : 0 < nunits)
    (answers : h.answers = [answer])
    (fresh : ∀ q, answer = some q → Fresh h (header * asked nunits) q) :
    ∃ result, mallocLoop nunits (2 * maxPasses) h.freep (h.ptr h.freep) h = .ok result ∧
      Allocated h live nunits answer result := by
  have few := inv.length_le
  by_cases large : ∃ y ∈ cells, nunits ≤ h.size y
  · have enough : cells.length ≤ 2 * maxPasses := by omega
    rcases inv.search positive large enough with ⟨result, p, cells', run, taken⟩
    exact ⟨result, run, taken.allocated rfl fun _ _ => rfl⟩
  · push Not at large
    have split : 2 * maxPasses = cells.length + (2 * maxPasses - cells.length) := by omega
    have left : maxPasses ≤ 2 * maxPasses - cells.length := by omega
    rw [split]
    generalize 2 * maxPasses - cells.length = passes at left
    rcases inv.arrives large passes with ⟨x, arrives⟩
    rw [arrives, mallocLoop_freep (large h.freep inv.circle.freep)]
    cases answer with
    | none =>
        rw [morecore_none answers]
        exact ⟨_, rfl, .failed _ rfl rfl⟩
    | some q =>
        rcases inv.morecore answers (fresh q rfl) with
          ⟨h', cells', run, inv', base, -, sizes, room⟩
        have few' := inv'.length_le
        rcases inv'.search positive room (few'.trans left) with ⟨result, p, cells'', found, taken⟩
        refine ⟨result, ?_, taken.allocated base sizes⟩
        rw [run]
        exact found

end Xv6.User
