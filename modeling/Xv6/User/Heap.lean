import Xv6.Lib.Fallible
import Xv6.Lib.LinkedPath
import Xv6.Lib.Transition

/-!
# The heap of a user program

`umalloc.c`. The free blocks form a circle through `base`, in the order of their addresses, and
`freep` points anywhere into it. Memory is the two fields of the headers at all addresses; addresses
are in bytes and sizes in headers, as in the source. Regions lie below `KERNBASE`, so that no address
wraps.
-/

namespace Xv6.User

open Fallible LinkedPath

/-- `sizeof(Header)` -/
abbrev header : ℕ := 8

/-- `KERNBASE` -/
abbrev kernbase : ℕ := 0x80000000

/-- The globals of `umalloc.c` and the memory. `answers` is what `sbrk` will return, and `regions`
are those it has returned, with their ends. -/
structure Heap where
  /-- `s.ptr` of a header -/
  ptr : ℕ → ℕ
  /-- `s.size` of a header -/
  size : ℕ → ℕ
  /-- the address of `base` -/
  base : ℕ
  freep : ℕ := 0
  answers : List (Option ℕ) := []
  regions : List (ℕ × ℕ) := []

inductive Fault where
  /-- a loop with more passes than there are headers -/
  | endless
  /-- `sbrk` is called again -/
  | unanswered
  deriving DecidableEq, Repr

def Heap.setPtr (h : Heap) (p q : ℕ) : Heap := { h with ptr := Function.update h.ptr p q }

def Heap.setSize (h : Heap) (p n : ℕ) : Heap := { h with size := Function.update h.size p n }

/-- The number of passes that a loop over the free list may make. -/
abbrev maxPasses : ℕ := 2 ^ 28

/-- The loop of `free` at `p`. -/
def freeLoop (h : Heap) (bp : ℕ) : ℕ → ℕ → Except Fault ℕ
  | 0, _ => .error .endless
  | passes + 1, p =>
      if bp > p ∧ bp < h.ptr p then .ok p
      else if p ≥ h.ptr p ∧ (bp > p ∨ bp < h.ptr p) then .ok p
      else freeLoop h bp passes (h.ptr p)

/-- The first `if` of `free`: the block is joined to the one after it. -/
def joinUpper (bp p : ℕ) (h : Heap) : Heap :=
  if bp + header * h.size bp = h.ptr p then
    let h := h.setSize bp (h.size bp + h.size (h.ptr p))
    h.setPtr bp (h.ptr (h.ptr p))
  else h.setPtr bp (h.ptr p)

/-- The second `if` of `free`: the block is joined to the one before it. -/
def joinLower (bp p : ℕ) (h : Heap) : Heap :=
  if p + header * h.size p = bp then
    let h := h.setSize p (h.size p + h.size bp)
    h.setPtr p (h.ptr bp)
  else h.setPtr p bp

def free (ap : ℕ) (h : Heap) : Except Fault Heap := do
  let bp := ap - header
  let p ← freeLoop h bp maxPasses h.freep
  let h := joinLower bp p (joinUpper bp p h)
  return { h with freep := p }

def sbrk (n : ℕ) (h : Heap) : Except Fault (Option ℕ × Heap) :=
  match h.answers with
  | [] => .error .unanswered
  | none :: answers => .ok (none, { h with answers })
  | some p :: answers => .ok (some p, { h with answers, regions := h.regions ++ [(p, p + n)] })

/-- The result is `none` for 0. -/
def morecore (nu : ℕ) (h : Heap) : Except Fault (Option ℕ × Heap) := do
  let nu := if nu < 4096 then 4096 else nu
  match ← sbrk (nu * header % 2 ^ 32) h with
  | (none, h) => return (none, h)
  | (some p, h) =>
      let h ← free (p + header) (h.setSize p nu)
      return (some h.freep, h)

/-- The block at `p` is large enough. -/
def take (nunits prevp p : ℕ) (h : Heap) : ℕ × Heap :=
  if h.size p = nunits then
    let h := h.setPtr prevp (h.ptr p)
    (p + header, { h with freep := prevp })
  else
    let h := h.setSize p (h.size p - nunits)
    let p := p + header * h.size p
    let h := h.setSize p nunits
    (p + header, { h with freep := prevp })

/-- The loop of `malloc` at `p`. -/
def mallocLoop (nunits : ℕ) : ℕ → ℕ → ℕ → Heap → Except Fault (ℕ × Heap)
  | 0, _, _, _ => .error .endless
  | passes + 1, prevp, p, h =>
      if h.size p ≥ nunits then .ok (take nunits prevp p h)
      else if p = h.freep then do
        match ← morecore nunits h with
        | (none, h) => return (0, h)
        | (some p, h) => mallocLoop nunits passes p (h.ptr p) h
      else mallocLoop nunits passes p (h.ptr p) h

/-- The number of headers that `malloc` needs for the bytes. -/
def units (nbytes : ℕ) : ℕ := (nbytes + header - 1) % 2 ^ 32 / header + 1

/-- The first lines of `malloc`: an empty list. -/
def start (h : Heap) : Heap :=
  if h.freep = 0 then ({ h with freep := h.base }.setPtr h.base h.base).setSize h.base 0 else h

def malloc (nbytes : ℕ) (h : Heap) : Except Fault (ℕ × Heap) :=
  let h := start h
  mallocLoop (units nbytes) (2 * maxPasses) h.freep (h.ptr h.freep) h

/-! ## The free list -/

/-- The bytes of a block. -/
def Covers (h : Heap) (p a : ℕ) : Prop := p ≤ a ∧ a < p + header * h.size p

/-- The bytes that a block keeps for itself; `base` has its header. -/
def extent (h : Heap) (p : ℕ) : ℕ := header * max 1 (h.size p)

/-- The block lies before another one and is not adjacent to it. -/
def Before (h : Heap) (p q : ℕ) : Prop := p + extent h p < q

/-- The free list: a circle of blocks in the order of their addresses, with a gap after each. -/
structure Circle (h : Heap) (cells : List ℕ) : Prop where
  leads : Leads h.ptr h.base cells h.base
  notEmpty : cells ≠ []
  sorted : cells.Pairwise (Before h)
  base : h.size h.base = 0
  sizes : ∀ p ∈ cells, p ≠ h.base → 0 < h.size p
  freep : h.freep ∈ cells

/-- Two blocks have no byte in common. -/
def Apart (h : Heap) (p q : ℕ) : Prop :=
  p + header * h.size p ≤ q ∨ q + header * h.size q ≤ p

/-- An address in one of the blocks. -/
def InBlocks (h : Heap) (cells : List ℕ) (a : ℕ) : Prop := ∃ p ∈ cells, Covers h p a

/-- The address lies in a region. -/
def InRegions (h : Heap) (a : ℕ) : Prop := ∃ r ∈ h.regions, r.1 ≤ a ∧ a < r.2

/-- The regions are divided into free blocks and live ones, which the program holds. -/
structure HeapInv (h : Heap) (cells live : List ℕ) : Prop where
  circle : Circle h cells
  liveSize : ∀ p ∈ live, 0 < h.size p
  liveApart : live.Pairwise (Apart h)
  freeApart : ∀ p ∈ live, ∀ q ∈ cells, Apart h p q
  cover : ∀ a, InRegions h a ↔ InBlocks h cells a ∨ InBlocks h live a
  regions : ∀ r ∈ h.regions, h.base + header < r.1 ∧ r.2 ≤ kernbase
  place : h.base + header ≤ kernbase

variable {h h' : Heap} {cells front back init live : List ℕ} {p q x bp passes : ℕ}

theorem header_le_extent (h : Heap) (p : ℕ) : header ≤ extent h p := by
  unfold extent header
  omega

theorem size_le_extent (h : Heap) (p : ℕ) : header * h.size p ≤ extent h p := by
  unfold extent header
  omega

theorem extent_eq (positive : 0 < h.size p) : extent h p = header * h.size p := by
  unfold extent header
  omega

theorem Before.lt (before : Before h p q) : p < q := by
  unfold Before at before
  omega

/-! ## The search of `free` -/

/-- The loop of `free` stops at the block. -/
def Stops (h : Heap) (bp p : ℕ) : Prop :=
  (bp > p ∧ bp < h.ptr p) ∨ (p ≥ h.ptr p ∧ (bp > p ∨ bp < h.ptr p))

theorem freeLoop_stop (stops : Stops h bp p) : freeLoop h bp (passes + 1) p = .ok p := by
  unfold freeLoop
  rcases stops with between | last
  · rw [if_pos between]
  · split
    · rfl
    · rfl

theorem freeLoop_next (goesOn : ¬Stops h bp p) :
    freeLoop h bp (passes + 1) p = freeLoop h bp passes (h.ptr p) := by
  unfold Stops at goesOn
  push Not at goesOn
  conv_lhs => unfold freeLoop
  rw [if_neg (by omega), if_neg (by omega)]

/-- The search ends at the only block on its path where it stops. -/
theorem freeLoop_leads (path : Leads h.ptr p cells q) (member : x ∈ cells) (stops : Stops h bp x)
    (only : ∀ y ∈ cells, Stops h bp y → y = x) (enough : cells.length ≤ passes) :
    freeLoop h bp passes p = .ok x := by
  induction cells generalizing p passes with
  | nil => exact absurd member List.not_mem_nil
  | cons y cells ih =>
      rcases path with ⟨rfl, path⟩
      rw [List.length_cons] at enough
      rcases Nat.exists_eq_succ_of_ne_zero (by omega : passes ≠ 0) with ⟨passes, rfl⟩
      by_cases here : Stops h bp p
      · rw [freeLoop_stop here, only p List.mem_cons_self here]
      · have later : x ∈ cells := by
          rcases List.mem_cons.mp member with rfl | later
          · exact absurd stops here
          · exact later
        rw [freeLoop_next here]
        exact ih path later (fun y member => only y (List.mem_cons_of_mem _ member)) (by omega)

/-- The blocks are sorted by their addresses. -/
theorem Circle.lt (circle : Circle h (front ++ x :: back)) :
    (∀ y ∈ front, y < x) ∧ ∀ z ∈ back, x < z := by
  have sorted := circle.sorted
  rw [List.pairwise_append, List.pairwise_cons] at sorted
  exact ⟨fun y member => (sorted.2.2 y member x List.mem_cons_self).lt,
    fun z member => (sorted.2.1.1 z member).lt⟩

theorem Circle.base_mem (circle : Circle h cells) : h.base ∈ cells := by
  rcases List.exists_cons_of_ne_nil circle.notEmpty with ⟨y, rest, rfl⟩
  rw [circle.leads.1]
  exact List.mem_cons_self

theorem Circle.base_le (circle : Circle h cells) (member : p ∈ cells) : h.base ≤ p := by
  rcases List.exists_cons_of_ne_nil circle.notEmpty with ⟨y, rest, rfl⟩
  rw [circle.leads.1]
  rcases List.mem_cons.mp member with rfl | later
  · exact le_rfl
  · exact ((List.pairwise_cons.mp circle.sorted).1 p later).lt.le

/-- The next block is the next in the list, or `base` after the last. -/
theorem Circle.ptr (circle : Circle h (front ++ x :: back)) : h.ptr x = back.headD h.base := by
  have rest := circle.leads.split_link.2
  cases back with
  | nil => exact rest
  | cons z back => exact rest.1

/-- The place of a number in a sorted list. -/
theorem sorted_place {first : ℕ} {rest : List ℕ} (sorted : (first :: rest).Pairwise (· < ·))
    (above : first < bp) (absent : bp ∉ rest) :
    ∃ init x back, first :: rest = init ++ x :: back ∧ (∀ y ∈ init, y < bp) ∧ x < bp ∧
      ∀ z ∈ back, bp < z := by
  induction rest generalizing first with
  | nil => exact ⟨[], first, [], rfl, by simp, above, by simp⟩
  | cons next rest ih =>
      rcases List.pairwise_cons.mp sorted with ⟨least, sorted⟩
      rw [List.mem_cons, not_or] at absent
      by_cases below : next < bp
      · rcases ih sorted below absent.2 with ⟨init, x, back, split, before, isBelow, after⟩
        refine ⟨first :: init, x, back, by rw [split]; rfl, fun y member => ?_, isBelow, after⟩
        rcases List.mem_cons.mp member with rfl | member
        · exact above
        · exact before y member
      · refine ⟨[], first, next :: rest, rfl, by simp, above, fun z member => ?_⟩
        have later : bp < next := by omega
        rcases List.mem_cons.mp member with rfl | member
        · exact later
        · exact later.trans ((List.pairwise_cons.mp sorted).1 z member)

/-- The place of a block that is not in the list. -/
theorem Circle.place (circle : Circle h cells) (above : h.base < bp) (absent : bp ∉ cells) :
    ∃ init x back, cells = init ++ x :: back ∧ (∀ y ∈ init, y < bp) ∧ x < bp ∧
      ∀ z ∈ back, bp < z := by
  have sorted : cells.Pairwise (· < ·) := circle.sorted.imp fun before => before.lt
  rcases List.exists_cons_of_ne_nil circle.notEmpty with ⟨y, rest, rfl⟩
  have first : h.base = y := circle.leads.1
  exact sorted_place sorted (first ▸ above) fun member => absent (List.mem_cons_of_mem y member)

/-- Where the search of `free` stops. -/
theorem Circle.stops_iff (circle : Circle h (init ++ x :: back)) (before : ∀ y ∈ init, y < bp)
    (below : x < bp) (above : ∀ z ∈ back, bp < z) (y : ℕ) (member : y ∈ init ++ x :: back) :
    Stops h bp y ↔ y = x := by
  have least := circle.base_le (p := x) (by simp)
  rcases List.mem_append.mp member with early | late
  · have different := (circle.lt.1 y early).ne
    rcases List.append_of_mem early with ⟨i₁, i₂, rfl⟩
    rw [List.append_assoc, List.cons_append] at circle
    have next := circle.ptr
    have after := circle.lt.2
    have goesOn : ¬Stops h bp y := by
      cases i₂ with
      | nil =>
          have greater := after x (by simp)
          simp only [List.nil_append, List.headD_cons] at next
          unfold Stops
          omega
      | cons y' i₂ =>
          have greater := after y' (by simp)
          have isBelow := before y' (by simp)
          simp only [List.cons_append, List.headD_cons] at next
          unfold Stops
          omega
    exact ⟨fun stops => absurd stops goesOn, fun same => absurd same different⟩
  · rcases List.mem_cons.mp late with rfl | late
    · have next := circle.ptr
      refine ⟨fun _ => rfl, fun _ => ?_⟩
      cases back with
      | nil =>
          rw [List.headD_nil] at next
          unfold Stops
          omega
      | cons z back =>
          have greater := above z (by simp)
          rw [List.headD_cons] at next
          unfold Stops
          omega
    · have different := (circle.lt.2 y late).ne'
      have isAbove := above y late
      rcases List.append_of_mem late with ⟨b₁, b₂, rfl⟩
      have split : init ++ x :: (b₁ ++ y :: b₂) = (init ++ x :: b₁) ++ y :: b₂ := by simp
      rw [split] at circle
      have next := circle.ptr
      have after := circle.lt.2
      have goesOn : ¬Stops h bp y := by
        cases b₂ with
        | nil =>
            rw [List.headD_nil] at next
            unfold Stops
            omega
        | cons z b₂ =>
            have greater := after z (by simp)
            rw [List.headD_cons] at next
            unfold Stops
            omega
      exact ⟨fun stops => absurd stops goesOn, fun same => absurd same different⟩

/-- The search of `free` finds the block before the one that is freed. -/
theorem Circle.freeLoop (circle : Circle h (init ++ x :: back)) (before : ∀ y ∈ init, y < bp)
    (below : x < bp) (above : ∀ z ∈ back, bp < z)
    (enough : (init ++ x :: back).length ≤ passes) :
    freeLoop h bp passes h.freep = .ok x := by
  rcases List.append_of_mem circle.freep with ⟨first, second, split⟩
  have leads := circle.leads
  rw [split] at leads
  have same : ∀ y, y ∈ h.freep :: second ++ first ↔ y ∈ init ++ x :: back := by
    intro y
    rw [split]
    simp only [List.mem_append, List.mem_cons]
    tauto
  refine freeLoop_leads leads.rotate ((same x).mpr (by simp)) ?_ ?_ ?_
  · exact (circle.stops_iff before below above x (by simp)).mpr rfl
  · intro y member stops
    exact (circle.stops_iff before below above y ((same y).mp member)).mp stops
  · rw [split] at enough
    simp only [List.length_append, List.length_cons] at enough ⊢
    omega

/-! ## Joining blocks -/

theorem inBlocks_cons (h : Heap) (p : ℕ) (cells : List ℕ) (a : ℕ) :
    InBlocks h (p :: cells) a ↔ Covers h p a ∨ InBlocks h cells a := by
  unfold InBlocks
  exact List.exists_mem_cons_iff ..

theorem inBlocks_append (h : Heap) (front back : List ℕ) (a : ℕ) :
    InBlocks h (front ++ back) a ↔ InBlocks h front a ∨ InBlocks h back a := by
  unfold InBlocks
  simp only [List.mem_append, or_and_right, exists_or]

theorem covers_congr (same : h'.size p = h.size p) (a : ℕ) : Covers h' p a ↔ Covers h p a := by
  unfold Covers
  rw [same]

theorem inBlocks_congr (same : ∀ p ∈ cells, h'.size p = h.size p) (a : ℕ) :
    InBlocks h' cells a ↔ InBlocks h cells a := by
  unfold InBlocks
  refine exists_congr fun p => and_congr_right fun member => covers_congr (same p member) a

/-- Only the links and sizes have changed. -/
def SameRest (h h' : Heap) : Prop := h' = { h with ptr := h'.ptr, size := h'.size }

/-- The block at `bp` is linked to the blocks of `rest`, all of them after it with a gap, and has the
same bytes together with them as before together with the blocks of `back`. -/
structure Upper (h : Heap) (bp : ℕ) (back : List ℕ) (h' : Heap) (rest : List ℕ) : Prop where
  suffix : rest <:+ back
  leads : Leads h'.ptr (h'.ptr bp) rest h.base
  gap : ∀ z ∈ rest, bp + header * h'.size bp < z
  grows : 0 < h'.size bp ∧ h.size bp ≤ h'.size bp
  ptr : ∀ p, p ≠ bp → h'.ptr p = h.ptr p
  size : ∀ p, p ≠ bp → h'.size p = h.size p
  same : SameRest h h'
  bytes : ∀ a, InBlocks h' (bp :: rest) a ↔ InBlocks h (bp :: back) a

theorem joinUpper_upper (leads : Leads h.ptr (h.ptr x) back h.base)
    (sorted : back.Pairwise (Before h)) (sizes : ∀ z ∈ back, 0 < h.size z)
    (above : ∀ z ∈ back, bp + header * h.size bp ≤ z) (positive : 0 < h.size bp)
    (base : h.base < bp) :
    ∃ rest, Upper h bp back (joinUpper bp x h) rest := by
  unfold joinUpper
  split
  · rename_i adjacent
    cases back with
    | nil =>
        -- `base` is below the block
        rw [leads_nil] at leads
        omega
    | cons q back =>
        rcases leads with ⟨rfl, leads⟩
        rcases List.pairwise_cons.mp sorted with ⟨before, -⟩
        have large : 0 < h.size (h.ptr x) := sizes _ List.mem_cons_self
        have isNext : h.ptr x ≠ bp := by
          unfold header at adjacent
          omega
        have notLater : ∀ z ∈ back, z ≠ bp := by
          intro z member
          have after := (before z member).lt
          unfold header at adjacent
          omega
        refine ⟨back, List.suffix_cons _ back, ?_, fun z member => ?_, ?_, ?_, ?_, rfl, fun a => ?_⟩
        · simp only [Heap.setPtr, Heap.setSize, Function.update_self]
          refine leads.congr fun z member => ?_
          exact Function.update_of_ne (notLater z member) _ _
        · have after := before z member
          unfold Before at after
          rw [extent_eq large] at after
          simp only [Heap.setPtr, Heap.setSize, Function.update_self]
          unfold header at *
          omega
        · simp only [Heap.setPtr, Heap.setSize, Function.update_self]
          omega
        · intro p other
          simp [Heap.setPtr, Heap.setSize, Function.update_of_ne other]
        · intro p other
          simp [Heap.setPtr, Heap.setSize, Function.update_of_ne other]
        · rw [inBlocks_cons, inBlocks_cons, inBlocks_cons, inBlocks_congr (h := h)]
          · simp only [Covers, Heap.setPtr, Heap.setSize, Function.update_self]
            rw [← or_assoc]
            apply or_congr_left
            unfold header at *
            omega
          · intro z member
            simp [Heap.setPtr, Heap.setSize, Function.update_of_ne (notLater z member)]
  · rename_i apart
    have notLater : ∀ z ∈ back, z ≠ bp := by
      intro z member
      have after := above z member
      unfold header at after
      omega
    refine ⟨back, List.suffix_rfl, ?_, fun z member => ?_, ⟨positive, le_rfl⟩, ?_, ?_, rfl,
      fun a => ?_⟩
    · simp only [Heap.setPtr, Function.update_self]
      refine leads.congr fun z member => ?_
      exact Function.update_of_ne (notLater z member) _ _
    · -- the first block of the rest is not adjacent, and the others come after it
      cases back with
      | nil => exact absurd member List.not_mem_nil
      | cons q back =>
          have first := above q List.mem_cons_self
          have notAdjacent : bp + header * h.size bp ≠ q := leads.1 ▸ apart
          change bp + header * h.size bp < z
          rcases List.mem_cons.mp member with rfl | later
          · omega
          · have after := ((List.pairwise_cons.mp sorted).1 z later).lt
            omega
    · intro p other
      simp [Heap.setPtr, Function.update_of_ne other]
    · intro p other
      rfl
    · exact inBlocks_congr (fun p member => rfl) a

/-- The block at `bp` is in the list, alone or as a part of the block before it. -/
structure Lower (h : Heap) (init : List ℕ) (x bp : ℕ) (rest : List ℕ) (h' : Heap) (cells : List ℕ) :
    Prop where
  shape : cells = init ++ x :: rest ∨ cells = init ++ x :: bp :: rest
  leads : Leads h'.ptr h.base cells h.base
  sorted : cells.Pairwise (Before h')
  base : h'.size h.base = 0
  sizes : ∀ p ∈ cells, p ≠ h.base → 0 < h'.size p
  size : ∀ p, p ≠ x → p ≠ bp → h'.size p = h.size p
  same : SameRest h h'
  bytes : ∀ a, InBlocks h' cells a ↔ InBlocks h (init ++ x :: bp :: rest) a
  large : ∃ p ∈ cells, p ≠ h.base ∧ h.size bp ≤ h'.size p

theorem before_congr (same : h'.size p = h.size p) : Before h' p q ↔ Before h p q := by
  unfold Before extent
  rw [same]

/-- The order of the blocks of a list, split at one of them. -/
theorem pairwise_split {R : ℕ → ℕ → Prop} : (init ++ x :: back).Pairwise R ↔
    init.Pairwise R ∧ back.Pairwise R ∧ (∀ y ∈ init, R y x) ∧ (∀ z ∈ back, R x z) ∧
      ∀ y ∈ init, ∀ z ∈ back, R y z := by
  rw [List.pairwise_append, List.pairwise_cons]
  constructor
  · rintro ⟨first, ⟨after, second⟩, between⟩
    exact ⟨first, second, fun y member => between y member x List.mem_cons_self, after,
      fun y member z later => between y member z (List.mem_cons_of_mem x later)⟩
  · rintro ⟨first, second, before, after, between⟩
    refine ⟨first, ⟨after, second⟩, fun y member z later => ?_⟩
    rcases List.mem_cons.mp later with rfl | later
    · exact before y member
    · exact between y member z later

/-- What `joinLower` finds: `x` is the block before the one at `bp`. -/
structure Neighbours (h : Heap) (init : List ℕ) (x bp : ℕ) (rest : List ℕ) : Prop where
  leads : ∃ q, Leads h.ptr h.base (init ++ [x]) q
  leads' : Leads h.ptr (h.ptr bp) rest h.base
  sorted : (init ++ x :: rest).Pairwise (Before h)
  baseSize : h.size h.base = 0
  sizes : ∀ p ∈ init ++ x :: rest, p ≠ h.base → 0 < h.size p
  below : x + extent h x ≤ bp
  gap : ∀ z ∈ rest, bp + header * h.size bp < z
  positive : 0 < h.size bp
  base : h.base + header < bp

theorem Neighbours.init_ne {rest : List ℕ} (neighbours : Neighbours h init x bp rest) :
    ∀ y ∈ init, y ≠ x := by
  intro y member
  exact ((pairwise_split.mp neighbours.sorted).2.2.1 y member).lt.ne

theorem Neighbours.rest_ne {rest : List ℕ} (neighbours : Neighbours h init x bp rest) :
    ∀ z ∈ rest, z ≠ x := by
  intro z member
  exact ((pairwise_split.mp neighbours.sorted).2.2.2.1 z member).lt.ne'

theorem Neighbours.ne {rest : List ℕ} (neighbours : Neighbours h init x bp rest) : x ≠ bp := by
  have below := neighbours.below
  have atLeast := header_le_extent h x
  unfold header at atLeast
  omega

/-- The block is joined to the one before it. -/
theorem Neighbours.join {rest : List ℕ} (neighbours : Neighbours h init x bp rest)
    (adjacent : x + header * h.size x = bp) :
    Lower h init x bp rest ((h.setSize x (h.size x + h.size bp)).setPtr x (h.ptr bp))
      (init ++ x :: rest) := by
  have notBase : x ≠ h.base := by
    rintro rfl
    have base := neighbours.base
    rw [neighbours.baseSize] at adjacent
    omega
  have size : ∀ p, p ≠ x →
      ((h.setSize x (h.size x + h.size bp)).setPtr x (h.ptr bp)).size p = h.size p := by
    intro p different
    simp [Heap.setPtr, Heap.setSize, Function.update_of_ne different]
  have own : ((h.setSize x (h.size x + h.size bp)).setPtr x (h.ptr bp)).size x =
      h.size x + h.size bp := by
    simp [Heap.setPtr, Heap.setSize]
  have notInit := neighbours.init_ne
  have notRest := neighbours.rest_ne
  refine ⟨.inl rfl, ?_, ?_, ?_, ?_, fun p different _ => size p different, rfl, fun a => ?_, ?_⟩
  · rcases neighbours.leads with ⟨q, leads⟩
    have first : Leads (Function.update h.ptr x (h.ptr bp)) h.base (init ++ [x]) (h.ptr bp) :=
      leads.relink (Function.update_self ..) fun y member =>
        Function.update_of_ne (notInit y member) _ _
    have second : Leads (Function.update h.ptr x (h.ptr bp)) (h.ptr bp) rest h.base := by
      refine neighbours.leads'.congr fun z member => ?_
      exact Function.update_of_ne (notRest z member) _ _
    have all := leads_append.mpr ⟨_, first, second⟩
    rwa [List.append_assoc, List.singleton_append] at all
  · rcases pairwise_split.mp neighbours.sorted with ⟨first, second, before, after, between⟩
    refine pairwise_split.mpr ⟨?_, ?_, fun y member => ?_, fun z member => ?_, fun y member z later => ?_⟩
    · exact first.imp_of_mem fun member _ order => (before_congr (size _ (notInit _ member))).mpr order
    · exact second.imp_of_mem fun member _ order => (before_congr (size _ (notRest _ member))).mpr order
    · exact (before_congr (size y (notInit y member))).mpr (before y member)
    · have gap := neighbours.gap z member
      have positive := neighbours.positive
      unfold Before
      rw [extent_eq (by omega), own]
      unfold header at *
      omega
    · exact (before_congr (size y (notInit y member))).mpr (between y member z later)
  · exact (size _ notBase.symm).trans neighbours.baseSize
  · intro p member different
    by_cases isX : p = x
    · have positive := neighbours.positive
      rw [isX, own]
      omega
    · rw [size p isX]
      exact neighbours.sizes p member different
  · rw [inBlocks_append, inBlocks_append, inBlocks_cons, inBlocks_cons, inBlocks_cons,
      inBlocks_congr fun y member => size y (notInit y member),
      inBlocks_congr fun z member => size z (notRest z member), ← or_assoc (a := Covers h x a)]
    apply or_congr_right
    apply or_congr_left
    unfold Covers
    rw [own]
    unfold header at *
    omega
  · exact ⟨x, by simp, notBase, by rw [own]; omega⟩

/-- The block is linked after the one before it. -/
theorem Neighbours.link {rest : List ℕ} (neighbours : Neighbours h init x bp rest)
    (apart : x + header * h.size x ≠ bp) :
    Lower h init x bp rest (h.setPtr x bp) (init ++ x :: bp :: rest) := by
  have notInit := neighbours.init_ne
  have notRest := neighbours.rest_ne
  have positive := neighbours.positive
  have base := neighbours.base
  refine ⟨.inr rfl, ?_, ?_, neighbours.baseSize, ?_, fun p _ _ => rfl, rfl,
    inBlocks_congr fun p member => rfl, ?_⟩
  · rcases neighbours.leads with ⟨q, leads⟩
    have first : Leads (Function.update h.ptr x bp) h.base (init ++ [x]) bp :=
      leads.relink (Function.update_self ..) fun y member =>
        Function.update_of_ne (notInit y member) _ _
    have second : Leads (Function.update h.ptr x bp) bp (bp :: rest) h.base := by
      refine ⟨rfl, ?_⟩
      rw [Function.update_of_ne neighbours.ne.symm]
      refine neighbours.leads'.congr fun z member => ?_
      exact Function.update_of_ne (notRest z member) _ _
    have all := leads_append.mpr ⟨_, first, second⟩
    rwa [List.append_assoc, List.singleton_append] at all
  · rcases pairwise_split.mp neighbours.sorted with ⟨first, second, before, after, between⟩
    have strict : Before h x bp := by
      have below := neighbours.below
      unfold Before
      by_cases isBase : x = h.base
      · have one : extent h x = header := by
          rw [isBase, extent, neighbours.baseSize]
          rfl
        rw [one, isBase]
        exact base
      · rw [extent_eq (neighbours.sizes x (by simp) isBase)] at below ⊢
        omega
    have earlier : ∀ y ∈ init, Before h y bp := by
      intro y member
      have order := before y member
      have later := strict.lt
      unfold Before at *
      omega
    have later : ∀ z ∈ rest, Before h bp z := by
      intro z member
      unfold Before
      rw [extent_eq positive]
      exact neighbours.gap z member
    refine pairwise_split.mpr ⟨first, List.pairwise_cons.mpr ⟨later, second⟩, before,
      List.forall_mem_cons.mpr ⟨strict, after⟩, fun y member => ?_⟩
    exact List.forall_mem_cons.mpr ⟨earlier y member, between y member⟩
  · intro p member different
    by_cases isBp : p = bp
    · exact isBp ▸ positive
    · apply neighbours.sizes p ?_ different
      simp only [List.mem_append, List.mem_cons] at member ⊢
      tauto
  · exact ⟨bp, by simp, by omega, le_rfl⟩

theorem Neighbours.lower {rest : List ℕ} (neighbours : Neighbours h init x bp rest) :
    ∃ cells, Lower h init x bp rest (joinLower bp x h) cells := by
  unfold joinLower
  split
  · rename_i adjacent
    exact ⟨_, neighbours.join adjacent⟩
  · rename_i apart
    exact ⟨_, neighbours.link apart⟩

/-! ## `free` -/

theorem apart_comm : Apart h p q ↔ Apart h q p := Or.comm

theorem not_apart_self (positive : 0 < h.size p) : ¬Apart h p p := by
  unfold Apart header
  omega

/-- Blocks without a common byte are apart. -/
theorem apart_of_bytes (positive : 0 < h.size p) (positive' : 0 < h.size q)
    (bytes : ∀ a, Covers h p a → ¬Covers h q a) : Apart h p q := by
  by_contra overlap
  unfold Apart at overlap
  push Not at overlap
  have common := bytes (max p q)
  unfold Covers header at *
  omega

theorem Apart.bytes (apart : Apart h p q) (a : ℕ) (covers : Covers h p a) : ¬Covers h q a := by
  unfold Apart Covers header at *
  omega

/-- A block that is not empty lies between `base` and `KERNBASE`. -/
theorem HeapInv.bounds (inv : HeapInv h cells live) (member : p ∈ cells ++ live)
    (positive : 0 < h.size p) : h.base + header < p ∧ p + header * h.size p ≤ kernbase := by
  have inside : ∀ a, Covers h p a → h.base + header < a ∧ a < kernbase := by
    intro a covers
    have inRegions : InRegions h a := by
      rw [inv.cover]
      rcases List.mem_append.mp member with isFree | isLive
      · exact .inl ⟨p, isFree, covers⟩
      · exact .inr ⟨p, isLive, covers⟩
    rcases inRegions with ⟨r, isRegion, after, before⟩
    have bounds := inv.regions r isRegion
    omega
  have first := inside p (by unfold Covers header; omega)
  have last := inside (p + header * h.size p - 1) (by unfold Covers header; omega)
  unfold header at *
  omega

/-- There are fewer blocks than headers fit below `KERNBASE`. -/
theorem sorted_length (lo hi : ℕ) (sorted : cells.Pairwise (Before h))
    (inside : ∀ p ∈ cells, lo ≤ p ∧ p + header ≤ hi) (range : lo ≤ hi) :
    header * cells.length ≤ hi - lo := by
  induction cells generalizing lo with
  | nil => exact Nat.zero_le _
  | cons p cells ih =>
      rcases List.pairwise_cons.mp sorted with ⟨before, sorted⟩
      have first := inside p List.mem_cons_self
      have rest := ih (p + header) sorted (fun q member => ?_) first.2
      · rw [List.length_cons]
        unfold header at *
        omega
      · have after := before q member
        have atLeast := header_le_extent h p
        have bounds := inside q (List.mem_cons_of_mem p member)
        unfold Before at after
        omega

theorem HeapInv.length_le (inv : HeapInv h cells live) : cells.length ≤ maxPasses := by
  have inside : ∀ p ∈ cells, 0 ≤ p ∧ p + header ≤ kernbase := by
    intro p member
    refine ⟨Nat.zero_le p, ?_⟩
    by_cases isBase : p = h.base
    · exact isBase ▸ inv.place
    · have positive := inv.circle.sizes p member isBase
      have bounds := inv.bounds (List.mem_append_left live member) positive
      unfold header at *
      omega
  have few := sorted_length 0 kernbase inv.circle.sorted inside (Nat.zero_le _)
  unfold header kernbase at few
  unfold maxPasses
  omega

/-- The block that is freed and the list around its place. -/
structure Freeing (h : Heap) (init : List ℕ) (x : ℕ) (back live : List ℕ) (bp : ℕ) : Prop where
  inv : HeapInv h (init ++ x :: back) (bp :: live)
  before : ∀ y ∈ init, y < bp
  below : x < bp
  above : ∀ z ∈ back, bp < z

section Freeing

variable {rest : List ℕ}

theorem Freeing.positive (freeing : Freeing h init x back live bp) : 0 < h.size bp :=
  freeing.inv.liveSize bp List.mem_cons_self

theorem Freeing.base (freeing : Freeing h init x back live bp) : h.base + header < bp :=
  (freeing.inv.bounds (List.mem_append_right _ List.mem_cons_self) freeing.positive).1

theorem Freeing.upper (freeing : Freeing h init x back live bp) :
    ∃ rest, Upper h bp back (joinUpper bp x h) rest := by
  have circle := freeing.inv.circle
  have base := freeing.base
  have least := circle.base_le (p := x) (by simp)
  rcases pairwise_split.mp circle.sorted with ⟨-, sorted, -, after, -⟩
  refine joinUpper_upper circle.leads.split_link.2 sorted (fun z member => ?_) (fun z member => ?_)
    freeing.positive (by omega)
  · have later := (after z member).lt
    exact circle.sizes z (by simp [member]) (by omega)
  · have isAbove := freeing.above z member
    have apart := freeing.inv.freeApart bp List.mem_cons_self z (by simp [member])
    unfold Apart at apart
    omega

theorem Freeing.neighbours (freeing : Freeing h init x back live bp)
    (upper : Upper h bp back h' rest) : Neighbours h' init x bp rest := by
  have circle := freeing.inv.circle
  have base := freeing.base
  have isBase : h'.base = h.base := by rw [upper.same]
  have notBp : ∀ p ∈ init ++ x :: rest, p ≠ bp := by
    intro p member
    rcases List.mem_append.mp member with early | late
    · exact (freeing.before p early).ne
    · rcases List.mem_cons.mp late with rfl | late
      · exact freeing.below.ne
      · exact (freeing.above p (upper.suffix.subset late)).ne'
  have sublist : (init ++ x :: rest).Sublist (init ++ x :: back) :=
    (upper.suffix.sublist.cons_cons x).append_left init
  have leads : Leads h'.ptr h.base (init ++ [x]) (h.ptr x) := by
    refine circle.leads.split_link.1.congr fun y member => upper.ptr y (notBp y ?_)
    rcases List.mem_append.mp member with early | isX
    · simp [early]
    · simp [List.mem_singleton.mp isX]
  refine ⟨⟨_, isBase ▸ leads⟩, isBase ▸ upper.leads, ?_, ?_,
    fun p member different => ?_, ?_, upper.gap, upper.grows.1, isBase ▸ base⟩
  · exact (circle.sorted.sublist sublist).imp_of_mem fun member _ order =>
      (before_congr (upper.size _ (notBp _ member))).mpr order
  · rw [isBase, upper.size _ (by omega)]
    exact circle.base
  · rw [upper.size p (notBp p member)]
    exact circle.sizes p (sublist.subset member) (isBase ▸ different)
  · have same : extent h' x = extent h x := by
      unfold extent
      rw [upper.size x freeing.below.ne]
    have isBelow := freeing.below
    rw [same]
    by_cases first : x = h.base
    · have one : extent h x = header := by
        rw [first, extent, circle.base]
        rfl
      omega
    · have apart := freeing.inv.freeApart bp List.mem_cons_self x (by simp)
      rw [extent_eq (circle.sizes x (by simp) first)]
      unfold Apart at apart
      omega

/-- The list with the block in it has the bytes of both. -/
theorem Freeing.bytes {h₂ : Heap} {cells : List ℕ} (freeing : Freeing h init x back live bp)
    (upper : Upper h bp back h' rest) (lower : Lower h' init x bp rest h₂ cells) (a : ℕ) :
    InBlocks h₂ cells a ↔ Covers h bp a ∨ InBlocks h (init ++ x :: back) a := by
  have initSize : ∀ y ∈ init, h'.size y = h.size y := fun y member =>
    upper.size y (freeing.before y member).ne
  have joined := upper.bytes a
  rw [inBlocks_cons, inBlocks_cons] at joined
  rw [lower.bytes, inBlocks_append, inBlocks_append, inBlocks_cons, inBlocks_cons, inBlocks_cons,
    joined, inBlocks_congr initSize, covers_congr (upper.size x freeing.below.ne)]
  tauto

/-- No other block changes its size. -/
theorem Freeing.size {h₂ : Heap} {cells : List ℕ} (freeing : Freeing h init x back live bp)
    (upper : Upper h bp back h' rest) (lower : Lower h' init x bp rest h₂ cells) :
    ∀ p ∈ live, h₂.size p = h.size p := by
  intro p member
  have positive := freeing.inv.liveSize p (List.mem_cons_of_mem bp member)
  have notBp : p ≠ bp := by
    rintro rfl
    exact not_apart_self positive ((List.pairwise_cons.mp freeing.inv.liveApart).1 p member)
  have notX : p ≠ x := by
    rintro rfl
    exact not_apart_self positive
      (freeing.inv.freeApart p (List.mem_cons_of_mem bp member) p (by simp))
  rw [lower.size p notX notBp, upper.size p notBp]

theorem Freeing.heapInv {h₂ : Heap} {cells : List ℕ} (freeing : Freeing h init x back live bp)
    (upper : Upper h bp back h' rest) (lower : Lower h' init x bp rest h₂ cells) :
    HeapInv { h₂ with freep := x } cells live := by
  have sizes := freeing.size upper lower
  have isBase : h₂.base = h.base := by rw [lower.same, upper.same]
  have isBase' : h'.base = h.base := by rw [upper.same]
  have regions : h₂.regions = h.regions := by rw [lower.same, upper.same]
  have inLive : ∀ a, InBlocks h₂ live a ↔ InBlocks h live a := fun a => inBlocks_congr sizes a
  have liveSize : ∀ p ∈ live, 0 < h₂.size p := by
    intro p member
    rw [sizes p member]
    exact freeing.inv.liveSize p (List.mem_cons_of_mem bp member)
  have notEmpty : cells ≠ [] := by rcases lower.shape with rfl | rfl <;> simp
  have hasX : x ∈ cells := by rcases lower.shape with rfl | rfl <;> simp
  rcases List.pairwise_cons.mp freeing.inv.liveApart with ⟨fromBp, liveApart⟩
  refine ⟨⟨?_, notEmpty, lower.sorted, ?_, ?_, hasX⟩, liveSize, ?_, fun p isLive q isFree => ?_,
    fun a => ?_, ?_, ?_⟩
  · exact (isBase.trans isBase'.symm).symm ▸ lower.leads
  · exact (isBase.trans isBase'.symm).symm ▸ lower.base
  · intro p member different
    exact lower.sizes p member fun same => different (same.trans (isBase'.trans isBase.symm))
  · refine liveApart.imp_of_mem fun member member' apart => ?_
    unfold Apart at *
    change _ + header * h₂.size _ ≤ _ ∨ _ + header * h₂.size _ ≤ _
    rw [sizes _ member, sizes _ member']
    exact apart
  · by_cases first : q = h'.base
    · have bounds := freeing.inv.bounds
        (List.mem_append_right _ (List.mem_cons_of_mem bp isLive))
        (freeing.inv.liveSize p (List.mem_cons_of_mem bp isLive))
      refine .inr ?_
      change q + header * h₂.size q ≤ p
      rw [first, lower.base, isBase']
      unfold header at *
      omega
    · refine apart_of_bytes (h := h₂) (liveSize p isLive) (lower.sizes q isFree first) ?_
      intro a covers covers'
      rw [covers_congr (sizes p isLive)] at covers
      have inside := (freeing.bytes upper lower a).mp ⟨q, isFree, covers'⟩
      rcases inside with inBp | ⟨r, isOld, inOld⟩
      · exact (fromBp p isLive).bytes a inBp covers
      · exact (freeing.inv.freeApart p (List.mem_cons_of_mem bp isLive) r isOld).bytes a covers inOld
  · have cover := freeing.inv.cover a
    rw [inBlocks_cons] at cover
    have inCells := freeing.bytes upper lower a
    change InRegions h₂ a ↔ InBlocks h₂ cells a ∨ InBlocks h₂ live a
    rw [inCells, inLive]
    unfold InRegions at *
    rw [regions, cover]
    tauto
  · change ∀ r ∈ h₂.regions, h₂.base + header < r.1 ∧ r.2 ≤ kernbase
    rw [regions, isBase]
    exact freeing.inv.regions
  · change h₂.base + header ≤ kernbase
    rw [isBase]
    exact freeing.inv.place

end Freeing

/-- `free` puts the block into the list. -/
theorem HeapInv.free (inv : HeapInv h cells (bp :: live)) :
    ∃ h' cells', free (bp + header) h = .ok h' ∧ HeapInv h' cells' live ∧
      h' = { h with ptr := h'.ptr, size := h'.size, freep := h'.freep } ∧
      (∀ p ∈ live, h'.size p = h.size p) ∧ ∃ p ∈ cells', p ≠ h.base ∧ h.size bp ≤ h'.size p := by
  have circle := inv.circle
  have positive := inv.liveSize bp List.mem_cons_self
  have bounds := inv.bounds (List.mem_append_right cells List.mem_cons_self) positive
  have absent : bp ∉ cells := fun member =>
    not_apart_self positive (inv.freeApart bp List.mem_cons_self bp member)
  rcases circle.place (by omega : h.base < bp) absent with ⟨init, x, back, rfl, before, below, above⟩
  have freeing : Freeing h init x back live bp := ⟨inv, before, below, above⟩
  rcases freeing.upper with ⟨rest, upper⟩
  rcases (freeing.neighbours upper).lower with ⟨cells', lower⟩
  have sizes := freeing.size upper lower
  refine ⟨{ joinLower bp x (joinUpper bp x h) with freep := x }, cells', ?_,
    freeing.heapInv upper lower, ?_, sizes, ?_⟩
  · unfold User.free
    rw [Nat.add_sub_cancel]
    dsimp only
    rw [circle.freeLoop before below above inv.length_le, bind_ok]
    rfl
  · rw [lower.same, upper.same]
  · rcases lower.large with ⟨p, member, notBase, large⟩
    have isBase : (joinUpper bp x h).base = h.base := by rw [upper.same]
    exact ⟨p, member, isBase ▸ notBase, upper.grows.2.trans large⟩

end Xv6.User
