import Xv6.User.Malloc

/-!
# A program that uses the heap

The program calls `malloc` and `free` in any order and writes to the blocks that it holds, and `sbrk`
fails or gives it a new region each time that it is asked.
-/

namespace Xv6.User

open Fallible LinkedPath

structure Program where
  heap : Heap
  /-- the blocks that the program holds -/
  live : List ℕ := []

inductive Event where
  /-- `malloc(nbytes)`; `sbrk` gives the answer if it is asked -/
  | malloc (nbytes : ℕ) (answer : Option ℕ)
  /-- `free` of a block -/
  | free (p : ℕ)
  /-- the program writes to memory -/
  | store (ptr size : ℕ → ℕ)

def Program.perform (w : Program) : Event → Except Fault Program
  | .malloc nbytes answer => do
      let (ap, heap) ← User.malloc nbytes { w.heap with answers := [answer] }
      return { heap, live := if ap = 0 then w.live else (ap - header) :: w.live }
  | .free p => do
      let heap ← User.free (p + header) w.heap
      return { heap, live := w.live.erase p }
  | .store ptr size => .ok { w with heap := { w.heap with ptr, size } }

/-- The program frees only what it holds and writes only to that. `nbytes` leaves room for the
rounding in an `int`. -/
def Admissible (w : Program) : Event → Prop
  | .malloc nbytes answer => nbytes < 2 ^ 31 - 2 ^ 16 ∧
      ∀ q, answer = some q → Fresh w.heap (header * asked (units nbytes)) q
  | .free p => p ∈ w.live
  | .store ptr size => ∀ a, (∀ p ∈ w.live, a ≤ p ∨ p + header * w.heap.size p ≤ a) →
      ptr a = w.heap.ptr a ∧ size a = w.heap.size a

/-- The program before its first call. -/
def load (ptr size : ℕ → ℕ) (base : ℕ) : Program := { heap := { ptr, size, base } }

/-- The runs of the program. -/
def Reach (ptr size : ℕ → ℕ) (base : ℕ) : Program → Prop :=
  Transition.Reachable (fun w e w' => w.perform e = .ok w') Admissible (load ptr size base)

/-- The free list, from `base` to `freep` and from there around, and the blocks that the program
holds. -/
structure Organized (h : Heap) (front back live : List ℕ) : Prop where
  circle : Leads h.ptr h.freep (h.freep :: back ++ front) h.freep
  base : (front ++ h.freep :: back).head? = some h.base
  increasing : (front ++ h.freep :: back).Pairwise (Before h)
  apart : ∀ p ∈ live, ∀ q ∈ front ++ h.freep :: back, Apart h p q
  liveApart : live.Pairwise (Apart h)
  cover : ∀ a, InRegions h a ↔ InBlocks h (front ++ h.freep :: back) a ∨ InBlocks h live a
  regions : ∀ r ∈ h.regions, h.base + header < r.1

/-- A block for `nbytes` bytes that is apart from those the program holds, which keep their sizes. -/
structure NewBlock (h h' : Heap) (live : List ℕ) (nbytes p : ℕ) : Prop where
  apart : ∀ q ∈ live, Apart h' p q
  size : nbytes + header ≤ header * h'.size p
  obtained : ∀ a, Covers h' p a → InRegions h' a
  same : ∀ q ∈ live, h'.size q = h.size q

/-- What is true of the heap at every time. -/
structure UserHeap (w : Program) : Prop where
  organized : (w.heap.freep = 0 ∧ w.heap.regions = [] ∧ w.live = []) ∨
    ∃ front back, Organized w.heap front back w.live
  malloc : ∀ nbytes answer, Admissible w (.malloc nbytes answer) →
    ∃ ap h', User.malloc nbytes { w.heap with answers := [answer] } = .ok (ap, h') ∧
      (ap = 0 → answer = none ∧ h'.answers = []) ∧
      (ap ≠ 0 → NewBlock w.heap h' w.live nbytes (ap - header))
  free : ∀ p, Admissible w (.free p) → ∃ h', User.free (p + header) w.heap = .ok h' ∧
    ∀ q ∈ w.live.erase p, h'.size q = w.heap.size q

variable {h h' : Heap} {w w' : Program} {cells live : List ℕ} {ptr size : ℕ → ℕ} {base p q nbytes : ℕ}
  {answer : Option ℕ}

/-! ## Sizes -/

/-- A block has room for the bytes and its header, and its size in bytes is an `int`. -/
theorem units_size (range : nbytes < 2 ^ 31 - 2 ^ 16) :
    0 < units nbytes ∧ nbytes + header ≤ header * units nbytes := by
  unfold units header
  omega

/-! ## The first call -/

/-- The heap before the first call of `malloc`, and after it. -/
inductive ProgramInv (w : Program) : Prop
  | unused (freep : w.heap.freep = 0) (regions : w.heap.regions = []) (live : w.live = [])
  | used (cells : List ℕ) (inv : HeapInv w.heap cells w.live)

theorem start_unused (freep : h.freep = 0) (regions : h.regions = []) (place : h.base + header ≤ kernbase) :
    HeapInv (start h) [h.base] [] := by
  have isStart : start h = ({ h with freep := h.base }.setPtr h.base h.base).setSize h.base 0 := by
    unfold start
    rw [if_pos freep]
  have isPtr : (start h).ptr h.base = h.base := by
    rw [isStart]
    exact Function.update_self ..
  have isSize : (start h).size h.base = 0 := by
    rw [isStart]
    exact Function.update_self ..
  have rest : (start h).base = h.base ∧ (start h).freep = h.base ∧ (start h).regions = [] := by
    rw [isStart]
    exact ⟨rfl, rfl, regions⟩
  rcases rest with ⟨isBase, isFreep, noRegions⟩
  refine ⟨⟨?_, by simp, by simp, ?_, fun p member different => ?_, by simp [isFreep]⟩, by simp, by simp,
    by simp, fun a => ?_, by simp [noRegions], isBase.symm ▸ place⟩
  · rw [isBase]
    exact ⟨rfl, isPtr⟩
  · rw [isBase]
    exact isSize
  · exact absurd ((List.mem_singleton.mp member).trans isBase.symm) different
  · unfold InRegions InBlocks Covers
    rw [noRegions]
    simp [isSize]

theorem start_used (inv : HeapInv h cells live) (positive : 0 < h.base) : start h = h := by
  have above := inv.circle.base_le inv.circle.freep
  unfold start
  rw [if_neg (by omega)]

/-- Links and sizes outside of the list and the live blocks do not matter. -/
theorem HeapInv.congr (inv : HeapInv h cells live) (isPtr : ∀ p ∈ cells, h'.ptr p = h.ptr p)
    (isSize : ∀ p ∈ cells ++ live, h'.size p = h.size p) (isBase : h'.base = h.base)
    (isFreep : h'.freep = h.freep) (isRegions : h'.regions = h.regions) : HeapInv h' cells live := by
  have circle := inv.circle
  have freeSame : ∀ p ∈ cells, h'.size p = h.size p := fun p member =>
    isSize p (List.mem_append_left live member)
  have liveSame : ∀ p ∈ live, h'.size p = h.size p := fun p member =>
    isSize p (List.mem_append_right cells member)
  refine ⟨⟨isBase ▸ circle.leads.congr isPtr, circle.notEmpty, ?_, ?_, fun p member different => ?_,
    isFreep ▸ circle.freep⟩, fun p member => ?_, ?_, fun p member q isFree => ?_, fun a => ?_, ?_, ?_⟩
  · exact circle.sorted.imp_of_mem fun member _ order =>
      (before_congr (freeSame _ member)).mpr order
  · rw [isBase, freeSame h.base circle.base_mem]
    exact circle.base
  · rw [freeSame p member]
    exact circle.sizes p member (isBase ▸ different)
  · rw [liveSame p member]
    exact inv.liveSize p member
  · exact inv.liveApart.imp_of_mem fun member member' apart =>
      (apart_congr (liveSame _ member) (liveSame _ member')).mpr apart
  · exact (apart_congr (liveSame p member) (freeSame q isFree)).mpr (inv.freeApart p member q isFree)
  · have cover := inv.cover a
    unfold InRegions at *
    rw [isRegions, inBlocks_congr freeSame, inBlocks_congr liveSame]
    exact cover
  · rw [isRegions, isBase]
    exact inv.regions
  · rw [isBase]
    exact inv.place

/-- The order of the live blocks does not matter. -/
theorem HeapInv.perm {live' : List ℕ} (inv : HeapInv h cells live) (perm : live.Perm live') :
    HeapInv h cells live' := by
  refine ⟨inv.circle, fun p member => inv.liveSize p (perm.mem_iff.mpr member), ?_,
    fun p member => inv.freeApart p (perm.mem_iff.mpr member), fun a => ?_, inv.regions, inv.place⟩
  · exact (perm.pairwise_iff fun apart => apart_comm.mp apart).mp inv.liveApart
  · have same : InBlocks h live' a ↔ InBlocks h live a := by
      unfold InBlocks
      simp only [perm.mem_iff]
    rw [same]
    exact inv.cover a

/-! ## Each event -/

/-- The heap in which `malloc` starts its search. -/
def Program.started (w : Program) (answer : Option ℕ) : Heap :=
  start { w.heap with answers := [answer] }

theorem started_rest (w : Program) (answer : Option ℕ) :
    (w.started answer).base = w.heap.base ∧ (w.started answer).regions = w.heap.regions ∧
      (w.started answer).answers = [answer] := by
  unfold Program.started start
  split
  · exact ⟨rfl, rfl, rfl⟩
  · exact ⟨rfl, rfl, rfl⟩

theorem ProgramInv.started (inv : ProgramInv w) (positive : 0 < w.heap.base)
    (place : w.heap.base + header ≤ kernbase) (answer : Option ℕ) :
    (∃ cells, HeapInv (w.started answer) cells w.live) ∧
      ∀ q ∈ w.live, (w.started answer).size q = w.heap.size q := by
  cases inv with
  | unused freep regions noLive =>
      rw [noLive]
      exact ⟨⟨_, start_unused freep regions place⟩, by simp⟩
  | used cells inv =>
      have inv' : HeapInv { w.heap with answers := [answer] } cells w.live :=
        inv.congr (fun _ _ => rfl) (fun _ _ => rfl) rfl rfl rfl
      have same : w.started answer = { w.heap with answers := [answer] } := start_used inv' positive
      rw [same]
      exact ⟨⟨cells, inv'⟩, fun _ _ => rfl⟩

/-- What `malloc` does at any time. -/
theorem ProgramInv.malloc (inv : ProgramInv w) (positive : 0 < w.heap.base)
    (place : w.heap.base + header ≤ kernbase) (admissible : Admissible w (.malloc nbytes answer)) :
    ∃ result, User.malloc nbytes { w.heap with answers := [answer] } = .ok result ∧
      Allocated (w.started answer) w.live (units nbytes) answer result := by
  rcases admissible with ⟨range, fresh⟩
  rcases (inv.started positive place answer).1 with ⟨cells, inv'⟩
  rcases started_rest w answer with ⟨isBase, isRegions, answers⟩
  refine inv'.mallocLoop (units_size range).1 answers fun q isSome => ?_
  rcases fresh q isSome with ⟨base, regions, below⟩
  exact ⟨isBase ▸ base, isRegions ▸ regions, below⟩

theorem ProgramInv.free (inv : ProgramInv w) (isLive : p ∈ w.live) :
    ∃ h' cells, User.free (p + header) w.heap = .ok h' ∧ HeapInv h' cells (w.live.erase p) ∧
      h'.base = w.heap.base ∧ ∀ q ∈ w.live.erase p, h'.size q = w.heap.size q := by
  cases inv with
  | unused freep regions noLive =>
      rw [noLive] at isLive
      exact absurd isLive List.not_mem_nil
  | used cells inv =>
      rcases (inv.perm (List.perm_cons_erase isLive)).free with ⟨h', cells', run, inv', rest, same, -⟩
      exact ⟨h', cells', run, inv', by rw [rest], same⟩

theorem ProgramInv.store (inv : ProgramInv w) (admissible : Admissible w (.store ptr size)) :
    ProgramInv { w with heap := { w.heap with ptr, size } } := by
  cases inv with
  | unused freep regions noLive => exact .unused freep regions noLive
  | used cells inv =>
      have free : ∀ q ∈ cells, ptr q = w.heap.ptr q ∧ size q = w.heap.size q := by
        intro q isFree
        refine admissible q fun p isLive => ?_
        have apart := inv.freeApart p isLive q isFree
        unfold Apart at apart
        omega
      have live : ∀ q ∈ w.live, size q = w.heap.size q := by
        intro q isLive
        refine (admissible q fun p isLive' => ?_).2
        by_cases same : p = q
        · exact .inl same.ge
        · have symmetric : Std.Symm (Apart w.heap) := ⟨fun _ _ apart => apart_comm.mp apart⟩
          have apart := inv.liveApart.forall isLive' isLive same
          unfold Apart at apart
          omega
      refine .used cells (inv.congr (fun q isFree => (free q isFree).1) (fun q member => ?_) rfl rfl rfl)
      rcases List.mem_append.mp member with isFree | isLive
      · exact (free q isFree).2
      · exact live q isLive

/-! ## Runs -/

theorem Reach.inv (reach : Reach ptr size base w) (positive : 0 < base)
    (place : base + header ≤ kernbase) : ProgramInv w ∧ w.heap.base = base := by
  refine reach.invariant (fun w => ProgramInv w ∧ w.heap.base = base) ⟨.unused rfl rfl rfl, rfl⟩ ?_
  rintro w event w' - ⟨inv, rfl⟩ admissible step
  cases event with
  | malloc nbytes answer =>
      rcases inv.malloc positive place admissible with ⟨result, run, allocated⟩
      unfold Program.perform at step
      dsimp only at step
      rw [run, bind_ok] at step
      rcases started_rest w answer with ⟨isBase, -, -⟩
      cases allocated with
      | failed h' isNone same =>
          cases step
          rcases (inv.started positive place answer).1 with ⟨cells, inv'⟩
          have rest : h'.base = (w.started answer).base := by rw [same]
          refine ⟨.used cells (inv'.congr ?_ ?_ ?_ ?_ ?_), rest.trans isBase⟩
          all_goals rw [same]
          all_goals simp
      | block h' p cells inv' size base' sizes =>
          cases step
          refine ⟨.used cells ?_, base'.trans isBase⟩
          rw [if_neg (by unfold header; omega), Nat.add_sub_cancel]
          exact inv'
  | free p =>
      rcases inv.free admissible with ⟨h', cells, run, inv', isBase, -⟩
      unfold Program.perform at step
      dsimp only at step
      rw [run, bind_ok] at step
      cases step
      exact ⟨.used cells inv', isBase⟩
  | store ptr size =>
      cases step
      exact ⟨inv.store admissible, rfl⟩

theorem HeapInv.organized (inv : HeapInv h cells live) : ∃ front back, Organized h front back live := by
  rcases List.append_of_mem inv.circle.freep with ⟨front, back, split⟩
  subst split
  have base : (front ++ h.freep :: back).head? = some h.base := by
    have leads := inv.circle.leads
    cases front with
    | nil => exact congrArg some leads.1.symm
    | cons y front => exact congrArg some leads.1.symm
  exact ⟨front, back, inv.circle.leads.rotate, base, inv.circle.sorted, inv.freeApart, inv.liveApart,
    inv.cover, fun r isRegion => (inv.regions r isRegion).1⟩

/-- `malloc` and `free` always return. The free blocks form a circle in the order of their addresses,
and together with the blocks that the program holds they are what `sbrk` has given. `malloc` returns
a block of the size that is asked for, or 0 if `sbrk` fails. -/
theorem user_heap (positive : 0 < base) (place : base + header ≤ kernbase)
    (reach : Reach ptr size base w) : UserHeap w := by
  rcases reach.inv positive place with ⟨inv, isBase⟩
  subst isBase
  refine ⟨?_, fun nbytes answer admissible => ?_, fun p isLive => ?_⟩
  · cases inv with
    | unused freep regions noLive => exact .inl ⟨freep, regions, noLive⟩
    | used cells inv => exact .inr inv.organized
  · rcases inv.malloc positive place admissible with ⟨⟨ap, h'⟩, run, allocated⟩
    refine ⟨ap, h', run, ?_⟩
    cases allocated with
    | failed h' isNone same => exact ⟨fun _ => ⟨isNone, by rw [same]⟩, fun notNull => absurd rfl notNull⟩
    | block h' p cells inv' size base' sizes =>
        refine ⟨fun isNull => ?_, fun _ => ?_⟩
        · unfold header at isNull
          omega
        · rw [Nat.add_sub_cancel]
          refine ⟨(List.pairwise_cons.mp inv'.liveApart).1, size ▸ (units_size admissible.1).2,
            fun a covers => ?_, fun q isLive => ?_⟩
          · exact (inv'.cover a).mpr (.inr ⟨p, List.mem_cons_self, covers⟩)
          · exact (sizes q isLive).trans ((inv.started positive place answer).2 q isLive)
  · rcases inv.free isLive with ⟨h', cells, run, -, -, sizes⟩
    exact ⟨h', run, sizes⟩

theorem user_heap_malloc :
    ∃ w, (load (fun _ => 7) (fun _ => 7) 4096).perform (.malloc 100 (some 8192)) = .ok w ∧ UserHeap w := by
  have first : Reach (fun _ => 7) (fun _ => 7) 4096 (load (fun _ => 7) (fun _ => 7) 4096) := .refl
  have admissible : Admissible (load (fun _ => 7) (fun _ => 7) 4096) (.malloc 100 (some 8192)) := by
    refine ⟨by decide, fun q isSome => ?_⟩
    cases isSome
    exact ⟨by decide, by simp [load], by decide⟩
  rcases (user_heap (by decide) (by decide) first).malloc 100 (some 8192) admissible with
    ⟨ap, h', run, -⟩
  have step : (load (fun _ => 7) (fun _ => 7) 4096).perform (.malloc 100 (some 8192)) =
      .ok { heap := h', live := if ap = 0 then [] else [ap - header] } := by
    unfold Program.perform
    dsimp only
    rw [run]
    rfl
  exact ⟨_, step, user_heap (by decide) (by decide) (first.next admissible step)⟩

end Xv6.User
