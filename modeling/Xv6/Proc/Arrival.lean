import Xv6.Proc.Ready

/-!
# First come, first served

Every ring holds its processes in the order in which they have last become `RUNNABLE`, as long as
no `chpr` moves one of them.
-/

namespace Xv6

variable {ncpu : ℕ}

/-- When the entry has last been made, as the length of the history up to it; 0 for never. -/
def lastAt (entry : Entry) : List Entry → ℕ
  | [] => 0
  | other :: older => if other = entry then older.length + 1 else lastAt entry older

/-- When `p` has last become `RUNNABLE`. -/
abbrev readySince (p : Slot) (hist : List Entry) : ℕ := lastAt (.state p .runnable) hist

/-- The rings are in the order of arrival. -/
def Fifo (s : State ncpu) : Prop :=
  ∀ qindex, (s.multiqueue.ring qindex).Pairwise fun x y =>
    ∀ p q, x = some p → y = some q → readySince p s.hist < readySince q s.hist

variable {b : Build} {s t u : State ncpu} {p : Slot}

theorem lastAt_le (entry : Entry) (hist : List Entry) : lastAt entry hist ≤ hist.length := by
  induction hist with
  | nil => exact le_rfl
  | cons other older ih =>
      unfold lastAt
      split
      · simp
      · exact ih.trans (Nat.le_succ _)

theorem lastAt_append {entry : Entry} {entries hist : List Entry} (absent : entry ∉ entries) :
    lastAt entry (entries ++ hist) = lastAt entry hist := by
  induction entries with
  | nil => rfl
  | cons other entries ih =>
      rw [List.mem_cons, not_or] at absent
      rw [List.cons_append, lastAt, if_neg (Ne.symm absent.1), ih absent.2]

@[simp]
theorem lastAt_self {entry : Entry} {hist : List Entry} :
    lastAt entry (entry :: hist) = hist.length + 1 := by
  rw [lastAt, if_pos rfl]

theorem lastAt_other {entry other : Entry} {hist : List Entry} (different : other ≠ entry) :
    lastAt entry (other :: hist) = lastAt entry hist := by
  rw [lastAt, if_neg different]

theorem readySince_calm {entries hist : List Entry} (calm : ∀ entry ∈ entries, entry.Calm) :
    readySince p (entries ++ hist) = readySince p hist :=
  lastAt_append fun member => (calm _ member p).1 rfl

theorem Fifo.initial : Fifo ({} : State ncpu) := by
  intro qindex
  rw [(MultiQueue.start_eq_stop_iff MultiQueue.wellFormed_initial).mp rfl]
  exact List.Pairwise.nil

theorem Fifo.quiet (fifo : Fifo s) (quiet : Quiet s t) : Fifo t := by
  obtain ⟨entries, hist, calm⟩ := quiet.hist
  intro qindex
  simp only [quiet.multiqueue, hist, readySince_calm calm]
  exact fifo qindex

/-- Who becomes `RUNNABLE` goes to the end. -/
theorem Fifo.append (fifo : Fifo s) {multiqueue : MultiQueue} {target : Fin numpr}
    (absent : ∀ qindex, some p ∉ s.multiqueue.ring qindex)
    (rings : ∀ qindex, multiqueue.ring qindex = if qindex = target then
      s.multiqueue.ring target ++ [some p] else s.multiqueue.ring qindex)
    (same : t.multiqueue = multiqueue) (hist : t.hist = .state p .runnable :: s.hist) :
    Fifo t := by
  have old : ∀ qindex, (s.multiqueue.ring qindex).Pairwise fun x y =>
      ∀ q r, x = some q → y = some r → readySince q t.hist < readySince r t.hist := by
    intro qindex
    refine List.Pairwise.imp_of_mem (fun {x y} xMem yMem less q r xEq yEq => ?_) (fifo qindex)
    have qOther : q ≠ p := fun same => absent qindex (same ▸ xEq ▸ xMem)
    have rOther : r ≠ p := fun same => absent qindex (same ▸ yEq ▸ yMem)
    rw [hist, readySince, readySince, lastAt_other (by simpa using qOther.symm),
      lastAt_other (by simpa using rOther.symm)]
    exact less q r xEq yEq
  intro qindex
  rw [same, rings]
  split
  · refine List.pairwise_append.mpr ⟨old target, List.pairwise_singleton _ _, ?_⟩
    intro x xMem y yMem q r xEq yEq
    obtain rfl : r = p := Option.some.inj (yEq.symm.trans (List.mem_singleton.mp yMem))
    have qOther : q ≠ r := fun same => absent target (same ▸ xEq ▸ xMem)
    rw [hist, readySince, readySince, lastAt_self, lastAt_other (by simpa using qOther.symm)]
    exact Nat.lt_succ_of_le (lastAt_le _ s.hist)
  · exact old qindex

/-- The process that leaves is the first of its ring, and came before all others in it. -/
theorem Fifo.leave (fifo : Fifo s) {multiqueue : MultiQueue} {qindex : Fin numpr}
    {rest : List (Option Slot)} (ring : s.multiqueue.ring qindex = some p :: rest)
    (rings : ∀ other, multiqueue.ring other =
      if other = qindex then rest else s.multiqueue.ring other)
    (leaves : Leaves p { s with multiqueue } t) : Fifo t := by
  obtain ⟨entries, hist, calm⟩ := leaves.hist
  intro other
  simp only [leaves.multiqueue, hist, readySince_calm calm, rings]
  split
  · have := fifo qindex
    rw [ring] at this
    exact this.of_cons
  · exact fifo other

end Xv6
