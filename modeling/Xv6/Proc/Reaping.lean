import Xv6.Proc.History

/-!
# Exited children

No exited child is lost, reaped twice, or left with a parent that sleeps in `wait`.
-/

namespace Xv6

variable {ncpu : ℕ}

/-- The entry says that `p` has been reaped. -/
def Entry.Reaps (p : Slot) : Entry → Bool
  | .reap _ q _ => q = p
  | _ => false

variable {b : Build} {s : State ncpu} {p : Slot}

/-- Every `ZOMBIE` that the history tells of has been reaped once, or is one still. -/
theorem Lawful.count_zombie {hist : List Entry} (lawful : Lawful hist) (p : Slot) :
    hist.count (.state p .zombie) =
      hist.countP (Entry.Reaps p) + if stateOf p hist = .zombie then 1 else 0 := by
  induction hist with
  | nil => rfl
  | cons entry older ih =>
      rw [List.count_cons, List.countP_cons]
      cases entry with
      | state q state =>
          have before := ih lawful.2
          have legal := lawful.1
          by_cases same : q = p
          · subst same
            have notZombie : stateOf q older ≠ .zombie := fun zombie => by
              rw [zombie] at legal
              cases legal
            grind [Entry.Reaps, stateOf]
          · grind [Entry.Reaps, stateOf]
      | reap waiter q times =>
          have before := ih lawful.2
          have zombie := lawful.1.1
          grind [Entry.Reaps, stateOf]
      | parent q parent =>
          have before := ih lawful
          grind [Entry.Reaps, stateOf]
      | dropped q =>
          have before := ih lawful
          grind [Entry.Reaps, stateOf]
      | tick =>
          have before := ih lawful
          grind [Entry.Reaps, stateOf]

/-- An older part of the history is lawful too. -/
theorem Lawful.older {newer older : List Entry} (lawful : Lawful (newer ++ older)) :
    Lawful older := by
  induction newer with
  | nil => exact lawful
  | cons entry newer ih => cases entry <;> first | exact ih lawful.2 | exact ih lawful

/-- `wait` and `waitnstats` do not sleep or fail while there is a `ZOMBIE` to reap. -/
theorem wait_reaps {c : Fin ncpu} {child : Slot} (current : s.cpu c = some p)
    (user : (s.proc p).frame = .user) (zombie : (s.proc child).state = .zombie)
    (own : (s.proc child).parent = some p) :
    ∃ q, (s.proc q).state = .zombie ∧ (s.proc q).parent = some p ∧
      step b s (.wait c) = some (.ok (reap false p q s)) ∧
      step b s (.waitnstats c) = some (.ok (reap true p q s)) := by
  cases found : table.find? fun q => (s.proc q).parent = some p ∧ (s.proc q).state = .zombie with
  | none => simpa [zombie, own] using find_table_none found child
  | some q =>
      have test := of_decide_eq_true (find_table_some found)
      have pass : ∀ stats, waitPass stats p s = (some (s.proc q).pid, reap stats p q s) := by
        intro stats
        simp only [waitPass, found]
      refine ⟨q, test.2, test.1, ?_, ?_⟩ <;> simp [step, syscall, current, user, wait, pass]

/-- What holds of parents and children. -/
structure ChildrenReaped (b : Build) (s : State ncpu) : Prop where
  /-- every process but init has a parent that has started and not exited -/
  parent : ∀ p, s.initproc ≠ some p → (s.proc p).Alive ∨ (s.proc p).state = .zombie →
    ∃ q, (s.proc p).parent = some q ∧ (s.proc q).Alive
  /-- nobody sleeps in `wait` over a `ZOMBIE` child -/
  attentive : ∀ p q, (s.proc p).state = .sleeping → (s.proc p).chan = .proc p →
    (s.proc q).parent = some p → (s.proc q).state ≠ .zombie
  stack : ∀ p, (s.proc p).state = .runnable ∨ (s.proc p).state = .running →
    (s.proc p).kstack ≠ none ∧ (s.proc p).pgdir ≠ none
  /-- the history leads to the states and parents of the table -/
  told : ∀ p, (s.proc p).state = stateOf p s.hist ∧ (s.proc p).parent = parentOf p s.hist
  /-- who is reaped is a `ZOMBIE` then, and is reaped by its parent -/
  reaped : ∀ newer waiter p times older, s.hist = newer ++ .reap waiter p times :: older →
    stateOf p older = .zombie ∧ parentOf p older = some waiter
  /-- every process that has become a `ZOMBIE` has been reaped once, or is one still -/
  once : ∀ p, s.hist.count (.state p .zombie) =
    s.hist.countP (Entry.Reaps p) + if (s.proc p).state = .zombie then 1 else 0
  /-- a process with a `ZOMBIE` child reaps one as soon as it calls `wait` or `waitnstats` -/
  wait : ∀ c p child, s.cpu c = some p → (s.proc p).frame = .user →
    (s.proc child).state = .zombie → (s.proc child).parent = some p →
    ∃ q, (s.proc q).state = .zombie ∧ (s.proc q).parent = some p ∧
      step b s (.wait c) = some (.ok (reap false p q s)) ∧
      step b s (.waitnstats c) = some (.ok (reap true p q s))

theorem children_reaped (reach : AnyReach b s) : ChildrenReaped b s := by
  have consistent := consistent_of_reach reach
  have recorded := recorded_of_reach reach
  refine ⟨?_, ?_, ?_, ?_, ?_, ?_, ?_⟩
  · intro p notInit live
    rcases Option.ne_none_iff_exists'.mp (consistent.family.child p live notInit) with ⟨q, parent⟩
    exact ⟨q, parent, consistent.family.parent p q live parent⟩
  · intro p q
    exact consistent.family.attentive p q (by simp)
  · intro p ready
    apply consistent.saved.alive p
    rcases ready with runnable | running
    · exact .inr (.inl runnable)
    · exact .inr (.inr running)
  · intro p
    exact ⟨recorded.state p, recorded.parent p⟩
  · intro newer waiter p times older hist
    have told := (hist ▸ recorded.lawful).older.1
    exact ⟨told.1, told.2.1⟩
  · intro p
    rw [recorded.state]
    exact recorded.lawful.count_zombie p
  · intro c p child current user zombie own
    exact wait_reaps current user zombie own

/-- The child has exited while init waited for it. -/
theorem children_reaped_exited :
    ChildrenReaped .default (after .default (boot 1 ++ forks 1 ++ [.wait 0, .exit 0])) :=
  children_reaped (after_reach (by decide +kernel))

end Xv6
