import Xv6.Sync.PipeStream

/-!
# Wakeups of a pipe

`pipewrite` wakes the readers before it sleeps and when it has stored everything, but not when it
returns -1. If it has stored bytes in the same section, readers are left asleep. In runs in which this
does not happen no wakeup is lost.
-/

namespace Xv6.Sync

open Monitor Transition Ring

variable {ι : Type*} {p p' : Pipe ι} {myproc : ι} {addr bytes pending : List Byte} {i n : ℕ}

/-- What a process that sleeps waits for has not come: data or the end of the stream for a reader, room
or the end of the readers for a writer. -/
def PipeWaits : PipeChan → Pipe ι → Prop
  | .nread, p => p.nread = p.nwrite ∧ p.writeopen = true
  | .nwrite, p => p.full ∧ p.readopen = true

/-- Nothing can be stored in a full pipe. -/
theorem Stored.of_full (stored : Stored myproc bytes p p') (holds : p.Pending pending) (full : p.full) :
    bytes = [] := by
  have bound := (stored.pending pending holds).bound
  have length := (full_iff holds).1 full
  rw [List.length_append, length] at bound
  exact List.eq_nil_of_length_eq_zero (by omega)

/-- A pipe that becomes full from empty has got as many bytes as it can hold. -/
theorem Stored.length_of_empty (stored : Stored myproc bytes p p') (holds : p.Pending pending)
    (empty : p.nread = p.nwrite) (full : p'.full) : bytes.length = pipesize := by
  have nil := (holds.empty_iff pipesize_small).1 empty
  subst nil
  exact (full_iff (stored.pending [] holds)).1 full

variable [DecidableEq ι] {s t : PipeState ι} {label : Label ι PipeCall (PipeKill ι)}

/-- No process sleeps on a channel. -/
def NobodyOn (s : PipeState ι) (chan : PipeChan) : Prop :=
  ∀ j again, s.place j ≠ .sleeping chan again

/-- A process that runs `pipewrite` can go on, or finds the pipe full at once, or has room for
everything, or nobody waits for data. -/
def WriterFits (s : PipeState ι) : Label ι PipeCall (PipeKill ι) → Prop
  | .run myproc => ∀ addr i, s.place myproc = .ready (.pipewrite addr i) →
      s.shared.readopen = true ∧ s.shared.killed myproc = false ∨ s.shared.full ∨
      (addr.drop i).length ≤ pipesize - (s.shared.nwrite - s.shared.nread).toNat ∨ NobodyOn s .nread
  | _ => True

/-- Sections of `pipewrite` that fit lose no wakeup. -/
theorem pipewrite_wakes (inv : PipeInv s) (ready : s.place myproc = .ready (.pipewrite addr i))
    (fits : WriterFits s (.run myproc)) :
    (∀ chan again, (pipewrite myproc addr i s.shared).place = .sleeping chan again →
      PipeWaits chan (pipewrite myproc addr i s.shared).shared) ∧
    ∀ chan, PipeWaits chan s.shared → ¬NobodyOn s chan →
      chan ∉ (pipewrite myproc addr i s.shared).wakes →
      PipeWaits chan (pipewrite myproc addr i s.shared).shared := by
  rcases inv.fifo.stream with ⟨pending, holds, -⟩
  have ends := writeLoop_ends myproc addr (addr.drop i) (i := i) holds
  have fits := fits addr i ready
  unfold pipewrite
  generalize writeLoop myproc addr (addr.drop i) i s.shared = result at ends ⊢
  cases ends with
  | returns stored =>
      refine ⟨nofun, fun chan waits _ notWoken => ?_⟩
      cases chan with
      | nread => exact absurd (List.mem_singleton_self _) notWoken
      | nwrite =>
          have none := stored.of_full holds waits.1
          rw [none] at stored
          have holds' := stored.pending pending holds
          rw [List.append_nil] at holds'
          exact ⟨(full_iff holds').2 ((full_iff holds).1 waits.1), stored.readopen.trans waits.2⟩
  | @fails p' bytes more isPrefix stored full alone =>
      refine ⟨nofun, fun chan waits somebody _ => ?_⟩
      cases chan with
      | nread =>
          exfalso
          have length := stored.length_of_empty holds waits.1 full
          rcases fits with ⟨isOpen, alive⟩ | isFull | room | nobody
          · rcases alone with isClosed | isKilled
            · exact Bool.false_ne_true (isClosed.symm.trans isOpen)
            · exact Bool.false_ne_true (alive.symm.trans isKilled)
          · rw [stored.of_full holds isFull] at length
            cases length
          · omega
          · exact somebody nobody
      | nwrite => exact ⟨full, stored.readopen.trans waits.2⟩
  | sleeps bytes more isPrefix stored full goesOn =>
      refine ⟨fun chan again sleeps => ?_, fun chan waits _ notWoken => ?_⟩
      · cases sleeps
        exact ⟨full, stored.readopen.trans goesOn.1⟩
      · cases chan with
        | nread => exact absurd (List.mem_singleton_self _) notWoken
        | nwrite => exact ⟨full, stored.readopen.trans goesOn.1⟩

omit [DecidableEq ι] in
theorem piperead_wakes (myproc : ι) (n : ℕ) (p : Pipe ι) :
    (∀ chan again, (piperead myproc n p).place = .sleeping chan again →
      PipeWaits chan (piperead myproc n p).shared) ∧
    ∀ chan, PipeWaits chan p → chan ∉ (piperead myproc n p).wakes →
      PipeWaits chan (piperead myproc n p).shared := by
  unfold piperead
  split
  · rename_i empty
    split
    · refine ⟨nofun, fun chan waits _ => ?_⟩
      cases chan <;> exact waits
    · refine ⟨fun chan again sleeps => ?_, fun chan waits _ => waits⟩
      cases sleeps
      exact empty
  · rename_i notEmpty
    refine ⟨nofun, fun chan waits notWoken => ?_⟩
    cases chan with
    | nread => exact absurd waits notEmpty
    | nwrite => exact absurd (List.mem_singleton_self _) notWoken

omit [DecidableEq ι] in
theorem pipeclose_wakes (writable : Bool) (p : Pipe ι) :
    (pipeclose writable p).place = .out ∧
    ∀ chan, PipeWaits chan p → chan ∉ (pipeclose writable p).wakes →
      PipeWaits chan (pipeclose writable p).shared := by
  unfold pipeclose
  cases writable
  · refine ⟨rfl, fun chan waits notWoken => ?_⟩
    cases chan with
    | nread => exact waits
    | nwrite => exact absurd (List.mem_singleton_self _) notWoken
  · refine ⟨rfl, fun chan waits notWoken => ?_⟩
    cases chan with
    | nread => exact absurd (List.mem_singleton_self _) notWoken
    | nwrite => exact waits

theorem pipe_waiting_step (inv : PipeInv s) (waiting : Waiting PipeWaits s) (fits : WriterFits s label)
    (step : Step pipeCode s label t) : Waiting PipeWaits t := by
  refine waiting.step step (fun myproc call chan again isRun ready sleeps => ?_)
    (fun myproc call j chan again isRun ready sleeping notWoken => ?_) fun kill chan _ waits _ => ?_
  · subst isRun
    cases call with
    | pipewrite addr i => exact (pipewrite_wakes inv ready fits).1 chan again sleeps
    | piperead n => exact (piperead_wakes myproc n s.shared).1 chan again sleeps
    | pipeclose writable =>
        have out := (pipeclose_wakes writable s.shared).1
        cases out.symm.trans sleeps
  · subst isRun
    have waits := waiting j chan again sleeping
    cases call with
    | pipewrite addr i =>
        have somebody : ¬NobodyOn s chan := fun nobody => nobody j again sleeping
        exact (pipewrite_wakes inv ready fits).2 chan waits somebody notWoken
    | piperead n => exact (piperead_wakes myproc n s.shared).2 chan waits notWoken
    | pipeclose writable => exact (pipeclose_wakes writable s.shared).2 chan waits notWoken
  · cases chan <;> exact waits

/-- A section that does not fit leaves a reader asleep on a pipe with data. -/
theorem pipe_lost (inv : PipeInv s) (waiting : Waiting PipeWaits s) (lost : ¬WriterFits s label)
    (step : Step pipeCode s label t) : ¬Waiting PipeWaits t := by
  cases step with
  | call entry outside => exact absurd trivial lost
  | interrupt kill => exact absurd trivial lost
  | @run myproc call ready =>
      dsimp only [WriterFits] at lost
      push Not at lost
      rcases lost with ⟨addr, i, isWrite, alone, notFull, short, somebody⟩
      cases ready.symm.trans isWrite
      unfold NobodyOn at somebody
      push Not at somebody
      rcases somebody with ⟨j, again, sleeping⟩
      have empty := waiting j .nread again sleeping
      rcases inv.fifo.stream with ⟨pending, holds, -⟩
      have nil := (holds.empty_iff pipesize_small).1 empty.1
      have size := holds.size pipesize_small
      subst nil
      have ends := writeLoop_ends myproc addr (addr.drop i) (i := i) holds
      have different : j ≠ myproc := by
        rintro rfl
        cases ready.symm.trans sleeping
      intro waiting'
      have after := waiting' j .nread
      dsimp only [pipeCode, pipewrite] at after
      generalize writeLoop myproc addr (addr.drop i) i s.shared = result at ends after
      have room : pipesize - (s.shared.nwrite - s.shared.nread).toNat = pipesize := by
        rw [size]
        rfl
      rw [room] at short
      cases ends with
      | returns stored =>
          have bound := (stored.pending [] holds).bound
          rw [List.nil_append] at bound
          omega
      | sleeps bytes more isPrefix stored full goesOn =>
          exact alone goesOn.1 goesOn.2
      | @fails p' bytes more isPrefix stored full isAlone =>
          have asleep : Monitor.wake [] [] s.place j = .sleeping .nread again := by
            unfold Monitor.wake
            rw [sleeping]
            exact if_neg (by simp)
          rw [Function.update_of_ne different] at after
          have isEmpty := (after again asleep).1
          have holds' := stored.pending [] holds
          have nil' := (holds'.empty_iff pipesize_small).1 isEmpty
          have length := stored.length_of_empty holds empty.1 full
          rw [List.nil_append] at nil'
          rw [nil'] at length
          cases length

/-- The states of the interleavings in which every section of `pipewrite` fits. -/
def FittingReach : PipeState ι → Prop :=
  Reachable (Step pipeCode) (fun s label => PipeUse s label ∧ WriterFits s label) { shared := {} }

theorem pipe_good (reach : FittingReach s) : PipeInv s ∧ Waiting PipeWaits s := by
  have reach' : PipeReach s := Reachable.mono (fun _ _ => And.left) reach
  refine ⟨inv_of_pipeReach reach', ?_⟩
  refine Reachable.invariant reach (Waiting PipeWaits) nofun fun {s label t} reached waiting admitted step => ?_
  have inv := inv_of_pipeReach (Reachable.mono (fun _ _ => And.left) reached)
  exact pipe_waiting_step inv waiting admitted.2 step

/-- In runs in which every section of `pipewrite` fits, whoever sleeps has a reason; the first section
that does not fit leaves a reader asleep without one. -/
theorem pipe_wakeups (s : PipeState ι) (reach : FittingReach s) :
    Waiting PipeWaits s ∧
    ∀ label t, PipeUse s label → Step pipeCode s label t → (Waiting PipeWaits t ↔ WriterFits s label) := by
  rcases pipe_good reach with ⟨inv, waiting⟩
  refine ⟨waiting, fun label t _ step => ⟨fun waiting' => ?_, fun fits => ?_⟩⟩
  · by_contra lost
    exact pipe_lost inv waiting lost step waiting'
  · exact pipe_waiting_step inv waiting fits step

/-- Process 1 sleeps on the empty pipe. -/
theorem pipe_wakeups_readerAsleep :
    ∃ s : PipeState ℕ, s.place 1 = .sleeping .nread (.piperead 1) ∧ Waiting PipeWaits s := by
  let called : PipeState ℕ :=
    { shared := {}, place := Function.update (fun _ => .out) 1 (.ready (.piperead 1)) }
  have first : Step pipeCode { shared := {} } (.call 1 (.piperead 1)) called := .call _ rfl
  have second : Step pipeCode called (.run 1) _ := .run rfl
  have admitted : PipeUse called (.run 1) ∧ WriterFits called (.run 1) :=
    ⟨.inl rfl, fun addr i ready => by cases ready⟩
  have reach : FittingReach _ := (Reachable.refl.next ⟨trivial, trivial⟩ first).next admitted second
  exact ⟨_, rfl, (pipe_wakeups _ reach).1⟩

/-- Process 2 has been killed, and writes a byte more than the pipe can hold while process 1 sleeps. -/
theorem pipe_wakeups_incorrect :
    ¬∀ s : PipeState ℕ, PipeReach s → Waiting PipeWaits s := by
  intro correct
  have run : ∃ s : PipeState ℕ, runs pipeCode PipeUse [.call 1 (.piperead 1), .run 1,
      .interrupt ⟨2, false⟩, .call 2 (.pipewrite (List.replicate 513 0) 0)] { shared := {} } = some s ∧
      s.shared = { killed := Function.update (fun _ => false) 2 true } ∧
      s.place 1 = .sleeping .nread (.piperead 1) ∧
      s.place 2 = .ready (.pipewrite (List.replicate 513 0) 0) := ⟨_, rfl, rfl, rfl, rfl⟩
  rcases run with ⟨s, ran, shared, asleep, ready⟩
  have reach : PipeReach s := reachable_of_runs _ .refl ran
  have lost : ¬WriterFits s (.run 2) := by
    intro fits
    rcases fits _ _ ready with ⟨-, alive⟩ | full | room | nobody
    · rw [shared] at alive
      simp at alive
    · rw [shared] at full
      exact absurd full (by decide)
    · rw [shared, List.drop_zero, List.length_replicate] at room
      exact absurd room (by decide)
    · exact nobody 1 _ asleep
  have isOpen : PipeUse s (.run 2) := by
    refine .inl ?_
    rw [shared]
  have step : Step pipeCode s (.run 2) _ := .run ready
  exact pipe_lost (inv_of_pipeReach reach) (correct s reach) lost step (correct _ (reach.next isOpen step))

end Xv6.Sync
