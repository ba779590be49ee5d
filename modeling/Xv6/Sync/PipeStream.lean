import Xv6.Sync.Pipe

/-!
# A pipe is a stream of bytes

What has been stored is what has been taken, followed by what lies between the two counters, and
every byte that has been stored belongs to one call of `pipewrite`.
-/

namespace Xv6.Sync

open Monitor Transition Ring

variable {ι : Type*} {p p' : Pipe ι} {myproc j : ι} {addr left bytes : List Byte} {i n : ℕ}

/-! ## What the history says about the data -/

/-- What a call of `pipewrite` returns agrees with what it has stored. -/
def Written.Honest (w : Written ι) : Prop :=
  w.count = w.addr.length ∧ w.value = w.addr.length ∨ w.count < w.addr.length ∧ w.value = -1

/-- What a call of `piperead` returns agrees with what it has taken. -/
def Taken.Honest (r : Taken ι) : Prop :=
  r.bytes.length ≤ r.n ∧ r.value = r.bytes.length ∨ r.bytes = [] ∧ r.value = -1

/-- What the history says about the data. -/
structure Fifo (p : Pipe ι) : Prop where
  stream : ∃ pending, p.Pending pending ∧
    p.stored.map Prod.snd = p.reads.flatMap Taken.bytes ++ pending
  writes : ∀ w ∈ p.writes, w.Honest
  reads : ∀ r ∈ p.reads, r.Honest

theorem Fifo.store (fifo : Fifo p) (stored : Stored myproc bytes p p') : Fifo p' := by
  rcases fifo.stream with ⟨pending, holds, stream⟩
  refine ⟨⟨pending ++ bytes, stored.pending pending holds, ?_⟩, stored.writes ▸ fifo.writes,
    stored.reads ▸ fifo.reads⟩
  rw [stored.stored, stored.reads, List.map_append, stream]
  simp

theorem Fifo.write (fifo : Fifo p) {w : Written ι} (honest : w.Honest) :
    Fifo { p with writes := p.writes ++ [w] } := by
  refine ⟨fifo.stream, fun w' member => ?_, fifo.reads⟩
  rcases List.mem_append.1 member with old | new
  · exact fifo.writes w' old
  · rw [List.mem_singleton.1 new]
    exact honest

theorem Fifo.pipewrite (fifo : Fifo p) (begun : i ≤ addr.length) :
    Fifo (pipewrite myproc addr i p).shared := by
  rcases fifo.stream with ⟨pending, holds, -⟩
  have ends := writeLoop_ends myproc addr (addr.drop i) (i := i) holds
  unfold Sync.pipewrite
  generalize writeLoop myproc addr (addr.drop i) i p = result at ends ⊢
  cases ends with
  | returns stored =>
      refine (fifo.store stored).write (.inl ⟨?_, rfl⟩)
      rw [List.length_drop]
      exact Nat.add_sub_of_le begun
  | fails bytes more isPrefix stored full alone =>
      refine (fifo.store stored).write (.inr ⟨?_, rfl⟩)
      rw [List.length_drop] at more
      exact Nat.add_lt_of_lt_sub' more
  | sleeps bytes more isPrefix stored full goesOn => exact fifo.store stored

theorem Fifo.piperead (fifo : Fifo p) : Fifo (piperead myproc n p).shared := by
  unfold Sync.piperead
  split
  · split
    · refine ⟨?_, fifo.writes, fun r member => ?_⟩
      · simpa using fifo.stream
      · rcases List.mem_append.1 member with old | new
        · exact fifo.reads r old
        · rw [List.mem_singleton.1 new]
          exact .inr ⟨rfl, rfl⟩
    · exact fifo
  · rcases fifo.stream with ⟨pending, holds, stream⟩
    rcases copyLoop_takes n holds with ⟨taken, same, left⟩
    generalize copyLoop n p = result at taken same left
    rcases result with ⟨bytes, p'⟩
    dsimp only at taken same left ⊢
    have stored : p'.stored = p.stored := by rw [same]
    have writes : p'.writes = p.writes := by rw [same]
    have reads : p'.reads = p.reads := by rw [same]
    refine ⟨⟨pending.drop n, left, ?_⟩, writes ▸ fifo.writes, fun r member => ?_⟩
    · dsimp only
      rw [stored, reads, stream, taken]
      simp [List.take_append_drop]
    · rcases List.mem_append.1 member with old | new
      · exact fifo.reads r (reads ▸ old)
      · rw [List.mem_singleton.1 new, taken]
        exact .inl ⟨List.length_take_le n pending, rfl⟩

theorem Fifo.pipeclose (fifo : Fifo p) (writable : Bool) : Fifo (pipeclose writable p).shared := by
  unfold Sync.pipeclose
  cases writable
  · exact ⟨fifo.stream, fifo.writes, fifo.reads⟩
  · exact ⟨fifo.stream, fifo.writes, fifo.reads⟩

/-- `piperead` returns 0 for `n > 0` only at the end of the stream. -/
theorem piperead_zero (fifo : Fifo p) {r : Taken ι} (positive : 0 < n)
    (returned : (piperead myproc n p).shared.reads = p.reads ++ [r]) (zero : r.value = 0) :
    p.nread = p.nwrite ∧ p.writeopen = false := by
  rcases fifo.stream with ⟨pending, holds, -⟩
  have empty := holds.empty_iff pipesize_small
  rcases copyLoop_takes n holds with ⟨taken, same, -⟩
  unfold piperead at returned
  split at returned
  · split at returned
    · rw [← List.singleton_inj.1 (List.append_cancel_left returned)] at zero
      cases zero
    · simp at returned
  · rename_i notEmpty
    have reads : (copyLoop n p).2.reads = p.reads := by rw [same]
    dsimp only at returned
    rw [reads] at returned
    rw [← List.singleton_inj.1 (List.append_cancel_left returned)] at zero
    have length : (pending.take n).length = 0 := by
      rw [← taken]
      exact Int.ofNat.inj zero
    rw [List.length_take] at length
    have nil : pending = [] := List.eq_nil_of_length_eq_zero (by omega)
    refine ⟨empty.2 nil, ?_⟩
    by_contra isOpen
    exact notEmpty ⟨empty.2 nil, by simpa using isOpen⟩

/-! ## Calls -/

variable [DecidableEq ι] {s t : PipeState ι} {label : Label ι PipeCall (PipeKill ι)}

/-- The bytes that a call that runs has stored. -/
def underway : Option PipeCall → List Byte
  | some (.pipewrite addr i) => addr.take i
  | _ => []

/-- The bytes that calls of a process have stored. -/
def bytesBy (myproc : ι) (stored : List (ι × Byte)) : List Byte :=
  (stored.filter (·.1 = myproc)).map Prod.snd

/-- The bytes that calls of a process have stored that have returned. -/
def wroteBy (myproc : ι) (writes : List (Written ι)) : List Byte :=
  (writes.filter (·.myproc = myproc)).flatMap fun w => w.addr.take w.count

/-- Every byte that has been stored belongs to a call. -/
structure Accounted (s : PipeState ι) : Prop where
  stored : ∀ j, bytesBy j s.shared.stored = wroteBy j s.shared.writes ++ underway (s.place j).code?
  begun : ∀ j addr i, (s.place j).code? = some (.pipewrite addr i) → i ≤ addr.length

theorem bytesBy_append (j myproc : ι) (stored : List (ι × Byte)) (bytes : List Byte) :
    bytesBy j (stored ++ bytes.map (myproc, ·)) =
      bytesBy j stored ++ if myproc = j then bytes else [] := by
  have new : ((bytes.map (myproc, ·)).filter (·.1 = j)).map Prod.snd =
      if myproc = j then bytes else [] := by
    by_cases same : myproc = j
    · simp [List.filter_map, Function.comp_def, same]
    · simp [List.filter_map, Function.comp_def, same]
  rw [bytesBy, List.filter_append, List.map_append, new]
  rfl

theorem wroteBy_append (j : ι) (writes : List (Written ι)) (w : Written ι) :
    wroteBy j (writes ++ [w]) =
      wroteBy j writes ++ if w.myproc = j then w.addr.take w.count else [] := by
  unfold wroteBy
  by_cases same : w.myproc = j
  · simp [same]
  · simp [same]

/-- The history of `pipewrite` and what runs stay the same. -/
theorem Accounted.congr (accounted : Accounted s) (stored : t.shared.stored = s.shared.stored)
    (writes : t.shared.writes = s.shared.writes)
    (others : ∀ j, (t.place j).code? = (s.place j).code? ∨
      underway (s.place j).code? = [] ∧ underway (t.place j).code? = [] ∧
        ∀ addr i, (t.place j).code? = some (.pipewrite addr i) → i ≤ addr.length) : Accounted t := by
  refine ⟨fun j => ?_, fun j addr i is => ?_⟩
  · rw [stored, writes, accounted.stored]
    rcases others j with same | ⟨before, after, -⟩
    · rw [same]
    · rw [before, after]
  · rcases others j with same | ⟨-, -, begun⟩
    · exact accounted.begun j addr i (same ▸ is)
    · exact begun addr i is

/-- A section of `pipewrite` stores the next bytes, and may return. -/
theorem Accounted.wrote (accounted : Accounted s) (ready : s.place myproc = .ready (.pipewrite addr i))
    (stored : Stored myproc bytes s.shared p') (isPrefix : bytes = (addr.drop i).take bytes.length)
    (history : t.shared.stored = p'.stored) (others : ∀ j ≠ myproc, (t.place j).code? = (s.place j).code?)
    (ends : t.shared.writes = p'.writes ∧
        (t.place myproc).code? = some (.pipewrite addr (i + bytes.length)) ∧
        i + bytes.length ≤ addr.length ∨
      ∃ value, t.shared.writes = p'.writes ++ [⟨myproc, addr, i + bytes.length, value⟩] ∧
        (t.place myproc).code? = none) : Accounted t := by
  have sofar : addr.take i ++ bytes = addr.take (i + bytes.length) := by
    conv_lhs => rw [isPrefix]
    exact List.take_add.symm
  have before : underway (s.place myproc).code? = addr.take i := by rw [ready]; rfl
  refine ⟨fun j => ?_, fun j addr' i' is => ?_⟩
  · rw [history, stored.stored, bytesBy_append, accounted.stored]
    by_cases same : myproc = j
    · subst same
      rw [before, if_pos rfl, List.append_assoc, sofar]
      rcases ends with ⟨writes, after, -⟩ | ⟨value, writes, after⟩
      · rw [writes, after, stored.writes]
        rfl
      · rw [writes, after, stored.writes, wroteBy_append, if_pos rfl]
        simp [underway]
    · rw [if_neg same, others j (Ne.symm same), List.append_nil]
      rcases ends with ⟨writes, -⟩ | ⟨value, writes, -⟩
      · rw [writes, stored.writes]
      · rw [writes, stored.writes, wroteBy_append, if_neg same, List.append_nil]
  · by_cases same : j = myproc
    · subst same
      rcases ends with ⟨-, after, bound⟩ | ⟨value, -, after⟩
      · rw [after] at is
        cases is
        exact bound
      · rw [after] at is
        cases is
    · exact accounted.begun j addr' i' (others j same ▸ is)

structure PipeInv (s : PipeState ι) : Prop where
  fifo : Fifo s.shared
  accounted : Accounted s

theorem PipeInv.step (inv : PipeInv s) (admitted : PipeUse s label) (step : Step pipeCode s label t) :
    PipeInv t := by
  rcases inv with ⟨fifo, accounted⟩
  cases step with
  | @call myproc entry outside =>
      refine ⟨fifo, accounted.congr rfl rfl fun j => ?_⟩
      dsimp only
      by_cases same : j = myproc
      · subst same
        rw [Function.update_self, outside]
        cases entry with
        | pipewrite addr i =>
            have first : i = 0 := admitted
            subst first
            exact .inr ⟨rfl, rfl, fun addr' i' is => by cases is; exact Nat.zero_le _⟩
        | piperead n => exact .inr ⟨rfl, rfl, fun _ _ is => by cases is⟩
        | pipeclose writable => exact .inr ⟨rfl, rfl, fun _ _ is => by cases is⟩
      · rw [Function.update_of_ne same]
        exact .inl rfl
  | @run myproc entry ready =>
      have others : ∀ (wakes : List PipeChan) (place : Place PipeChan PipeCall), ∀ j ≠ myproc,
          (Function.update (Monitor.wake wakes [] s.place) myproc place j).code? = (s.place j).code? := by
        intro wakes place j different
        rw [Function.update_of_ne different, wake_code]
      cases entry with
      | pipewrite addr i =>
          have begun := accounted.begun myproc addr i (by rw [ready]; rfl)
          refine ⟨fifo.pipewrite begun, ?_⟩
          rcases fifo.stream with ⟨pending, holds, -⟩
          have ends := writeLoop_ends myproc addr (addr.drop i) (i := i) holds
          dsimp only [pipeCode, pipewrite]
          generalize writeLoop myproc addr (addr.drop i) i s.shared = result at ends ⊢
          cases ends with
          | returns stored =>
              refine accounted.wrote ready stored (List.take_length).symm rfl (others _ _) (.inr ⟨_, rfl, ?_⟩)
              dsimp only
              rw [Function.update_self]
              rfl
          | fails bytes more isPrefix stored full alone =>
              refine accounted.wrote ready stored isPrefix rfl (others _ _) (.inr ⟨_, rfl, ?_⟩)
              dsimp only
              rw [Function.update_self]
              rfl
          | sleeps bytes more isPrefix stored full goesOn =>
              rw [List.length_drop] at more
              refine accounted.wrote ready stored isPrefix rfl (others _ _) (.inl ⟨rfl, ?_, by omega⟩)
              dsimp only
              rw [Function.update_self]
              rfl
      | piperead n =>
          refine ⟨fifo.piperead, ?_⟩
          rcases fifo.stream with ⟨pending, holds, -⟩
          have kept : (piperead myproc n s.shared).shared.stored = s.shared.stored ∧
              (piperead myproc n s.shared).shared.writes = s.shared.writes ∧
              ∀ addr i, (piperead myproc n s.shared).place.code? ≠ some (.pipewrite addr i) := by
            have same := (copyLoop_takes n holds).2.1
            unfold piperead
            split
            · split <;> exact ⟨rfl, rfl, nofun⟩
            · dsimp only
              rw [same]
              exact ⟨rfl, rfl, nofun⟩
          refine accounted.congr kept.1 kept.2.1 fun j => ?_
          by_cases same : j = myproc
          · subst same
            dsimp only [pipeCode]
            rw [Function.update_self, ready]
            refine .inr ⟨rfl, ?_, fun addr i is => absurd is (kept.2.2 addr i)⟩
            have quiet := kept.2.2
            generalize (piperead j n s.shared).place.code? = code at quiet
            match code with
            | none => rfl
            | some (.piperead n) => rfl
            | some (.pipeclose writable) => rfl
            | some (.pipewrite addr i) => exact absurd rfl (quiet addr i)
          · exact .inl (others _ _ j same)
      | pipeclose writable =>
          refine ⟨fifo.pipeclose writable, ?_⟩
          have kept : (pipeclose writable s.shared).shared.stored = s.shared.stored ∧
              (pipeclose writable s.shared).shared.writes = s.shared.writes ∧
              (pipeclose writable s.shared).place = .out := by
            cases writable <;> exact ⟨rfl, rfl, rfl⟩
          refine accounted.congr kept.1 kept.2.1 fun j => ?_
          by_cases same : j = myproc
          · subst same
            dsimp only [pipeCode]
            rw [Function.update_self, ready, kept.2.2]
            exact .inr ⟨rfl, rfl, nofun⟩
          · exact .inl (others _ _ j same)
  | interrupt kill =>
      refine ⟨⟨fifo.stream, fifo.writes, fifo.reads⟩, accounted.congr rfl rfl fun j => .inl ?_⟩
      exact wake_code _ _ _ _

theorem inv_of_pipeReach (reach : PipeReach s) : PipeInv s := by
  refine Reachable.invariant reach PipeInv ⟨⟨⟨[], .nil _ _, rfl⟩, nofun, nofun⟩, ⟨fun _ => rfl, nofun⟩⟩ ?_
  exact fun _ inv admitted step => inv.step admitted step

instance (s : PipeState ι) (label : Label ι PipeCall (PipeKill ι)) : Decidable (PipeUse s label) :=
  match label with
  | .call _ (.pipewrite _ i) => inferInstanceAs (Decidable (i = 0))
  | .call _ (.piperead _) => inferInstanceAs (Decidable True)
  | .call _ (.pipeclose _) => inferInstanceAs (Decidable True)
  | .run _ => inferInstanceAs (Decidable (_ ∨ _))
  | .interrupt _ => inferInstanceAs (Decidable True)

end Xv6.Sync
