import Xv6.Lib.Bytes

/-!
# The configuration table of the machine

`mpconfig` and `mpinit` of `mp.c`. The table is a sequence of bytes, and an address is an offset in it.
-/

namespace Xv6.Mp

open Bytes

/-- `NCPU` -/
def ncpu : ℕ := 8

/-- `sizeof(struct mpconf)` -/
def headerSize : ℕ := 44

/-- `sizeof(struct mpproc)` -/
def procSize : ℕ := 20

/-- `sizeof(struct mpioapic)` -/
def ioapicSize : ℕ := 8

/-- `MPPROC` -/
def mpproc : Byte := 0

/-- `MPBUS` -/
def mpbus : Byte := 1

/-- `MPIOAPIC` -/
def mpioapic : Byte := 2

/-- `MPIOINTR` -/
def mpiointr : Byte := 3

/-- `MPLINTR` -/
def mplintr : Byte := 4

/-- "PCMP" -/
def signature : List Byte := [0x50, 0x43, 0x4d, 0x50]

/-- The bytes from `conf` on. -/
abbrev Table := ℕ → Byte

variable (table : Table)

/-- `conf->length` -/
def length : ℕ := get table 2 4

/-- `sum` -/
def sum (len : ℕ) : Byte := ((List.range len).map table).sum

/-- Whether `mpconfig` accepts the table that it has found. -/
def mpconfig : Bool :=
  (List.range 4).map table = signature ∧ (table 6 = 1 ∨ table 6 = 4) ∧ sum table (length table) = 0

/-- The variables of `mpinit` and those that it sets. -/
structure Walk where
  p : ℕ := headerSize
  ismp : Bool := true
  ncpu : ℕ := 0
  /-- `cpus[i].apicid` -/
  cpus : ℕ → Byte := fun _ => 0
  ioapicid : Byte := 0
  /-- the places of `*p`, one for each pass -/
  visited : List ℕ := []

/-- The body of the loop. In its last case `p` stays where it is: `break` only leaves the `switch`. -/
def body (s : Walk) : Walk :=
  let s := { s with visited := s.visited ++ [s.p] }
  if table s.p = mpproc then
    let s := if s.ncpu < ncpu then
        { s with cpus := Function.update s.cpus s.ncpu (table (s.p + 1)), ncpu := s.ncpu + 1 }
      else s
    { s with p := s.p + procSize }
  else if table s.p = mpioapic then { s with ioapicid := table (s.p + 1), p := s.p + ioapicSize }
  else if table s.p = mpbus ∨ table s.p = mpiointr ∨ table s.p = mplintr then { s with p := s.p + 8 }
  else { s with ismp := false }

/-- The loop, if it ends within this number of passes. -/
def loop : ℕ → Walk → Option Walk
  | 0, s => if s.p < length table then none else some s
  | passes + 1, s => if s.p < length table then loop passes (body table s) else some s

/-- How `mpinit` ends. -/
inductive Outcome where
  /-- panic: Expect to run on an SMP -/
  | noTable
  /-- panic: Didn't find a suitable machine -/
  | unsuitable
  | found (s : Walk)

/-- `mpinit`, if its loop ends within this number of passes. -/
def mpinit (passes : ℕ) : Option Outcome :=
  if mpconfig table then
    (loop table passes {}).map fun s => if s.ismp then .found s else .unsuitable
  else some .noTable

/-! ## The entries of a table -/

/-- The types of entries that there are. -/
def Known (type : Byte) : Prop :=
  type = mpproc ∨ type = mpbus ∨ type = mpioapic ∨ type = mpiointr ∨ type = mplintr

instance (type : Byte) : Decidable (Known type) := inferInstanceAs (Decidable (_ ∨ _))

/-- The size of an entry of a known type. -/
def entrySize (type : Byte) : ℕ := if type = mpproc then 20 else 8

/-- Where the entry with this number begins. -/
def entryAt : ℕ → ℕ
  | 0 => headerSize
  | n + 1 => entryAt n + entrySize (table (entryAt n))

/-- There is an entry with this number: it begins in the table, and the types of all entries before it
are known. -/
structure IsEntry (n : ℕ) : Prop where
  inside : entryAt table n < length table
  before : ∀ i < n, Known (table (entryAt table i))

/-- The entries are of known types and lie in the table as a whole. -/
def Complete : Prop := ∀ n, IsEntry table n →
  Known (table (entryAt table n)) ∧ entryAt table n + entrySize (table (entryAt table n)) ≤ length table

/-- The numbers of the processor entries among the first ones. -/
def processors (n : ℕ) : List ℕ := (List.range n).filter fun i => table (entryAt table i) = mpproc

/-- What is right for `mpinit`. -/
structure MpinitCorrect : Prop where
  ends : ∃ passes s, loop table passes {} = some s ∧
    (∀ p ∈ s.visited, p < length table ∧ p + entrySize (table p) ≤ length table) ∧ s.ncpu ≤ ncpu ∧
    ∃ n, length table ≤ entryAt table n ∧ (∀ i < n, IsEntry table i) ∧
      s.ncpu = min ncpu (processors table n).length ∧
      ∀ i < s.ncpu, s.cpus i = table (entryAt table ((processors table n).getD i 0) + 1)
  panics : (∃ passes, mpinit table passes = some .unsuitable) ↔
    ∃ n, IsEntry table n ∧ ¬Known (table (entryAt table n))

variable {table} {s : Walk} {n passes : ℕ}

/-! ## The passes of the loop -/

/-- The state before the pass with this number. -/
def stateAt (table : Table) (n : ℕ) : Walk := (body table)^[n] {}

theorem stateAt_succ (table : Table) (n : ℕ) : stateAt table (n + 1) = body table (stateAt table n) :=
  Function.iterate_succ_apply' ..

/-- The loop ends with the first state that is behind the table. -/
theorem loop_iff : loop table passes (stateAt table n) = some s ↔
    ∃ k ≤ passes, s = stateAt table (n + k) ∧ length table ≤ s.p ∧
      ∀ i < k, (stateAt table (n + i)).p < length table := by
  induction passes generalizing n with
  | zero =>
      rw [loop]
      split
      · rename_i less
        refine iff_of_false nofun ?_
        rintro ⟨k, few, rfl, behind, -⟩
        rw [Nat.le_zero.1 few, Nat.add_zero] at behind
        omega
      · rename_i behind
        rw [Option.some_inj]
        constructor
        · rintro rfl
          exact ⟨0, le_rfl, rfl, Nat.not_lt.1 behind, fun i none => absurd none (Nat.not_lt_zero i)⟩
        · rintro ⟨k, few, rfl, -⟩
          rw [Nat.le_zero.1 few, Nat.add_zero]
  | succ passes ih =>
      rw [loop]
      split
      · rename_i less
        rw [← stateAt_succ, ih]
        have shift : ∀ k, n + 1 + k = n + (k + 1) := fun k => by omega
        constructor
        · rintro ⟨k, few, isState, behind, inside⟩
          refine ⟨k + 1, Nat.succ_le_succ few, isState.trans (by rw [shift]), behind, fun i below => ?_⟩
          cases i with
          | zero => exact less
          | succ i =>
              rw [← shift]
              exact inside i (Nat.lt_of_succ_lt_succ below)
        · rintro ⟨k, few, isState, behind, inside⟩
          cases k with
          | zero =>
              rw [isState, Nat.add_zero] at behind
              omega
          | succ k =>
              refine ⟨k, Nat.le_of_succ_le_succ few, isState.trans (by rw [shift]), behind, fun i below => ?_⟩
              rw [shift]
              exact inside (i + 1) (Nat.succ_lt_succ below)
      · rename_i behind
        rw [Option.some_inj]
        constructor
        · rintro rfl
          exact ⟨0, Nat.zero_le _, rfl, Nat.not_lt.1 behind, fun i none => absurd none (Nat.not_lt_zero i)⟩
        · rintro ⟨k, few, rfl, -, inside⟩
          cases k with
          | zero => rfl
          | succ k => exact absurd (inside 0 (Nat.succ_pos k)) behind

/-- The first entries have been handled. -/
structure Handled (table : Table) (n : ℕ) (s : Walk) : Prop where
  p : s.p = entryAt table n
  ismp : s.ismp = true
  visited : s.visited = (List.range n).map (entryAt table)
  ncpu : s.ncpu = min ncpu (processors table n).length
  cpus : ∀ i < s.ncpu, s.cpus i = table (entryAt table ((processors table n).getD i 0) + 1)

theorem processors_succ (table : Table) (n : ℕ) : processors table (n + 1) =
    processors table n ++ if table (entryAt table n) = mpproc then [n] else [] := by
  unfold processors
  rw [List.range_succ, List.filter_append, List.filter_singleton]
  by_cases isProc : table (entryAt table n) = mpproc
  · rw [decide_eq_true isProc, if_pos isProc]
    rfl
  · rw [decide_eq_false isProc, if_neg isProc]
    rfl

/-- An entry that is not one of a processor. -/
theorem Handled.skip (handled : Handled table n s) (other : table (entryAt table n) ≠ mpproc) {s' : Walk}
    (p : s'.p = s.p + 8) (ismp : s'.ismp = s.ismp) (visited : s'.visited = s.visited ++ [s.p])
    (ncpu : s'.ncpu = s.ncpu) (cpus : s'.cpus = s.cpus) : Handled table (n + 1) s' := by
  have same : processors table (n + 1) = processors table n := by
    rw [processors_succ, if_neg other, List.append_nil]
  refine ⟨?_, ismp.trans handled.ismp, ?_, ?_, ?_⟩
  · rw [p, handled.p, entryAt, entrySize, if_neg other]
  · rw [visited, handled.visited, handled.p, List.range_succ, List.map_append, List.map_singleton]
  · rw [ncpu, same, handled.ncpu]
  · rw [ncpu, cpus, same]
    exact handled.cpus

/-- An entry of a processor. -/
theorem Handled.processor (handled : Handled table n s) (isProc : table (entryAt table n) = mpproc) :
    Handled table (n + 1) (body table s) := by
  have place : table s.p = mpproc := handled.p ▸ isProc
  have next : processors table (n + 1) = processors table n ++ [n] := by
    rw [processors_succ, if_pos isProc]
  have count := handled.ncpu
  have isNext : entryAt table n + procSize = entryAt table (n + 1) := by
    rw [entryAt, entrySize, if_pos isProc]
    rfl
  have isVisited : s.visited ++ [s.p] = (List.range (n + 1)).map (entryAt table) := by
    rw [handled.visited, handled.p, List.range_succ, List.map_append, List.map_singleton]
  unfold body
  dsimp only
  rw [if_pos place]
  split
  · rename_i room
    have isLength : s.ncpu = (processors table n).length := by omega
    refine ⟨?_, handled.ismp, isVisited, ?_, fun i less => ?_⟩
    · dsimp only
      rw [handled.p, isNext]
    · dsimp only
      rw [next, List.length_append, List.length_singleton]
      omega
    · dsimp only at less ⊢
      rw [next]
      by_cases isLast : i = s.ncpu
      · rw [isLast, Function.update_self, isLength, List.getD_append_right _ _ _ _ le_rfl, Nat.sub_self,
          handled.p]
        rfl
      · rw [Function.update_of_ne isLast, List.getD_append _ _ _ _ (by omega)]
        exact handled.cpus i (by omega)
  · rename_i full
    refine ⟨?_, handled.ismp, isVisited, ?_, fun i less => ?_⟩
    · dsimp only
      rw [handled.p, isNext]
    · dsimp only
      rw [next, List.length_append, List.length_singleton]
      omega
    · dsimp only at less ⊢
      rw [next, List.getD_append _ _ _ _ (by omega)]
      exact handled.cpus i less

theorem Handled.body (handled : Handled table n s) (known : Known (table (entryAt table n))) :
    Handled table (n + 1) (Mp.body table s) := by
  have place : table s.p = table (entryAt table n) := by rw [handled.p]
  by_cases isProc : table (entryAt table n) = mpproc
  · exact handled.processor isProc
  · have known' := known.resolve_left isProc
    unfold Mp.body
    dsimp only
    rw [place, if_neg isProc]
    split
    · exact handled.skip isProc rfl rfl rfl rfl rfl
    · rename_i notIoapic
      have rest : table (entryAt table n) = mpbus ∨ table (entryAt table n) = mpiointr ∨
          table (entryAt table n) = mplintr := by
        rcases known' with isBus | isIoapic | rest
        · exact .inl isBus
        · exact absurd isIoapic notIoapic
        · exact .inr rest
      rw [if_pos rest]
      exact handled.skip isProc rfl rfl rfl rfl rfl

theorem handled_stateAt (known : ∀ i < n, Known (table (entryAt table i))) : Handled table n (stateAt table n) := by
  induction n with
  | zero => exact ⟨rfl, rfl, rfl, rfl, fun i none => absurd none (Nat.not_lt_zero i)⟩
  | succ n ih =>
      rw [stateAt_succ]
      exact (ih fun i less => known i (less.trans (Nat.lt_succ_self n))).body (known n (Nat.lt_succ_self n))

/-- The loop stays at an entry of unknown type. -/
theorem stuck (entry : IsEntry table n) (unknown : ¬Known (table (entryAt table n))) (k : ℕ) :
    (stateAt table (n + k)).p = entryAt table n := by
  induction k with
  | zero => exact (handled_stateAt entry.before).p
  | succ k ih =>
      unfold Known at unknown
      rw [not_or, not_or, not_or, not_or] at unknown
      rcases unknown with ⟨notProc, notBus, notIoapic, notIointr, notLintr⟩
      rw [← Nat.add_assoc, stateAt_succ, body]
      dsimp only
      rw [ih, if_neg notProc, if_neg notIoapic, if_neg]
      rintro (isBus | isIointr | isLintr)
      · exact notBus isBus
      · exact notIointr isIointr
      · exact notLintr isLintr

/-- If the loop ends, all entries have been handled. -/
theorem loop_ends (ends : loop table passes {} = some s) : ∃ n, Handled table n s ∧
    length table ≤ entryAt table n ∧ ∀ i < n, IsEntry table i ∧ Known (table (entryAt table i)) := by
  have start : stateAt table 0 = {} := rfl
  rw [← start, loop_iff] at ends
  rcases ends with ⟨n, -, isState, behind, inside⟩
  rw [Nat.zero_add] at isState
  subst isState
  have entries : ∀ i < n, IsEntry table i ∧ Known (table (entryAt table i)) := by
    intro i less
    induction i using Nat.strong_induction_on with
    | _ i ih =>
        have before : ∀ j < i, Known (table (entryAt table j)) := fun j below => (ih j below (below.trans less)).2
        have here := inside i less
        rw [Nat.zero_add, (handled_stateAt before).p] at here
        have entry : IsEntry table i := ⟨here, before⟩
        refine ⟨entry, ?_⟩
        by_contra unknown
        have same := stuck entry unknown (n - i)
        rw [Nat.add_sub_cancel' less.le] at same
        rw [same] at behind
        exact absurd here (Nat.not_lt.2 behind)
  have handled := handled_stateAt fun i less => (entries i less).2
  exact ⟨n, handled, handled.p ▸ behind, entries⟩

theorem entryAt_mono (table : Table) : Monotone (entryAt table) :=
  monotone_nat_of_le_succ fun n => Nat.le_add_right (entryAt table n) _

theorem entryAt_lower (table : Table) (n : ℕ) : headerSize + 8 * n ≤ entryAt table n := by
  induction n with
  | zero => exact le_rfl
  | succ n ih =>
      rw [entryAt, entrySize]
      split <;> omega

/-- If the entries are complete, there is a last one. -/
theorem Complete.ends (complete : Complete table) : ∃ n, length table ≤ entryAt table n ∧
    ∀ i < n, IsEntry table i := by
  have some : ∃ n, length table ≤ entryAt table n := by
    refine ⟨length table, le_trans ?_ (entryAt_lower table _)⟩
    omega
  have inside : ∀ i < Nat.find some, entryAt table i < length table :=
    fun i less => Nat.not_le.1 (Nat.find_min some less)
  refine ⟨Nat.find some, Nat.find_spec some, fun i less => ?_⟩
  induction i using Nat.strong_induction_on with
  | _ i ih =>
      exact ⟨inside i less, fun j below => (complete j (ih j below (below.trans less))).1⟩

/-- The run for complete entries. -/
theorem loop_complete (complete : Complete table) (behind : length table ≤ entryAt table n)
    (entries : ∀ i < n, IsEntry table i) : loop table n {} = some (stateAt table n) := by
  have start : stateAt table 0 = {} := rfl
  have handled := handled_stateAt fun i less => (complete i (entries i less)).1
  rw [← start, loop_iff]
  refine ⟨n, le_rfl, by rw [Nat.zero_add], handled.p ▸ behind, fun i less => ?_⟩
  rw [Nat.zero_add, (handled_stateAt (entries i less).before).p]
  exact (entries i less).inside

/-- `mpinit` is right if and only if the entries of the table are complete. -/
theorem mpinit_iff (accepted : mpconfig table = true) : MpinitCorrect table ↔ Complete table := by
  constructor
  · rintro ⟨⟨passes, s, ends, inside, -⟩, -⟩ n entry
    rcases loop_ends ends with ⟨last, handled, behind, entries⟩
    have less : n < last := by
      by_contra later
      have mono := entryAt_mono table (Nat.not_lt.1 later)
      exact absurd (mono.trans_lt entry.inside) (Nat.not_lt.2 behind)
    refine ⟨(entries n less).2, (inside _ ?_).2⟩
    rw [handled.visited]
    exact List.mem_map_of_mem (List.mem_range.2 less)
  · intro complete
    rcases complete.ends with ⟨n, behind, entries⟩
    have handled := handled_stateAt fun i less => (complete i (entries i less)).1
    refine ⟨⟨n, _, loop_complete complete behind entries, fun p visited => ?_, ?_, n, behind, entries,
      handled.ncpu, handled.cpus⟩, ?_⟩
    · rw [handled.visited] at visited
      rcases List.mem_map.1 visited with ⟨i, member, rfl⟩
      have entry := entries i (List.mem_range.1 member)
      exact ⟨entry.inside, (complete i entry).2⟩
    · rw [handled.ncpu]
      exact Nat.min_le_left _ _
    · refine iff_of_false ?_ fun ⟨i, entry, unknown⟩ => unknown (complete i entry).1
      rintro ⟨passes, panics⟩
      rw [mpinit, if_pos accepted] at panics
      rcases Option.map_eq_some_iff.1 panics with ⟨s, ends, isOutcome⟩
      rcases loop_ends ends with ⟨last, handled', -⟩
      rw [handled'.ismp, if_pos rfl] at isOutcome
      cases isOutcome

/-- A table with the entries of two processors. -/
def twoProcessors : Table := fun i =>
  ([0x50, 0x43, 0x4d, 0x50, 84, 0, 4, 0x6e] ++ List.replicate 36 0 ++ [0, 7] ++ List.replicate 18 0 ++
    [0, 3] ++ List.replicate 18 0 : List Byte).getD i 0

theorem twoProcessors_complete : Complete twoProcessors := by
  have isLength : length twoProcessors = 84 := by decide
  intro n entry
  have few : n < 2 := by
    by_contra more
    have mono := entryAt_mono twoProcessors (Nat.not_lt.1 more)
    have second : entryAt twoProcessors 2 = 84 := by decide
    have inside := entry.inside
    omega
  interval_cases n
  · decide
  · decide

theorem mpinit_iff_twoProcessors : MpinitCorrect twoProcessors :=
  (mpinit_iff (by decide +kernel)).2 twoProcessors_complete

/-- A table with one entry, of type 5. -/
def strangeEntry : Table := fun i =>
  ([0x50, 0x43, 0x4d, 0x50, 52, 0, 4, 0x93] ++ List.replicate 36 0 ++ [5] ++ List.replicate 7 0 : List Byte).getD i 0

/-- The loop does not end at an entry of unknown type. -/
theorem mpinit_incorrect : ¬∀ table, mpconfig table = true → MpinitCorrect table := by
  intro claimed
  rcases (claimed strangeEntry (by decide +kernel)).ends with ⟨passes, s, ends, -⟩
  rcases loop_ends ends with ⟨n, -, behind, entries⟩
  have some : 0 < n := by
    by_contra none
    have isLength : length strangeEntry = 52 := by decide
    rw [Nat.eq_zero_of_not_pos none, isLength] at behind
    exact absurd behind (by decide)
  exact absurd (entries 0 some).2 (by decide)

end Xv6.Mp
