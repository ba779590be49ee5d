import Mathlib

/-!
# Maps as tables of slots

A map is kept as a list of slots, some of them empty. A new pair goes to the first empty slot, or to the
end, and a pair is removed by emptying its slot.
-/

namespace SlotTable

variable {κ ν : Type*} [DecidableEq κ]

/-- A slot has the pair. -/
def HasPair (table : List (Option (κ × ν))) (i : ℕ) (key : κ) (v : ν) : Prop := table[i]? = some (some (key, v))

/-- The first slot with the key. -/
def position (table : List (Option (κ × ν))) (key : κ) : Option ℕ :=
  table.findIdx? fun slot => slot.any fun pair => pair.1 = key

/-- The map that the table stands for. -/
def toMap (table : List (Option (κ × ν))) (key : κ) : Option ν :=
  (position table key).bind fun i => (table.getD i none).map Prod.snd

/-- Another slot at place `i`, or at the end. -/
def put (table : List (Option (κ × ν))) (i : ℕ) (slot : Option (κ × ν)) : List (Option (κ × ν)) :=
  table.take i ++ slot :: table.drop (i + 1)

/-- The first empty slot, or the end. -/
def firstEmpty (table : List (Option (κ × ν))) : ℕ := table.findIdx Option.isNone

def insert (table : List (Option (κ × ν))) (key : κ) (v : ν) : List (Option (κ × ν)) :=
  put table (firstEmpty table) (some (key, v))

/-- No two slots have the same key. -/
def Distinct (table : List (Option (κ × ν))) : Prop :=
  ∀ i j key v w, HasPair table i key v → HasPair table j key w → i = j

variable {table : List (Option (κ × ν))} {slot : Option (κ × ν)} {key other : κ} {v w : ν} {i j : ℕ}

omit [DecidableEq κ] in
theorem firstEmpty_le (table : List (Option (κ × ν))) : firstEmpty table ≤ table.length := List.findIdx_le_length

omit [DecidableEq κ] in
theorem firstEmpty_empty (less : firstEmpty table < table.length) : table[firstEmpty table]? = some none := by
  have isNone : (table[firstEmpty table]).isNone = true := List.findIdx_getElem
  rw [List.getElem?_eq_getElem less, Option.isNone_iff_eq_none.1 isNone]

omit [DecidableEq κ] in
theorem getElem?_put (inside : i ≤ table.length) (j : ℕ) :
    (put table i slot)[j]? = if j = i then some slot else table[j]? := by
  have isLength : (table.take i).length = i := List.length_take_of_le inside
  unfold put
  rcases lt_trichotomy j i with before | rfl | behind
  · rw [if_neg before.ne, List.getElem?_append_left (isLength.symm ▸ before), List.getElem?_take, if_pos before]
  · rw [if_pos rfl, List.getElem?_append_right isLength.le, isLength, Nat.sub_self]
    rfl
  · rcases Nat.exists_eq_add_of_lt behind with ⟨n, rfl⟩
    have isPlace : i + n + 1 - i = n + 1 := by omega
    rw [if_neg behind.ne', List.getElem?_append_right (by omega), isLength, isPlace, List.getElem?_cons_succ,
      List.getElem?_drop]
    congr 1
    omega

omit [DecidableEq κ] in
theorem holds_put (inside : i ≤ table.length) :
    HasPair (put table i slot) j key v ↔ if j = i then slot = some (key, v) else HasPair table j key v := by
  unfold HasPair
  rw [getElem?_put inside]
  split
  · exact Option.some_inj
  · exact Iff.rfl

theorem position_some (isPlace : position table key = some i) :
    ∃ v, HasPair table i key v ∧ toMap table key = some v := by
  rcases List.findIdx?_eq_some_iff_getElem.1 isPlace with ⟨less, hasKey, -⟩
  rcases Option.any_eq_true _ _ |>.1 hasKey with ⟨⟨found, v⟩, isSlot, isKey⟩
  have same : found = key := of_decide_eq_true isKey
  have isPair : table[i]? = some (some (key, v)) := by
    rw [List.getElem?_eq_getElem less, isSlot, same]
  refine ⟨v, isPair, ?_⟩
  unfold toMap
  rw [isPlace, Option.bind_some, List.getD_eq_getElem?_getD, isPair]
  rfl

theorem position_none (isPlace : position table key = none) : ∀ i v, ¬HasPair table i key v := by
  intro i v holds
  have noKey := List.findIdx?_eq_none_iff.1 isPlace (some (key, v)) (List.mem_of_getElem? holds)
  rw [Option.any_some, decide_eq_false_iff_not] at noKey
  exact noKey rfl

theorem toMap_none (isMap : toMap table key = none) : position table key = none := by
  rcases isPlace : position table key with _ | i
  · rfl
  · rcases position_some isPlace with ⟨v, -, isValue⟩
    rw [isMap] at isValue
    cases isValue

theorem toMap_some (isMap : toMap table key = some v) : ∃ i, position table key = some i ∧ HasPair table i key v := by
  rcases isPlace : position table key with _ | i
  · unfold toMap at isMap
    rw [isPlace] at isMap
    cases isMap
  · rcases position_some isPlace with ⟨w, holds, isValue⟩
    rw [isMap, Option.some_inj] at isValue
    exact ⟨i, rfl, isValue ▸ holds⟩

/-- The pairs of the map are the pairs of the slots. -/
theorem Distinct.toMap_iff (distinct : Distinct table) : toMap table key = some v ↔ ∃ i, HasPair table i key v := by
  constructor
  · intro isMap
    rcases toMap_some isMap with ⟨i, -, holds⟩
    exact ⟨i, holds⟩
  · rintro ⟨i, holds⟩
    rcases isMap : toMap table key with _ | w
    · exact absurd holds (position_none (toMap_none isMap) i v)
    · rcases toMap_some isMap with ⟨j, -, holds'⟩
      unfold HasPair at holds holds'
      rw [distinct i j key v w holds holds', holds'] at holds
      cases holds
      rfl

theorem Distinct.toMap_ext {f : κ → Option ν} (distinct : Distinct table)
    (same : ∀ key v, f key = some v ↔ ∃ i, HasPair table i key v) : toMap table = f := by
  funext key
  refine Option.ext fun v => ?_
  rw [same, ← distinct.toMap_iff]

/-! ## New pairs -/

omit [DecidableEq κ] in
/-- Other slots than the first empty one stay. -/
theorem holds_insert : HasPair (insert table key v) j other w ↔
    (j = firstEmpty table ∧ key = other ∧ v = w) ∨ HasPair table j other w := by
  unfold insert
  rw [holds_put (firstEmpty_le table)]
  split
  · rename_i isFirst
    rw [Option.some_inj, Prod.mk.injEq]
    refine ⟨fun same => .inl ⟨isFirst, same⟩, fun possible => possible.elim And.right fun holds => ?_⟩
    unfold HasPair at holds
    rcases List.getElem?_eq_some_iff.1 holds with ⟨less, -⟩
    rw [isFirst] at less holds
    rw [firstEmpty_empty less] at holds
    cases holds
  · rename_i notFirst
    exact ⟨.inr, fun possible => possible.resolve_left fun first => notFirst first.1⟩

theorem Distinct.insert (distinct : Distinct table) (absent : toMap table key = none) (v : ν) :
    Distinct (insert table key v) := by
  have none := position_none (toMap_none absent)
  intro i j other w w' first second
  rcases holds_insert.1 first with ⟨isI, rfl, -⟩ | first
  · rcases holds_insert.1 second with ⟨isJ, -, -⟩ | second
    · rw [isI, isJ]
    · exact absurd second (none j w')
  · rcases holds_insert.1 second with ⟨-, rfl, -⟩ | second
    · exact absurd first (none i w)
    · exact distinct i j other w w' first second

theorem Distinct.toMap_insert (distinct : Distinct table) (absent : toMap table key = none) (v : ν) :
    toMap (SlotTable.insert table key v) = Function.update (toMap table) key (some v) := by
  refine (distinct.insert absent v).toMap_ext fun other w => ?_
  rw [Function.update_apply]
  split
  · rename_i isKey
    subst isKey
    constructor
    · intro same
      exact ⟨firstEmpty table, holds_insert.2 (.inl ⟨rfl, rfl, Option.some_inj.1 same⟩)⟩
    · rintro ⟨i, holds⟩
      rcases holds_insert.1 holds with ⟨-, -, rfl⟩ | holds
      · rfl
      · exact absurd holds (position_none (toMap_none absent) i w)
  · rename_i notKey
    rw [distinct.toMap_iff]
    refine exists_congr fun i => ?_
    rw [holds_insert]
    exact ⟨.inr, fun possible => possible.resolve_left fun first => notKey first.2.1.symm⟩

/-! ## Removed pairs -/

omit [DecidableEq κ] in
theorem HasPair.lt (holds : HasPair table i key v) : i < table.length := by
  rcases List.getElem?_eq_some_iff.1 holds with ⟨less, -⟩
  exact less

omit [DecidableEq κ] in
theorem holds_erase (inside : i ≤ table.length) :
    HasPair (put table i none) j other w ↔ j ≠ i ∧ HasPair table j other w := by
  rw [holds_put inside]
  split
  · rename_i isPlace
    refine iff_of_false ?_ fun possible => possible.1 isPlace
    rintro ⟨⟩
  · rename_i notPlace
    exact (and_iff_right notPlace).symm

omit [DecidableEq κ] in
theorem Distinct.erase (distinct : Distinct table) (inside : i ≤ table.length) : Distinct (put table i none) :=
  fun j k other w w' first second =>
    distinct j k other w w' ((holds_erase inside).1 first).2 ((holds_erase inside).1 second).2

theorem Distinct.toMap_erase (distinct : Distinct table) (holds : HasPair table i key v) :
    toMap (put table i none) = Function.update (toMap table) key none := by
  have inside : i ≤ table.length := holds.lt.le
  refine (distinct.erase inside).toMap_ext fun other w => ?_
  rw [Function.update_apply]
  split
  · rename_i isKey
    subst isKey
    refine iff_of_false (by rintro ⟨⟩) ?_
    rintro ⟨j, holds'⟩
    rcases (holds_erase inside).1 holds' with ⟨different, holds'⟩
    exact different (distinct j i other w v holds' holds)
  · rename_i notKey
    rw [distinct.toMap_iff]
    refine exists_congr fun j => ?_
    rw [holds_erase inside]
    refine (and_iff_right_of_imp fun holds' => ?_).symm
    rintro rfl
    unfold HasPair at holds holds'
    rw [holds] at holds'
    cases holds'
    exact notKey rfl

end SlotTable
