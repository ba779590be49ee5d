import Mathlib.Data.Set.Card

/-!
# Link counts

Nodes with edges between them, some of which are inner nodes. A node has one link for each edge that leads to it, one
for each edge from it to an inner node, which has a way back, and the root has one more.
-/

namespace LinkCount

variable {α κ : Type*}

/-- The edges to a node. An edge is where it starts, its place there, and where it leads to. -/
def into (edges : Set (α × κ × α)) (v : α) : Set (α × κ × α) := {e ∈ edges | e.2.2 = v}

/-- The edges from a node to inner nodes. -/
def below (edges : Set (α × κ × α)) (inner : Set α) (v : α) : Set (α × κ × α) := {e ∈ edges | e.1 = v ∧ e.2.2 ∈ inner}

open Classical in
/-- One if it is true. -/
noncomputable def flag (p : Prop) : ℕ := if p then 1 else 0

theorem flag_true {p : Prop} (holds : p) : flag p = 1 := if_pos holds

theorem flag_false {p : Prop} (not : ¬p) : flag p = 0 := if_neg not

theorem flag_eq (p : Prop) [Decidable p] : flag p = if p then 1 else 0 := by
  by_cases holds : p
  · rw [flag_true holds, if_pos holds]
  · rw [flag_false holds, if_neg holds]

/-- How many links a node has. -/
noncomputable def links (edges : Set (α × κ × α)) (inner : Set α) (root v : α) : ℕ∞ :=
  (into edges v).encard + (below edges inner v).encard + flag (v = root)

/-- How many links of a node an edge is. -/
noncomputable def share (inner : Set α) (e : α × κ × α) (v : α) : ℕ :=
  flag (e.2.2 = v) + flag (e.1 = v ∧ e.2.2 ∈ inner)

/-- Every node but the root is the end of an edge, an inner node of one only, and the link counts are right. -/
structure Tidy (edges : Set (α × κ × α)) (inner nodes : Set α) (root : α) (nlink : α → ℕ) : Prop where
  hasRoot : root ∈ nodes
  source : ∀ e ∈ edges, e.1 ∈ nodes
  target : ∀ e ∈ edges, e.2.2 ∈ nodes
  noLoop : ∀ e ∈ edges, e.2.2 ≠ e.1
  single : ∀ e ∈ edges, e.2.2 ∈ inner → ∀ x ∈ edges, x.2.2 = e.2.2 → x = e
  named : ∀ v ∈ nodes, v ≠ root → (into edges v).Nonempty
  count : ∀ v ∈ nodes, (nlink v : ℕ∞) = links edges inner root v

variable {edges edges' : Set (α × κ × α)} {inner inner' nodes : Set α} {root v : α} {nlink nlink' : α → ℕ}
  {e : α × κ × α}

theorem share_target (noLoop : e.2.2 ≠ e.1) (inner : Set α) : share inner e e.2.2 = 1 := by
  unfold share
  rw [flag_true rfl, flag_false fun both => noLoop both.1.symm]

theorem share_source (noLoop : e.2.2 ≠ e.1) (inner : Set α) : share inner e e.1 = flag (e.2.2 ∈ inner) := by
  unfold share
  rw [flag_false noLoop, zero_add, eq_self_iff_true, true_and]

theorem share_other (notTarget : v ≠ e.2.2) (notSource : v ≠ e.1) (inner : Set α) : share inner e v = 0 := by
  unfold share
  rw [flag_false notTarget.symm, flag_false fun both => notSource both.1.symm]

theorem encard_sep_insert (new : e ∉ edges) (p : α × κ × α → Prop) :
    {x ∈ insert e edges | p x}.encard = {x ∈ edges | p x}.encard + flag (p e) := by
  by_cases holds : p e
  · have isInsert : {x ∈ insert e edges | p x} = insert e {x ∈ edges | p x} := by
      ext x
      constructor
      · rintro ⟨rfl | member, isP⟩
        · exact .inl rfl
        · exact .inr ⟨member, isP⟩
      · rintro (rfl | ⟨member, isP⟩)
        · exact ⟨.inl rfl, holds⟩
        · exact ⟨.inr member, isP⟩
    rw [isInsert, flag_true holds]
    exact Set.encard_insert_of_notMem fun member => new member.1
  · have same : {x ∈ insert e edges | p x} = {x ∈ edges | p x} := by
      ext x
      constructor
      · rintro ⟨rfl | member, isP⟩
        · exact absurd isP holds
        · exact ⟨member, isP⟩
      · rintro ⟨member, isP⟩
        exact ⟨.inr member, isP⟩
    rw [same, flag_false holds, Nat.cast_zero, add_zero]

/-- One edge more. -/
theorem links_insert (new : e ∉ edges) (inner : Set α) (root v : α) :
    links (insert e edges) inner root v = links edges inner root v + share inner e v := by
  have isInto : (into (insert e edges) v).encard = (into edges v).encard + flag (e.2.2 = v) :=
    encard_sep_insert new fun x => x.2.2 = v
  have isBelow : (below (insert e edges) inner v).encard =
      (below edges inner v).encard + flag (e.1 = v ∧ e.2.2 ∈ inner) :=
    encard_sep_insert new fun x => x.1 = v ∧ x.2.2 ∈ inner
  unfold links share
  rw [isInto, isBelow, Nat.cast_add, add_add_add_comm, add_right_comm]

/-- One edge less. -/
theorem links_remove (member : e ∈ edges) (inner : Set α) (root v : α) :
    links edges inner root v = links (edges \ {e}) inner root v + share inner e v := by
  have back : insert e (edges \ {e}) = edges := Set.insert_sdiff_self_of_mem member
  have new : e ∉ edges \ {e} := fun stays => stays.2 rfl
  have removed := links_insert new inner root v
  rw [back] at removed
  exact removed

theorem links_congr (same : ∀ e ∈ edges, e.2.2 ∈ inner' ↔ e.2.2 ∈ inner) (root v : α) :
    links edges inner' root v = links edges inner root v := by
  have isBelow : below edges inner' v = below edges inner v := by
    ext x
    exact and_congr_right fun member => and_congr_right fun _ => same x member
  unfold links
  rw [isBelow]

theorem one_le_links (member : e ∈ edges) (inner : Set α) (root : α) : 1 ≤ links edges inner root e.2.2 := by
  have isInto : e ∈ into edges e.2.2 := ⟨member, rfl⟩
  unfold links
  rw [add_assoc]
  exact (Set.one_le_encard_iff_nonempty.2 ⟨e, isInto⟩).trans le_self_add

/-- A node to which an edge leads has a link. -/
theorem Tidy.pos (tidy : Tidy edges inner nodes root nlink) (member : e ∈ edges) : 0 < nlink e.2.2 := by
  have some := one_le_links member inner root
  rw [← tidy.count _ (tidy.target e member)] at some
  exact_mod_cast some

/-- A node from which an edge leads to an inner node has two. -/
theorem Tidy.two_le (tidy : Tidy edges inner nodes root nlink) (member : e ∈ edges) (isInner : e.2.2 ∈ inner) :
    2 ≤ nlink e.1 := by
  have isBelow : e ∈ below edges inner e.1 := ⟨member, rfl, isInner⟩
  have one : 1 ≤ (below edges inner e.1).encard := Set.one_le_encard_iff_nonempty.2 ⟨e, isBelow⟩
  have count := tidy.count _ (tidy.source e member)
  unfold links at count
  have two : (2 : ℕ∞) ≤ nlink e.1 := by
    rw [count]
    by_cases isRoot : e.1 = root
    · rw [flag_true isRoot, ← one_add_one_eq_two]
      exact add_le_add (one.trans le_add_self) le_rfl
    · have into := Set.one_le_encard_iff_nonempty.2 (tidy.named _ (tidy.source e member) isRoot)
      rw [← one_add_one_eq_two]
      exact (add_le_add into one).trans le_self_add
  exact_mod_cast two

theorem Tidy.congr (tidy : Tidy edges inner nodes root nlink) (same : ∀ v ∈ nodes, v ∈ inner' ↔ v ∈ inner)
    (counts : ∀ v ∈ nodes, nlink' v = nlink v) : Tidy edges inner' nodes root nlink' := by
  refine ⟨tidy.hasRoot, tidy.source, tidy.target, tidy.noLoop, fun e member isInner => ?_, tidy.named,
    fun v member => ?_⟩
  · exact tidy.single e member ((same _ (tidy.target e member)).1 isInner)
  · rw [counts v member, links_congr fun e isEdge => same _ (tidy.target e isEdge)]
    exact tidy.count v member

/-- The only edge to an inner node from which no edge leads to an inner node is its only link. -/
theorem Tidy.leaf (tidy : Tidy edges inner nodes root nlink) (member : e ∈ edges) (isInner : e.2.2 ∈ inner)
    (notRoot : e.2.2 ≠ root) (leaf : ∀ x ∈ edges, x.1 ≠ e.2.2) : nlink e.2.2 = 1 := by
  have isInto : into edges e.2.2 = {e} := by
    ext x
    constructor
    · rintro ⟨isEdge, isEnd⟩
      exact tidy.single e member isInner x isEdge isEnd
    · rintro rfl
      exact ⟨member, rfl⟩
  have noBelow : below edges inner e.2.2 = ∅ := by
    rw [Set.eq_empty_iff_forall_notMem]
    rintro x ⟨isEdge, isSource, -⟩
    exact leaf x isEdge isSource
  have count := tidy.count _ (tidy.target e member)
  unfold links at count
  rw [isInto, noBelow, flag_false notRoot, Set.encard_singleton, Set.encard_empty, Nat.cast_zero, add_zero, add_zero]
    at count
  exact_mod_cast count

/-- An edge is added, perhaps to a new node. -/
theorem Tidy.add [DecidablePred (· ∈ nodes)] (tidy : Tidy edges inner nodes root nlink) (new : e ∉ edges)
    (source : e.1 ∈ nodes) (noLoop : e.2.2 ≠ e.1) (fresh : e.2.2 ∈ inner' → e.2.2 ∉ nodes) (same : ∀ v ∈ nodes, v ∈ inner' ↔ v ∈ inner)
    (counted : ∀ v ∈ insert e.2.2 nodes, nlink' v = (if v ∈ nodes then nlink v else 0) + share inner' e v) :
    Tidy (insert e edges) inner' (insert e.2.2 nodes) root nlink' := by
  have old : ∀ v ∈ insert e.2.2 nodes, ((if v ∈ nodes then nlink v else 0 : ℕ) : ℕ∞) = links edges inner' root v := by
    intro v member
    rw [links_congr (fun e isEdge => same _ (tidy.target e isEdge)) root v]
    split
    · rename_i isOld
      exact tidy.count v isOld
    · rename_i isNew
      have noInto : into edges v = ∅ := by
        rw [Set.eq_empty_iff_forall_notMem]
        rintro x ⟨isEdge, rfl⟩
        exact isNew (tidy.target x isEdge)
      have noBelow : below edges inner v = ∅ := by
        rw [Set.eq_empty_iff_forall_notMem]
        rintro x ⟨isEdge, rfl, -⟩
        exact isNew (tidy.source x isEdge)
      have notRoot : v ≠ root := by
        rintro rfl
        exact isNew tidy.hasRoot
      unfold links
      rw [noInto, noBelow, flag_false notRoot, Set.encard_empty]
      rfl
  refine ⟨.inr tidy.hasRoot, ?_, ?_, ?_, ?_, fun v member notRoot => ?_, fun v member => ?_⟩
  · rintro x (rfl | isEdge)
    · exact .inr source
    · exact .inr (tidy.source x isEdge)
  · rintro x (rfl | isEdge)
    · exact .inl rfl
    · exact .inr (tidy.target x isEdge)
  · rintro x (rfl | isEdge)
    · exact noLoop
    · exact tidy.noLoop x isEdge
  · rintro x (rfl | isEdge) isInner y (rfl | isEdge') sameEnd
    · rfl
    · exact absurd (sameEnd ▸ tidy.target y isEdge') (fresh isInner)
    · rw [← sameEnd] at isInner
      exact absurd (sameEnd ▸ tidy.target x isEdge) (fresh isInner)
    · exact tidy.single x isEdge ((same _ (tidy.target x isEdge)).1 isInner) y isEdge' sameEnd
  · rcases member with rfl | member
    · exact ⟨e, .inl rfl, rfl⟩
    · rcases tidy.named v member notRoot with ⟨x, isEdge, isEnd⟩
      exact ⟨x, .inr isEdge, isEnd⟩
  · rw [links_insert new, counted v member, Nat.cast_add, old v member]

/-- An edge to a node without edges is removed, and so is the node if it has no links any more. -/
theorem Tidy.remove (tidy : Tidy edges inner nodes root nlink) (member : e ∈ edges)
    (leaf : ∀ x ∈ edges, x.1 ≠ e.2.2) (counted : ∀ v ∈ nodes, nlink v = nlink' v + share inner e v) :
    Tidy (edges \ {e}) inner {v ∈ nodes | nlink' v ≠ 0} root nlink' := by
  have count : ∀ v ∈ nodes, (nlink' v : ℕ∞) = links (edges \ {e}) inner root v := by
    intro v isNode
    have both := tidy.count v isNode
    rw [links_remove member, counted v isNode, Nat.cast_add] at both
    exact (ENat.add_left_injective_of_ne_top (ENat.natCast_ne_top _)) both
  have stays : ∀ v ∈ nodes, (v = root ∨ (into (edges \ {e}) v).Nonempty) → nlink' v ≠ 0 := by
    intro v isNode possible isZero
    have isCount := count v isNode
    rw [isZero, Nat.cast_zero, eq_comm] at isCount
    unfold links at isCount
    rw [add_eq_zero, add_eq_zero, Set.encard_eq_zero] at isCount
    rcases possible with isRoot | some
    · rw [flag_true isRoot] at isCount
      exact one_ne_zero isCount.2
    · rw [isCount.1.1] at some
      exact Set.not_nonempty_empty some
  have entry : ∀ v ∈ nodes, v ≠ root → v ≠ e.2.2 → (into (edges \ {e}) v).Nonempty := by
    intro v isNode notRoot different
    rcases tidy.named v isNode notRoot with ⟨x, isEdge, rfl⟩
    refine ⟨x, ⟨isEdge, ?_⟩, rfl⟩
    rintro rfl
    exact different rfl
  refine ⟨⟨tidy.hasRoot, stays _ tidy.hasRoot (.inl rfl)⟩, fun x isEdge => ?_, fun x isEdge => ?_,
    fun x isEdge => tidy.noLoop x isEdge.1,
    fun x isEdge isInner y isEdge' => tidy.single x isEdge.1 isInner y isEdge'.1, fun v isNode notRoot => ?_, fun v isNode => count v isNode.1⟩
  · have isNode := tidy.source x isEdge.1
    refine ⟨isNode, stays _ isNode ?_⟩
    by_cases isRoot : x.1 = root
    · exact .inl isRoot
    · exact .inr (entry _ isNode isRoot (leaf x isEdge.1))
  · have isNode := tidy.target x isEdge.1
    exact ⟨isNode, stays _ isNode (.inr ⟨x, isEdge, rfl⟩)⟩
  · by_cases isEnd : v = e.2.2
    · have noBelow : below (edges \ {e}) inner v = ∅ := by
        rw [Set.eq_empty_iff_forall_notMem]
        rintro x ⟨isEdge, isSource, -⟩
        exact leaf x isEdge.1 (isSource.trans isEnd)
      have isCount := count v isNode.1
      unfold links at isCount
      rw [noBelow, flag_false notRoot, Set.encard_empty, Nat.cast_zero, add_zero, add_zero] at isCount
      by_contra none
      rw [Set.not_nonempty_iff_eq_empty.1 none, Set.encard_empty] at isCount
      exact isNode.2 (by exact_mod_cast isCount)
    · exact entry v isNode.1 notRoot isEnd

end LinkCount
