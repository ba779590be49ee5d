import Xv6.Fs.Writing

/-!
# What writing allocates

`writei` gives blocks to the places of its inode that lie in the range and have none. It finishes when
there are enough free blocks, and it changes no other block that is in use.
-/

namespace Xv6.Fs

open Bytes

variable {sb : Superblock} {ip ip' ip'' : Dinode} {image image' image'' : ℕ → Block} {content src : List Byte}
  {inum k l x y off off' n m : ℕ} {needs needs' : Finset ℕ}

/-- The number of free blocks. -/
def free (sb : Superblock) (image : ℕ → Block) : ℕ :=
  ((Finset.range sb.size).filter fun b => inUse sb image b = false).card

theorem free_congr {sb : Superblock} {image image' : ℕ → Block}
    (uses : ∀ b < sb.size, inUse sb image' b = inUse sb image b) : free sb image' = free sb image := by
  unfold free
  congr 1
  refine Finset.filter_congr fun b member => ?_
  rw [uses b (Finset.mem_range.1 member)]

/-- The places of the inode among these that have no block. -/
def missing (image : ℕ → Block) (ip : Dinode) (needs : Finset ℕ) : ℕ :=
  (needs.filter fun k => slot image ip k = 0).card

/-- The places that `bmap` needs. -/
def touched (k : ℕ) : Finset ℕ := if k < ndirect then {k} else {k, maxfile}

/-- The places that the bytes of a range need. -/
def places (off n : ℕ) : Finset ℕ := (Finset.range n).biUnion fun j => touched ((off + j) / bsize)

theorem touched_le (inside : k < maxfile) (member : l ∈ touched k) : l ≤ maxfile := by
  unfold touched at member
  split at member
  · rw [Finset.mem_singleton.1 member]
    exact inside.le
  · rw [Finset.mem_insert, Finset.mem_singleton] at member
    omega

theorem places_add (off m n : ℕ) : places off (m + n) = places off m ∪ places (off + m) n := by
  ext k
  unfold places
  simp only [Finset.mem_union, Finset.mem_biUnion, Finset.mem_range]
  constructor
  · rintro ⟨j, less, member⟩
    by_cases first : j < m
    · exact .inl ⟨j, first, member⟩
    · refine .inr ⟨j - m, by omega, ?_⟩
      have position : off + m + (j - m) = off + j := by omega
      rw [position]
      exact member
  · rintro (⟨j, less, member⟩ | ⟨j, less, member⟩)
    · exact ⟨j, by omega, member⟩
    · refine ⟨m + j, by omega, ?_⟩
      rw [← Nat.add_assoc]
      exact member

/-- The bytes of one block need the places of one call of `bmap`. -/
theorem places_block (positive : 0 < n) (oneBlock : off % bsize + n ≤ bsize) :
    places off n = touched (off / bsize) := by
  have sameBlock : ∀ j < n, (off + j) / bsize = off / bsize := by
    intro j less
    unfold bsize at *
    omega
  ext k
  unfold places
  simp only [Finset.mem_biUnion, Finset.mem_range]
  constructor
  · rintro ⟨j, less, member⟩
    rw [sameBlock j less] at member
    exact member
  · intro member
    exact ⟨0, positive, member⟩

theorem places_le (inside : off + n ≤ maxfile * bsize) (member : l ∈ places off n) : l ≤ maxfile := by
  unfold places at member
  simp only [Finset.mem_biUnion, Finset.mem_range] at member
  rcases member with ⟨j, less, isTouched⟩
  exact touched_le (div_lt_maxfile (by omega)) isTouched

/-- A block that is in use and does not belong to the inode. -/
structure Foreign (sb : Superblock) (ip : Dinode) (image : ℕ → Block) (y : ℕ) : Prop where
  marked : y < sb.size → inUse sb image y = true
  notBitmap : ∀ c < sb.size, y ≠ bblock c sb
  notSlot : ∀ k ≤ maxfile, slot image ip k ≠ 0 → slot image ip k ≠ y

/-- Blocks have been given to the places that had none, and nothing else has changed. -/
structure Grown (sb : Superblock) (needs : Finset ℕ) (ip : Dinode) (image : ℕ → Block) (ip' : Dinode)
    (image' : ℕ → Block) : Prop where
  slots : ∀ l ≤ maxfile, slot image ip l ≠ 0 → slot image' ip' l = slot image ip l
  empty : ∀ l ≤ maxfile, slot image' ip' l = 0 ↔ slot image ip l = 0 ∧ l ∉ needs
  within : ∀ l ∈ needs, l ≤ maxfile
  free : free sb image' + missing image ip needs = free sb image
  foreign : ∀ y, Foreign sb ip image y → image' y = image y ∧ Foreign sb ip' image' y
  fields : ip' = { ip with addrs := ip'.addrs }

/-- The places that had none have blocks, so they are not counted again. -/
theorem Grown.missing_union (grown : Grown sb needs ip image ip' image') (within : ∀ l ∈ needs', l ≤ maxfile) :
    missing image ip (needs ∪ needs') = missing image ip needs + missing image' ip' needs' := by
  unfold missing
  rw [← Finset.card_union_of_disjoint]
  · congr 1
    ext l
    simp only [Finset.mem_filter, Finset.mem_union]
    constructor
    · rintro ⟨member, none⟩
      by_cases one : l ∈ needs
      · exact .inl ⟨one, none⟩
      · have two := member.resolve_left one
        exact .inr ⟨two, (grown.empty l (within l two)).2 ⟨none, one⟩⟩
    · rintro (⟨one, none⟩ | ⟨two, none⟩)
      · exact ⟨.inl one, none⟩
      · exact ⟨.inr two, ((grown.empty l (within l two)).1 none).1⟩
  · rw [Finset.disjoint_left]
    intro l one two
    rw [Finset.mem_filter] at one two
    exact ((grown.empty l (grown.within l one.1)).1 two.2).2 one.1

theorem Grown.trans (first : Grown sb needs ip image ip' image')
    (second : Grown sb needs' ip' image' ip'' image'') :
    Grown sb (needs ∪ needs') ip image ip'' image'' := by
  refine ⟨fun l bound has => ?_, fun l bound => ?_, fun l member => ?_, ?_, fun y isForeign => ?_, ?_⟩
  · have same := first.slots l bound has
    rw [second.slots l bound (same ▸ has), same]
  · rw [second.empty l bound, first.empty l bound, Finset.mem_union, not_or, and_assoc]
  · rcases Finset.mem_union.1 member with one | two
    · exact first.within l one
    · exact second.within l two
  · have split := first.missing_union second.within
    have isFree := first.free
    have isFree' := second.free
    omega
  · rcases first.foreign y isForeign with ⟨same, isForeign'⟩
    rcases second.foreign y isForeign' with ⟨same', isForeign''⟩
    exact ⟨same'.trans same, isForeign''⟩
  · rw [second.fields, first.fields]

/-- No place needs a block. -/
theorem Grown.refl (all : ∀ l ∈ needs, l ≤ maxfile ∧ slot image ip l ≠ 0) :
    Grown sb needs ip image ip image := by
  refine ⟨fun _ _ _ => rfl, fun l bound => ?_, fun l member => (all l member).1, ?_, fun y isForeign =>
    ⟨rfl, isForeign⟩, rfl⟩
  · rw [iff_self_and]
    exact fun none member => (all l member).2 none
  · have none : missing image ip needs = 0 := by
      unfold missing
      rw [Finset.card_eq_zero, Finset.filter_eq_empty_iff]
      exact fun l member => (all l member).2
    rw [none, Nat.add_zero]

theorem missing_single (none : slot image ip k = 0) : missing image ip {k} = 1 := by
  unfold missing
  rw [Finset.filter_singleton, if_pos none, Finset.card_singleton]

/-- There is a block for `balloc`. -/
theorem exists_balloc (positive : 0 < free sb image) : ∃ x image', balloc sb image = some (x, image') := by
  rcases Finset.card_pos.1 positive with ⟨b, member⟩
  rw [Finset.mem_filter, Finset.mem_range] at member
  have found : ((List.range sb.size).find? fun b => !inUse sb image b).isSome := by
    rw [List.find?_isSome]
    exact ⟨b, List.mem_range.2 member.1, by rw [member.2]; rfl⟩
  rcases Option.isSome_iff_exists.1 found with ⟨x, isFound⟩
  unfold balloc
  rw [isFound]
  exact ⟨_, _, rfl⟩

theorem FileHolds.free_balloc (file : FileHolds sb inum ip image content)
    (isAlloc : Fs.balloc sb image = some (x, image')) : free sb image' + 1 = free sb image := by
  rcases balloc_eq isAlloc with ⟨less, isClear, _⟩
  have isErase : ((Finset.range sb.size).filter fun b => inUse sb image' b = false) =
      ((Finset.range sb.size).filter fun b => inUse sb image b = false).erase x := by
    ext b
    rw [Finset.mem_erase, Finset.mem_filter, Finset.mem_filter, Finset.mem_range, and_left_comm]
    refine and_congr_right fun inside => ?_
    rw [file.inUse_balloc isAlloc inside, Bool.or_eq_false_iff, decide_eq_false_iff_not]
  unfold free
  rw [isErase]
  exact Finset.card_erase_add_one (Finset.mem_filter.2 ⟨Finset.mem_range.2 less, isClear⟩)

/-- A place of the inode is given a block by `balloc`. -/
theorem FileHolds.grown (file : FileHolds sb inum ip image content)
    (isAlloc : Fs.balloc sb image = some (x, image')) (place : k ≤ maxfile) (empty : slot image ip k = 0)
    (self : ∀ l ≤ maxfile, slot image'' ip' l = if l = k then x else slot image' ip l)
    (bitmap : ∀ c < sb.size, image'' (bblock c sb) = image' (bblock c sb))
    (foreign : ∀ y, Foreign sb ip image' y → image'' y = image' y)
    (fields : ip' = { ip with addrs := ip'.addrs }) : Grown sb {k} ip image ip' image'' := by
  rcases file.balloc isAlloc with ⟨file', fresh, slots⟩
  have self' : ∀ l ≤ maxfile, slot image'' ip' l = if l = k then x else slot image ip l := by
    intro l bound
    rw [self l bound, slots l bound]
  have uses : ∀ b < sb.size, inUse sb image'' b = inUse sb image' b := by
    intro b inside
    unfold inUse
    rw [bitmap b inside]
  refine ⟨fun l bound has => ?_, fun l bound => ?_, fun l member => ?_, ?_, fun y isForeign => ?_, fields⟩
  · rw [self' l bound, if_neg]
    rintro rfl
    exact has empty
  · rw [self' l bound, Finset.mem_singleton]
    split
    · rename_i same
      exact iff_of_false fresh.notZero fun both => both.2 same
    · rename_i different
      exact (and_iff_left different).symm
  · rw [Finset.mem_singleton.1 member]
    exact place
  · rw [free_congr uses, missing_single empty]
    exact file.free_balloc isAlloc
  · have notX : y ≠ x := by
      rintro rfl
      exact balloc_ne isAlloc (isForeign.marked fresh.less) rfl
    have same := balloc_other isAlloc notX isForeign.notBitmap
    have isForeign' : Foreign sb ip image' y := by
      refine ⟨fun inside => ?_, isForeign.notBitmap, fun l bound has => ?_⟩
      · rw [file.inUse_balloc isAlloc inside, isForeign.marked inside, Bool.or_true]
      · rw [slots l bound] at has ⊢
        exact isForeign.notSlot l bound has
    refine ⟨(foreign y isForeign').trans same, ⟨fun inside => ?_, isForeign.notBitmap, fun l bound has => ?_⟩⟩
    · rw [uses y inside]
      exact isForeign'.marked inside
    · rw [self' l bound] at has ⊢
      split
      · exact notX.symm
      · rename_i different
        rw [if_neg different] at has
        exact isForeign.notSlot l bound has

theorem FileHolds.loadIndirect_grown (file : FileHolds sb inum ip image content)
    (isLoaded : Fs.loadIndirect sb ip image = some (ip', image')) : Grown sb {maxfile} ip image ip' image' := by
  unfold Fs.loadIndirect at isLoaded
  split at isLoaded
  · rename_i none
    rcases Option.bind_eq_some_iff.1 isLoaded with ⟨⟨x, image₁⟩, isAlloc, result⟩
    rw [Option.pure_def, Option.some.injEq, Prod.mk.injEq] at result
    rcases result with ⟨rfl, rfl⟩
    have fresh := (file.balloc isAlloc).2.1
    have zero : ∀ m < bsize, image₁ x m = 0 := by
      intro m _
      rw [fresh.zero]
      rfl
    exact file.grown isAlloc le_rfl ((slot_indirect _ _).trans none)
      (fun l bound => slot_setIndirect none zero fresh.notZero bound) (fun _ _ => rfl) (fun _ _ => rfl) rfl
  · rename_i has
    rw [Option.some.injEq, Prod.mk.injEq] at isLoaded
    rcases isLoaded with ⟨rfl, rfl⟩
    refine Grown.refl fun l member => ?_
    rw [Finset.mem_singleton.1 member, slot_indirect]
    exact ⟨le_rfl, has⟩

theorem FileHolds.exists_loadIndirect (enough : missing image ip {maxfile} ≤ free sb image) :
    ∃ ip' image', Fs.loadIndirect sb ip image = some (ip', image') := by
  unfold Fs.loadIndirect
  split
  · rename_i none
    have isMissing := missing_single ((slot_indirect image ip).trans none)
    rcases exists_balloc (show 0 < free sb image by omega) with ⟨x, image', isAlloc⟩
    rw [isAlloc]
    exact ⟨_, _, rfl⟩
  · exact ⟨_, _, rfl⟩

theorem touched_indirect (more : ndirect ≤ k) : touched k = {maxfile} ∪ {k} := by
  unfold touched
  rw [if_neg (Nat.not_lt.2 more), Finset.union_comm]
  rfl

theorem FileHolds.bmap_grown (file : FileHolds sb inum ip image content) (inside : k < maxfile)
    (isMap : Fs.bmap sb ip image k = some (x, ip', image')) : Grown sb (touched k) ip image ip' image' := by
  cases bmap_case inside isMap with
  | direct direct has =>
      have isTouched : touched k = {k} := if_pos direct
      rw [isTouched]
      refine Grown.refl fun l member => ?_
      rw [Finset.mem_singleton.1 member, slot_direct direct]
      exact ⟨inside.le, has⟩
  | newDirect direct none isAlloc =>
      have isTouched : touched k = {k} := if_pos direct
      rw [isTouched]
      exact file.grown isAlloc inside.le ((slot_direct direct).trans none)
        (fun l _ => slot_setAddr direct) (fun _ _ => rfl) (fun _ _ => rfl) rfl
  | entry more isIndirect has =>
      rcases file.loadIndirect isIndirect with ⟨file₁, hasIndirect, _⟩
      rw [touched_indirect more]
      refine (file.loadIndirect_grown isIndirect).trans (Grown.refl fun l member => ?_)
      rw [Finset.mem_singleton.1 member, slot_entry more inside, if_neg hasIndirect]
      exact ⟨inside.le, has⟩
  | @newEntry _ _ image₁ image₂ more isIndirect none isAlloc =>
      rcases file.loadIndirect isIndirect with ⟨file₁, hasIndirect, _⟩
      rcases file₁.balloc isAlloc with ⟨file₂, fresh, slots⟩
      have none : slot image₁ ip' k = 0 := by
        rw [slot_entry more inside, if_neg hasIndirect]
        exact none
      have isIndirect₂ : slot image₂ ip' maxfile = ip'.addr ndirect := slot_indirect _ _
      have hasSlot : slot image₂ ip' maxfile ≠ 0 := isIndirect₂ ▸ hasIndirect
      rw [touched_indirect more]
      refine (file.loadIndirect_grown isIndirect).trans (file₁.grown isAlloc inside.le none
        (fun l bound => ?_) (fun c less => ?_) (fun z isForeign => ?_) rfl)
      · exact slot_setUint hasIndirect more inside (fresh.less.trans_le file₁.small) bound
      · rw [Function.update_of_ne]
        rintro isBitmap
        exact (file₂.blocks maxfile le_rfl hasSlot).2.2
          (.inr (.inr ⟨c, less, isIndirect₂.trans isBitmap.symm⟩))
      · rw [Function.update_of_ne]
        rintro rfl
        exact isForeign.notSlot maxfile le_rfl hasSlot isIndirect₂

theorem FileHolds.exists_bmap (file : FileHolds sb inum ip image content) (inside : k < maxfile)
    (enough : missing image ip (touched k) ≤ free sb image) : ∃ result, Fs.bmap sb ip image k = some result := by
  unfold Fs.bmap
  by_cases direct : k < ndirect
  · rw [if_pos direct]
    split
    · rename_i none
      have isTouched : touched k = {k} := if_pos direct
      rw [isTouched, missing_single ((slot_direct direct).trans none)] at enough
      rcases exists_balloc enough with ⟨x, image', isAlloc⟩
      rw [isAlloc]
      exact ⟨_, rfl⟩
    · exact ⟨_, rfl⟩
  · have more : ndirect ≤ k := Nat.not_lt.1 direct
    have small : k - ndirect < nindirect := by
      unfold maxfile at inside
      omega
    rw [if_neg direct, if_pos small]
    rw [touched_indirect more] at enough
    have less : missing image ip {maxfile} ≤ missing image ip ({maxfile} ∪ {k}) :=
      Finset.card_le_card (Finset.filter_subset_filter _ Finset.subset_union_left)
    rcases exists_loadIndirect (less.trans enough) with ⟨ip₁, image₁, isLoaded⟩
    have grown := file.loadIndirect_grown isLoaded
    have hasIndirect := (file.loadIndirect isLoaded).2.1
    rw [isLoaded]
    dsimp only [Option.bind_eq_bind, Option.bind_some]
    split
    · rename_i zero
      have none : slot image₁ ip₁ k = 0 := by
        rw [slot_entry more inside, if_neg hasIndirect]
        exact zero
      have split := grown.missing_union (fun l member => (Finset.mem_singleton.1 member).trans_le inside.le)
      rw [missing_single none] at split
      have isFree := grown.free
      rcases exists_balloc (show 0 < free sb image₁ by omega) with ⟨x, image', isAlloc⟩
      rw [isAlloc]
      exact ⟨_, rfl⟩
    · exact ⟨_, rfl⟩

/-- Writing into a block of the inode needs no new block. -/
theorem FileHolds.write_grown (file : FileHolds sb inum ip image content) (inside : k < maxfile)
    (isSlot : slot image ip k = x) (notZero : x ≠ 0) (block : Block) :
    Grown sb ∅ ip image ip (Function.update image x block) := by
  subst isSlot
  rcases file.blocks k inside.le notZero with ⟨_, _, notMeta⟩
  rcases file.mapping with ⟨used, mapping⟩
  have single : inum ∈ ({inum} : Set ℕ) := Set.mem_singleton inum
  have slots : ∀ l, slot (Function.update image (slot image ip k) block) ip l = slot image ip l := by
    intro l
    refine slot_congr fun has => Function.update_of_ne ?_ _ _
    exact (mapping.data_ne single inside single has).symm
  have bitmap : ∀ c < sb.size, Function.update image (slot image ip k) block (bblock c sb) =
      image (bblock c sb) := by
    intro c less
    refine Function.update_of_ne ?_ _ _
    exact fun isBitmap => notMeta (.inr (.inr ⟨c, less, isBitmap.symm⟩))
  have uses : ∀ b < sb.size, inUse sb (Function.update image (slot image ip k) block) b = inUse sb image b := by
    intro b less
    unfold inUse
    rw [bitmap b less]
  refine ⟨fun l _ _ => slots l, fun l _ => ?_, fun l member => absurd member (Finset.notMem_empty l), ?_,
    fun y isForeign => ⟨?_, fun less => ?_, isForeign.notBitmap, fun l bound has => ?_⟩, rfl⟩
  · rw [slots l]
    exact (and_iff_left (Finset.notMem_empty l)).symm
  · unfold missing
    rw [Finset.filter_empty, Finset.card_empty, Nat.add_zero]
    exact free_congr uses
  · exact Function.update_of_ne (isForeign.notSlot k inside.le notZero).symm _ _
  · rw [uses y less]
    exact isForeign.marked less
  · rw [slots l] at has ⊢
    exact isForeign.notSlot l bound has

/-- The loop of `writei` gives blocks to the places that it needs. -/
theorem FileHolds.writeLoop_grown (passes : ℕ) : ∀ {ip : Dinode} {image : ℕ → Block} {content src : List Byte}
    {off : ℕ}, FileHolds sb inum ip image content → src.length ≤ passes → off ≤ content.length →
    off + src.length ≤ maxfile * bsize → missing image ip (places off src.length) ≤ free sb image →
    ∃ ip' image', Fs.writeLoop sb passes src off ip image = some (off + src.length, ip', image') ∧
      Grown sb (places off src.length) ip image ip' image' := by
  induction passes with
  | zero =>
      intro ip image content src off file short _ _ _
      have empty := List.eq_nil_of_length_eq_zero (Nat.le_zero.1 short)
      subst empty
      exact ⟨ip, image, rfl, Grown.refl fun l member => absurd member (Finset.notMem_empty l)⟩
  | succ passes ih =>
      intro ip image content src off file short start bound enough
      rw [Fs.writeLoop]
      by_cases empty : src = []
      · subst empty
        exact ⟨ip, image, if_pos rfl, Grown.refl fun l member => absurd member (Finset.notMem_empty l)⟩
      · have positive : 0 < src.length := List.length_pos_iff.2 empty
        have inside : off / bsize < maxfile := div_lt_maxfile (by omega)
        have rest := Nat.mod_lt off (show 0 < bsize by decide)
        rw [if_neg empty]
        generalize isM : min src.length (bsize - off % bsize) = m
        rcases length_piece empty isM with ⟨isLength, isRest, some⟩
        have isSum : src.length = m + (src.length - m) := by omega
        have split : places off src.length = touched (off / bsize) ∪ places (off + m) (src.length - m) := by
          conv_lhs => rw [isSum, places_add]
          rw [places_block (by omega) (by omega)]
        rw [split] at enough ⊢
        have less : missing image ip (touched (off / bsize)) ≤ free sb image :=
          le_trans (Finset.card_le_card (Finset.filter_subset_filter _ Finset.subset_union_left)) enough
        rcases file.exists_bmap inside less with ⟨⟨x, ip₁, image₁⟩, isMap⟩
        have mapped := file.bmap inside isMap
        have grown := (file.bmap_grown inside isMap).trans (mapped.file.write_grown inside mapped.isSlot
          mapped.notZero (splice (image₁ x) (off % bsize) (src.take m)))
        have written := mapped.file.write start (by omega) some inside mapped.isSlot mapped.notZero
        have within : ∀ l ∈ places (off + m) (src.length - m), l ≤ maxfile :=
          fun l member => places_le (by omega) member
        rw [Finset.union_empty] at grown
        have isMissing := grown.missing_union within
        have isFree := grown.free
        have isLength' := length_patch (src.take m) start
        have short' : (src.drop m).length ≤ passes := by omega
        have start' : off + m ≤ (patch content off (src.take m)).length := by omega
        rcases ih written short' start' (by omega) (by
          rw [isRest]
          omega) with ⟨ip', image', isLoop, grown'⟩
        rw [isRest] at isLoop grown'
        refine ⟨ip', image', ?_, grown.trans grown'⟩
        rw [isMap]
        dsimp only [Option.bind_eq_bind, Option.bind_some]
        rw [isLoop, Nat.add_assoc, ← isSum]

end Xv6.Fs
