import Xv6.Fs.Mkfs

/-!
# Appending to an inode

The loop of `iappend` places one piece of the bytes in one block at each pass.
-/

namespace Xv6.Fs

open Bytes

variable {s s' : Mkfs} {dinode dinode' : ℕ → Dinode} {content content' : ℕ → List Byte} {data : List Byte}
  {i j k off y : ℕ} {buf : Block}

/-- The blocks of the inodes are zero behind their bytes. -/
def Tails (inodes : Set ℕ) (dinode : ℕ → Dinode) (image : ℕ → Block) (content : ℕ → List Byte) : Prop :=
  ∀ i ∈ inodes, ∀ k < maxfile, slot image (dinode i) k ≠ 0 →
    ∀ m < bsize, (content i).length ≤ k * bsize + m → image (slot image (dinode i) k) m = 0

/-- The inodes hold these bytes, in blocks of their own. -/
structure Stored (s : Mkfs) (dinode : ℕ → Dinode) (content : ℕ → List Byte) : Prop where
  laid : Laid s dinode fun i => (content i).length
  contents : Contents (inodes s) dinode s.image content
  tails : Tails (inodes s) dinode s.image content

theorem inodes_congr (freeinode : s'.freeinode = s.freeinode) : inodes s' = inodes s := by
  unfold inodes
  rw [freeinode]

/-- A block of data is written, or a block that holds no data. -/
theorem Laid.congr {reach : ℕ → ℕ} (laid : Laid s dinode reach) (freeinode : s'.freeinode = s.freeinode)
    (freeblock : s'.freeblock = s.freeblock)
    (slots : ∀ i ∈ inodes s, ∀ k ≤ maxfile, slot s'.image (dinode i) k = slot s.image (dinode i) k)
    (fresh : ∀ x ≥ s.freeblock, s'.image x = s.image x) : Laid s' dinode reach := by
  have isInodes := inodes_congr freeinode
  have isAllocated : allocated s' = allocated s := by
    unfold allocated
    rw [freeblock]
  refine ⟨?_, ?_, ?_, ?_, ?_, ?_⟩
  · rw [isInodes, isAllocated]
    exact laid.mapping.congr slots
  · rw [isInodes]
    intro i isInode k less
    rw [slots i isInode k less.le]
    exact laid.data i isInode k less
  · rw [isInodes]
    exact laid.indirect
  · rw [freeblock]
    intro x above m less
    rw [fresh x above]
    exact laid.fresh x above m less
  · rw [freeblock, freeinode]
    exact laid.count
  · rw [isInodes]
    exact laid.fits

/-- Only blocks of metadata are written. -/
theorem Stored.congr (stored : Stored s dinode content) (freeinode : s'.freeinode = s.freeinode)
    (freeblock : s'.freeblock = s.freeblock)
    (same : ∀ x, nmeta ≤ x → s'.image x = s.image x) : Stored s' dinode content := by
  have isInodes := inodes_congr freeinode
  have slots : ∀ i ∈ inodes s, ∀ k, slot s'.image (dinode i) k = slot s.image (dinode i) k := by
    intro i member k
    refine slot_congr fun has => same _ ?_
    have used := stored.laid.slot_lt member le_rfl ((slot_indirect _ _).trans_ne has)
    rw [slot_indirect] at used
    exact used.1
  have bytes : ∀ i ∈ inodes s, ∀ k ≤ maxfile, slot s.image (dinode i) k ≠ 0 →
      s'.image (slot s.image (dinode i) k) = s.image (slot s.image (dinode i) k) :=
    fun i member k bound has => same _ (stored.laid.slot_lt member bound has).1
  refine ⟨?_, ?_, ?_⟩
  · exact stored.laid.congr freeinode freeblock (fun i isInode k _ => slots i isInode k)
      fun x above => same x (stored.laid.nmeta_le.trans above)
  · rw [isInodes]
    exact stored.contents.congr fun i isInode k less has =>
      ⟨slots i isInode k, bytes i isInode k less.le has⟩
  · rw [isInodes]
    intro i isInode k less has m inside behind
    rw [slots i isInode] at has ⊢
    rw [bytes i isInode k less.le has]
    exact stored.tails i isInode k less has m inside behind

/-- The inode `i` has got more bytes; what is on disk of the inodes themselves is as before. -/
structure Appended (s : Mkfs) (dinode : ℕ → Dinode) (content : ℕ → List Byte) (i : ℕ) (data : List Byte)
    (d' : Dinode) (s' : Mkfs) : Prop where
  stored : Stored s' (Function.update dinode i d') (Function.update content i (content i ++ data))
  freeinode : s'.freeinode = s.freeinode
  addrs : d' = { dinode i with addrs := d'.addrs }
  metadata : ∀ y < nmeta, s'.image y = s.image y

/-- The blocks that the inodes need, with more bytes for the inode `i`. -/
def space (s : Mkfs) (content : ℕ → List Byte) (i : ℕ) (data : List Byte) : ℕ :=
  nmeta + ∑ j ∈ Finset.Ico 1 s.freeinode, needed ((Function.update content i (content i ++ data) j).length)

theorem space_mono {data' : List Byte} (le : data.length ≤ data'.length) :
    space s content i data ≤ space s content i data' := by
  unfold space
  refine Nat.add_le_add_left (Finset.sum_le_sum fun j _ => needed_mono ?_) _
  rw [Function.update_apply, Function.update_apply]
  split
  · rw [List.length_append, List.length_append]
    exact Nat.add_le_add_left le _
  · exact le_rfl

/-- One pass of the loop of `iappend`. -/
theorem Stored.block (stored : Stored s dinode content) (member : i ∈ inodes s) (some : data ≠ [])
    (isOff : (content i).length = off) (block : off % bsize + data.length ≤ bsize)
    (inside : off / bsize < maxfile)
    (limit : space s content i data < 256 ^ 4) :
    ∃ x d' s', s.mapBlock (dinode i) (off / bsize) = (x, d', s') ∧
      Appended s dinode content i data d' (s'.wsect x (splice (s'.image x) (off % bsize) data)) := by
  have positive : 0 < data.length := List.length_pos_iff.2 some
  have isReach : (fun j => (Function.update content i (content i ++ data) j).length) =
      Function.update (fun j => (content j).length) i (off + data.length) := by
    funext j
    rw [Function.update_apply, Function.update_apply]
    split
    · rw [List.length_append, isOff]
    · rfl
  have limit' : nmeta + ∑ j ∈ Finset.Ico 1 s.freeinode,
      needed (Function.update (fun j => (content j).length) i (off + data.length) j) < 256 ^ 4 := by
    rw [← isReach]
    exact limit
  rcases stored.laid.mapBlock member isOff positive block inside limit' with ⟨x, d', s', isCode, maps, laid⟩
  have isInodes := inodes_congr maps.freeinode
  have member' : i ∈ inodes s' := isInodes ▸ member
  have isD : Function.update dinode i d' i = d' := Function.update_self _ _ _
  have has : slot s'.image (Function.update dinode i d' i) (off / bsize) ≠ 0 := by
    refine (laid.data i member' _ inside).2 ?_
    rw [Function.update_self]
    exact (lt_add_iff positive block).2 (.inr rfl)
  have isX : slot s'.image (Function.update dinode i d' i) (off / bsize) = x := by
    rw [isD]
    exact maps.isSlot
  have isUsed := laid.slot_lt member' inside.le has
  rw [isX] at isUsed
  have contents : Contents (inodes s') (Function.update dinode i d') s'.image content := by
    rw [isInodes]
    exact stored.contents.congr maps.kept
  have isImage : (s'.wsect x (splice (s'.image x) (off % bsize) data)).image = Function.update s'.image
      (slot s'.image (Function.update dinode i d' i) (off / bsize))
      (splice (s'.image (slot s'.image (Function.update dinode i d' i) (off / bsize))) (off % bsize) data) := by
    rw [isX]
    rfl
  rcases contents.write laid.mapping member' isOff.ge block some inside has isImage with ⟨slots, written⟩
  have isPatch : patch (content i) off data = content i ++ data := by
    rw [← isOff]
    exact patch_append _ _
  rw [isPatch] at written
  refine ⟨x, d', s', isCode, ⟨?_, written, ?_⟩, maps.freeinode, maps.addrs, fun y isMeta => ?_⟩
  · rw [isReach]
    refine laid.congr rfl rfl slots fun y above => ?_
    exact Function.update_of_ne (isUsed.2.trans_le above).ne' _ _
  · intro j isInode k less used m small behind
    rw [slots j isInode k less.le] at used ⊢
    by_cases isBlock : j = i ∧ k = off / bsize
    · -- the block that is written is zero behind the new bytes
      rcases isBlock with ⟨rfl, rfl⟩
      rw [Function.update_self, List.length_append, isOff] at behind
      rw [isX]
      change Function.update s'.image x _ x m = 0
      rw [Function.update_self, splice_outside (by unfold bsize at *; omega)]
      by_cases isNew : slot s.image (dinode j) (off / bsize) = 0
      · exact maps.zero isNew m small
      · have kept := maps.kept j member _ inside isNew
        rw [← isX, kept.1, kept.2]
        exact stored.tails j member _ inside isNew m small (by omega)
    · have other : slot s'.image (Function.update dinode i d' j) k ≠ x := by
        rw [← isX]
        exact fun same => isBlock (laid.mapping.single j isInode i member' k less.le _ inside.le same used)
      have old : slot s.image (dinode j) k ≠ 0 := by
        have reached := (laid.data j isInode k less).1 used
        have isInode' : j ∈ inodes s := isInodes ▸ isInode
        refine (stored.laid.data j isInode' k less).2 ?_
        by_cases isI : j = i
        · subst isI
          rw [Function.update_self, lt_add_iff positive block] at reached
          rcases reached with before | isThis
          · exact before.trans_eq isOff.symm
          · exact absurd ⟨rfl, isThis⟩ isBlock
        · rw [Function.update_of_ne isI] at reached
          exact reached
      have kept := maps.kept j (isInodes ▸ isInode) k less old
      change Function.update s'.image x _ _ m = 0
      rw [Function.update_of_ne other, kept.1, kept.2]
      refine stored.tails j (isInodes ▸ isInode) k less old m small (le_trans ?_ behind)
      rw [Function.update_apply]
      split
      · rename_i isI
        rw [isI, List.length_append]
        exact Nat.le_add_right _ _
      · exact le_rfl
  · change Function.update s'.image x _ y = s.image y
    rw [Function.update_of_ne (isMeta.trans_le isUsed.1).ne]
    exact maps.metadata y isMeta

/-- The loop of `iappend` appends all the bytes. -/
theorem Stored.appendLoop (passes : ℕ) : ∀ {s : Mkfs} {dinode : ℕ → Dinode} {content : ℕ → List Byte}
    {p : List Byte}, Stored s dinode content → i ∈ inodes s → p.length ≤ passes →
    (content i).length + p.length ≤ maxfile * bsize → space s content i p < 256 ^ 4 →
    ∃ d' s', Mkfs.appendLoop passes p (content i).length (dinode i) s =
      some ((content i).length + p.length, d', s') ∧ Appended s dinode content i p d' s' := by
  have nothing : ∀ {s dinode content}, Stored s dinode content →
      Appended s dinode content i [] (dinode i) s := by
    intro s dinode content stored
    refine ⟨?_, rfl, rfl, fun _ _ => rfl⟩
    rw [List.append_nil, Function.update_eq_self, Function.update_eq_self]
    exact stored
  induction passes with
  | zero =>
      intro s dinode content p stored _ short _ _
      have empty := List.eq_nil_of_length_eq_zero (Nat.le_zero.1 short)
      subst empty
      exact ⟨_, _, rfl, nothing stored⟩
  | succ passes ih =>
      intro s dinode content p stored member short bound limit
      by_cases empty : p = []
      · subst empty
        refine ⟨_, _, ?_, nothing stored⟩
        rw [Mkfs.appendLoop, if_pos rfl]
        rfl
      · have positive : 0 < p.length := List.length_pos_iff.2 empty
        generalize isOff : (content i).length = off at *
        have inside : off / bsize < maxfile := div_lt_maxfile (by omega)
        have isMod : off - off / bsize * bsize = off % bsize := by
          rw [Nat.mul_comm]
          exact (Nat.mod_eq_sub_mul_div).symm
        -- `n1`: the rest of the bytes, or of the block
        generalize isPiece : min p.length ((off / bsize + 1) * bsize - off) = n1
        have some : 0 < n1 := by
          unfold bsize at *
          omega
        have isLength : (p.take n1).length = n1 := by
          rw [List.length_take]
          omega
        have block : off % bsize + (p.take n1).length ≤ bsize := by
          rw [isLength]
          unfold bsize at *
          omega
        have notEmpty : p.take n1 ≠ [] := List.length_pos_iff.1 (isLength.symm ▸ some)
        have less : (p.take n1).length ≤ p.length := List.length_take_le' _ _
        have limit' : space s content i (p.take n1) < 256 ^ 4 := (space_mono less).trans_lt limit
        rcases stored.block member notEmpty isOff block inside limit' with ⟨x, d₁, s₁, isCode, first⟩
        generalize isNext : s₁.wsect x (splice (s₁.image x) (off % bsize) (p.take n1)) = s₂ at first
        have isContent : Function.update content i (content i ++ p.take n1) i = content i ++ p.take n1 :=
          Function.update_self _ _ _
        have isAll : (content i ++ p.take n1) ++ p.drop n1 = content i ++ p := by
          rw [List.append_assoc, List.take_append_drop]
        have isOff' : (content i ++ p.take n1).length = off + n1 := by
          rw [List.length_append, isOff, isLength]
        have rest : (p.drop n1).length = p.length - n1 := List.length_drop
        have next := ih first.stored (p := p.drop n1) (inodes_congr first.freeinode ▸ member)
          (by omega) (by rw [isContent]; omega) (by
            unfold space
            rw [isContent, isAll, Function.update_idem, first.freeinode]
            exact limit)
        rw [isContent, isOff', Function.update_self] at next
        rcases next with ⟨d', s', isCode', appended⟩
        have stored' := appended.stored
        rw [isContent, isAll, Function.update_idem, Function.update_idem] at stored'
        refine ⟨d', s', ?_, stored', appended.freeinode.trans first.freeinode, ?_, fun y isMeta => ?_⟩
        · rw [Mkfs.appendLoop, if_neg empty]
          dsimp only
          rw [if_pos inside, isCode, isPiece]
          dsimp only
          rw [isMod, isNext, isCode', rest]
          congr 2
          omega
        · have second := appended.addrs
          rw [Function.update_self, first.addrs] at second
          exact second
        · rw [appended.metadata y isMeta, first.metadata y isMeta]

/-! ## Inodes on disk -/

theorem iblock_bounds (bound : i ≤ ninodes) : sb.inodestart ≤ iblock i sb ∧ iblock i sb < sb.bmapstart := by
  have isBmap : sb.bmapstart = sb.inodestart + (ninodes / ipb + 1) := rfl
  have less : i / ipb ≤ ninodes / ipb := Nat.div_le_div_right bound
  unfold iblock
  refine ⟨Nat.le_add_left _ _, ?_⟩
  omega

theorem iblock_lt_nmeta (bound : i ≤ ninodes) : iblock i sb < nmeta :=
  (iblock_bounds bound).2.trans (by decide)

theorem rinode_winode {d : Dinode} (fits : d.Fits) : (s.winode i d).rinode i = d := by
  unfold Mkfs.rinode Mkfs.winode Mkfs.wsect
  dsimp only
  rw [Function.update_self]
  exact dinodeAt_setDinode fits

theorem rinode_winode_other {d : Dinode} (different : j ≠ i) : (s.winode i d).rinode j = s.rinode j := by
  unfold Mkfs.rinode Mkfs.winode Mkfs.wsect
  dsimp only
  by_cases same : iblock j sb = iblock i sb
  · rw [same, Function.update_self]
    refine dinodeAt_setDinode_other fun sameIndex => different ?_
    have first := Nat.div_add_mod i ipb
    have second := Nat.div_add_mod j ipb
    have sameBlock : j / ipb = i / ipb := Nat.add_right_cancel same
    rw [sameBlock, sameIndex] at second
    exact second.symm.trans first
  · rw [Function.update_of_ne same]

/-- Where the bytes are does not depend on the numbers of an inode. -/
theorem Stored.renumber (stored : Stored s dinode content) (fits : ∀ i ∈ inodes s, (dinode' i).Fits)
    (same : ∀ i ∈ inodes s, (dinode' i).addrs = (dinode i).addrs) : Stored s dinode' content := by
  have slots : ∀ i ∈ inodes s, ∀ k, slot s.image (dinode' i) k = slot s.image (dinode i) k :=
    fun i member k => slot_addrs (same i member)
  refine ⟨⟨stored.laid.mapping.congr fun i isInode k _ => slots i isInode k,
    fun i isInode k less => ?_, fun i isInode => ?_, stored.laid.fresh, stored.laid.count, fits⟩,
    stored.contents.congr fun i isInode k _ _ => ⟨slots i isInode k, rfl⟩, fun i isInode k less => ?_⟩
  · rw [slots i isInode]
    exact stored.laid.data i isInode k less
  · unfold Dinode.addr
    rw [same i isInode]
    exact stored.laid.indirect i isInode
  · rw [slots i isInode]
    exact stored.tails i isInode k less

/-- The inodes on disk hold these bytes, and there are at most `NINODES` of them. -/
structure Holds (s : Mkfs) (dinode : ℕ → Dinode) (content : ℕ → List Byte) : Prop where
  stored : Stored s dinode content
  onDisk : ∀ i ∈ inodes s, s.rinode i = dinode i
  size : ∀ i ∈ inodes s, (dinode i).size = (content i).length
  free : ∀ i ≤ ninodes, i ∉ inodes s → s.rinode i = {}
  number : s.freeinode ≤ ninodes + 1

theorem Holds.le (holds : Holds s dinode content) (member : i ∈ inodes s) : i ≤ ninodes :=
  Nat.le_of_lt_succ (member.2.trans_le holds.number)

theorem needed_le (bound : j ≤ maxfile * bsize) : needed j ≤ maxfile + 1 := by
  unfold needed maxfile ndirect nindirect bsize at *
  split <;> omega

/-- There are few inodes, and each is small. -/
theorem Holds.space_lt (holds : Holds s dinode content)
    (bound : (content i).length + data.length ≤ maxfile * bsize) : space s content i data < 256 ^ 4 := by
  have each : ∀ j ∈ Finset.Ico 1 s.freeinode,
      needed ((Function.update content i (content i ++ data) j).length) ≤ maxfile + 1 := by
    intro j isInode
    refine needed_le ?_
    rw [Function.update_apply]
    split
    · rw [List.length_append]
      exact bound
    · exact holds.stored.contents.bound j (Finset.mem_Ico.1 isInode)
  have sum := Finset.sum_le_card_nsmul _ _ _ each
  rw [Nat.card_Ico, smul_eq_mul] at sum
  have few : (s.freeinode - 1) * (maxfile + 1) ≤ ninodes * (maxfile + 1) :=
    Nat.mul_le_mul_right _ (Nat.sub_le_of_le_add holds.number)
  have small : nmeta + ninodes * (maxfile + 1) < 256 ^ 4 := by decide
  unfold space
  omega

/-- An inode is written on disk. -/
theorem Stored.winode (stored : Stored s dinode content) (bound : i ≤ ninodes) {d : Dinode} :
    Stored (s.winode i d) dinode content :=
  stored.congr rfl rfl fun _ above => Function.update_of_ne ((iblock_lt_nmeta bound).trans_le above).ne' _ _

/-- The inode `i` has got more bytes, also on disk. -/
structure Extended (s : Mkfs) (dinode : ℕ → Dinode) (content : ℕ → List Byte) (i : ℕ) (data : List Byte)
    (d' : Dinode) (s' : Mkfs) : Prop where
  holds : Holds s' (Function.update dinode i d') (Function.update content i (content i ++ data))
  freeinode : s'.freeinode = s.freeinode
  type : d'.type = (dinode i).type
  head : ∀ y < sb.inodestart, s'.image y = s.image y

/-- `iappend` appends the bytes. -/
theorem Holds.iappend (holds : Holds s dinode content) (member : i ∈ inodes s) (data : List Byte)
    (bound : (content i).length + data.length ≤ maxfile * bsize) :
    ∃ d' s', s.iappend i data = some s' ∧ Extended s dinode content i data d' s' := by
  have limit := holds.space_lt bound
  rcases holds.stored.appendLoop data.length member le_rfl bound limit with ⟨d, s₁, isCode, appended⟩
  have isInodes := inodes_congr appended.freeinode
  have small := holds.le member
  generalize isOff : (content i).length + data.length = off at *
  have fits := appended.stored.laid.fits i (isInodes.symm ▸ member)
  rw [Function.update_self] at fits
  have less : off < 256 ^ 4 := bound.trans_lt (by decide)
  have fits' : ({ d with size := off } : Dinode).Fits :=
    ⟨fits.type, fits.major, fits.minor, fits.nlink, less, fits.addrs⟩
  refine ⟨{ d with size := off }, s₁.winode i { d with size := off }, ?_, ⟨?_, fun j isInode => ?_,
    fun j isInode => ?_, fun j few isFree => ?_, appended.freeinode.trans_le holds.number⟩, appended.freeinode, ?_,
    fun y less => ?_⟩
  · unfold Mkfs.iappend
    rw [holds.onDisk i member]
    dsimp only
    rw [holds.size i member, isCode]
    rfl
  · refine (appended.stored.renumber (fun j isInode => ?_) fun j isInode => ?_).winode small
    · rw [Function.update_apply]
      split
      · exact fits'
      · rename_i isOther
        have old := appended.stored.laid.fits j isInode
        rw [Function.update_of_ne isOther] at old
        exact old
    · rw [Function.update_apply, Function.update_apply]
      split
      · rfl
      · rfl
  · have isInode' : j ∈ inodes s := isInodes ▸ isInode
    by_cases isI : j = i
    · subst isI
      rw [Function.update_self]
      exact rinode_winode fits'
    · rw [Function.update_of_ne isI, rinode_winode_other isI]
      have same := holds.onDisk j isInode'
      unfold Mkfs.rinode at same ⊢
      rw [appended.metadata _ (iblock_lt_nmeta (holds.le isInode'))]
      exact same
  · have isInode' : j ∈ inodes s := isInodes ▸ isInode
    rw [Function.update_apply, Function.update_apply]
    split
    · rw [List.length_append]
      exact isOff.symm
    · exact holds.size j isInode'
  · have isFree' : j ∉ inodes s := isInodes ▸ isFree
    have different : j ≠ i := by
      rintro rfl
      exact isFree' member
    have same := holds.free j few isFree'
    rw [rinode_winode_other different]
    unfold Mkfs.rinode at same ⊢
    rw [appended.metadata _ (iblock_lt_nmeta few)]
    exact same
  · rw [appended.addrs]
  · have before := (iblock_bounds small).1
    change Function.update s₁.image _ _ y = s.image y
    rw [Function.update_of_ne (less.trans_le before).ne]
    exact appended.metadata y (less.trans_le (before.trans (iblock_lt_nmeta small).le))

/-- All that is read from an input file is appended. -/
theorem Holds.reads (reads : List (List Byte)) : ∀ {s : Mkfs} {dinode : ℕ → Dinode} {content : ℕ → List Byte},
    Holds s dinode content → i ∈ inodes s → (content i).length + reads.flatten.length ≤ maxfile * bsize →
    ∃ d' s', reads.foldlM (fun s buf => s.iappend i buf) s = some s' ∧
      Extended s dinode content i reads.flatten d' s' := by
  induction reads with
  | nil =>
      intro s dinode content holds _ _
      refine ⟨dinode i, s, rfl, ?_, rfl, rfl, fun _ _ => rfl⟩
      rw [List.flatten_nil, List.append_nil, Function.update_eq_self, Function.update_eq_self]
      exact holds
  | cons buf reads ih =>
      intro s dinode content holds member bound
      rw [List.flatten_cons, List.length_append] at bound
      rcases holds.iappend member buf (by omega) with ⟨d, s₁, isCode, first⟩
      have member' : i ∈ inodes s₁ := inodes_congr first.freeinode ▸ member
      rcases ih first.holds member' (by
        rw [Function.update_self, List.length_append]
        omega) with ⟨d', s', isCode', rest⟩
      refine ⟨d', s', ?_, ?_, rest.freeinode.trans first.freeinode, ?_, fun y less =>
        (rest.head y less).trans (first.head y less)⟩
      · rw [List.foldlM_cons, isCode]
        exact isCode'
      · have holds' := rest.holds
        rw [Function.update_idem, Function.update_idem, Function.update_self, List.append_assoc] at holds'
        rw [List.flatten_cons]
        exact holds'
      · have isType := rest.type
        rw [Function.update_self] at isType
        exact isType.trans first.type

end Xv6.Fs
