import Xv6.Fs.Truncate

/-!
# The inode cache

`iget`, `idup`, `ilock`, `iunlock` and `iput` for one process after the other. All inodes are on
`ROOTDEV`, and the locks are those that the calling process holds: it waits for those of others.
-/

namespace Xv6.Fs

open Bytes

/-- `NINODE` -/
def ninode : ℕ := 50

instance : NeZero ninode := ⟨by decide⟩

/-- Why a call does not return. -/
inductive Stop where
  | panic (text : String)
  /-- a panic of `bmap`, `balloc` or `bfree` -/
  | disk
  /-- the process waits for a lock that it holds itself -/
  | asleep
  deriving DecidableEq, Repr

/-- `struct inode` -/
structure CachedInode where
  inum : ℕ := 0
  ref : ℕ := 0
  locked : Bool := false
  valid : Bool := false
  /-- the copy of the inode on the disk -/
  ip : Dinode := {}

/-- `icache` and the disk. -/
structure Itable where
  inode : Fin ninode → CachedInode
  image : ℕ → Block

namespace Itable

def set (s : Itable) (i : Fin ninode) (entry : CachedInode) : Itable :=
  { s with inode := Function.update s.inode i entry }

/-- The first entry for the inode. -/
def cached (s : Itable) (inum : ℕ) : Option (Fin ninode) :=
  (List.finRange ninode).find? fun i => 0 < (s.inode i).ref ∧ (s.inode i).inum = inum

/-- The first entry that is not in use. -/
def empty (s : Itable) : Option (Fin ninode) := (List.finRange ninode).find? fun i => (s.inode i).ref = 0

/-- `iget` -/
def iget (s : Itable) (inum : ℕ) : Except Stop (Fin ninode × Itable) :=
  match s.cached inum, s.empty with
  | some i, _ => .ok (i, s.set i { s.inode i with ref := (s.inode i).ref + 1 })
  | none, some i => .ok (i, s.set i { s.inode i with inum, ref := 1, valid := false })
  | none, none => .error (.panic "iget: no inodes")

/-- `idup` -/
def idup (s : Itable) (i : Fin ninode) : Itable := s.set i { s.inode i with ref := (s.inode i).ref + 1 }

/-- `ilock` -/
def ilock (sb : Superblock) (s : Itable) (i : Fin ninode) : Except Stop Itable :=
  if (s.inode i).ref < 1 then .error (.panic "ilock")
  else if (s.inode i).locked then .error .asleep
  else if (s.inode i).valid then .ok (s.set i { s.inode i with locked := true })
  else
    let ip := readInode sb s.image (s.inode i).inum
    if ip.type = 0 then .error (.panic "ilock: no type")
    else .ok (s.set i { s.inode i with locked := true, valid := true, ip })

/-- `iunlock` -/
def iunlock (s : Itable) (i : Fin ninode) : Except Stop Itable :=
  if (s.inode i).locked = false ∨ (s.inode i).ref < 1 then .error (.panic "iunlock")
  else .ok (s.set i { s.inode i with locked := false })

/-- The part of `iput` that frees an inode without links and other references. -/
def drop (sb : Superblock) (s : Itable) (i : Fin ninode) : Except Stop Itable :=
  let entry := s.inode i
  if entry.valid = true ∧ entry.ip.nlink = 0 ∧ entry.ref = 1 then
    match itrunc sb entry.inum entry.ip s.image with
    | none => .error .disk
    | some (ip, image) =>
        let ip := { ip with type := 0 }
        .ok { s.set i { entry with ip, valid := false } with image := iupdate sb entry.inum ip image }
  else .ok s

/-- `iput` -/
def iput (sb : Superblock) (s : Itable) (i : Fin ninode) : Except Stop Itable :=
  if (s.inode i).locked then .error .asleep
  else do
    let s ← s.drop sb i
    return s.set i { s.inode i with ref := (s.inode i).ref - 1 }

/-- `iunlockput` -/
def iunlockput (sb : Superblock) (s : Itable) (i : Fin ninode) : Except Stop Itable := do
  let s ← s.iunlock i
  s.iput sb i

/-- `readi` for an entry of the cache -/
def readi (devsw : Devsw) (sb : Superblock) (s : Itable) (i : Fin ninode) (off n : ℕ) :
    Except Stop (Option (List Byte) × Itable) :=
  match Fs.readi devsw sb (s.inode i).ip s.image off n with
  | none => .error .disk
  | some (result, ip, image) => .ok (result, { s.set i { s.inode i with ip } with image })

/-- `writei` for an entry of the cache -/
def writei (devsw : Devsw) (sb : Superblock) (s : Itable) (i : Fin ninode) (src : List Byte) (off : ℕ) :
    Except Stop (Option ℕ × Itable) :=
  match Fs.writei devsw sb (s.inode i).inum (s.inode i).ip s.image src off with
  | none => .error .disk
  | some (result, ip, image) => .ok (result, { s.set i { s.inode i with ip } with image })

variable {s s' s'' s₀ : Itable} {sb : Superblock} {devsw : Devsw} {i j k : Fin ninode} {m : ℕ}
  {entry : CachedInode} {e : Fin ninode → ℕ}

@[simp] theorem set_self (s : Itable) (i : Fin ninode) (entry : CachedInode) : (s.set i entry).inode i = entry := by
  unfold set
  exact Function.update_self i entry s.inode

theorem set_other (different : k ≠ i) : (s.set i entry).inode k = s.inode k := by
  unfold set
  exact Function.update_of_ne different entry s.inode

/-- What the new entry shares with the old one has not changed. -/
theorem set_field (s : Itable) (i : Fin ninode) (entry : CachedInode) {α : Type} (f : CachedInode → α)
    (same : f entry = f (s.inode i)) (k : Fin ninode) : f ((s.set i entry).inode k) = f (s.inode k) := by
  by_cases isI : k = i
  · subst isI
    rw [set_self, same]
  · rw [set_other isI]

@[simp] theorem set_image (s : Itable) (i : Fin ninode) (entry : CachedInode) : (s.set i entry).image = s.image := rfl

@[simp] theorem set_inode (s : Itable) (i : Fin ninode) : s.set i (s.inode i) = s := by
  unfold set
  rw [Function.update_eq_self]

@[simp] theorem set_set (s : Itable) (i : Fin ninode) (entry entry' : CachedInode) :
    (s.set i entry).set i entry' = s.set i entry' := by
  unfold set
  rw [Function.update_idem]

theorem cached_some (isCached : s.cached m = some i) : 0 < (s.inode i).ref ∧ (s.inode i).inum = m := by
  have found := List.find?_some isCached
  exact of_decide_eq_true found

theorem cached_none (isCached : s.cached m = none) (used : 0 < (s.inode k).ref) : (s.inode k).inum ≠ m := by
  intro same
  have no := List.find?_eq_none.1 isCached k (List.mem_finRange k)
  exact no (decide_eq_true ⟨used, same⟩)

theorem empty_some (isEmpty : s.empty = some i) : (s.inode i).ref = 0 := by
  have found := List.find?_some isEmpty
  exact of_decide_eq_true found

theorem empty_none (isEmpty : s.empty = none) (k : Fin ninode) : 0 < (s.inode k).ref := by
  have no := List.find?_eq_none.1 isEmpty k (List.mem_finRange k)
  rw [decide_eq_true_eq] at no
  omega

/-! ## Taking and giving up references -/

/-- No inode has two entries, and the locks of unused entries are not held. -/
structure Ok (s : Itable) : Prop where
  unique : ∀ i j, 0 < (s.inode i).ref → 0 < (s.inode j).ref → (s.inode i).inum = (s.inode j).inum → i = j
  idle : ∀ i, (s.inode i).ref = 0 → (s.inode i).locked = false

/-- The entries in use are entries that were in use for the same inodes. -/
theorem Ok.congr (ok : s.Ok)
    (uses : ∀ k, 0 < (s'.inode k).ref → 0 < (s.inode k).ref ∧ (s'.inode k).inum = (s.inode k).inum)
    (idle : ∀ k, (s'.inode k).ref = 0 → (s'.inode k).locked = false) : s'.Ok := by
  refine ⟨fun a b usedA usedB sameInum => ?_, idle⟩
  rcases uses a usedA with ⟨wasA, inumA⟩
  rcases uses b usedB with ⟨wasB, inumB⟩
  rw [inumA, inumB] at sameInum
  exact ok.unique a b wasA wasB sameInum

/-- There is an entry for the inode, or one that it can have. -/
def Room (s : Itable) (m : ℕ) : Prop := ∃ i, 0 < (s.inode i).ref ∧ (s.inode i).inum = m ∨ (s.inode i).ref = 0

/-- What `iget` does: one more reference, or a new entry. -/
inductive Got (s : Itable) (m : ℕ) (i : Fin ninode) : Itable → Prop where
  | again : 0 < (s.inode i).ref → (s.inode i).inum = m →
      Got s m i (s.set i { s.inode i with ref := (s.inode i).ref + 1 })
  | fresh : (∀ k, 0 < (s.inode k).ref → (s.inode k).inum ≠ m) → (s.inode i).ref = 0 →
      Got s m i (s.set i { s.inode i with inum := m, ref := 1, valid := false })

theorem iget_got (isGet : s.iget m = .ok (i, s')) : Got s m i s' := by
  unfold iget at isGet
  split at isGet
  · rename_i isCached
    cases isGet
    rcases cached_some isCached with ⟨used, same⟩
    exact .again used same
  · rename_i isCached isEmpty
    cases isGet
    exact .fresh (fun k => cached_none isCached) (empty_some isEmpty)
  · cases isGet

theorem iget_ok_iff : (∃ i s', s.iget m = .ok (i, s')) ↔ s.Room m := by
  unfold iget
  split
  · rename_i i isCached
    exact iff_of_true ⟨_, _, rfl⟩ ⟨i, .inl (cached_some isCached)⟩
  · rename_i i isCached isEmpty
    exact iff_of_true ⟨_, _, rfl⟩ ⟨i, .inr (empty_some isEmpty)⟩
  · rename_i isCached isEmpty
    refine iff_of_false (by rintro ⟨_, _, ⟨⟩⟩) ?_
    rintro ⟨i, ⟨used, same⟩ | unused⟩
    · exact cached_none isCached used same
    · exact (empty_none isEmpty i).ne' unused

theorem iget_full {stop : Stop} (isGet : s.iget m = .error stop) :
    stop = .panic "iget: no inodes" ∧ ¬s.Room m := by
  constructor
  · unfold iget at isGet
    split at isGet
    · cases isGet
    · cases isGet
    · cases isGet
      rfl
  · intro room
    rcases iget_ok_iff.2 room with ⟨i, s', isGet'⟩
    rw [isGet] at isGet'
    cases isGet'

theorem Got.ok (got : Got s m i s') (ok : s.Ok) : s'.Ok := by
  cases got with
  | again used same =>
      refine ok.congr (fun k usedK => ⟨?_, set_field s i { s.inode i with ref := (s.inode i).ref + 1 }
        CachedInode.inum rfl k⟩) fun k unused => ?_
      · by_cases isI : k = i
        · rwa [isI]
        · rwa [set_other isI] at usedK
      · have isOther : k ≠ i := by
          rintro rfl
          rw [set_self] at unused
          cases unused
        rw [set_other isOther] at unused ⊢
        exact ok.idle k unused
  | fresh none unused =>
      refine ⟨fun a b usedA usedB sameInum => ?_, fun a unusedA => ?_⟩
      · by_cases isA : a = i
        · by_cases isB : b = i
          · rw [isA, isB]
          · subst isA
            rw [set_self, set_other isB] at sameInum
            rw [set_other isB] at usedB
            exact absurd sameInum.symm (none b usedB)
        · by_cases isB : b = i
          · subst isB
            rw [set_self, set_other isA] at sameInum
            rw [set_other isA] at usedA
            exact absurd sameInum (none a usedA)
          · rw [set_other isA, set_other isB] at sameInum
            rw [set_other isA] at usedA
            rw [set_other isB] at usedB
            exact ok.unique a b usedA usedB sameInum
      · by_cases isA : a = i
        · subst isA
          rw [set_self]
          exact ok.idle a unused
        · rw [set_other isA] at unusedA ⊢
          exact ok.idle a unusedA

/-- Nothing that is in use has changed. -/
structure Unchanged (s s' : Itable) : Prop where
  image : s'.image = s.image
  ref : ∀ k, (s'.inode k).ref = (s.inode k).ref
  used : ∀ k, 0 < (s.inode k).ref → s'.inode k = s.inode k
  locked : ∀ k, (s'.inode k).locked = (s.inode k).locked

theorem Unchanged.ok (unchanged : Unchanged s s') (ok : s.Ok) : s'.Ok := by
  refine ok.congr (fun k used => ?_) fun k unused => ?_
  · rw [unchanged.ref] at used
    exact ⟨used, congrArg CachedInode.inum (unchanged.used k used)⟩
  · rw [unchanged.ref] at unused
    rw [unchanged.locked]
    exact ok.idle k unused

/-- A reference that has just been taken is not the last one of an inode that has been read. -/
theorem Got.drop (got : Got s m i s') (sb : Superblock) : s'.drop sb i = .ok s' := by
  unfold Itable.drop
  cases got with
  | again used _ =>
      refine if_neg ?_
      rw [set_self]
      rintro ⟨-, -, one⟩
      dsimp only at one
      omega
  | fresh _ _ =>
      refine if_neg ?_
      rw [set_self]
      rintro ⟨⟨⟩, -⟩

/-- `iget` and `iput`, one after the other. -/
theorem Got.iput (got : Got s m i s') (sb : Superblock) (notLocked : (s.inode i).locked = false) :
    ∃ s'', s'.iput sb i = .ok s'' ∧ Unchanged s s'' := by
  have stays : (s'.inode i).locked = false := by
    cases got with
    | again _ _ => rwa [set_self]
    | fresh _ _ => rwa [set_self]
  have isPut : s'.iput sb i = .ok (s'.set i { s'.inode i with ref := (s'.inode i).ref - 1 }) := by
    unfold Itable.iput
    rw [stays, if_neg Bool.false_ne_true, got.drop sb]
    rfl
  refine ⟨_, isPut, ?_⟩
  cases got with
  | again used _ =>
      simp only [set_self, set_set, Nat.add_sub_cancel]
      change s.Unchanged (s.set i (s.inode i))
      rw [set_inode]
      exact ⟨rfl, fun _ => rfl, fun _ _ => rfl, fun _ => rfl⟩
  | fresh _ unused =>
      simp only [set_self, set_set, Nat.sub_self]
      refine ⟨rfl, fun k => ?_, fun k used => ?_, fun k => ?_⟩
      · by_cases isI : k = i
        · subst isI
          rw [set_self]
          exact unused.symm
        · rw [set_other isI]
      · have isOther : k ≠ i := by
          rintro rfl
          exact used.ne' unused
        rw [set_other isOther]
      · by_cases isI : k = i
        · subst isI
          rw [set_self]
        · rw [set_other isI]

/-! ## What a process holds -/

/-- The cache is write-through. -/
def Coherent (sb : Superblock) (s : Itable) : Prop :=
  ∀ i, 0 < (s.inode i).ref → (s.inode i).valid = true → (s.inode i).ip = readInode sb s.image (s.inode i).inum

/-- The process has taken `e` references since, and it holds these locks. Nothing else has changed for the
entries that were in use. -/
structure Holding (sb : Superblock) (s₀ s : Itable) (e : Fin ninode → ℕ) (held : Set (Fin ninode)) : Prop where
  ok : s.Ok
  coherent : s.Coherent sb
  ref : ∀ k, (s.inode k).ref = (s₀.inode k).ref + e k
  inum : ∀ k, 0 < (s₀.inode k).ref → (s.inode k).inum = (s₀.inode k).inum
  locked : ∀ k, (s.inode k).locked = true ↔ k ∈ held
  image : s.image = s₀.image

variable {held : Set (Fin ninode)}

theorem Holding.used (holding : Holding sb s₀ s e held) (positive : 0 < e i) : 0 < (s.inode i).ref := by
  rw [holding.ref]
  exact positive.trans_le (Nat.le_add_left _ _)

/-- The references that the process has taken are there. -/
theorem Holding.used_last (holding : Holding sb s₀ s (e + Pi.single i 1) held) : 0 < (s.inode i).ref := by
  refine holding.used ?_
  rw [Pi.add_apply, Pi.single_eq_same]
  exact Nat.succ_pos _

theorem Holding.used_single (holding : Holding sb s₀ s (Pi.single i 1) held) : 0 < (s.inode i).ref := by
  rw [← zero_add (Pi.single i 1)] at holding
  exact holding.used_last

/-- What was in use is in use. -/
theorem Holding.keeps (holding : Holding sb s₀ s e held) (used : 0 < (s₀.inode k).ref) : 0 < (s.inode k).ref := by
  rw [holding.ref]
  exact used.trans_le (Nat.le_add_right _ _)

theorem Holding.notLocked (holding : Holding sb s₀ s e held) (notHeld : i ∉ held) : (s.inode i).locked = false := by
  rw [← holding.locked i] at notHeld
  exact Bool.not_eq_true _ ▸ notHeld

/-- `ilock` reads the inode, unless that has been done. -/
theorem Holding.ilock (holding : Holding sb s₀ s e held) (used : 0 < (s.inode i).ref) (notHeld : i ∉ held)
    (hasType : (readInode sb s.image (s.inode i).inum).type ≠ 0) :
    s.ilock sb i = .ok (s.set i { s.inode i with
      locked := true, valid := true, ip := readInode sb s.image (s.inode i).inum }) ∧
    Holding sb s₀ (s.set i { s.inode i with
      locked := true, valid := true, ip := readInode sb s.image (s.inode i).inum }) e (insert i held) := by
  constructor
  · unfold Itable.ilock
    rw [if_neg (Nat.not_lt.2 used), holding.notLocked notHeld, if_neg Bool.false_ne_true]
    split
    · rename_i isValid
      rw [← holding.coherent i used isValid, ← isValid]
    · dsimp only
      rw [if_neg hasType]
  · have isRef := set_field s i { s.inode i with
      locked := true, valid := true, ip := readInode sb s.image (s.inode i).inum } CachedInode.ref rfl
    have isInum := set_field s i { s.inode i with
      locked := true, valid := true, ip := readInode sb s.image (s.inode i).inum } CachedInode.inum rfl
    refine ⟨holding.ok.congr (fun k usedK => ⟨isRef k ▸ usedK, isInum k⟩) fun k unused => ?_,
      fun k usedK isValid => ?_, fun k => (isRef k).trans (holding.ref k),
      fun k usedK => (isInum k).trans (holding.inum k usedK), fun k => ?_, holding.image⟩
    · rw [isRef] at unused
      have isOther : k ≠ i := by
        rintro rfl
        exact used.ne' unused
      rw [set_other isOther]
      exact holding.ok.idle k unused
    · by_cases isI : k = i
      · subst isI
        rw [set_self]
        rfl
      · rw [set_other isI] at usedK isValid ⊢
        exact holding.coherent k usedK isValid
    · rw [Set.mem_insert_iff]
      by_cases isI : k = i
      · subst isI
        rw [set_self]
        exact iff_of_true rfl (.inl rfl)
      · rw [set_other isI, holding.locked]
        exact ⟨.inr, fun possible => possible.resolve_left isI⟩

/-- `iunlock` -/
theorem Holding.iunlock (holding : Holding sb s₀ s e held) (used : 0 < (s.inode i).ref) (isHeld : i ∈ held) :
    s.iunlock i = .ok (s.set i { s.inode i with locked := false }) ∧
      Holding sb s₀ (s.set i { s.inode i with locked := false }) e (held \ {i}) := by
  have isLocked := (holding.locked i).2 isHeld
  constructor
  · unfold Itable.iunlock
    refine if_neg ?_
    rintro (free | unused)
    · rw [isLocked] at free
      cases free
    · omega
  · have isRef := set_field s i { s.inode i with locked := false } CachedInode.ref rfl
    have isInum := set_field s i { s.inode i with locked := false } CachedInode.inum rfl
    refine ⟨holding.ok.congr (fun k usedK => ⟨isRef k ▸ usedK, isInum k⟩) fun k unused => ?_,
      fun k usedK isValid => ?_, fun k => (isRef k).trans (holding.ref k),
      fun k usedK => (isInum k).trans (holding.inum k usedK), fun k => ?_, holding.image⟩
    · rw [isRef] at unused
      have isOther : k ≠ i := by
        rintro rfl
        exact used.ne' unused
      rw [set_other isOther]
      exact holding.ok.idle k unused
    · rw [isRef] at usedK
      rw [set_field s i { s.inode i with locked := false } CachedInode.valid rfl] at isValid
      rw [set_field s i { s.inode i with locked := false } CachedInode.ip rfl, isInum]
      exact holding.coherent k usedK isValid
    · rw [Set.mem_sdiff, Set.mem_singleton_iff]
      by_cases isI : k = i
      · subst isI
        rw [set_self]
        exact iff_of_false Bool.false_ne_true fun both => both.2 rfl
      · rw [set_other isI, holding.locked]
        exact (and_iff_left isI).symm

theorem Got.others (got : Got s m i s') (isOther : k ≠ i) : s'.inode k = s.inode k := by
  cases got with
  | again _ _ => exact set_other isOther
  | fresh _ _ => exact set_other isOther

theorem Got.ref (got : Got s m i s') (k : Fin ninode) :
    (s'.inode k).ref = (s.inode k).ref + (Pi.single i 1 : Fin ninode → ℕ) k := by
  by_cases isI : k = i
  · subst isI
    rw [Pi.single_eq_same]
    cases got with
    | again _ _ => rw [set_self]
    | fresh _ unused => rw [set_self, unused]
  · rw [Pi.single_eq_of_ne isI, got.others isI, Nat.add_zero]

theorem Got.inum (got : Got s m i s') : (s'.inode i).inum = m := by
  cases got with
  | again _ same =>
      rw [set_self]
      exact same
  | fresh _ _ => rw [set_self]

theorem Got.image (got : Got s m i s') : s'.image = s.image := by
  cases got with
  | again _ _ => rfl
  | fresh _ _ => rfl

/-- An entry in use keeps all but its count. -/
theorem Got.stays (got : Got s m i s') (used : 0 < (s.inode k).ref) : (s'.inode k).inum = (s.inode k).inum ∧
    (s'.inode k).valid = (s.inode k).valid ∧ (s'.inode k).ip = (s.inode k).ip := by
  by_cases isI : k = i
  · subst isI
    cases got with
    | again _ _ =>
        rw [set_self]
        exact ⟨rfl, rfl, rfl⟩
    | fresh _ unused => exact absurd unused used.ne'
  · rw [got.others isI]
    exact ⟨rfl, rfl, rfl⟩

theorem Got.locked (got : Got s m i s') (k : Fin ninode) : (s'.inode k).locked = (s.inode k).locked := by
  by_cases isI : k = i
  · subst isI
    cases got with
    | again _ _ => rw [set_self]
    | fresh _ _ => rw [set_self]
  · rw [got.others isI]

theorem Holding.got (holding : Holding sb s₀ s e held) (got : Got s m i s') :
    Holding sb s₀ s' (e + Pi.single i 1) held := by
  refine ⟨got.ok holding.ok, fun k used isValid => ?_, fun k => ?_, fun k used => ?_, fun k => ?_,
    got.image.trans holding.image⟩
  · by_cases was : 0 < (s.inode k).ref
    · rcases got.stays was with ⟨isInum, isValid', isIp⟩
      rw [isValid'] at isValid
      rw [isIp, isInum, got.image]
      exact holding.coherent k was isValid
    · have isI : k = i := by
        by_contra isOther
        rw [got.others isOther] at used
        exact was used
      subst isI
      cases got with
      | again used' _ => exact absurd used' was
      | fresh _ _ =>
          rw [set_self] at isValid
          cases isValid
  · rw [got.ref, holding.ref, Pi.add_apply, Nat.add_assoc]
  · rw [(got.stays (holding.keeps used)).1]
    exact holding.inum k used
  · rw [got.locked]
    exact holding.locked k

/-- `iput` of a reference that is not the last one, or of an inode with links. -/
theorem Holding.iput (holding : Holding sb s₀ s (e + Pi.single i 1) held) (notHeld : i ∉ held)
    (stays : (readInode sb s.image (s.inode i).inum).nlink ≠ 0 ∨ 0 < (s₀.inode i).ref + e i) :
    s.iput sb i = .ok (s.set i { s.inode i with ref := (s.inode i).ref - 1 }) ∧
      Holding sb s₀ (s.set i { s.inode i with ref := (s.inode i).ref - 1 }) e held := by
  have isRef := holding.ref i
  rw [Pi.add_apply, Pi.single_eq_same] at isRef
  have used : 0 < (s.inode i).ref := by omega
  have isDrop : s.drop sb i = .ok s := by
    unfold Itable.drop
    refine if_neg ?_
    rintro ⟨isValid, unlinked, one⟩
    rcases stays with linked | others
    · rw [holding.coherent i used isValid] at unlinked
      exact linked unlinked
    · omega
  constructor
  · unfold Itable.iput
    rw [holding.notLocked notHeld, if_neg Bool.false_ne_true, isDrop]
    rfl
  · have isInum := set_field s i { s.inode i with ref := (s.inode i).ref - 1 }
      CachedInode.inum rfl
    have isLocked := set_field s i { s.inode i with ref := (s.inode i).ref - 1 }
      CachedInode.locked rfl
    have left : ∀ k, ((s.set i { s.inode i with ref := (s.inode i).ref - 1 }).inode k).ref =
        (s₀.inode k).ref + e k := by
      intro k
      by_cases isI : k = i
      · subst isI
        rw [set_self]
        dsimp only
        omega
      · rw [set_other isI, holding.ref, Pi.add_apply, Pi.single_eq_of_ne isI, Nat.add_zero]
    have was : ∀ k, 0 < (s₀.inode k).ref + e k → 0 < (s.inode k).ref := by
      intro k positive
      rw [holding.ref, Pi.add_apply]
      omega
    refine ⟨holding.ok.congr (fun k usedK => ⟨was k (left k ▸ usedK), isInum k⟩) fun k unused => ?_,
      fun k usedK isValid => ?_, left, fun k usedK => (isInum k).trans (holding.inum k usedK), fun k => ?_,
      holding.image⟩
    · rw [left] at unused
      rw [isLocked]
      by_cases isI : k = i
      · subst isI
        exact holding.notLocked notHeld
      · refine holding.ok.idle k ?_
        rw [holding.ref, Pi.add_apply, Pi.single_eq_of_ne isI]
        omega
    · rw [left] at usedK
      rw [set_field s i { s.inode i with ref := (s.inode i).ref - 1 } CachedInode.valid rfl] at isValid
      rw [set_field s i { s.inode i with ref := (s.inode i).ref - 1 } CachedInode.ip rfl, isInum]
      exact holding.coherent k (was k usedK) isValid
    · rw [isLocked]
      exact holding.locked k

theorem Holding.exists_ilock (holding : Holding sb s₀ s e held) (used : 0 < (s.inode i).ref) (notHeld : i ∉ held)
    (hasType : (readInode sb s.image (s.inode i).inum).type ≠ 0) : ∃ s', s.ilock sb i = .ok s' ∧
      Holding sb s₀ s' e (insert i held) ∧ (s'.inode i).ip = readInode sb s.image (s.inode i).inum ∧
      ∀ k, (s'.inode k).inum = (s.inode k).inum := by
  rcases holding.ilock used notHeld hasType with ⟨isLock, holding'⟩
  refine ⟨_, isLock, holding', ?_, set_field s i _ CachedInode.inum rfl⟩
  rw [set_self]

theorem Holding.exists_iunlock (holding : Holding sb s₀ s e held) (used : 0 < (s.inode i).ref) (isHeld : i ∈ held) :
    ∃ s', s.iunlock i = .ok s' ∧ Holding sb s₀ s' e (held \ {i}) ∧ ∀ k, (s'.inode k).inum = (s.inode k).inum :=
  ⟨_, (holding.iunlock used isHeld).1, (holding.iunlock used isHeld).2,
    set_field s i _ CachedInode.inum rfl⟩

theorem Holding.exists_iput (holding : Holding sb s₀ s (e + Pi.single i 1) held) (notHeld : i ∉ held)
    (stays : (readInode sb s.image (s.inode i).inum).nlink ≠ 0 ∨ 0 < (s₀.inode i).ref + e i) :
    ∃ s', s.iput sb i = .ok s' ∧ Holding sb s₀ s' e held ∧ ∀ k, (s'.inode k).inum = (s.inode k).inum :=
  ⟨_, (holding.iput notHeld stays).1, (holding.iput notHeld stays).2,
    set_field s i _ CachedInode.inum rfl⟩

/-- `iunlockput` -/
theorem Holding.iunlockput (holding : Holding sb s₀ s (e + Pi.single i 1) held) (isHeld : i ∈ held)
    (stays : (readInode sb s.image (s.inode i).inum).nlink ≠ 0 ∨ 0 < (s₀.inode i).ref + e i) :
    ∃ s', s.iunlockput sb i = .ok s' ∧ Holding sb s₀ s' e (held \ {i}) ∧
      ∀ k, (s'.inode k).inum = (s.inode k).inum := by
  rcases holding.exists_iunlock holding.used_last isHeld with ⟨s₁, isUnlock, holding₁, inum₁⟩
  rw [holding.image, ← holding₁.image, ← inum₁ i] at stays
  rcases holding₁.exists_iput (fun member => member.2 rfl) stays with ⟨s₂, isPut, holding₂, inum₂⟩
  refine ⟨s₂, ?_, holding₂, fun k => (inum₂ k).trans (inum₁ k)⟩
  unfold Itable.iunlockput
  rw [isUnlock]
  exact isPut

end Itable
end Xv6.Fs
