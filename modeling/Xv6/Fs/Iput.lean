import Xv6.Fs.Truncate
import Xv6.Lib.References
import Xv6.Lib.Transition

/-!
# Dropping the last references to an unlinked inode

Concurrent calls of `iput` for one inode of the cache. Each section under `ip->lock` or `icache.lock` is
a step of its own, so that others may run between the read of `ref` and its decrement.
-/

namespace Xv6.Fs

open Transition

/-- Where a call of `iput` is. -/
inductive Stage where
  | called
  /-- `ip->lock` is held -/
  | locked
  /-- `r = ip->ref` has been read -/
  | counted (r : ℕ)
  /-- before `releasesleep` -/
  | unlocking
  /-- before `ip->ref--` -/
  | unlocked
  | returned
  deriving DecidableEq, Repr

/-- The inode of the cache, the disk and the calls. -/
structure Icache (n : ℕ) where
  ref : ℕ
  valid : Bool
  /-- the fields that are copied from the disk -/
  ip : Dinode
  /-- the holder of `ip->lock` -/
  lock : Option (Fin n) := none
  image : ℕ → Block
  stage : Fin n → Stage := fun _ => .called
  /-- how often `itrunc` has been called -/
  truncations : ℕ := 0

variable {n : ℕ}

def Icache.moveTo (s : Icache n) (p : Fin n) (stage : Stage) : Icache n :=
  { s with stage := Function.update s.stage p stage }

/-- The next section of a call of `iput`; nothing while another call holds the lock, and after the
return. -/
def iput (sb : Superblock) (inum : ℕ) (p : Fin n) (s : Icache n) : Option (Icache n) :=
  match s.stage p with
  | .called => if s.lock = none then some { s.moveTo p .locked with lock := some p } else none
  | .locked =>
      if s.valid = true ∧ s.ip.nlink = 0 then some (s.moveTo p (.counted s.ref))
      else some (s.moveTo p .unlocking)
  | .counted r =>
      if r = 1 then do
        let (ip, image) ← itrunc sb inum s.ip s.image
        let ip := { ip with type := 0 }
        let image := iupdate sb inum ip image
        return { s.moveTo p .unlocking with ip, image, valid := false, truncations := s.truncations + 1 }
      else some (s.moveTo p .unlocking)
  | .unlocking => some { s.moveTo p .unlocked with lock := none }
  | .unlocked => some { s.moveTo p .returned with ref := s.ref - 1 }
  | .returned => none

/-- There are `n` references, all of them are given up, and no directory entry names the inode. -/
structure Unlinked (sb : Superblock) (inum : ℕ) (s : Icache n) : Prop where
  some : 0 < n
  ref : s.ref = n
  valid : s.valid = true
  nlink : s.ip.nlink = 0
  lock : s.lock = none
  stage : ∀ p, s.stage p = .called
  truncations : s.truncations = 0
  owns : OwnsBlocks sb inum s.ip s.image

/-- The inode has been freed, once: its type is 0 on disk, and its blocks are free. -/
structure FreedOnce (sb : Superblock) (inum : ℕ) (s₀ s : Icache n) : Prop where
  once : s.truncations = 1
  inode : readInode sb s.image inum = { s₀.ip with type := 0, size := 0, addrs := fun _ => 0 }
  blocks : ∀ k ≤ maxfile, slot s₀.image s₀.ip k ≠ 0 → inUse sb s.image (slot s₀.image s₀.ip k) = false

/-- What is right for the calls of `iput` that started in `s₀`. -/
structure IputCorrect (sb : Superblock) (inum : ℕ) (s₀ s : Icache n) : Prop where
  last : s.ref = 0 → FreedOnce sb inum s₀ s
  once : s.truncations ≤ 1
  notHeld : s.truncations = 1 → ∀ p q, s.stage p ≠ .returned → s.stage q ≠ .returned → p = q
  noPanic : ∀ p, s.stage p ≠ .returned → iput sb inum p s = none →
    s.stage p = .called ∧ ∃ q ≠ p, s.lock = some q

/-- If no other call has yet to read `ref`, then all others have decremented it when `ref` is read. -/
def LastAlone (s : Icache n) (p : Fin n) : Prop :=
  s.stage p = .locked → (∃ q, q ≠ p ∧ s.stage q = .called) ∨ ∀ q, q ≠ p → s.stage q = .returned

instance (s : Icache n) (p : Fin n) : Decidable (LastAlone s p) :=
  inferInstanceAs (Decidable (_ → _))

/-- The interleavings in which the guard holds before every step. -/
def IputReach (sb : Superblock) (inum : ℕ) (guard : Icache n → Fin n → Prop) : Icache n → Icache n → Prop :=
  Reachable (fun s p t => iput sb inum p s = some t) guard

/-! ## The invariant -/

/-- The call holds `ip->lock`. -/
def Stage.Inside : Stage → Prop
  | .locked | .counted _ | .unlocking => True
  | _ => False

/-- The calls that have not given up their references. -/
def unreturned (s : Icache n) : ℕ := (Finset.univ.filter fun p => s.stage p ≠ .returned).card

structure IputInv (sb : Superblock) (inum : ℕ) (s₀ s : Icache n) : Prop where
  ref : s.ref = unreturned s
  lock : ∀ p, s.lock = some p ↔ (s.stage p).Inside
  counted : ∀ p r, s.stage p = .counted r → s.truncations = 0 ∧ s.ref ≤ r
  disk : (s.truncations = 0 ∧ s.valid = true ∧ s.ip = s₀.ip ∧ s.image = s₀.image) ∨
    (s.valid = false ∧ s.ref ≤ 1 ∧ FreedOnce sb inum s₀ s)

variable {sb : Superblock} {inum : ℕ} {s₀ s t : Icache n} {p q : Fin n} {stage : Stage}

theorem unreturned_moveTo (s : Icache n) (p : Fin n) (stage : Stage) :
    unreturned (s.moveTo p stage) + (if s.stage p ≠ .returned then 1 else 0) =
      unreturned s + if stage ≠ .returned then 1 else 0 :=
  References.card_update s.stage (· ≠ .returned) p stage

theorem unreturned_pos (holds : s.stage p ≠ .returned) : 0 < unreturned s :=
  Finset.card_pos.mpr ⟨p, Finset.mem_filter.mpr ⟨Finset.mem_univ p, holds⟩⟩

theorem unreturned_one (one : unreturned s ≤ 1) (first : s.stage p ≠ .returned) (second : s.stage q ≠ .returned) :
    p = q :=
  Finset.card_le_one.mp one p (Finset.mem_filter.mpr ⟨Finset.mem_univ p, first⟩) q
    (Finset.mem_filter.mpr ⟨Finset.mem_univ q, second⟩)

theorem Unlinked.inv (unlinked : Unlinked sb inum s₀) : IputInv sb inum s₀ s₀ := by
  refine ⟨?_, fun p => ?_, fun p r isCounted => ?_, .inl ⟨unlinked.truncations, unlinked.valid, rfl, rfl⟩⟩
  · have all : (Finset.univ.filter fun p => s₀.stage p ≠ .returned) = Finset.univ :=
      Finset.filter_true_of_mem fun p _ => by simp [unlinked.stage p]
    rw [unlinked.ref, unreturned, all, Finset.card_univ, Fintype.card_fin]
  · rw [unlinked.lock, unlinked.stage p]
    simp [Stage.Inside]
  · rw [unlinked.stage p] at isCounted
    cases isCounted

/-- What a step of `iput` does. -/
inductive IputStep (sb : Superblock) (inum : ℕ) (s : Icache n) (p : Fin n) : Icache n → Prop
  | acquire (stage : s.stage p = .called) (free : s.lock = none) :
      IputStep sb inum s p { s.moveTo p .locked with lock := some p }
  | count (stage : s.stage p = .locked) (valid : s.valid = true) (nlink : s.ip.nlink = 0) :
      IputStep sb inum s p (s.moveTo p (.counted s.ref))
  | skip (stage : s.stage p = .locked) (other : ¬(s.valid = true ∧ s.ip.nlink = 0)) :
      IputStep sb inum s p (s.moveTo p .unlocking)
  | free (stage : s.stage p = .counted 1) (ip : Dinode) (image : ℕ → Block)
      (truncated : itrunc sb inum s.ip s.image = some (ip, image)) :
      IputStep sb inum s p { s.moveTo p .unlocking with
        ip := { ip with type := 0 }
        image := iupdate sb inum { ip with type := 0 } image
        valid := false
        truncations := s.truncations + 1 }
  | keep (r : ℕ) (stage : s.stage p = .counted r) (more : r ≠ 1) :
      IputStep sb inum s p (s.moveTo p .unlocking)
  | release (stage : s.stage p = .unlocking) :
      IputStep sb inum s p { s.moveTo p .unlocked with lock := none }
  | drop (stage : s.stage p = .unlocked) :
      IputStep sb inum s p { s.moveTo p .returned with ref := s.ref - 1 }

theorem iputStep (taken : iput sb inum p s = some t) : IputStep sb inum s p t := by
  unfold iput at taken
  split at taken
  · rename_i stage
    split at taken
    · rename_i free
      cases taken
      exact .acquire stage free
    · cases taken
  · rename_i stage
    split at taken
    · rename_i counts
      cases taken
      exact .count stage counts.1 counts.2
    · rename_i other
      cases taken
      exact .skip stage other
  · rename_i r stage
    split at taken
    · rename_i isOne
      subst isOne
      rcases Option.bind_eq_some_iff.1 taken with ⟨⟨ip, image⟩, truncated, result⟩
      cases result
      exact .free stage ip image truncated
    · rename_i more
      cases taken
      exact .keep r stage more
  · rename_i stage
    cases taken
    exact .release stage
  · rename_i stage
    cases taken
    exact .drop stage
  · cases taken

theorem unreturned_stay (before : s.stage p ≠ .returned) (after : stage ≠ .returned) :
    unreturned (s.moveTo p stage) = unreturned s := by
  have moved := unreturned_moveTo s p stage
  rw [if_pos before, if_pos after] at moved
  exact Nat.add_right_cancel moved

theorem FreedOnce.congr (freed : FreedOnce sb inum s₀ s) (count : t.truncations = s.truncations)
    (disk : t.image = s.image) : FreedOnce sb inum s₀ t :=
  ⟨count.trans freed.once, disk ▸ freed.inode, disk ▸ freed.blocks⟩

/-- A call stays between `acquiresleep` and `releasesleep`. -/
theorem IputInv.inside (inv : IputInv sb inum s₀ s) (before : (s.stage p).Inside) (after : stage.Inside)
    (q : Fin n) : s.lock = some q ↔ ((s.moveTo p stage).stage q).Inside := by
  unfold Icache.moveTo
  dsimp only
  by_cases same : q = p
  · subst same
    rw [Function.update_self, inv.lock q]
    exact iff_of_true before after
  · rw [Function.update_of_ne same]
    exact inv.lock q

/-- What was read from `ref` by the other calls. -/
theorem IputInv.others (inv : IputInv sb inum s₀ s) (notCounted : ∀ r, stage ≠ .counted r) (q : Fin n) (r : ℕ)
    (isCounted : (s.moveTo p stage).stage q = .counted r) :
    s.stage q = .counted r ∧ s.truncations = 0 ∧ s.ref ≤ r := by
  unfold Icache.moveTo at isCounted
  dsimp only at isCounted
  by_cases same : q = p
  · subst same
    rw [Function.update_self] at isCounted
    exact absurd isCounted (notCounted r)
  · rw [Function.update_of_ne same] at isCounted
    exact ⟨isCounted, inv.counted q r isCounted⟩

/-- The inode is freed when no other reference is held. -/
theorem IputInv.free (inv : IputInv sb inum s₀ s) (owns : OwnsBlocks sb inum s₀.ip s₀.image)
    (stage : s.stage p = .counted 1) :
    ∃ ip image, itrunc sb inum s.ip s.image = some (ip, image) ∧
      readInode sb (iupdate sb inum { ip with type := 0 } image) inum =
        { s₀.ip with type := 0, size := 0, addrs := fun _ => 0 } ∧
      ∀ k ≤ maxfile, slot s₀.image s₀.ip k ≠ 0 →
        inUse sb (iupdate sb inum { ip with type := 0 } image) (slot s₀.image s₀.ip k) = false := by
  have notFreed := (inv.counted p 1 stage).1
  rcases inv.disk with ⟨-, -, isIp, isImage⟩ | ⟨-, -, freed⟩
  · rcases owns.itrunc with ⟨ip, image, run, ⟨fields, free⟩, -⟩
    have fits : { ip with type := 0 }.Fits := by
      rw [fields]
      exact ⟨Nat.pow_pos (by decide), owns.fits.major, owns.fits.minor, owns.fits.nlink,
        Nat.pow_pos (by decide), fun _ => Nat.pow_pos (by decide)⟩
    refine ⟨ip, image, by rw [isIp, isImage]; exact run, ?_, fun k bound has => ?_⟩
    · rw [readInode_iupdate fits, fields]
    · have inside := (owns.blocks k bound has).1
      rw [inUse_iupdate (owns.apart _ inside), ← Bool.not_eq_true, free _ inside]
      exact fun marked => marked.2 k bound has rfl
  · have once := freed.once
    omega

/-- Nothing but `ref` and the stages has changed. -/
theorem IputInv.same (inv : IputInv sb inum s₀ s) (count : t.truncations = s.truncations)
    (valid : t.valid = s.valid) (isIp : t.ip = s.ip) (isImage : t.image = s.image) (ref : t.ref ≤ s.ref) :
    (t.truncations = 0 ∧ t.valid = true ∧ t.ip = s₀.ip ∧ t.image = s₀.image) ∨
      (t.valid = false ∧ t.ref ≤ 1 ∧ FreedOnce sb inum s₀ t) := by
  rw [count, valid, isIp, isImage]
  rcases inv.disk with kept | ⟨notValid, small, freed⟩
  · exact .inl kept
  · exact .inr ⟨notValid, ref.trans small, freed.congr count isImage⟩

/-- A call does not free the inode. -/
theorem IputInv.keep (inv : IputInv sb inum s₀ s) (inside : (s.stage p).Inside) :
    IputInv sb inum s₀ (s.moveTo p .unlocking) := by
  have notReturned : s.stage p ≠ .returned := by
    intro returned
    rw [returned] at inside
    exact inside
  exact ⟨inv.ref.trans (unreturned_stay notReturned (by simp)).symm, inv.inside inside trivial,
    fun q r isCounted => (inv.others (by simp) q r isCounted).2, inv.same rfl rfl rfl rfl le_rfl⟩

theorem IputInv.step (inv : IputInv sb inum s₀ s) (owns : OwnsBlocks sb inum s₀.ip s₀.image)
    (taken : iput sb inum p s = some t) : IputInv sb inum s₀ t := by
  cases iputStep taken with
  | acquire stage free =>
      have notReturned : s.stage p ≠ .returned := by simp [stage]
      refine ⟨inv.ref.trans (unreturned_stay notReturned (by simp)).symm, fun q => ?_,
        fun q r isCounted => (inv.others (by simp) q r isCounted).2,
        inv.same rfl rfl rfl rfl le_rfl⟩
      change some p = some q ↔ (Function.update s.stage p .locked q).Inside
      by_cases same : q = p
      · subst same
        rw [Function.update_self]
        exact iff_of_true rfl trivial
      · rw [Function.update_of_ne same, ← inv.lock q, free]
        simp [Ne.symm same]
  | count stage valid nlink =>
      have notReturned : s.stage p ≠ .returned := by simp [stage]
      have inside : (s.stage p).Inside := by simp [stage, Stage.Inside]
      have notFreed : s.truncations = 0 := by
        rcases inv.disk with ⟨zero, -⟩ | ⟨notValid, -⟩
        · exact zero
        · rw [valid] at notValid
          cases notValid
      refine ⟨inv.ref.trans (unreturned_stay notReturned (by simp)).symm, inv.inside inside trivial,
        fun q r isCounted => ?_, inv.same rfl rfl rfl rfl le_rfl⟩
      · change Function.update s.stage p (.counted s.ref) q = .counted r at isCounted
        by_cases same : q = p
        · subst same
          rw [Function.update_self] at isCounted
          cases isCounted
          exact ⟨notFreed, le_rfl⟩
        · rw [Function.update_of_ne same] at isCounted
          exact inv.counted q r isCounted
  | skip stage other => exact inv.keep (by simp [stage, Stage.Inside])
  | free stage ip image truncated =>
      have notReturned : s.stage p ≠ .returned := by simp [stage]
      have inside : (s.stage p).Inside := by simp [stage, Stage.Inside]
      rcases inv.counted p 1 stage with ⟨notFreed, small⟩
      rcases inv.free owns stage with ⟨ip', image', truncated', inode, blocks⟩
      rw [truncated'] at truncated
      cases truncated
      refine ⟨inv.ref.trans (unreturned_stay notReturned (by simp)).symm, inv.inside inside trivial,
        fun q r isCounted => ?_, .inr ⟨rfl, small, ?_, inode, blocks⟩⟩
      · -- the lock excludes every other call
        have counted := (inv.others (by simp) q r isCounted).1
        have holds := (inv.lock q).mpr (by simp [counted, Stage.Inside])
        have holds' := (inv.lock p).mpr inside
        have same : p = q := Option.some.inj (holds'.symm.trans holds)
        subst same
        change Function.update s.stage p .unlocking p = .counted r at isCounted
        rw [Function.update_self] at isCounted
        cases isCounted
      · change s.truncations + 1 = 1
        rw [notFreed]
  | keep r stage more => exact inv.keep (by simp [stage, Stage.Inside])
  | release stage =>
      have notReturned : s.stage p ≠ .returned := by simp [stage]
      have holds := (inv.lock p).mpr (by simp [stage, Stage.Inside])
      refine ⟨inv.ref.trans (unreturned_stay notReturned (by simp)).symm, fun q => ?_,
        fun q r isCounted => (inv.others (by simp) q r isCounted).2,
        inv.same rfl rfl rfl rfl le_rfl⟩
      change none = some q ↔ (Function.update s.stage p .unlocked q).Inside
      refine iff_of_false (by simp) fun inside => ?_
      by_cases same : q = p
      · subst same
        rw [Function.update_self] at inside
        exact inside
      · rw [Function.update_of_ne same, ← inv.lock q, holds] at inside
        exact same (Option.some.inj inside).symm
  | drop stage =>
      have moved := unreturned_moveTo s p .returned
      rw [if_pos (by simp [stage]), if_neg (by simp)] at moved
      refine ⟨?_, fun q => ?_, fun q r isCounted => ?_, inv.same rfl rfl rfl rfl (Nat.sub_le _ _)⟩
      · have count := inv.ref
        change s.ref - 1 = unreturned (s.moveTo p .returned)
        omega
      · change s.lock = some q ↔ (Function.update s.stage p .returned q).Inside
        by_cases same : q = p
        · subst same
          rw [Function.update_self, inv.lock q, stage]
          exact iff_of_false id id
        · rw [Function.update_of_ne same]
          exact inv.lock q
      · rcases (inv.others (by simp) q r isCounted).2 with ⟨zero, small⟩
        exact ⟨zero, (Nat.sub_le _ _).trans small⟩

/-- `iput` never panics, and only waits for the lock. -/
theorem IputInv.enabled (inv : IputInv sb inum s₀ s) (owns : OwnsBlocks sb inum s₀.ip s₀.image)
    (notReturned : s.stage p ≠ .returned) (stuck : iput sb inum p s = none) :
    s.stage p = .called ∧ ∃ q, q ≠ p ∧ s.lock = some q := by
  unfold iput at stuck
  split at stuck
  · rename_i stage
    split at stuck
    · cases stuck
    · rename_i taken
      rcases Option.ne_none_iff_exists'.mp taken with ⟨q, holds⟩
      refine ⟨stage, q, ?_, holds⟩
      rintro rfl
      have inside := (inv.lock q).mp holds
      rw [stage] at inside
      exact inside
  · split at stuck
    · cases stuck
    · cases stuck
  · rename_i r stage
    split at stuck
    · rename_i isOne
      subst isOne
      rcases inv.free owns stage with ⟨ip, image, truncated, -⟩
      rw [truncated] at stuck
      cases stuck
    · cases stuck
  · cases stuck
  · cases stuck
  · rename_i stage
    exact absurd stage notReturned

/-! ## The call that frees the inode -/

/-- The call may yet free the inode. -/
def Stage.CanFree : Stage → Prop
  | .called | .locked => True
  | .counted r => r = 1
  | _ => False

/-- Some call will free the inode. -/
def Pending (s : Icache n) : Prop := s.truncations = 0 → ∃ p, (s.stage p).CanFree

/-- No call will free the inode. -/
structure Lost (s : Icache n) : Prop where
  never : s.truncations = 0
  none : ∀ p, ¬(s.stage p).CanFree

theorem stage_other (different : q ≠ p) : (s.moveTo p stage).stage q = s.stage q :=
  Function.update_of_ne different _ _

theorem stage_self (s : Icache n) (p : Fin n) (stage : Stage) : (s.moveTo p stage).stage p = stage :=
  Function.update_self ..

/-- Another call is still there to free the inode. -/
theorem Pending.moveTo (pending : Pending s) (cannot : ¬(s.stage p).CanFree) (stage : Stage) :
    Pending (s.moveTo p stage) := by
  intro never
  rcases pending never with ⟨q, can⟩
  refine ⟨q, ?_⟩
  rw [stage_other]
  · exact can
  · rintro rfl
    exact cannot can

theorem Pending.step (pending : Pending s) (inv : IputInv sb inum s₀ s) (nlink : s₀.ip.nlink = 0)
    (alone : LastAlone s p) (taken : iput sb inum p s = some t) : Pending t := by
  cases iputStep taken with
  | acquire stage free =>
      refine fun _ => ⟨p, ?_⟩
      change ((s.moveTo p .locked).stage p).CanFree
      rw [stage_self]
      trivial
  | count stage valid isZero =>
      intro never
      rcases alone stage with ⟨q, different, called⟩ | others
      · refine ⟨q, ?_⟩
        rw [stage_other different, called]
        trivial
      · refine ⟨p, ?_⟩
        have one : unreturned s ≤ 1 := by
          refine Finset.card_le_one.mpr fun a member b member' => ?_
          have isP : ∀ q ∈ Finset.univ.filter fun q => s.stage q ≠ .returned, q = p := by
            intro q member
            by_contra different
            exact (Finset.mem_filter.mp member).2 (others q different)
          exact (isP a member).trans (isP b member').symm
        have some : 0 < unreturned s := unreturned_pos (by simp [stage] : s.stage p ≠ .returned)
        rw [stage_self]
        change s.ref = 1
        rw [inv.ref]
        omega
  | skip stage other =>
      intro never
      rcases inv.disk with ⟨-, valid, isIp, -⟩ | ⟨-, -, freed⟩
      · exact absurd ⟨valid, isIp ▸ nlink⟩ other
      · have once := freed.once
        change s.truncations = 0 at never
        omega
  | free stage ip image truncated =>
      intro never
      cases never
  | keep r stage more => exact pending.moveTo (by simpa [stage, Stage.CanFree] using more) _
  | release stage => exact pending.moveTo (by simp [stage, Stage.CanFree]) _
  | drop stage => exact pending.moveTo (by simp [stage, Stage.CanFree]) _

theorem Lost.moveTo (lost : Lost s) (cannot : ¬stage.CanFree) : Lost (s.moveTo p stage) := by
  refine ⟨lost.never, fun q => ?_⟩
  by_cases same : q = p
  · rw [same, stage_self]
    exact cannot
  · rw [stage_other same]
    exact lost.none q

theorem Lost.step (lost : Lost s) (taken : iput sb inum p s = some t) : Lost t := by
  have cannot := lost.none p
  cases iputStep taken with
  | acquire stage =>
      rw [stage] at cannot
      exact absurd trivial cannot
  | count stage =>
      rw [stage] at cannot
      exact absurd trivial cannot
  | skip stage =>
      rw [stage] at cannot
      exact absurd trivial cannot
  | free stage =>
      rw [stage] at cannot
      exact absurd rfl cannot
  | keep r stage more => exact lost.moveTo id
  | release stage =>
      have moved : Lost (s.moveTo p .unlocked) := lost.moveTo id
      exact ⟨moved.never, moved.none⟩
  | drop stage =>
      have moved : Lost (s.moveTo p .returned) := lost.moveTo id
      exact ⟨moved.never, moved.none⟩

/-- The last call that reads `ref` does not free the inode if another one has yet to decrement it. -/
theorem IputInv.lost (inv : IputInv sb inum s₀ s) (notAlone : ¬LastAlone s p)
    (taken : iput sb inum p s = some t) : Lost t := by
  unfold LastAlone at notAlone
  push Not at notAlone
  rcases notAlone with ⟨locked, noneCalled, q, different, notReturned⟩
  have holds := (inv.lock p).mpr (by simp [locked, Stage.Inside])
  have others : ∀ q, q ≠ p → ¬(s.stage q).CanFree := by
    intro q different can
    cases isStage : s.stage q with
    | called => exact noneCalled q different isStage
    | locked =>
        have holds' := (inv.lock q).mpr (by simp [isStage, Stage.Inside])
        exact different (Option.some.inj (holds'.symm.trans holds))
    | counted r =>
        have holds' := (inv.lock q).mpr (by simp [isStage, Stage.Inside])
        exact different (Option.some.inj (holds'.symm.trans holds))
    | unlocking => exact (isStage ▸ can : Stage.unlocking.CanFree)
    | unlocked => exact (isStage ▸ can : Stage.unlocked.CanFree)
    | returned => exact (isStage ▸ can : Stage.returned.CanFree)
  have two : ¬unreturned s ≤ 1 := fun one =>
    different (unreturned_one one notReturned (by simp [locked]))
  have never : s.truncations = 0 := by
    rcases inv.disk with ⟨zero, -⟩ | ⟨-, small, -⟩
    · exact zero
    · exact absurd (inv.ref ▸ small) two
  have moved : ∀ {stage : Stage}, ¬stage.CanFree → Lost (s.moveTo p stage) := by
    intro stage cannot
    refine ⟨never, fun q => ?_⟩
    by_cases same : q = p
    · rw [same, stage_self]
      exact cannot
    · rw [stage_other same]
      exact others q same
  cases iputStep taken with
  | count stage =>
      refine moved fun one => two ?_
      change s.ref = 1 at one
      rw [← inv.ref, one]
  | skip stage => exact moved id
  | acquire stage => simp [locked] at stage
  | free stage => simp [locked] at stage
  | keep r stage => simp [locked] at stage
  | release stage => simp [locked] at stage
  | drop stage => simp [locked] at stage

/-! ## Runs -/

theorem inv_of_iputReach {guard : Icache n → Fin n → Prop} (unlinked : Unlinked sb inum s₀)
    (reach : IputReach sb inum guard s₀ s) : IputInv sb inum s₀ s :=
  reach.invariant (IputInv sb inum s₀) unlinked.inv fun _ inv _ taken => inv.step unlinked.owns taken

theorem lost_of_iputReach {guard : Icache n → Fin n → Prop} (lost : Lost s)
    (reach : IputReach sb inum guard s t) : Lost t :=
  reach.invariant Lost lost fun _ lost _ taken => lost.step taken

theorem pending_of_iputReach (unlinked : Unlinked sb inum s₀) (reach : IputReach sb inum LastAlone s₀ s) :
    Pending s := by
  refine reach.invariant Pending (fun _ => ?_) fun reached pending alone taken => ?_
  · exact ⟨⟨0, unlinked.some⟩, by rw [unlinked.stage]; trivial⟩
  · exact pending.step (inv_of_iputReach unlinked reached) unlinked.nlink alone taken

/-- If the last call that reads `ref` does so after all others have decremented it, then the inode is
freed, once, when nobody else holds a reference. Otherwise it is never freed. -/
theorem iput_frees (unlinked : Unlinked sb inum s₀) :
    (∀ s, IputReach sb inum LastAlone s₀ s → IputCorrect sb inum s₀ s) ∧
      ∀ s p t u, IputReach sb inum (fun _ _ => True) s₀ s → ¬LastAlone s p → iput sb inum p s = some t →
        IputReach sb inum (fun _ _ => True) t u → u.truncations = 0 := by
  refine ⟨fun s reach => ?_, fun s p t u reach notAlone taken later => ?_⟩
  · have inv := inv_of_iputReach unlinked reach
    refine ⟨fun none => ?_, ?_, fun once p q => ?_, fun p notReturned stuck => ?_⟩
    · rcases inv.disk with ⟨never, -⟩ | ⟨-, -, freed⟩
      · rcases pending_of_iputReach unlinked reach never with ⟨p, can⟩
        have notReturned : s.stage p ≠ .returned := by
          intro returned
          rw [returned] at can
          exact can
        have some := unreturned_pos notReturned
        rw [← inv.ref] at some
        omega
      · exact freed
    · rcases inv.disk with ⟨never, -⟩ | ⟨-, -, freed⟩
      · omega
      · exact freed.once.le
    · rcases inv.disk with ⟨never, -⟩ | ⟨-, small, -⟩
      · omega
      · exact unreturned_one (inv.ref ▸ small)
    · exact inv.enabled unlinked.owns notReturned stuck
  · exact (lost_of_iputReach ((inv_of_iputReach unlinked reach).lost notAlone taken) later).never

/-- A disk as `mkfs` makes it. -/
def smallDisk : Superblock :=
  { size := 1000, nblocks := 941, ninodes := 200, nlog := 30, logstart := 2, inodestart := 32, bmapstart := 58 }

/-- A file of one block, the first that `mkfs` leaves to files. -/
def oneBlockFile : Dinode := ({ type := 2, size := 512 } : Dinode).setAddr 0 59

/-- The bitmap marks this block. -/
def oneBlockImage : ℕ → Block := Function.update (fun _ => zeroes) 58 (setBit zeroes 59)

/-- The calls of `n` processes for this file. -/
def unlinkedFile (n : ℕ) : Icache n := { ref := n, valid := true, ip := oneBlockFile, image := oneBlockImage }

theorem oneBlockImage_marked : inUse smallDisk oneBlockImage 59 = true := by decide

theorem oneBlockFile_slot {k : ℕ} (has : slot image oneBlockFile k ≠ 0) : k = 0 ∧ slot image oneBlockFile k = 59 := by
  have noIndirect : oneBlockFile.addr ndirect = 0 := by decide
  by_cases direct : k < ndirect
  · rw [slot_direct direct] at has ⊢
    unfold oneBlockFile at has ⊢
    rw [addr_setAddr (by decide) (direct.trans (by decide))] at has ⊢
    split at has
    · rename_i isFirst
      exact ⟨isFirst, if_pos isFirst⟩
    · exact absurd rfl has
  · refine absurd ?_ has
    unfold slot
    rw [if_neg direct, noIndirect]
    simp

theorem unlinkedFile_unlinked (n : ℕ) (some : 0 < n) : Unlinked smallDisk 1 (unlinkedFile n) := by
  refine ⟨some, rfl, rfl, rfl, rfl, fun _ => rfl, rfl, ⟨?_, fun c less => ?_, fun k _ has => ?_,
    fun k _ l _ same has => ?_⟩⟩
  · have fits : ({ type := 2, size := 512 } : Dinode).Fits :=
      ⟨by decide, by decide, by decide, by decide, by decide, fun _ => Nat.pow_pos (by decide)⟩
    exact fits_setAddr fits (by decide)
  · change c < 1000 at less
    change c / 4096 + 58 ≠ 1 / 8 + 32
    omega
  · rcases oneBlockFile_slot has with ⟨-, isSlot⟩
    change _ < 1000 ∧ _ = _ ∧ ∀ c < 1000, _ ≠ c / 4096 + 58
    change slot (unlinkedFile n).image (unlinkedFile n).ip k = 59 at isSlot
    rw [isSlot]
    refine ⟨by decide, oneBlockImage_marked, fun c less => ?_⟩
    omega
  · exact (oneBlockFile_slot has).1.trans (oneBlockFile_slot (same ▸ has)).1.symm

theorem iputReach_of_run {guard : Icache n → Fin n → Prop} [∀ s p, Decidable (guard s p)] (calls : List (Fin n))
    (run : calls.foldlM (fun s p => if guard s p then iput sb inum p s else none) s = some t) :
    IputReach sb inum guard s t := by
  induction calls generalizing s with
  | nil =>
      cases run
      exact .refl
  | cons p calls ih =>
      rw [List.foldlM_cons] at run
      rcases Option.bind_eq_some_iff.1 run with ⟨u, first, rest⟩
      split at first
      · rename_i allowed
        exact (Relation.ReflTransGen.single ⟨p, allowed, first⟩).trans (ih rest)
      · cases first

/-- Two calls, one after the other. -/
theorem iput_frees_twoCalls : ∃ s, IputReach smallDisk 1 LastAlone (unlinkedFile 2) s ∧ s.ref = 0 ∧
    FreedOnce smallDisk 1 (unlinkedFile 2) s := by
  have ends : (([0, 0, 0, 0, 0, 1, 1, 1, 1, 1] : List (Fin 2)).foldlM
      (fun s p => if LastAlone s p then iput smallDisk 1 p s else none) (unlinkedFile 2)).map Icache.ref =
        some 0 := by rfl
  rcases Option.map_eq_some_iff.mp ends with ⟨s, run, isEnd⟩
  have reach := iputReach_of_run _ run
  exact ⟨s, reach, isEnd, ((iput_frees (unlinkedFile_unlinked 2 (by decide))).1 s reach).last isEnd⟩

/-- Two calls read `ref` before either of them decrements it. -/
theorem iput_frees_incorrect :
    ¬∀ s, IputReach smallDisk 1 (fun _ _ => True) (unlinkedFile 2) s → IputCorrect smallDisk 1 (unlinkedFile 2) s := by
  intro claimed
  have ends : (([0, 0, 0, 0, 1, 1, 1, 1, 0, 1] : List (Fin 2)).foldlM
      (fun s p => if True then iput smallDisk 1 p s else none) (unlinkedFile 2)).map
        (fun s => (s.ref, s.truncations)) = some (0, 0) := by rfl
  rcases Option.map_eq_some_iff.mp ends with ⟨s, run, isEnd⟩
  rw [Prod.mk.injEq] at isEnd
  have freed := (claimed s (iputReach_of_run _ run)).last isEnd.1
  have once := freed.once
  omega

end Xv6.Fs
