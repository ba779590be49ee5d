import Xv6.Fs.Link

/-!
# Freed inodes

What the last `iput` of an inode without links does to the disk: the blocks of the inode are free, and
every other inode is as it was.
-/

namespace Xv6.Fs

open Bytes

variable {sb : Superblock} {inodes : Set ℕ} {dinode : ℕ → Dinode} {ip ip' : Dinode} {image image' : ℕ → Block}
  {inum n k : ℕ}

theorem Files.owns (files : Files sb inodes dinode image) (member : inum ∈ inodes) (fits : (dinode inum).Fits) :
    OwnsBlocks sb inum (dinode inum) image := by
  refine ⟨fits, files.apart inum member, fun k bound has => ?_, fun k bound l bound' same has => ?_⟩
  · rcases files.blocks inum member k bound has with ⟨less, marked, notMeta⟩
    exact ⟨less, marked, fun c inside isBitmap => notMeta (.inr (.inr ⟨c, inside, isBitmap⟩))⟩
  · rcases files.mapping with ⟨used, mapping⟩
    exact (mapping.single inum member inum member k bound l bound' same has).2

/-- `itrunc` writes the bitmap, and then the inode. -/
theorem OwnsBlocks.itrunc_image (owns : OwnsBlocks sb inum ip image) (ran : Fs.itrunc sb inum ip image = some (ip', image')) :
    ∃ freed, image' = iupdate sb inum ip' freed ∧ ∀ y, (∀ c < sb.size, y ≠ bblock c sb) → freed y = image y := by
  have held : Held sb image ip.addr 0 ndirect :=
    owns.held id (fun l less => (slot_direct less).symm)
      (fun l less => by unfold maxfile; dsimp only [id]; omega) fun _ _ same => same
  rcases held.direct (by decide) with ⟨ip₁, image₁, run₁, freed₁, -, addrs₁⟩
  have same : ip₁.addr ndirect = ip.addr ndirect := by
    rw [addrs₁ ndirect (by decide), if_neg (by decide)]
  rcases owns.indirect freed₁ same with ⟨ip₂, image₂, _, run₂, freed₂, -, -⟩
  unfold Fs.itrunc at ran
  rw [run₁, Option.bind_eq_bind, Option.bind_some] at ran
  dsimp only at ran
  rw [run₂] at ran
  cases ran
  exact ⟨image₂, rfl, freed₂.other⟩

/-- An inode has been freed. -/
structure Released (sb : Superblock) (inodes : Set ℕ) (inum : ℕ) (image image' : ℕ → Block) : Prop where
  inode : readInode sb image' inum = { readInode sb image inum with type := 0, size := 0, addrs := fun _ => 0 }
  others : ∀ n ∈ inodes, n ≠ inum → Untouched sb n (readInode sb image n) image image'
  bits : ∀ c < sb.size, inUse sb image' c = true ↔ inUse sb image c = true ∧
    ∀ k ≤ maxfile, slot image (readInode sb image inum) k ≠ 0 → slot image (readInode sb image inum) k ≠ c
  files : Files sb inodes (readInode sb image') image'

/-- The inodes that are left have different blocks, which are marked. -/
theorem Files.released (files : Files sb inodes (readInode sb image) image) (member : inum ∈ inodes)
    (inode : readInode sb image' inum =
      { readInode sb image inum with type := 0, size := 0, addrs := fun _ => 0 })
    (others : ∀ n ∈ inodes, n ≠ inum → Untouched sb n (readInode sb image n) image image')
    (bits : ∀ c < sb.size, inUse sb image' c = true ↔ inUse sb image c = true ∧
      ∀ k ≤ maxfile, slot image (readInode sb image inum) k ≠ 0 → slot image (readInode sb image inum) k ≠ c) :
    Files sb inodes (readInode sb image') image' := by
  rcases files.mapping with ⟨used, mapping⟩
  have empty : ∀ k, slot image' (readInode sb image' inum) k = 0 := by
    intro k
    rw [inode]
    exact slot_none rfl
  have slots : ∀ n ∈ inodes, n ≠ inum → ∀ k ≤ maxfile,
      slot image' (readInode sb image' n) k = slot image (readInode sb image n) k := by
    intro n other different k bound
    rw [(others n other different).inode]
    exact (others n other different).slots k bound
  have notEmpty : ∀ n k, slot image' (readInode sb image' n) k ≠ 0 → n ≠ inum := by
    rintro n k has rfl
    exact has (empty k)
  refine ⟨files.small, files.apart, fun b less isMeta => ?_, fun n other k bound has => ?_,
    {x | x ≠ 0 ∧ ∃ i ∈ inodes, ∃ k ≤ maxfile, slot image' (readInode sb image' i) k = x}, fun x => Iff.rfl,
    fun n other m other' k bound l bound' same has => ?_⟩
  · refine (bits b less).2 ⟨files.metadata b less isMeta, ?_⟩
    rintro k bound has rfl
    exact (files.blocks inum member k bound has).2.2 isMeta
  · have different := notEmpty n k has
    rw [slots n other different k bound] at has ⊢
    rcases files.blocks n other k bound has with ⟨less, marked, notMeta⟩
    refine ⟨less, (bits _ less).2 ⟨marked, fun l bound' has' same => ?_⟩, notMeta⟩
    exact different (mapping.single inum member n other l bound' k bound same has').1.symm
  · have first := notEmpty n k has
    have second := notEmpty m l (same ▸ has)
    rw [slots n other first k bound] at same has
    rw [slots m other' second l bound'] at same
    exact mapping.single n other m other' k bound l bound' same has

/-- `itrunc` and the second `iupdate` of `iput`. -/
theorem Files.free_inode (files : Files sb inodes (readInode sb image) image) (member : inum ∈ inodes) :
    ∃ ip' image', itrunc sb inum (readInode sb image inum) image = some (ip', image') ∧
      Released sb inodes inum image (Fs.iupdate sb inum { ip' with type := 0 } image') := by
  have owns := files.owns member (fits_readInode sb image inum)
  rcases owns.itrunc with ⟨ip', image', ran, truncated, -⟩
  rcases owns.itrunc_image ran with ⟨freed, rfl, same⟩
  have fields := truncated.fields
  have fits : ({ ip' with type := 0 } : Dinode).Fits := by
    rw [fields]
    exact ⟨Nat.pow_pos (by decide), owns.fits.major, owns.fits.minor, owns.fits.nlink, Nat.pow_pos (by decide),
      fun _ => Nat.pow_pos (by decide)⟩
  have inode : readInode sb (Fs.iupdate sb inum { ip' with type := 0 } (Fs.iupdate sb inum ip' freed)) inum =
      { readInode sb image inum with type := 0, size := 0, addrs := fun _ => 0 } := by
    rw [readInode_iupdate fits, fields]
  have kept : ∀ y, (∀ c < sb.size, y ≠ bblock c sb) → y ≠ iblock inum sb →
      Fs.iupdate sb inum { ip' with type := 0 } (Fs.iupdate sb inum ip' freed) y = image y := by
    intro y notBitmap notInode
    unfold Fs.iupdate
    rw [Function.update_of_ne notInode, Function.update_of_ne notInode]
    exact same y notBitmap
  have others : ∀ n ∈ inodes, n ≠ inum → Untouched sb n (readInode sb image n) image
      (Fs.iupdate sb inum { ip' with type := 0 } (Fs.iupdate sb inum ip' freed)) := by
    intro n other different
    have blocks : ∀ k ≤ maxfile, slot image (readInode sb image n) k ≠ 0 →
        Fs.iupdate sb inum { ip' with type := 0 } (Fs.iupdate sb inum ip' freed) (slot image (readInode sb image n) k) =
          image (slot image (readInode sb image n) k) := by
      intro k bound has
      have notMeta := (files.blocks n other k bound has).2.2
      refine kept _ (fun c inside isBitmap => notMeta (.inr (.inr ⟨c, inside, isBitmap⟩))) fun isInode => ?_
      exact notMeta (.inr (.inl ⟨inum, member, isInode⟩))
    refine ⟨?_, fun k _ => slot_congr fun has => ?_, blocks⟩
    · rw [readInode_iupdate_other different, readInode_iupdate_other different]
      unfold readInode
      rw [same (iblock n sb) fun c inside isBitmap => files.apart n other c inside isBitmap.symm]
    · rw [← slot_indirect image] at has ⊢
      exact blocks maxfile le_rfl has
  have bits : ∀ c < sb.size, inUse sb (Fs.iupdate sb inum { ip' with type := 0 } (Fs.iupdate sb inum ip' freed)) c = true ↔
      inUse sb image c = true ∧
      ∀ k ≤ maxfile, slot image (readInode sb image inum) k ≠ 0 → slot image (readInode sb image inum) k ≠ c := by
    intro c inside
    rw [inUse_iupdate (files.apart inum member c inside)]
    exact truncated.free c inside
  exact ⟨ip', _, ran, inode, others, bits, files.released member inode others bits⟩

/-! ## `iput` -/

variable {s s' s₀ : Itable} {e : Fin ninode → ℕ} {held : Set (Fin ninode)} {i j : Fin ninode}

/-- `iput` of the last reference to an inode without links. -/
theorem Itable.Holding.iput_last (holding : Itable.Holding sb s₀ s (e + Pi.single i 1) held) (notHeld : i ∉ held)
    (isValid : (s.inode i).valid = true) (unlinked : (readInode sb s.image (s.inode i).inum).nlink = 0)
    (last : (s₀.inode i).ref + e i = 0) (files : Files sb inodes (readInode sb s.image) s.image)
    (cached : ∀ k, 0 < (s.inode k).ref → (s.inode k).inum ∈ inodes) : ∃ s', s.iput sb i = .ok s' ∧
      Itable.Holding sb { s₀ with image := s'.image } s' e held ∧
      Released sb inodes (s.inode i).inum s.image s'.image := by
  have used := holding.used_last
  have isRef := holding.ref i
  rw [Pi.add_apply, Pi.single_eq_same] at isRef
  have one : (s.inode i).ref = 1 := by omega
  have isIp := holding.coherent i used isValid
  rcases files.free_inode (cached i used) with ⟨ip', image', ran, released⟩
  have isDrop : s.drop sb i = .ok { s.set i { s.inode i with ip := { ip' with type := 0 }, valid := false } with
      image := iupdate sb (s.inode i).inum { ip' with type := 0 } image' } := by
    unfold Itable.drop
    dsimp only
    rw [if_pos ⟨isValid, by rw [isIp]; exact unlinked, one⟩, isIp, ran]
  have isPut : s.iput sb i = .ok { s.set i { s.inode i with ip := { ip' with type := 0 }, valid := false, ref := 0 } with
      image := iupdate sb (s.inode i).inum { ip' with type := 0 } image' } := by
    unfold Itable.iput
    rw [holding.notLocked notHeld, if_neg Bool.false_ne_true, isDrop]
    change Except.ok (Itable.set { s.set i _ with image := _ } i _) = _
    unfold Itable.set
    dsimp only
    rw [Function.update_self, Function.update_idem, one]
  have others : ∀ k ≠ i, (s.set i { s.inode i with ip := { ip' with type := 0 }, valid := false, ref := 0 }).inode k =
      s.inode k := fun k different => Itable.set_other different
  have self := Itable.set_self s i { s.inode i with ip := { ip' with type := 0 }, valid := false, ref := 0 }
  generalize Itable.set s i { s.inode i with ip := { ip' with type := 0 }, valid := false, ref := 0 } = s₁ at *
  refine ⟨_, isPut, ⟨?_, fun k usedK valid => ?_, fun k => ?_, fun k usedK => ?_, fun k => ?_, rfl⟩, released⟩
  · refine holding.ok.congr (fun k usedK => ?_) fun k unused => ?_
    · change 0 < (s₁.inode k).ref at usedK
      change 0 < (s.inode k).ref ∧ (s₁.inode k).inum = (s.inode k).inum
      by_cases isI : k = i
      · rw [isI, self] at usedK
        cases usedK
      · rw [others k isI] at usedK ⊢
        exact ⟨usedK, rfl⟩
    · change (s₁.inode k).ref = 0 at unused
      change (s₁.inode k).locked = false
      by_cases isI : k = i
      · rw [isI, self]
        exact holding.notLocked notHeld
      · rw [others k isI] at unused ⊢
        exact holding.ok.idle k unused
  · change 0 < (s₁.inode k).ref at usedK
    change (s₁.inode k).valid = true at valid
    change (s₁.inode k).ip = readInode sb _ (s₁.inode k).inum
    by_cases isI : k = i
    · rw [isI, self] at usedK
      cases usedK
    · rw [others k isI] at usedK valid ⊢
      have different : (s.inode k).inum ≠ (s.inode i).inum := fun same =>
        isI (holding.ok.unique k i usedK used same)
      rw [(released.others _ (cached k usedK) different).inode]
      exact holding.coherent k usedK valid
  · change (s₁.inode k).ref = (s₀.inode k).ref + e k
    by_cases isI : k = i
    · rw [isI, self]
      exact last.symm
    · rw [others k isI, holding.ref, Pi.add_apply, Pi.single_eq_of_ne isI, Nat.add_zero]
  · change (s₁.inode k).inum = (s₀.inode k).inum
    by_cases isI : k = i
    · subst isI
      rw [self]
      exact holding.inum k usedK
    · rw [others k isI]
      exact holding.inum k usedK
  · change (s₁.inode k).locked = true ↔ k ∈ held
    by_cases isI : k = i
    · rw [isI, self]
      exact holding.locked i
    · rw [others k isI]
      exact holding.locked k

/-- `iunlockput` touches no other entry of the cache. -/
theorem Itable.iunlockput_other {k : Fin ninode} (ran : s.iunlockput sb j = .ok s') (different : k ≠ j) :
    s'.inode k = s.inode k := by
  unfold Itable.iunlockput Itable.iunlock at ran
  split at ran
  · cases ran
  · change Itable.iput sb (s.set j _) j = _ at ran
    have first : (s.set j { s.inode j with locked := false }).inode k = s.inode k := Itable.set_other different
    generalize s.set j { s.inode j with locked := false } = s₁ at ran first
    unfold Itable.iput Itable.drop at ran
    dsimp only at ran
    split at ran
    · cases ran
    · split at ran
      · split at ran
        · cases ran
        · cases ran
          refine (Itable.set_other different).trans ?_
          exact (Itable.set_other different).trans first
      · cases ran
        exact (Itable.set_other different).trans first

/-- `iunlockput` of the last reference to an inode without links. -/
theorem Itable.Holding.iunlockput_last (holding : Itable.Holding sb s₀ s (e + Pi.single i 1) held) (isHeld : i ∈ held)
    (isValid : (s.inode i).valid = true) (unlinked : (readInode sb s.image (s.inode i).inum).nlink = 0)
    (last : (s₀.inode i).ref + e i = 0) (files : Files sb inodes (readInode sb s.image) s.image)
    (cached : ∀ k, 0 < (s.inode k).ref → (s.inode k).inum ∈ inodes) : ∃ s', s.iunlockput sb i = .ok s' ∧
      Itable.Holding sb { s₀ with image := s'.image } s' e (held \ {i}) ∧
      Released sb inodes (s.inode i).inum s.image s'.image := by
  rcases holding.iunlock holding.used_last isHeld with ⟨isUnlock, holding₁⟩
  have inums := Itable.set_field s i { s.inode i with locked := false } CachedInode.inum rfl
  have refs := Itable.set_field s i { s.inode i with locked := false } CachedInode.ref rfl
  have valids := Itable.set_field s i { s.inode i with locked := false } CachedInode.valid rfl
  have image : (s.set i { s.inode i with locked := false }).image = s.image := rfl
  generalize s.set i { s.inode i with locked := false } = s₁ at *
  rw [← image] at files unlinked ⊢
  rw [← inums i] at unlinked ⊢
  rcases holding₁.iput_last (fun member => member.2 rfl) ((valids i).trans isValid) unlinked last files
    (fun k used => by
      rw [inums]
      exact cached k (refs k ▸ used)) with ⟨s', isPut, holding', released⟩
  refine ⟨s', ?_, holding', released⟩
  unfold Itable.iunlockput
  rw [isUnlock]
  exact isPut

/-! ## Changes of one inode -/

/-- Nothing that belongs to another inode has changed. -/
structure Changed (sb : Superblock) (inodes : Set ℕ) (m : ℕ) (image image' : ℕ → Block) : Prop where
  others : ∀ n ∈ inodes, n ≠ m → Untouched sb n (readInode sb image n) image image'
  files : Files sb inodes (readInode sb image') image'

theorem Untouched.trans {image'' : ℕ → Block} (first : Untouched sb n (readInode sb image n) image image')
    (second : Untouched sb n (readInode sb image' n) image' image'') :
    Untouched sb n (readInode sb image n) image image'' := by
  have inode := first.inode
  rw [inode] at second
  have both := first.sameBlocks.trans second.sameBlocks
  exact ⟨second.inode.trans inode, both.slots, both.blocks⟩

theorem Released.changed (released : Released sb inodes inum image image') : Changed sb inodes inum image image' :=
  ⟨released.others, released.files⟩

/-- Another link count. -/
theorem Files.relinked (files : Files sb inodes (readInode sb image) image) (member : inum ∈ inodes) {l : ℕ}
    (small : l < 256 ^ 2)
    (isImage : image' = Fs.iupdate sb inum (withLinks (readInode sb image inum) l) image) :
    Changed sb inodes inum image image' ∧ readInode sb image' inum = withLinks (readInode sb image inum) l ∧
      ∀ n ∈ inodes, SameBlocks (readInode sb image n) image image' := by
  subst isImage
  have fits := fits_withLinks (fits_readInode sb image inum) small
  have blocks := fun n (other : n ∈ inodes) =>
    files.iupdate_blocks member other (withLinks (readInode sb image inum) l)
  have isAddrs : (withLinks (readInode sb image inum) l).addrs = (readInode sb image inum).addrs := rfl
  have files' := files.iupdate member isAddrs
  rw [← readInode_iupdate_eq fits] at files'
  refine ⟨⟨fun n other different => ?_, files'⟩, readInode_iupdate fits, blocks⟩
  exact ⟨readInode_iupdate_other different, (blocks n other).slots, (blocks n other).blocks⟩

theorem Directory.untouched {d : Dinode} {content : List Byte} (directory : Directory d image content)
    (isInode : readInode sb image n = d) (untouched : Untouched sb n d image image') :
    Directory (readInode sb image' n) image' content := by
  have same : readInode sb image' n = d := untouched.inode.trans isInode
  rw [same]
  exact directory.congr untouched.sameBlocks rfl rfl rfl

theorem Regular.congr {d : Dinode} {content : List Byte} (regular : Regular d image content)
    (same : SameBlocks d image image') (isAddrs : ip.addrs = d.addrs) (isType : ip.type = d.type)
    (isSize : ip.size = d.size) : Regular ip image' content := by
  have holds := regular.holds
  have place : ∀ m < content.length, m / bsize ≤ maxfile :=
    fun m less => (div_lt_maxfile (less.trans_le holds.bound)).le
  refine ⟨isType ▸ regular.notDevice, isSize.trans regular.size, ⟨fun m less => ?_, fun m less => ?_, holds.bound⟩⟩
  · rw [slot_addrs isAddrs, same.slots _ (place m less)]
    exact holds.mapped m less
  · rw [slot_addrs isAddrs, same.slots _ (place m less), same.blocks _ (place m less) (holds.mapped m less)]
    exact holds.bytes m less

end Xv6.Fs
