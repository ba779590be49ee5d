import Xv6.Fs.Files

/-!
# The result of `filewrite`

`filewrite` of `file.c` for an inode, when no other process writes. The pieces are written one after the
other, and a later piece can be refused when earlier ones have been written.
-/

namespace Xv6.Fs

open Bytes

variable {devsw : Devsw} {sb : Superblock} {inum : ℕ} {ip : Dinode} {image : ℕ → Block} {content src : List Byte}
  {off i l : ℕ} {needs : Finset ℕ}

/-- The loop of `filewrite`, from `i` on; every pass but the last writes something. -/
def filewriteLoop (devsw : Devsw) (sb : Superblock) (inum : ℕ) (src : List Byte) :
    ℕ → ℕ → ℕ → Dinode → (ℕ → Block) → Option (ℕ × ℕ × Dinode × (ℕ → Block))
  | 0, i, off, ip, image => some (i, off, ip, image)
  | passes + 1, i, off, ip, image =>
      if i < src.length then
        let n1 := if writeMax < src.length - i then writeMax else src.length - i
        match writei devsw sb inum ip image ((src.drop i).take n1) off with
        | none => none
        | some (none, ip, image) => some (i, off, ip, image)
        | some (some r, ip, image) =>
            let off := if 0 < r then off + r else off
            if r ≠ n1 then none else filewriteLoop devsw sb inum src passes (i + r) off ip image
      else some (i, off, ip, image)

/-- `filewrite`: the result, the offset, the inode and the disk -/
def filewrite (devsw : Devsw) (sb : Superblock) (inum : ℕ) (writable : Bool) (src : List Byte) (off : ℕ) (ip : Dinode)
    (image : ℕ → Block) : Option (Option ℕ × ℕ × Dinode × (ℕ → Block)) :=
  if writable = false then some (none, off, ip, image)
  else do
    let (i, off, ip, image) ← filewriteLoop devsw sb inum src (src.length + 1) 0 off ip image
    return (if i = src.length then some src.length else none, off, ip, image)

/-- The result tells what has been written: everything, or nothing. -/
def TellsWritten (content src : List Byte) (off : ℕ) (outcome : Option (Option ℕ × ℕ × Dinode × (ℕ → Block))) :
    Prop :=
  ∃ result off' ip' image', outcome = some (result, off', ip', image') ∧
    (result = some src.length ∧ off' = off + src.length ∧ Regular ip' image' (patch content off src) ∨
      result = none ∧ off' = off ∧ Regular ip' image' content)

/-- Where the loop stops: at the end, or at the first piece that reaches beyond the largest file. -/
structure Stopped (sb : Superblock) (inum : ℕ) (content src : List Byte) (off i i' : ℕ) (ip' : Dinode)
    (image' : ℕ → Block) : Prop where
  file : FileHolds sb inum ip' image' (patch content off ((src.drop i).take (i' - i)))
  size : ip'.size = (patch content off ((src.drop i).take (i' - i))).length
  after : i ≤ i'
  atEnd : i' = src.length ↔ off + (src.length - i) ≤ maxfile * bsize
  first : i' = i ↔ i = src.length ∨ maxfile * bsize < off + min (src.length - i) writeMax

/-- The loop stops where it is. -/
theorem Stopped.here (file : FileHolds sb inum ip image content) (isSize : ip.size = content.length)
    (start : off ≤ content.length) (bound : i ≤ src.length)
    (ends : i = src.length ∨ maxfile * bsize < off + min (src.length - i) writeMax) :
    Stopped sb inum content src off i i ip image := by
  have old := file.inodeHolds.bound
  have stays : patch content off ((src.drop i).take (i - i)) = content := by
    rw [Nat.sub_self, List.take_zero, patch_nil]
  refine ⟨?_, ?_, le_rfl, ?_, iff_of_true rfl ends⟩
  · rw [stays]
    exact file
  · rw [stays]
    exact isSize
  · omega

/-- The loop stops after a piece has been written. -/
theorem Stopped.later {n i' : ℕ} (start : off ≤ content.length) (bound : i + n ≤ src.length) (positive : 0 < n)
    (accepted : off + min (src.length - i) writeMax ≤ maxfile * bsize)
    (stopped : Stopped sb inum (patch content off ((src.drop i).take n)) src (off + n) (i + n) i' ip image) :
    Stopped sb inum content src off i i' ip image := by
  have after := stopped.after
  have isLength : ((src.drop i).take n).length = n := by
    rw [List.length_take, List.length_drop]
    omega
  have isPiece : patch (patch content off ((src.drop i).take n)) (off + n)
      ((src.drop (i + n)).take (i' - (i + n))) = patch content off ((src.drop i).take (i' - i)) := by
    have isSum : i' - i = n + (i' - (i + n)) := by omega
    have isAll := patch_patch start ((src.drop i).take n) ((src.drop (i + n)).take (i' - (i + n)))
    rw [isLength] at isAll
    rw [isAll, isSum, List.take_add, List.drop_drop]
  have isFile := stopped.file
  have isSize := stopped.size
  rw [isPiece] at isFile isSize
  refine ⟨isFile, isSize, by omega, ?_, ?_⟩
  · rw [stopped.atEnd]
    omega
  · refine iff_of_false (by omega) ?_
    rw [not_or, Nat.not_lt]
    exact ⟨by omega, accepted⟩

/-- The loop writes the pieces that fit. -/
theorem FileHolds.filewriteLoop (devsw : Devsw) (passes : ℕ) : ∀ {i off : ℕ} {ip : Dinode} {image : ℕ → Block}
    {content : List Byte}, FileHolds sb inum ip image content → ip.size = content.length → off ≤ content.length →
    i ≤ src.length → src.length - i < passes → src.length < 2 ^ 31 →
    missing image ip (places off (min (src.length - i) (maxfile * bsize - off))) ≤ free sb image →
    ∃ i' ip' image', Fs.filewriteLoop devsw sb inum src passes i off ip image =
      some (i', off + (i' - i), ip', image') ∧ Stopped sb inum content src off i i' ip' image' := by
  induction passes with
  | zero =>
      intro i off ip image content _ _ _ _ short
      exact absurd short (Nat.not_lt_zero _)
  | succ passes ih =>
      intro i off ip image content file isSize start bound short small enough
      have old := file.inodeHolds.bound
      rw [Fs.filewriteLoop]
      by_cases more : i < src.length
      · rw [if_pos more]
        generalize isN1 : (if writeMax < src.length - i then writeMax else src.length - i) = n1
        have isMin : n1 = min (src.length - i) writeMax := by
          rw [← isN1]
          split <;> omega
        have positive : 0 < n1 := by
          unfold writeMax at isMin
          omega
        have isLength : ((src.drop i).take n1).length = n1 := by
          rw [List.length_take, List.length_drop]
          omega
        dsimp only
        by_cases refused : maxfile * bsize < off + n1
        · -- the piece reaches beyond the largest file
          have isWrite : Fs.writei devsw sb inum ip image ((src.drop i).take n1) off = some (none, ip, image) := by
            refine writei_refused devsw sb inum file.notDevice (isSize.trans_le old) ?_ (.inr (.inr ?_))
            · rw [isLength]
              omega
            · rw [isLength]
              exact refused
          rw [isWrite]
          refine ⟨i, ip, image, ?_, .here file isSize start bound (.inr (isMin ▸ refused))⟩
          rw [Nat.sub_self, Nat.add_zero]
        · have accepted : ¬Refused ip off ((src.drop i).take n1).length := by
            unfold Refused
            rw [isLength, isSize]
            unfold maxfile ndirect nindirect bsize at *
            omega
          have split : min (src.length - i) (maxfile * bsize - off) =
              n1 + min (src.length - (i + n1)) (maxfile * bsize - (off + n1)) := by omega
          rw [split, places_add] at enough
          have fits : missing image ip (places off ((src.drop i).take n1).length) ≤ free sb image := by
            rw [isLength]
            exact le_trans (Finset.card_le_card (Finset.filter_subset_filter _ Finset.subset_union_left)) enough
          rcases file.exists_writei devsw isSize accepted fits with ⟨ip₁, image₁, isWrite, wrote⟩
          have isFree := wrote.free
          have isMissing := wrote.missing (places (off + n1) (min (src.length - (i + n1)) (maxfile * bsize - (off + n1))))
            fun l member => places_le (by omega) member
          have isPatch := length_patch ((src.drop i).take n1) start
          rw [isLength] at isFree isMissing isPatch
          have start' : off + n1 ≤ (patch content off ((src.drop i).take n1)).length := by omega
          have bound' : i + n1 ≤ src.length := by omega
          rcases ih wrote.file wrote.size start' bound' (by omega) small (by omega) with
            ⟨i', ip', image', isLoop, stopped⟩
          have after := stopped.after
          rw [isWrite, isLength]
          dsimp only
          rw [if_pos positive, if_neg (not_not.2 rfl), isLoop]
          refine ⟨i', ip', image', ?_, .later start bound' positive ?_ stopped⟩
          · have isOff : off + n1 + (i' - (i + n1)) = off + (i' - i) := by omega
            rw [isOff]
          · rw [← isMin]
            exact Nat.not_lt.1 refused
      · have isEnd : i = src.length := by omega
        rw [if_neg more]
        refine ⟨i, ip, image, ?_, .here file isSize start bound (.inl isEnd)⟩
        rw [Nat.sub_self, Nat.add_zero]

/-- What `filewrite` yields when the offset is in the file. -/
theorem FileHolds.filewrite (file : FileHolds sb inum ip image content) (devsw : Devsw)
    (isSize : ip.size = content.length) (start : off ≤ content.length) (small : src.length < 2 ^ 31)
    (enough : missing image ip (places off (min src.length (maxfile * bsize - off))) ≤ free sb image) :
    ∃ i' ip' image', Fs.filewrite devsw sb inum true src off ip image =
      some (if i' = src.length then some src.length else none, off + i', ip', image') ∧
      Stopped sb inum content src off 0 i' ip' image' := by
  rcases FileHolds.filewriteLoop devsw (src.length + 1) file isSize start (Nat.zero_le _) (by omega) small enough with
    ⟨i', ip', image', isLoop, stopped⟩
  refine ⟨i', ip', image', ?_, stopped⟩
  unfold Fs.filewrite
  rw [if_neg (by decide), isLoop]
  rfl

/-- A later piece is refused when earlier ones have been written. -/
theorem FileHolds.filewrite_crossing (file : FileHolds sb inum ip image content) (devsw : Devsw)
    (isSize : ip.size = content.length) (start : off ≤ content.length) (small : src.length < 2 ^ 31)
    (enough : missing image ip (places off (min src.length (maxfile * bsize - off))) ≤ free sb image)
    (tooLong : maxfile * bsize < off + src.length) (fits : off + min src.length writeMax ≤ maxfile * bsize) :
    ¬TellsWritten content src off (Fs.filewrite devsw sb inum true src off ip image) := by
  rintro ⟨result, off', ip', image', isOutcome, tells⟩
  rcases file.filewrite devsw isSize start small enough with ⟨i', ip₁, image₁, isWrite, stopped⟩
  rw [isWrite, Option.some.injEq, Prod.mk.injEq, Prod.mk.injEq] at isOutcome
  rcases isOutcome with ⟨isResult, isOff, _⟩
  have notAll : i' ≠ src.length := by
    intro all
    have atEnd := stopped.atEnd.1 all
    omega
  have notNone : i' ≠ 0 := by
    intro none
    have first := stopped.first.1 none
    rw [Nat.sub_zero] at first
    omega
  rw [if_neg notAll] at isResult
  rcases tells with ⟨isSome, _⟩ | ⟨_, same, _⟩
  · rw [← isResult] at isSome
    exact Option.some_ne_none _ isSome.symm
  · omega

theorem FileHolds.regular (file : FileHolds sb inum ip image content) (isSize : ip.size = content.length) :
    Regular ip image content :=
  ⟨file.notDevice, isSize, file.inodeHolds⟩

/-- The result of `filewrite` tells what has been written, unless a later piece is refused. -/
theorem filewrite_iff (devsw : Devsw) (sb : Superblock) (inum : ℕ) (ip : Dinode) (image : ℕ → Block)
    (content src : List Byte) (off : ℕ) (file : FileHolds sb inum ip image content) (isSize : ip.size = content.length)
    (small : src.length < 2 ^ 31)
    (enough : missing image ip (places off (min src.length (maxfile * bsize - off))) ≤ free sb image) :
    TellsWritten content src off (filewrite devsw sb inum true src off ip image) ↔
      ip.size < off ∨ off + src.length ≤ maxfile * bsize ∨ maxfile * bsize < off + min src.length writeMax := by
  have old := file.inodeHolds.bound
  constructor
  · intro tells
    by_contra crossing
    rw [not_or, not_or, Nat.not_lt, Nat.not_le, Nat.not_lt, isSize] at crossing
    exact file.filewrite_crossing devsw isSize crossing.1 small enough crossing.2.1 crossing.2.2 tells
  · intro condition
    by_cases start : off ≤ content.length
    · rcases file.filewrite devsw isSize start small enough with ⟨i', ip', image', isWrite, stopped⟩
      have isFile := stopped.file.regular stopped.size
      rw [List.drop_zero, Nat.sub_zero] at isFile
      refine ⟨_, _, ip', image', isWrite, ?_⟩
      by_cases all : off + src.length ≤ maxfile * bsize
      · have atEnd := stopped.atEnd.2 all
        rw [atEnd, List.take_length] at isFile
        exact .inl ⟨if_pos atEnd, by omega, isFile⟩
      · have beyond : maxfile * bsize < off + min src.length writeMax := by omega
        have none := stopped.first.2 (.inr beyond)
        rw [none, List.take_zero, patch_nil] at isFile
        refine .inr ⟨if_neg ?_, by omega, isFile⟩
        unfold writeMax at beyond
        omega
    · -- the offset is beyond the file
      rw [Nat.not_le, ← isSize] at start
      refine ⟨if 0 < src.length then none else some 0, off, ip, image, ?_, ?_⟩
      · unfold filewrite filewriteLoop
        rw [if_neg (by decide)]
        split
        · rename_i positive
          have isWrite : ∀ piece : List Byte, writei devsw sb inum ip image piece off = some (none, ip, image) := by
            intro piece
            unfold writei
            rw [if_neg file.notDevice, if_pos (.inl start)]
          dsimp only
          rw [isWrite]
          dsimp only [Option.bind_eq_bind, Option.bind_some]
          rw [if_neg positive.ne]
          rfl
        · rename_i empty
          dsimp only [Option.bind_eq_bind, Option.bind_some]
          rw [if_pos (by omega)]
          have zero : src.length = 0 := by omega
          rw [zero]
          rfl
      · split
        · exact .inr ⟨rfl, rfl, file.regular isSize⟩
        · rename_i empty
          have zero : src = [] := List.eq_nil_of_length_eq_zero (by omega)
          subst zero
          rw [patch_nil]
          exact .inl ⟨rfl, rfl, file.regular isSize⟩

/-! ## A disk with 4096 blocks -/

theorem missing_le (within : ∀ l ∈ needs, l ≤ maxfile) : missing image ip needs ≤ maxfile + 1 := by
  refine (Finset.card_le_card (t := Finset.range (maxfile + 1)) fun l member => ?_).trans (Finset.card_range _).le
  rw [Finset.mem_filter] at member
  exact Finset.mem_range.2 (Nat.lt_succ_of_le (within l member.1))

/-- There are enough free blocks for the largest file. -/
theorem sizedDisk_enough (src : List Byte) : missing fourUsed emptyFile
    (places 0 (min src.length (maxfile * bsize - 0))) ≤ free (sizedDisk bpb) fourUsed := by
  have some : maxfile + 1 ≤ free (sizedDisk bpb) fourUsed := by
    have isRange : (Finset.range (maxfile + 1)).image (· + 4) ⊆
        (Finset.range (sizedDisk bpb).size).filter fun b => inUse (sizedDisk bpb) fourUsed b = false := by
      intro b member
      rcases Finset.mem_image.1 member with ⟨k, less, rfl⟩
      have inside : k + 4 < bpb := by
        rw [Finset.mem_range] at less
        exact (Nat.add_lt_add_right less 4).trans_le (by decide)
      rw [Finset.mem_filter, Finset.mem_range, inUse_fourUsed le_rfl inside]
      exact ⟨inside, decide_eq_false (by omega)⟩
    have isCard := Finset.card_le_card isRange
    rw [Finset.card_image_of_injective _ (add_left_injective 4), Finset.card_range] at isCard
    exact isCard
  exact (missing_le fun l member => places_le (by omega) member).trans some

/-- Two bytes are written to an empty file. -/
theorem filewrite_iff_emptyFile : TellsWritten [] [1, 2] 0
    (filewrite ⟨fun _ _ => none, fun _ _ => none⟩ (sizedDisk bpb) 1 true [1, 2] 0 emptyFile fourUsed) :=
  (filewrite_iff _ _ _ _ _ _ [1, 2] 0 (sizedDisk_emptyFile le_rfl) rfl (by decide) (sizedDisk_enough _)).2
    (.inr (.inl (by decide)))

/-- All but the last piece of a write of `MAXFILE*BSIZE + 1` bytes are written, and the result is -1. -/
theorem filewrite_incorrect : FileHolds (sizedDisk bpb) 1 emptyFile fourUsed [] ∧
    missing fourUsed emptyFile (places 0 (min (List.replicate (maxfile * bsize + 1) (0 : Byte)).length
      (maxfile * bsize - 0))) ≤ free (sizedDisk bpb) fourUsed ∧
    ¬TellsWritten [] (List.replicate (maxfile * bsize + 1) 0) 0
      (filewrite ⟨fun _ _ => none, fun _ _ => none⟩ (sizedDisk bpb) 1 true (List.replicate (maxfile * bsize + 1) 0) 0
        emptyFile fourUsed) := by
  have isLength : (List.replicate (maxfile * bsize + 1) (0 : Byte)).length = maxfile * bsize + 1 :=
    List.length_replicate
  have file : FileHolds (sizedDisk bpb) 1 emptyFile fourUsed [] := sizedDisk_emptyFile le_rfl
  refine ⟨file, sizedDisk_enough _, file.filewrite_crossing _ rfl (Nat.zero_le _) ?_ (sizedDisk_enough _) ?_ ?_⟩
  · rw [isLength]
    decide
  · rw [isLength]
    omega
  · rw [isLength]
    decide

end Xv6.Fs
