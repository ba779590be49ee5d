import Xv6.Fs.Growth
import Xv6.Fs.SharedOffset
import Xv6.Log.Basic

/-!
# The size of a transaction of `filewrite`

The functions below `writei`, with the blocks that they pass to `log_write`. A panic ends a function, but
the blocks that it has passed before are recorded.
-/

namespace Xv6.Fs

open Bytes

/-- What a function yields, and the blocks that it has passed to `log_write`. -/
structure Logged (α : Type) where
  result : Option α
  blocks : List ℕ

namespace Logged

instance : Monad Logged where
  pure a := ⟨some a, []⟩
  bind first next := match first.result with
    | none => ⟨none, first.blocks⟩
    | some a => ⟨(next a).result, first.blocks ++ (next a).blocks⟩

/-- A function that logs nothing. -/
def silent {α : Type} (result : Option α) : Logged α := ⟨result, []⟩

/-- `log_write` -/
def logWrite (b : ℕ) : Logged Unit := ⟨some (), [b]⟩

/-- `balloc`; `bzero` logs the block. -/
def balloc (sb : Superblock) (image : ℕ → Block) : Logged (ℕ × (ℕ → Block)) := do
  let b ← silent ((List.range sb.size).find? fun b => !inUse sb image b)
  let marked := Function.update image (bblock b sb) (setBit (image (bblock b sb)) (b % bpb))
  logWrite (bblock b sb)
  logWrite b
  return (b, Function.update marked b zeroes)

/-- The indirect block in `bmap`. -/
def loadIndirect (sb : Superblock) (ip : Dinode) (image : ℕ → Block) : Logged (Dinode × (ℕ → Block)) :=
  if ip.addr ndirect = 0 then do
    let (addr, image) ← balloc sb image
    return (ip.setAddr ndirect addr, image)
  else return (ip, image)

/-- `bmap` -/
def bmap (sb : Superblock) (ip : Dinode) (image : ℕ → Block) (bn : ℕ) :
    Logged (ℕ × Dinode × (ℕ → Block)) :=
  if bn < ndirect then
    if ip.addr bn = 0 then do
      let (addr, image) ← balloc sb image
      return (addr, ip.setAddr bn addr, image)
    else return (ip.addr bn, ip, image)
  else if bn - ndirect < nindirect then do
    let (ip, image) ← loadIndirect sb ip image
    let addr := ip.addr ndirect
    if uintAt (image addr) (bn - ndirect) = 0 then
      let (x, image) ← balloc sb image
      logWrite addr
      return (x, ip, Function.update image addr (setUint (image addr) (bn - ndirect) x))
    else return (uintAt (image addr) (bn - ndirect), ip, image)
  else silent none

/-- The loop of `writei` -/
def writeLoop (sb : Superblock) : ℕ → List Byte → ℕ → Dinode → (ℕ → Block) →
    Logged (ℕ × Dinode × (ℕ → Block))
  | 0, _, off, ip, image => return (off, ip, image)
  | passes + 1, src, off, ip, image =>
      if src = [] then return (off, ip, image)
      else do
        let (x, ip, image) ← bmap sb ip image (off / bsize)
        let m := min src.length (bsize - off % bsize)
        logWrite x
        writeLoop sb passes (src.drop m) (off + m) ip
          (Function.update image x (splice (image x) (off % bsize) (src.take m)))

/-- `iupdate` -/
def iupdate (sb : Superblock) (inum : ℕ) (ip : Dinode) (image : ℕ → Block) : Logged (ℕ → Block) := do
  logWrite (iblock inum sb)
  return Fs.iupdate sb inum ip image

/-- `writei`; the write function of a device logs nothing. -/
def writei (devsw : Devsw) (sb : Superblock) (inum : ℕ) (ip : Dinode) (image : ℕ → Block) (src : List Byte)
    (off : ℕ) : Logged (Option ℕ × Dinode × (ℕ → Block)) :=
  if ip.type = tDev then return (devsw.write ip.major src, ip, image)
  else if ip.size < off ∨ (off + src.length) % 2 ^ 32 < off then return (none, ip, image)
  else if maxfile * bsize < (off + src.length) % 2 ^ 32 then return (none, ip, image)
  else do
    let (off, ip, image) ← writeLoop sb src.length src off ip image
    if 0 < src.length ∧ ip.size < off then
      let ip := { ip with size := off }
      let image ← iupdate sb inum ip image
      return (some src.length, ip, image)
    else return (some src.length, ip, image)

variable {α β : Type} {devsw : Devsw} {sb : Superblock} {ip ip' : Dinode} {image image' : ℕ → Block}
  {src : List Byte} {inum k m n off x passes : ℕ} {first : Logged α} {next : α → Logged β} {a : α}

/-! ## The results -/

@[simp]
theorem pure_result (a : α) : (pure a : Logged α).result = some a := rfl

@[simp]
theorem pure_blocks (a : α) : (pure a : Logged α).blocks = [] := rfl

@[simp]
theorem logWrite_result (b : ℕ) : (logWrite b).result = some () := rfl

@[simp]
theorem logWrite_blocks (b : ℕ) : (logWrite b).blocks = [b] := rfl

theorem bind_some (isResult : first.result = some a) :
    (first >>= next).result = (next a).result ∧ (first >>= next).blocks = first.blocks ++ (next a).blocks := by
  change (match first.result with
    | none => (⟨none, first.blocks⟩ : Logged β)
    | some a => ⟨(next a).result, first.blocks ++ (next a).blocks⟩).result = _ ∧ (match first.result with
    | none => (⟨none, first.blocks⟩ : Logged β)
    | some a => ⟨(next a).result, first.blocks ++ (next a).blocks⟩).blocks = _
  rw [isResult]
  exact ⟨rfl, rfl⟩

theorem bind_none (isResult : first.result = none) :
    (first >>= next).result = none ∧ (first >>= next).blocks = first.blocks := by
  change (match first.result with
    | none => (⟨none, first.blocks⟩ : Logged β)
    | some a => ⟨(next a).result, first.blocks ++ (next a).blocks⟩).result = _ ∧ (match first.result with
    | none => (⟨none, first.blocks⟩ : Logged β)
    | some a => ⟨(next a).result, first.blocks ++ (next a).blocks⟩).blocks = _
  rw [isResult]
  exact ⟨rfl, rfl⟩

@[simp]
theorem bind_result (first : Logged α) (next : α → Logged β) :
    (first >>= next).result = first.result.bind fun a => (next a).result := by
  rcases isResult : first.result with _ | a
  · rw [(bind_none isResult).1]
    rfl
  · rw [(bind_some isResult).1]
    rfl

theorem balloc_result (sb : Superblock) (image : ℕ → Block) : (balloc sb image).result = Fs.balloc sb image := by
  unfold balloc Fs.balloc silent
  simp

theorem loadIndirect_result (sb : Superblock) (ip : Dinode) (image : ℕ → Block) :
    (loadIndirect sb ip image).result = Fs.loadIndirect sb ip image := by
  unfold loadIndirect Fs.loadIndirect
  split
  · simp [balloc_result]
  · rfl

theorem bmap_result (sb : Superblock) (ip : Dinode) (image : ℕ → Block) (bn : ℕ) :
    (bmap sb ip image bn).result = Fs.bmap sb ip image bn := by
  unfold bmap Fs.bmap silent
  simp [balloc_result, loadIndirect_result, apply_ite Logged.result]

/-- The blocks are recorded beside what `writei` does. -/
theorem writei_result (devsw : Devsw) (sb : Superblock) (inum : ℕ) (ip : Dinode) (image : ℕ → Block)
    (src : List Byte) (off : ℕ) :
    (writei devsw sb inum ip image src off).result = Fs.writei devsw sb inum ip image src off := by
  have loop : ∀ passes src off ip image,
      (writeLoop sb passes src off ip image).result = Fs.writeLoop sb passes src off ip image := by
    intro passes
    induction passes with
    | zero =>
        intro src off ip image
        rfl
    | succ passes ih =>
        intro src off ip image
        rw [writeLoop, Fs.writeLoop]
        split
        · rfl
        · simp [bmap_result, ih]
  unfold writei Fs.writei
  simp [loop, iupdate, apply_ite Logged.result]

/-! ## The blocks -/

/-- Blocks of `data` are logged, and an indirect block `a` with its block of the bitmap. -/
structure TouchesWith (sb : Superblock) (ip : Dinode) (data : Finset ℕ) (inode : α → Dinode) (a : ℕ)
    (first : Logged α) : Prop where
  before : ip.addr ndirect ≠ 0 → ip.addr ndirect = a
  blocks : ∀ b ∈ first.blocks, b ∈ data ∨ b = a ∨ b = bblock a sb
  after : ∀ r, first.result = some r → (inode r).addr ndirect ≠ 0 ∧ (inode r).addr ndirect = a ∨
    (inode r).addr ndirect = 0 ∧ ip.addr ndirect = 0 ∧ ∀ b ∈ first.blocks, b ∈ data

/-- Blocks of `data` are logged, and one indirect block with its block of the bitmap. -/
def Touches (sb : Superblock) (ip : Dinode) (data : Finset ℕ) (inode : α → Dinode) (first : Logged α) : Prop :=
  ∃ a, TouchesWith sb ip data inode a first

variable {data data' : Finset ℕ} {inode : α → Dinode} {inode' : β → Dinode} {r : α} {content : List Byte}

/-- Only blocks of `data` are logged, and the indirect block of the inode does not change. -/
theorem Touches.direct (isResult : ∀ r, first.result = some r → (inode r).addr ndirect = ip.addr ndirect)
    (inData : ∀ b ∈ first.blocks, b ∈ data) : Touches sb ip data inode first := by
  refine ⟨ip.addr ndirect, fun _ => rfl, fun b member => .inl (inData b member), fun r isSome => ?_⟩
  rw [isResult r isSome]
  by_cases zero : ip.addr ndirect = 0
  · exact .inr ⟨zero, zero, inData⟩
  · exact .inl ⟨zero, rfl⟩

theorem Touches.silent (isResult : ∀ r, first.result = some r → (inode r).addr ndirect = ip.addr ndirect)
    (none : first.blocks = []) : Touches sb ip data inode first := by
  refine .direct isResult fun b member => ?_
  rw [none] at member
  exact absurd member List.not_mem_nil

theorem Touches.failed (touches : Touches sb ip data inode first) (isResult : first.result = none) :
    Touches sb ip data inode' (first >>= next) := by
  rcases touches with ⟨a, touches⟩
  rcases @bind_none α β first next isResult with ⟨isNone, isBlocks⟩
  refine ⟨a, touches.before, fun b member => ?_, fun r isSome => ?_⟩
  · rw [isBlocks] at member
    exact touches.blocks b member
  · rw [isNone] at isSome
    exact absurd isSome (Option.some_ne_none r).symm

/-- The indirect block and its block of the bitmap are counted beside the data. -/
theorem Touches.card (touches : Touches sb ip data inode first) : first.blocks.toFinset.card ≤ data.card + 2 := by
  rcases touches with ⟨a, touches⟩
  have subset : first.blocks.toFinset ⊆ data ∪ {a, bblock a sb} := by
    intro b member
    rw [Finset.mem_union, Finset.mem_insert, Finset.mem_singleton]
    exact touches.blocks b (List.mem_toFinset.1 member)
  calc first.blocks.toFinset.card ≤ (data ∪ {a, bblock a sb}).card := Finset.card_le_card subset
    _ ≤ data.card + ({a, bblock a sb} : Finset ℕ).card := Finset.card_union_le _ _
    _ ≤ data.card + 2 := Nat.add_le_add_left Finset.card_le_two _

/-- One function after another. -/
theorem Touches.bind (touches : Touches sb ip data inode first) (isResult : first.result = some a)
    (touches' : Touches sb (inode a) data' inode' (next a)) :
    Touches sb ip (data ∪ data') inode' (first >>= next) := by
  rcases touches with ⟨c, touches⟩
  rcases touches' with ⟨c', touches'⟩
  rcases @bind_some α β first next a isResult with ⟨isSame, isBlocks⟩
  rcases touches.after a isResult with ⟨has, isIndirect⟩ | ⟨zero, zero', none⟩
  · have same : c = c' := isIndirect.symm.trans (touches'.before has)
    subst same
    refine ⟨c, touches.before, fun b member => ?_, fun r' isSome => ?_⟩
    · rw [isBlocks, List.mem_append] at member
      rw [Finset.mem_union]
      rcases member with one | two
      · exact (touches.blocks b one).imp_left .inl
      · exact (touches'.blocks b two).imp_left .inr
    · rw [isSame] at isSome
      rcases touches'.after r' isSome with found | ⟨_, zero', _⟩
      · exact .inl found
      · exact absurd zero' has
  · refine ⟨c', fun has => absurd zero' has, fun b member => ?_, fun r' isSome => ?_⟩
    · rw [isBlocks, List.mem_append] at member
      rw [Finset.mem_union]
      rcases member with one | two
      · exact .inl (.inl (none b one))
      · exact (touches'.blocks b two).imp_left .inr
    · rw [isSame] at isSome
      rcases touches'.after r' isSome with found | ⟨zero'', _, none'⟩
      · exact .inl found
      · refine .inr ⟨zero'', zero', fun b member => ?_⟩
        rw [isBlocks, List.mem_append] at member
        rw [Finset.mem_union]
        exact member.imp (none b) (none' b)

theorem balloc_none (isNone : Fs.balloc sb image = none) : (balloc sb image).blocks = [] := by
  rw [← balloc_result] at isNone
  unfold balloc at isNone ⊢
  rcases isFound : (Logged.silent ((List.range sb.size).find? fun b => !inUse sb image b)).result with _ | b
  · rw [(bind_none isFound).2]
    rfl
  · rw [(bind_some isFound).1] at isNone
    simp at isNone

theorem balloc_some (isAlloc : Fs.balloc sb image = some (x, image')) :
    (balloc sb image).blocks = [bblock x sb, x] := by
  have isResult := balloc_result sb image
  rw [isAlloc] at isResult
  unfold balloc at isResult ⊢
  rcases isFound : (Logged.silent ((List.range sb.size).find? fun b => !inUse sb image b)).result with _ | b
  · rw [(bind_none isFound).1] at isResult
    exact absurd isResult (Option.some_ne_none _).symm
  · rw [(bind_some isFound).1] at isResult
    rw [(bind_some isFound).2]
    simp at isResult
    rw [← isResult.1]
    rfl

theorem loadIndirect_touches (file : FileHolds sb inum ip image content) :
    Touches sb ip ∅ Prod.fst (loadIndirect sb ip image) := by
  unfold loadIndirect
  split
  · rename_i none
    rcases isAlloc : Fs.balloc sb image with _ | ⟨x, image'⟩
    · have touches : Touches sb ip ∅ (fun _ => ip) (balloc sb image) := .silent (fun _ _ => rfl) (balloc_none isAlloc)
      exact touches.failed ((balloc_result sb image).trans isAlloc)
    · have isResult := (balloc_result sb image).trans isAlloc
      have isX : (ip.setAddr ndirect x).addr ndirect = x := by
        rw [addr_setAddr (by decide) (by decide), if_pos rfl]
      refine ⟨x, fun has => absurd none has, fun b member => ?_, fun r isSome => ?_⟩
      · rw [(bind_some isResult).2, balloc_some isAlloc] at member
        simp at member
        exact .inr (member.elim .inr .inl)
      · rw [(bind_some isResult).1, pure_result, Option.some.injEq] at isSome
        subst isSome
        dsimp only
        rw [isX]
        exact .inl ⟨(file.balloc isAlloc).2.1.notZero, rfl⟩
  · exact .silent (fun r isSome => by rw [← Option.some.inj isSome]) rfl

/-- `bmap` logs nothing for a place that has a block. -/
theorem bmap_slot_blocks (inside : k < maxfile) (has : slot image ip k ≠ 0) : (bmap sb ip image k).blocks = [] := by
  unfold bmap
  by_cases direct : k < ndirect
  · rw [slot_direct direct] at has
    rw [if_pos direct, if_neg has]
    rfl
  · rw [slot_entry (Nat.not_lt.1 direct) inside] at has
    have hasIndirect : ip.addr ndirect ≠ 0 := fun none => has (if_pos none)
    have small : k - ndirect < nindirect := by
      unfold maxfile at inside
      omega
    have isLoaded : loadIndirect sb ip image = pure (ip, image) := if_neg hasIndirect
    rw [if_neg hasIndirect] at has
    rw [if_neg direct, if_pos small, isLoaded, (bind_some (pure_result _)).2]
    dsimp only
    rw [if_neg has]
    rfl

/-- `bmap` logs at most a new block and its block of the bitmap, beside the indirect ones. -/
theorem bmap_touches (file : FileHolds sb inum ip image content) (inside : k < maxfile) : ∃ data : Finset ℕ,
    data.card ≤ (if slot image ip k = 0 then 2 else 1) ∧
    (∀ r, (bmap sb ip image k).result = some r → r.1 ∈ data) ∧
    Touches sb ip data (fun r => r.2.1) (bmap sb ip image k) := by
  by_cases has : slot image ip k = 0
  · rw [if_pos has]
    unfold bmap
    by_cases direct : k < ndirect
    · rw [slot_direct direct] at has
      rw [if_pos direct, if_pos has]
      rcases isAlloc : Fs.balloc sb image with _ | ⟨x, image'⟩
      · have isNone := (balloc_result sb image).trans isAlloc
        have touches : Touches sb ip ∅ (fun _ => ip) (balloc sb image) := .silent (fun _ _ => rfl) (balloc_none isAlloc)
        refine ⟨∅, Nat.zero_le _, fun r isSome => ?_, touches.failed isNone⟩
        rw [(bind_none isNone).1] at isSome
        exact absurd isSome (Option.some_ne_none r).symm
      · have isResult := (balloc_result sb image).trans isAlloc
        refine ⟨{bblock x sb, x}, Finset.card_le_two, fun r isSome => ?_, .direct (fun r isSome => ?_)
          fun b member => ?_⟩
        · rw [(bind_some isResult).1, pure_result, Option.some.injEq] at isSome
          rw [← isSome]
          exact Finset.mem_insert_of_mem (Finset.mem_singleton_self x)
        · rw [(bind_some isResult).1, pure_result, Option.some.injEq] at isSome
          rw [← isSome]
          dsimp only
          rw [addr_setAddr (direct.trans (by decide)) (by decide), if_neg direct.ne']
        · rw [(bind_some isResult).2, balloc_some isAlloc] at member
          simpa using member
    · have more : ndirect ≤ k := Nat.not_lt.1 direct
      have small : k - ndirect < nindirect := by
        unfold maxfile at inside
        omega
      rw [if_neg direct, if_pos small]
      have touches := loadIndirect_touches file
      rcases isLoaded : Fs.loadIndirect sb ip image with _ | ⟨ip₁, image₁⟩
      · have isNone := (loadIndirect_result sb ip image).trans isLoaded
        refine ⟨∅, Nat.zero_le _, fun r isSome => ?_, touches.failed isNone⟩
        rw [(bind_none isNone).1] at isSome
        exact absurd isSome (Option.some_ne_none r).symm
      · have isResult := (loadIndirect_result sb ip image).trans isLoaded
        have hasIndirect := (file.loadIndirect isLoaded).2.1
        have none : slot image₁ ip₁ k = 0 := by
          refine ((file.loadIndirect_grown isLoaded).empty k inside.le).2 ⟨has, fun member => ?_⟩
          exact inside.ne (Finset.mem_singleton.1 member)
        rw [slot_entry more inside, if_neg hasIndirect] at none
        -- what follows the indirect block
        rcases isAlloc : Fs.balloc sb image₁ with _ | ⟨x, image₂⟩
        · have isNone := (balloc_result sb image₁).trans isAlloc
          have quiet : Touches sb ip₁ ∅ (fun _ => ip₁) (balloc sb image₁) :=
            .silent (fun _ _ => rfl) (balloc_none isAlloc)
          refine ⟨∅ ∪ ∅, Nat.zero_le _, fun r isSome => ?_, touches.bind isResult ?_⟩
          · rw [(bind_some isResult).1] at isSome
            dsimp only at isSome
            rw [if_pos none, (bind_none isNone).1] at isSome
            exact absurd isSome (Option.some_ne_none r).symm
          · dsimp only
            rw [if_pos none]
            exact quiet.failed isNone
        · have isSome' := (balloc_result sb image₁).trans isAlloc
          refine ⟨∅ ∪ {bblock x sb, x}, (Finset.card_union_le _ _).trans ?_, fun r isSome => ?_,
            touches.bind isResult ?_⟩
          · rw [Finset.card_empty, Nat.zero_add]
            exact Finset.card_le_two
          · rw [(bind_some isResult).1] at isSome
            dsimp only at isSome
            rw [if_pos none, (bind_some isSome').1, (bind_some (logWrite_result _)).1, pure_result,
              Option.some.injEq] at isSome
            rw [← isSome]
            simp
          · dsimp only
            rw [if_pos none]
            refine ⟨ip₁.addr ndirect, fun _ => rfl, fun b member => ?_, fun r isSome => .inl ?_⟩
            · rw [(bind_some isSome').2, balloc_some isAlloc, (bind_some (logWrite_result _)).2] at member
              simp at member
              simp only [Finset.mem_insert, Finset.mem_singleton]
              tauto
            · rw [(bind_some isSome').1, (bind_some (logWrite_result _)).1, pure_result, Option.some.injEq] at isSome
              rw [← isSome]
              exact ⟨hasIndirect, rfl⟩
  · rw [if_neg has]
    have isResult := (bmap_result sb ip image k).trans (bmap_slot sb inside has)
    refine ⟨{slot image ip k}, (Finset.card_singleton _).le, fun r isSome => ?_,
      .silent (fun r isSome => ?_) (bmap_slot_blocks inside has)⟩
    · rw [isResult, Option.some.injEq] at isSome
      rw [← isSome]
      exact Finset.mem_singleton_self _
    · rw [isResult, Option.some.injEq] at isSome
      rw [← isSome]

/-- How many blocks of data, and blocks of the bitmap for them, a range needs at most. -/
def cost (off n : ℕ) : ℕ :=
  if n = 0 then 0
  else if off % bsize = 0 then 2 * ((n - 1) / bsize + 1)
  else 2 * ((off % bsize + n - 1) / bsize) + 1

theorem cost_pass (positive : 0 < n) (isM : m = min n (bsize - off % bsize)) :
    cost off n = (if off % bsize = 0 then 2 else 1) + cost (off + m) (n - m) := by
  have rest := Nat.mod_lt off (show 0 < bsize by decide)
  unfold cost bsize at *
  rw [if_neg positive.ne']
  by_cases aligned : off % 512 = 0
  · rw [if_pos aligned, if_pos aligned]
    by_cases last : n - m = 0
    · rw [if_pos last]
      omega
    · rw [if_neg last, if_pos (by omega)]
      omega
  · rw [if_neg aligned, if_neg aligned]
    by_cases last : n - m = 0
    · rw [if_pos last]
      omega
    · rw [if_neg last, if_pos (by omega)]
      omega

theorem cost_writeMax (bound : n ≤ writeMax) : cost off n ≤ 7 := by
  have rest := Nat.mod_lt off (show 0 < bsize by decide)
  unfold cost
  unfold writeMax at bound
  unfold bsize at *
  split
  · omega
  · split <;> omega

/-- The place of an offset in the middle of a block has a block. -/
theorem slot_partial (file : FileHolds sb inum ip image content) (start : off ≤ content.length)
    (middle : off % bsize ≠ 0) : slot image ip (off / bsize) ≠ 0 := by
  have before : (off - 1) / bsize = off / bsize := by
    unfold bsize at *
    omega
  have less : off - 1 < content.length := by
    unfold bsize at middle
    omega
  rw [← before]
  exact file.inodeHolds.mapped _ less

/-- The blocks that the loop of `writei` logs. -/
theorem writeLoop_touches (passes : ℕ) : ∀ {ip : Dinode} {image : ℕ → Block} {content src : List Byte} {off : ℕ},
    FileHolds sb inum ip image content → src.length ≤ passes → off ≤ content.length →
    off + src.length ≤ maxfile * bsize → ∃ data : Finset ℕ, data.card ≤ cost off src.length ∧
      Touches sb ip data (fun r => r.2.1) (writeLoop sb passes src off ip image) := by
  induction passes with
  | zero =>
      intro ip image content src off file short _ _
      exact ⟨∅, Nat.zero_le _, .silent (fun r isSome => by rw [← Option.some.inj isSome]) rfl⟩
  | succ passes ih =>
      intro ip image content src off file short start bound
      rw [writeLoop]
      by_cases empty : src = []
      · rw [if_pos empty]
        exact ⟨∅, Nat.zero_le _, .silent (fun r isSome => by rw [← Option.some.inj isSome]) rfl⟩
      · have positive : 0 < src.length := List.length_pos_iff.2 empty
        have inside : off / bsize < maxfile := div_lt_maxfile (by omega)
        have rest := Nat.mod_lt off (show 0 < bsize by decide)
        rw [if_neg empty]
        rcases bmap_touches file inside with ⟨data, card, member, touches⟩
        have few : data.card ≤ if off % bsize = 0 then 2 else 1 := by
          refine card.trans ?_
          split
          · rename_i none
            rw [if_pos]
            by_contra middle
            exact slot_partial file start middle none
          · split <;> decide
        rcases isMap : Fs.bmap sb ip image (off / bsize) with _ | ⟨x, ip₁, image₁⟩
        · refine ⟨data, ?_, touches.failed ((bmap_result ..).trans isMap)⟩
          rw [cost_pass positive rfl]
          omega
        · have isResult := (bmap_result sb ip image (off / bsize)).trans isMap
          generalize isM : min src.length (bsize - off % bsize) = m
          rcases length_piece empty isM with ⟨isLength, isRest, some⟩
          have mapped := file.bmap inside isMap
          have written := mapped.file.write start (by omega) some inside mapped.isSlot mapped.notZero
          have isLength' := length_patch (src.take m) start
          have short' : (src.drop m).length ≤ passes := by omega
          have start' : off + m ≤ (patch content off (src.take m)).length := by omega
          rcases ih written short' start' (by omega) with ⟨data', card', touches'⟩
          rw [isRest] at card'
          have log : Touches sb ip₁ data (fun _ => ip₁) (logWrite x) := by
            refine .direct (fun _ _ => rfl) fun b isBlock => ?_
            rw [logWrite_blocks, List.mem_singleton] at isBlock
            rw [isBlock]
            exact member _ isResult
          have isUnion : data ∪ (data ∪ data') = data ∪ data' := by
            rw [← Finset.union_assoc, Finset.union_self]
          refine ⟨data ∪ data', ?_, ?_⟩
          · have few' := Finset.card_union_le data data'
            rw [cost_pass positive isM.symm]
            omega
          · rw [← isUnion]
            refine touches.bind isResult ?_
            refine log.bind (logWrite_result x) ?_
            rw [← isM]
            rw [← isM] at touches'
            exact touches'

/-- The blocks that `writei` logs for a piece of `filewrite`. -/
theorem writei_blocks (file : ip.type = tDev ∨ FileHolds sb inum ip image content ∧ ip.size = content.length)
    (short : src.length ≤ writeMax) : (writei devsw sb inum ip image src off).blocks.toFinset.card ≤
      Log.maxopblocks := by
  unfold writei
  rcases file with isDevice | ⟨file, isSize⟩
  · rw [if_pos isDevice]
    exact Nat.zero_le _
  rw [if_neg file.notDevice]
  split
  · exact Nat.zero_le _
  split
  · exact Nat.zero_le _
  rename_i start inside
  rw [not_or, Nat.not_lt, Nat.not_lt, isSize] at start
  have old := file.inodeHolds.bound
  have noOverflow : (off + src.length) % 2 ^ 32 = off + src.length := by
    unfold maxfile ndirect nindirect bsize at old
    unfold writeMax at short
    omega
  rw [noOverflow, Nat.not_lt] at inside
  rcases writeLoop_touches src.length file le_rfl start.1 inside with ⟨data, card, touches⟩
  have few := card.trans (cost_writeMax short)
  rcases isLoop : (writeLoop sb src.length src off ip image).result with _ | ⟨off₁, ip₁, image₁⟩
  · rw [(bind_none isLoop).2]
    exact touches.card.trans (Nat.add_le_add_right few 2 |>.trans (by decide))
  · -- the inode itself is logged last
    have few' := Finset.card_union_le data {iblock inum sb}
    rw [Finset.card_singleton] at few'
    have isTen : (data ∪ {iblock inum sb}).card + 2 ≤ Log.maxopblocks := by
      change _ ≤ 10
      omega
    suffices whole : Touches sb ip (data ∪ {iblock inum sb}) (fun r : Option ℕ × Dinode × (ℕ → Block) => r.2.1) _ from
      whole.card.trans isTen
    refine touches.bind isLoop ?_
    dsimp only
    split
    · refine .direct (fun r isSome => ?_) fun b member => ?_
      · unfold iupdate at isSome
        simp at isSome
        rw [← isSome]
        rfl
      · change b ∈ [iblock inum sb] at member
        rw [List.mem_singleton] at member
        rw [member]
        exact Finset.mem_singleton_self _
    · exact .silent (fun r isSome => by rw [← Option.some.inj isSome]) rfl

end Logged

/-! ## The sections of `filewrite` -/

variable {ι : Type} [DecidableEq ι] {devsw : Devsw} {sb : Superblock} {inum i call n : ℕ} {s s' : Shared ι} {p : ι}
  {src : List Byte}

/-- A pass of the loop of `filewrite`, or its end. -/
def Logged.pass (devsw : Devsw) (sb : Superblock) (inum : ℕ) (s : Shared ι) (p : ι)
    (call : ℕ) (src : List Byte) (i : ℕ) : Logged (Shared ι) :=
  if i < src.length then
    let n1 := if writeMax < src.length - i then writeMax else src.length - i
    let piece := (src.drop i).take n1
    Logged.writei devsw sb inum s.ip s.image piece s.off >>= fun
      | (none, ip, image) => return { s with ip, image }.finish p call none
      | (some r, ip, image) =>
          let s := if 0 < r then
              { s with off := s.off + r, chunks := s.chunks ++ [{ call, off := s.off, bytes := piece }] }
            else s
          if r ≠ n1 then Logged.silent none
          else return { s with ip, image, loop := Function.update s.loop p (.writing call src (i + r)) }
  else return s.finish p call (if i = src.length then some src.length else none)

theorem Logged.pass_result (devsw : Devsw) (sb : Superblock) (inum : ℕ) (s : Shared ι) (p : ι) (call : ℕ)
    (src : List Byte) (i : ℕ) :
    (Logged.pass devsw sb inum s p call src i).result = s.pass devsw sb inum p call src i := by
  unfold Logged.pass Shared.pass
  split
  · dsimp only
    rw [Logged.bind_result, Logged.writei_result]
    generalize (if writeMax < src.length - i then writeMax else src.length - i) = n1
    rcases Fs.writei devsw sb inum s.ip s.image ((src.drop i).take n1) s.off with _ | ⟨_ | r, ip, image⟩
    · rfl
    · rfl
    · dsimp only [Option.bind_some]
      split
      · rfl
      · rfl
  · rfl

/-- Only `writei` logs blocks in a pass. -/
theorem Logged.pass_blocks {bound : ℕ}
    (few : ∀ src : List Byte, src.length ≤ writeMax →
      (Logged.writei devsw sb inum s.ip s.image src s.off).blocks.toFinset.card ≤ bound) :
    (Logged.pass devsw sb inum s p call src i).blocks.toFinset.card ≤ bound := by
  unfold Logged.pass
  split
  · dsimp only
    have short : ((src.drop i).take (if writeMax < src.length - i then writeMax else src.length - i)).length ≤
        writeMax := by
      rw [List.length_take]
      split <;> omega
    have isFew := few _ short
    generalize (if writeMax < src.length - i then writeMax else src.length - i) = n1 at isFew ⊢
    rcases isWrite : (Logged.writei devsw sb inum s.ip s.image ((src.drop i).take n1) s.off).result with
      _ | ⟨_ | r, ip, image⟩
    · rw [(Logged.bind_none isWrite).2]
      exact isFew
    · rw [(Logged.bind_some isWrite).2, Logged.pure_blocks, List.append_nil]
      exact isFew
    · rw [(Logged.bind_some isWrite).2]
      dsimp only
      split
      · exact (List.append_nil _).symm ▸ isFew
      · exact (List.append_nil _).symm ▸ isFew
  · exact Nat.zero_le _

/-- The inode of a device stays as it is. -/
theorem Shared.step_device {label : Section ι} (isStep : s.step devsw sb inum label = some s')
    (isDevice : s.ip.type = tDev) : s'.ip = s.ip := by
  have isRead : ∀ off n, readi devsw sb s.ip s.image off n = some (devsw.read s.ip.major n, s.ip, s.image) :=
    fun _ _ => if_pos isDevice
  have isWrite : ∀ src off, writei devsw sb inum s.ip s.image src off =
      some (devsw.write s.ip.major src, s.ip, s.image) := fun _ _ => if_pos isDevice
  cases label with
  | read p n =>
      unfold Shared.step at isStep
      dsimp only at isStep
      split at isStep
      · unfold Shared.read at isStep
        rw [isRead] at isStep
        split at isStep
        · rw [← Option.some.inj isStep]
        · generalize devsw.read s.ip.major n = result at isStep
          rcases result with _ | data
          · rw [← Option.some.inj isStep]
          · dsimp only at isStep
            split at isStep
            · rw [← Option.some.inj isStep]
            · rw [← Option.some.inj isStep]
      · exact absurd isStep (Option.some_ne_none _).symm
  | write p src =>
      unfold Shared.step Shared.write at isStep
      dsimp only at isStep
      split at isStep
      · split at isStep
        · rw [← Option.some.inj isStep]
        · rw [← Option.some.inj isStep]
      · exact absurd isStep (Option.some_ne_none _).symm
  | pass p =>
      unfold Shared.step at isStep
      dsimp only at isStep
      split at isStep
      · exact absurd isStep (Option.some_ne_none _).symm
      · rename_i call src i _
        unfold Shared.pass at isStep
        split at isStep
        · dsimp only at isStep
          generalize (if writeMax < src.length - i then writeMax else src.length - i) = n1 at isStep
          rw [isWrite] at isStep
          generalize devsw.write s.ip.major ((src.drop i).take n1) = result at isStep
          rcases result with _ | r
          · rw [← Option.some.inj isStep]
            rfl
          · dsimp only at isStep
            split at isStep
            · exact absurd isStep (Option.some_ne_none _).symm
            · rw [← Option.some.inj isStep]
        · rw [← Option.some.inj isStep]
          rfl

/-- Each section of `filewrite` logs at most `MAXOPBLOCKS` blocks. -/
theorem filewrite_log (devsw : Devsw) (sb : Superblock) (inum : ℕ) (readable writable : Bool) (off : ℕ) (ip : Dinode)
    (image : ℕ → Block) (content : List Byte)
    (inode : ip.type = tDev ∨ FileHolds sb inum ip image content ∧ ip.size = content.length) (s : Shared ι)
    (runs : Runs devsw sb inum (opened readable writable off ip image) s) (p : ι) (call : ℕ) (src : List Byte) (i : ℕ)
    (isLoop : s.loop p = .writing call src i) :
    (Logged.pass devsw sb inum s p call src i).result = s.step devsw sb inum (.pass p) ∧
    (Logged.pass devsw sb inum s p call src i).blocks.toFinset.card ≤ Log.maxopblocks := by
  constructor
  · rw [Logged.pass_result]
    unfold Shared.step
    dsimp only
    rw [isLoop]
  · refine Logged.pass_blocks fun piece short => ?_
    rcases inode with isDevice | ⟨file, isSize⟩
    · have stays : s.ip.type = tDev := runs.invariant (fun s => s.ip.type = tDev) isDevice
        fun _ isDevice _ taken => by rw [Shared.step_device taken isDevice, isDevice]
      exact Logged.writei_blocks (.inl stays : _ ∨ FileHolds sb inum s.ip s.image [] ∧ _) short
    · have sharing := (runs.sharing file isSize).1
      exact Logged.writei_blocks (.inr ⟨sharing.file, sharing.size⟩) short

/-- A process writes two bytes to an empty file. -/
theorem filewrite_log_twoBytes : ∃ s : Shared (Fin 2),
    Runs ⟨fun _ _ => none, fun _ _ => none⟩ eightBlocks 1 (opened true true 0 emptyFile fourUsed) s ∧
    s.loop 0 = .writing 0 [1, 2] 0 ∧
    (Logged.pass ⟨fun _ _ => none, fun _ _ => none⟩ eightBlocks 1 s 0 0 [1, 2] 0).result =
      s.step ⟨fun _ _ => none, fun _ _ => none⟩ eightBlocks 1 (.pass 0) ∧
    (Logged.pass ⟨fun _ _ => none, fun _ _ => none⟩ eightBlocks 1 s 0 0 [1, 2] 0).blocks.toFinset.card ≤
      Log.maxopblocks := by
  have argument : IntArgument (.write (0 : Fin 2) [1, 2]) := by
    unfold IntArgument
    decide
  have runs : Runs ⟨fun _ _ => none, fun _ _ => none⟩ eightBlocks 1 (opened true true 0 emptyFile fourUsed)
      ((opened true true 0 emptyFile fourUsed : Shared (Fin 2)).write 0 [1, 2]) :=
    Transition.Reachable.refl.next argument rfl
  have isLoop : ((opened true true 0 emptyFile fourUsed : Shared (Fin 2)).write 0 [1, 2]).loop 0 =
      .writing 0 [1, 2] 0 := rfl
  exact ⟨_, runs, isLoop, filewrite_log _ _ _ true true 0 emptyFile fourUsed [] (.inr ⟨emptyFile_holds, rfl⟩) _ runs 0
    0 [1, 2] 0 isLoop⟩

end Xv6.Fs
