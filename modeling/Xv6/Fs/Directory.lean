import Xv6.Fs.Files
import Xv6.Fs.InodeCache
import Xv6.Fs.Mkfs
import Xv6.Lib.SlotTable

/-!
# Directories

`dirlookup` and `dirlink`, and how `sys_unlink` erases an entry. A directory is a table of slots, and the
map from its names to numbers of inodes.
-/

namespace Xv6.Fs

open Bytes SlotTable

/-! ## Names -/

/-- `strncmp` -/
def strncmp : ℕ → (ℕ → Byte) → (ℕ → Byte) → ℤ
  | 0, _, _ => 0
  | n + 1, p, q =>
      if p 0 ≠ 0 ∧ p 0 = q 0 then strncmp n (fun m => p (m + 1)) fun m => q (m + 1)
      else (p 0).toNat - (q 0).toNat

/-- `strncpy` -/
def strncpy : ℕ → (ℕ → Byte) → List Byte
  | 0, _ => []
  | n + 1, t => t 0 :: if t 0 = 0 then List.replicate n 0 else strncpy n fun m => t (m + 1)

/-- `namecmp` -/
def namecmp (s t : ℕ → Byte) : ℤ := strncmp dirsiz s t

/-- The first bytes at an address, at most so many, and not the NUL. -/
def nameAt : ℕ → (ℕ → Byte) → List Byte
  | 0, _ => []
  | n + 1, p => if p 0 = 0 then [] else p 0 :: nameAt n fun m => p (m + 1)

/-- What counts of a name. -/
def key (name : ℕ → Byte) : List Byte := nameAt dirsiz name

theorem strncmp_eq_zero (n : ℕ) : ∀ p q, strncmp n p q = 0 ↔ nameAt n p = nameAt n q := by
  induction n with
  | zero => exact fun p q => iff_of_true rfl rfl
  | succ n ih =>
      intro p q
      rw [strncmp, nameAt, nameAt]
      by_cases same : p 0 = q 0
      · rw [← same]
        by_cases zero : p 0 = 0
        · rw [if_neg fun more => more.1 zero, if_pos zero, if_pos zero]
          exact iff_of_true (sub_self _) rfl
        · rw [if_pos ⟨zero, rfl⟩, if_neg zero, if_neg zero, List.cons.injEq, ih]
          exact (and_iff_right rfl).symm
      · rw [if_neg fun more => same more.2]
        refine iff_of_false (fun zero => same (BitVec.eq_of_toNat_eq (by omega))) ?_
        split
        · rename_i zero
          rw [if_neg fun zero' => same (zero.trans zero'.symm)]
          rintro ⟨⟩
        · split
          · rintro ⟨⟩
          · intro equal
            exact same (List.cons.inj equal).1

theorem namecmp_eq_zero (p q : ℕ → Byte) : namecmp p q = 0 ↔ key p = key q := strncmp_eq_zero dirsiz p q

theorem length_strncpy (n : ℕ) : ∀ t, (strncpy n t).length = n := by
  induction n with
  | zero => exact fun t => rfl
  | succ n ih =>
      intro t
      rw [strncpy, List.length_cons]
      split
      · rw [List.length_replicate]
      · rw [ih]

/-- A copied name is the same name, also without a NUL. -/
theorem nameAt_strncpy (n : ℕ) : ∀ t, nameAt n (fun m => (strncpy n t).getD m 0) = nameAt n t := by
  induction n with
  | zero => exact fun t => rfl
  | succ n ih =>
      intro t
      rw [nameAt, nameAt, strncpy]
      simp only [List.getD_cons_zero, List.getD_cons_succ]
      split
      · rfl
      · rw [ih]

/-! ## Entries -/

/-- `de.inum` -/
def inumOf (de : List Byte) : ℕ := get (fun m => de.getD m 0) 2 0

/-- `de.name` -/
def nameOf (de : List Byte) (m : ℕ) : Byte := de.getD (2 + m) 0

/-- The entry that `dirlink` writes. -/
def newEntry (name : ℕ → Byte) (inum : ℕ) : List Byte := byteOf inum 0 :: byteOf inum 1 :: strncpy dirsiz name

/-- The loop of `dirlookup`, for so many entries at most. -/
def dirlookupLoop (devsw : Devsw) (sb : Superblock) (dp : Fin ninode) (name : ℕ → Byte) :
    ℕ → ℕ → Itable → Except Stop (Option (Fin ninode × ℕ) × Itable)
  | 0, _, s => .ok (none, s)
  | passes + 1, off, s =>
      if off < (s.inode dp).ip.size then do
        let (result, s) ← s.readi devsw sb dp off 16
        match result with
        | none => .error (.panic "dirlookup read")
        | some de =>
            if de.length ≠ 16 then .error (.panic "dirlookup read")
            else if inumOf de = 0 then dirlookupLoop devsw sb dp name passes (off + 16) s
            else if namecmp name (nameOf de) = 0 then do
              let (ip, s) ← s.iget (inumOf de)
              return (some (ip, off), s)
            else dirlookupLoop devsw sb dp name passes (off + 16) s
      else .ok (none, s)

/-- `dirlookup`; with the inode it yields the offset of the entry. -/
def dirlookup (devsw : Devsw) (sb : Superblock) (s : Itable) (dp : Fin ninode) (name : ℕ → Byte) :
    Except Stop (Option (Fin ninode × ℕ) × Itable) :=
  if (s.inode dp).ip.type ≠ tDir then .error (.panic "dirlookup not DIR")
  else dirlookupLoop devsw sb dp name (s.inode dp).ip.size 0 s

/-- The loop of `dirlink`: the offset of an empty entry, or the end. -/
def dirlinkLoop (devsw : Devsw) (sb : Superblock) (dp : Fin ninode) :
    ℕ → ℕ → Itable → Except Stop (ℕ × Itable)
  | 0, off, s => .ok (off, s)
  | passes + 1, off, s =>
      if off < (s.inode dp).ip.size then do
        let (result, s) ← s.readi devsw sb dp off 16
        match result with
        | none => .error (.panic "dirlink read")
        | some de =>
            if de.length ≠ 16 then .error (.panic "dirlink read")
            else if inumOf de = 0 then .ok (off, s)
            else dirlinkLoop devsw sb dp passes (off + 16) s
      else .ok (off, s)

/-- `dirlink` -/
def dirlink (devsw : Devsw) (sb : Superblock) (s : Itable) (dp : Fin ninode) (name : ℕ → Byte) (inum : ℕ) :
    Except Stop (ℤ × Itable) := do
  let (found, s) ← dirlookup devsw sb s dp name
  match found with
  | some (ip, _) =>
      let s ← s.iput sb ip
      return (-1, s)
  | none =>
      let (off, s) ← dirlinkLoop devsw sb dp (s.inode dp).ip.size 0 s
      let (result, s) ← s.writei devsw sb dp (newEntry name inum) off
      if result ≠ some 16 then .error (.panic "dirlink") else return (0, s)

/-- `memset(&de, 0, sizeof(de))` and `writei` in `sys_unlink` -/
def eraseEntry (devsw : Devsw) (sb : Superblock) (s : Itable) (dp : Fin ninode) (off : ℕ) : Except Stop Itable := do
  let (result, s) ← s.writei devsw sb dp (List.replicate 16 0) off
  if result ≠ some 16 then .error (.panic "unlink: writei") else return s

/-- An entry as a slot; it is empty if its number is 0. -/
def slotOf (de : List Byte) : Option (List Byte × ℕ) :=
  if inumOf de = 0 then none else some (key (nameOf de), inumOf de)

/-- The slots of a directory. -/
def slotsOf (data : List Byte) : List (Option (List Byte × ℕ)) :=
  (List.range (data.length / 16)).map fun k => slotOf ((data.drop (16 * k)).take 16)

variable {devsw : Devsw} {sb : Superblock} {s s' s'' : Itable} {dp i : Fin ninode} {name : ℕ → Byte}
  {data de : List Byte} {inum k l off v : ℕ} {ip : Dinode} {image : ℕ → Block}

theorem slotOf_newEntry (positive : 0 < inum) (small : inum < 2 ^ 16) :
    slotOf (newEntry name inum) = some (key name, inum) := by
  have isNumber : inumOf (newEntry name inum) = inum := by
    unfold inumOf newEntry
    rw [get_eq 2 inum fun m less => ?_, Nat.mod_eq_of_lt (by omega)]
    match m with
    | 0 => rfl
    | 1 => rfl
  have isName : nameOf (newEntry name inum) = fun m => (strncpy dirsiz name).getD m 0 := by
    funext m
    unfold nameOf newEntry
    rw [Nat.add_comm, List.getD_cons_succ, List.getD_cons_succ]
  unfold slotOf
  rw [isNumber, if_neg positive.ne', isName]
  unfold key
  rw [nameAt_strncpy]

theorem slotOf_zeroes : slotOf (List.replicate 16 0) = none := by
  have zero : inumOf (List.replicate 16 0) = 0 := get_zero 2 fun m less => by
    match m with
    | 0 => rfl
    | 1 => rfl
  unfold slotOf
  rw [if_pos zero]

theorem length_newEntry (name : ℕ → Byte) (inum : ℕ) : (newEntry name inum).length = 16 := by
  unfold newEntry
  rw [List.length_cons, List.length_cons, length_strncpy]
  rfl

theorem length_slotsOf (data : List Byte) : (slotsOf data).length = data.length / 16 := by
  unfold slotsOf
  rw [List.length_map, List.length_range]

theorem getElem?_slotsOf (less : 16 * k < data.length) (whole : 16 ∣ data.length) :
    (slotsOf data)[k]? = some (slotOf ((data.drop (16 * k)).take 16)) := by
  have inside : k < data.length / 16 := by omega
  unfold slotsOf
  rw [List.getElem?_map, List.getElem?_range inside]
  rfl

theorem drop_slotsOf (less : 16 * k < data.length) (whole : 16 ∣ data.length) :
    (slotsOf data).drop k = slotOf ((data.drop (16 * k)).take 16) :: (slotsOf data).drop (k + 1) := by
  have inside : k < (slotsOf data).length := by
    rw [length_slotsOf]
    omega
  have isSlot := getElem?_slotsOf less whole
  rw [List.getElem?_eq_getElem inside, Option.some_inj] at isSlot
  rw [List.drop_eq_getElem_cons inside, isSlot]

theorem drop_patch_before (inside : off ≤ data.length) (before : k + l ≤ off) :
    ((patch data off de).drop k).take l = (data.drop k).take l := by
  have isFront : (data.take off).length = off := List.length_take_of_le inside
  unfold patch
  rw [List.append_assoc, List.drop_append_of_le_length (by omega),
    List.take_append_of_le_length (by rw [List.length_drop]; omega), List.drop_take, List.take_take,
    Nat.min_eq_left (by omega)]

theorem drop_patch_self (inside : off ≤ data.length) : ((patch data off de).drop off).take de.length = de := by
  have isFront : (data.take off).length = off := List.length_take_of_le inside
  unfold patch
  rw [List.append_assoc, List.drop_append_of_le_length isFront.ge, List.drop_of_length_le isFront.le,
    List.nil_append, List.take_append_of_le_length le_rfl, List.take_of_length_le le_rfl]

theorem drop_patch_behind (inside : off ≤ data.length) (behind : off + de.length ≤ k) :
    (patch data off de).drop k = data.drop k := by
  have isFront : (data.take off ++ de).length = off + de.length := by
    rw [List.length_append, List.length_take_of_le inside]
  unfold patch
  rw [List.drop_append, List.drop_eq_nil_of_le (isFront.trans_le behind), List.nil_append, List.drop_drop, isFront,
    Nat.add_sub_cancel' behind]

/-- Writing an entry changes one slot. -/
theorem slotsOf_patch (inside : 16 * k ≤ data.length) (whole : 16 ∣ data.length) (isEntry : de.length = 16) :
    slotsOf (patch data (16 * k) de) = put (slotsOf data) k (slotOf de) := by
  have isLength : (patch data (16 * k) de).length = max data.length (16 * k + 16) := by
    rw [length_patch de inside, isEntry]
  have bound : k ≤ (slotsOf data).length := by
    rw [length_slotsOf]
    omega
  refine List.ext_getElem? fun j => ?_
  rw [getElem?_put bound]
  by_cases less : 16 * j < max data.length (16 * k + 16)
  · rw [getElem?_slotsOf (isLength.symm ▸ less) (by omega)]
    split
    · rename_i isK
      rw [isK, ← isEntry, drop_patch_self (isEntry.symm ▸ inside)]
    · rename_i notK
      rw [getElem?_slotsOf (by omega) whole]
      congr 2
      by_cases before : j < k
      · exact drop_patch_before inside (by omega)
      · rw [drop_patch_behind inside (by omega)]
  · have isEnd : (slotsOf (patch data (16 * k) de)).length ≤ j := by
      rw [length_slotsOf]
      omega
    have isEnd' : (slotsOf data).length ≤ j := by
      rw [length_slotsOf]
      omega
    rw [List.getElem?_eq_none isEnd, List.getElem?_eq_none isEnd', if_neg (by omega)]

/-! ## Looking a name up -/

/-- `dirlookup` on slots: the number and the offset of the first entry with the name. -/
def scan : List (Option (List Byte × ℕ)) → ℕ → List Byte → Option (ℕ × ℕ)
  | [], _, _ => none
  | none :: slots, off, name => scan slots (off + 16) name
  | some (other, inum) :: slots, off, name => if other = name then some (inum, off) else scan slots (off + 16) name

theorem scan_eq (slots : List (Option (List Byte × ℕ))) : ∀ off name, scan slots off name =
    (position slots name).bind fun k => (toMap slots name).map fun inum => (inum, off + 16 * k) := by
  have later : ∀ slot slots name, (slot : Option (List Byte × ℕ)).any (fun pair => pair.1 = name) = false →
      position (slot :: slots) name = (position slots name).map (· + 1) ∧
      toMap (slot :: slots) name = toMap slots name := by
    intro slot slots name other
    have isPlace : position (slot :: slots) name = (position slots name).map (· + 1) := by
      unfold position
      rw [List.findIdx?_cons, other, if_neg Bool.false_ne_true]
    refine ⟨isPlace, ?_⟩
    unfold toMap
    rw [isPlace]
    cases position slots name with
    | none => rfl
    | some k => rfl
  have shift : ∀ (slots : List (Option (List Byte × ℕ))) off name,
      ((position slots name).bind fun k => (toMap slots name).map fun inum => (inum, off + 16 + 16 * k)) =
      (Option.map (· + 1) (position slots name)).bind fun k =>
        (toMap slots name).map fun inum => (inum, off + 16 * k) := by
    intro slots off name
    cases position slots name with
    | none => rfl
    | some k =>
        simp only [Option.bind_some, Option.map_some]
        congr 2
        funext inum
        rw [Prod.mk.injEq]
        omega
  induction slots with
  | nil => exact fun off name => rfl
  | cons slot slots ih =>
      intro off name
      rcases slot with _ | ⟨other, inum⟩
      · rw [scan, ih, (later none slots name rfl).1, (later none slots name rfl).2, shift]
      · rw [scan]
        split
        · rename_i isName
          have isPlace : position (some (other, inum) :: slots) name = some 0 := by
            unfold position
            rw [List.findIdx?_cons, Option.any_some, decide_eq_true isName, if_pos rfl]
          unfold toMap
          rw [isPlace]
          rfl
        · rename_i notName
          have isOther : (some (other, inum)).any (fun pair => pair.1 = name) = false := by
            rw [Option.any_some, decide_eq_false notName]
          rw [ih, (later _ slots name isOther).1, (later _ slots name isOther).2, shift]

/-- A directory whose blocks are all there. -/
structure Directory (ip : Dinode) (image : ℕ → Block) (data : List Byte) : Prop where
  isDir : ip.type = tDir
  regular : Regular ip image data
  whole : 16 ∣ data.length

theorem Directory.readi (directory : Directory (s.inode dp).ip s.image data) (devsw : Devsw) (sb : Superblock)
    (less : 16 * k < data.length) :
    s.readi devsw sb dp (16 * k) 16 = .ok (some ((data.drop (16 * k)).take 16), s) ∧
      ((data.drop (16 * k)).take 16).length = 16 := by
  have whole := directory.whole
  have regular := directory.regular
  have bound := regular.holds.bound
  unfold maxfile ndirect nindirect bsize at bound
  have isRead := regular.holds.readi devsw sb regular.notDevice regular.size (n := 16) less.le (by omega)
  constructor
  · unfold Itable.readi
    rw [isRead]
    change Except.ok (_, s.set dp (s.inode dp)) = _
    rw [Itable.set_inode]
  · rw [List.length_take, List.length_drop]
    omega

/-- What `dirlookup` yields. -/
def lookupResult (s : Itable) : Option (ℕ × ℕ) → Except Stop (Option (Fin ninode × ℕ) × Itable)
  | none => .ok (none, s)
  | some (inum, off) => do
      let (ip, s) ← s.iget inum
      return (some (ip, off), s)

theorem Directory.dirlookupLoop (directory : Directory (s.inode dp).ip s.image data) (devsw : Devsw)
    (sb : Superblock) (name : ℕ → Byte) (passes : ℕ) : ∀ k, data.length ≤ 16 * k + passes →
    Fs.dirlookupLoop devsw sb dp name passes (16 * k) s =
      lookupResult s (scan ((slotsOf data).drop k) (16 * k) (key name)) := by
  have whole := directory.whole
  have atEnd : ∀ k, data.length ≤ 16 * k → (slotsOf data).drop k = [] := by
    intro k beyond
    refine List.drop_of_length_le ?_
    rw [length_slotsOf]
    omega
  induction passes with
  | zero =>
      intro k enough
      rw [atEnd k enough]
      rfl
  | succ passes ih =>
      intro k enough
      rw [Fs.dirlookupLoop, directory.regular.size]
      by_cases less : 16 * k < data.length
      · have next := ih (k + 1) (by omega)
        rw [Nat.mul_add_one] at next
        rcases directory.readi devsw sb less with ⟨isRead, isLength⟩
        rw [if_pos less, isRead, drop_slotsOf less whole]
        generalize (data.drop (16 * k)).take 16 = de at isLength
        change (if de.length ≠ 16 then _ else _) = _
        rw [if_neg (not_not_intro isLength), slotOf]
        split
        · rw [next, scan]
        · rw [scan]
          simp only [namecmp_eq_zero, eq_comm (a := key name)]
          split
          · rfl
          · exact next
      · rw [if_neg less, atEnd k (Nat.not_lt.1 less)]
        rfl

/-- `dirlookup` yields what the map gives. -/
theorem Directory.dirlookup (directory : Directory (s.inode dp).ip s.image data) (devsw : Devsw)
    (sb : Superblock) (name : ℕ → Byte) :
    Fs.dirlookup devsw sb s dp name = lookupResult s (scan (slotsOf data) 0 (key name)) := by
  unfold Fs.dirlookup
  rw [if_neg (not_not_intro directory.isDir), directory.regular.size]
  exact directory.dirlookupLoop devsw sb name data.length 0 (by omega)

theorem Directory.dirlinkLoop (directory : Directory (s.inode dp).ip s.image data) (devsw : Devsw)
    (sb : Superblock) (passes : ℕ) : ∀ k, 16 * k ≤ data.length → data.length ≤ 16 * k + passes →
    Fs.dirlinkLoop devsw sb dp passes (16 * k) s = .ok (16 * (k + firstEmpty ((slotsOf data).drop k)), s) := by
  have whole := directory.whole
  have atEnd : ∀ k, data.length ≤ 16 * k → firstEmpty ((slotsOf data).drop k) = 0 := by
    intro k beyond
    rw [List.drop_of_length_le]
    · rfl
    · rw [length_slotsOf]
      omega
  induction passes with
  | zero =>
      intro k inside enough
      rw [atEnd k enough]
      rfl
  | succ passes ih =>
      intro k inside enough
      rw [Fs.dirlinkLoop, directory.regular.size]
      by_cases less : 16 * k < data.length
      · have next := ih (k + 1) (by omega) (by omega)
        rw [Nat.mul_add_one] at next
        rcases directory.readi devsw sb less with ⟨isRead, isLength⟩
        rw [if_pos less, isRead, drop_slotsOf less whole]
        generalize (data.drop (16 * k)).take 16 = de at isLength
        change (if de.length ≠ 16 then _ else _) = _
        rw [if_neg (not_not_intro isLength), slotOf]
        unfold firstEmpty at next ⊢
        split
        · rw [List.findIdx_cons]
          rfl
        · rw [List.findIdx_cons, next]
          dsimp only [Option.isNone, cond]
          congr 2
          omega
      · rw [if_neg less, atEnd k (Nat.not_lt.1 less)]
        rfl

/-! ## A locked directory -/

/-- A directory as the callers of `dirlink` have it: locked, and no name is there twice. -/
structure OpenDirectory (sb : Superblock) (s : Itable) (dp : Fin ninode) (data : List Byte) : Prop where
  ok : s.Ok
  used : 0 < (s.inode dp).ref
  locked : (s.inode dp).locked = true
  isDir : (s.inode dp).ip.type = tDir
  size : (s.inode dp).ip.size = data.length
  whole : 16 ∣ data.length
  file : FileHolds sb (s.inode dp).inum (s.inode dp).ip s.image data
  distinct : Distinct (slotsOf data)

/-- There is an empty slot, or the directory can grow. -/
def HasRoom (sb : Superblock) (s : Itable) (dp : Fin ninode) (data : List Byte) : Prop :=
  firstEmpty (slotsOf data) < (slotsOf data).length ∨ data.length + 16 ≤ maxfile * bsize ∧
    missing s.image (s.inode dp).ip (places data.length 16) ≤ free sb s.image

theorem OpenDirectory.directory (dir : OpenDirectory sb s dp data) : Directory (s.inode dp).ip s.image data := by
  refine ⟨dir.isDir, ⟨?_, dir.size, dir.file.inodeHolds⟩, dir.whole⟩
  rw [dir.isDir]
  decide

theorem OpenDirectory.congr (dir : OpenDirectory sb s dp data) (ok : s'.Ok) (used : 0 < (s'.inode dp).ref)
    (locked : (s'.inode dp).locked = (s.inode dp).locked) (inum : (s'.inode dp).inum = (s.inode dp).inum)
    (ip : (s'.inode dp).ip = (s.inode dp).ip) (image : s'.image = s.image) : OpenDirectory sb s' dp data := by
  refine ⟨ok, used, locked.trans dir.locked, ?_, ?_, dir.whole, ?_, dir.distinct⟩
  · rw [ip]
    exact dir.isDir
  · rw [ip]
    exact dir.size
  · rw [ip, inum, image]
    exact dir.file

theorem OpenDirectory.unchanged (dir : OpenDirectory sb s dp data) (unchanged : s.Unchanged s') :
    OpenDirectory sb s' dp data := by
  have same := unchanged.used dp dir.used
  refine dir.congr (unchanged.ok dir.ok) ?_ ?_ ?_ ?_ unchanged.image
  · rw [same]
    exact dir.used
  · rw [same]
  · rw [same]
  · rw [same]

theorem OpenDirectory.got (dir : OpenDirectory sb s dp data) (got : s.Got v i s') : OpenDirectory sb s' dp data := by
  rcases got.stays dir.used with ⟨isInum, -, isIp⟩
  refine dir.congr (got.ok dir.ok) ?_ (got.locked dp) isInum isIp got.image
  rw [got.ref]
  exact dir.used.trans_le (Nat.le_add_right _ _)

/-- `writei` keeps the type. -/
theorem FileHolds.writei_type (file : FileHolds sb inum ip image data) {ip' : Dinode} {image' : ℕ → Block}
    {src : List Byte} {result : Option ℕ} (isSize : ip.size = data.length) (small : src.length < 2 ^ 32)
    (isWrite : Fs.writei devsw sb inum ip image src off = some (result, ip', image')) : ip'.type = ip.type := by
  rcases file.writei_cases isSize small isWrite with
    ⟨-, isSame, -⟩ | ⟨-, -, ip₁, image₁, -, fields, ⟨-, isIp, -⟩ | ⟨-, isIp, -⟩⟩
  · rw [isSame]
  · rw [isIp, fields]
  · rw [isIp, fields]

/-- The entries of the cache other than the directory are as they were, and so are the references to it. -/
structure OnlyContent (s : Itable) (dp : Fin ninode) (s' : Itable) : Prop where
  others : ∀ k ≠ dp, s'.inode k = s.inode k
  entry : ∃ ip, s'.inode dp = { s.inode dp with ip }

theorem OnlyContent.field {α : Type} (only : OnlyContent s dp s') (f : CachedInode → α)
    (same : ∀ entry ip, f { entry with ip } = f entry) (k : Fin ninode) : f (s'.inode k) = f (s.inode k) := by
  by_cases isDp : k = dp
  · subst isDp
    rcases only.entry with ⟨ip, isEntry⟩
    rw [isEntry, same]
  · rw [only.others k isDp]

theorem OnlyContent.ok (only : OnlyContent s dp s') (ok : s.Ok) : s'.Ok := by
  have isRef := only.field CachedInode.ref fun _ _ => rfl
  refine ok.congr (fun k used => ⟨isRef k ▸ used, only.field CachedInode.inum (fun _ _ => rfl) k⟩) fun k unused => ?_
  rw [isRef] at unused
  rw [only.field CachedInode.locked fun _ _ => rfl]
  exact ok.idle k unused

/-- The directory with another entry, at a slot or at the end. -/
structure Rewritten (sb : Superblock) (s : Itable) (dp : Fin ninode) (data : List Byte) (k : ℕ) (de : List Byte)
    (s' : Itable) : Prop where
  dir : OpenDirectory sb s' dp (patch data (16 * k) de)
  slots : slotsOf (patch data (16 * k) de) = put (slotsOf data) k (slotOf de)
  only : OnlyContent s dp s'

theorem onlyContent_set (s : Itable) (dp : Fin ninode) (ip : Dinode) (image : ℕ → Block) :
    OnlyContent s dp { s.set dp { s.inode dp with ip } with image } :=
  ⟨fun _ different => Itable.set_other different, ip, Itable.set_self s dp _⟩

/-- A call of `writei` that returns has written the entry. -/
theorem OpenDirectory.rewritten (dir : OpenDirectory sb s dp data) (isEntry : de.length = 16)
    (inside : 16 * k ≤ data.length) (distinct : Distinct (put (slotsOf data) k (slotOf de)))
    (isWrite : s.writei devsw sb dp de (16 * k) = .ok (some 16, s')) : Rewritten sb s dp data k de s' := by
  unfold Itable.writei at isWrite
  split at isWrite
  · cases isWrite
  · rename_i result ip image isWrite'
    rw [Except.ok.injEq, Prod.mk.injEq] at isWrite
    rcases isWrite with ⟨rfl, rfl⟩
    have small : de.length < 2 ^ 32 := by
      rw [isEntry]
      decide
    have isType := dir.file.writei_type dir.size small isWrite'
    have slots := slotsOf_patch inside dir.whole isEntry
    have only := onlyContent_set s dp ip image
    rcases dir.file.writei dir.size small isWrite' with ⟨⟨⟩, -⟩ | ⟨-, -, file, isSize⟩
    refine ⟨⟨only.ok dir.ok, ?_, ?_, ?_, ?_, ?_, ?_, ?_⟩, slots, only⟩
    · rw [Itable.set_self]
      exact dir.used
    · rw [Itable.set_self]
      exact dir.locked
    · rw [Itable.set_self]
      exact isType.trans dir.isDir
    · rw [Itable.set_self]
      exact isSize
    · have whole := dir.whole
      rw [length_patch de inside, isEntry]
      omega
    · rw [Itable.set_self]
      exact file
    · rw [slots]
      exact distinct

/-- Writing bytes that are there needs no blocks. -/
theorem InodeHolds.missing_inside {n : ℕ} (holds : InodeHolds image ip data) (inside : off + n ≤ data.length) :
    missing image ip (places off n) = 0 := by
  unfold missing
  rw [Finset.card_eq_zero, Finset.filter_eq_empty_iff]
  intro l member
  unfold places at member
  simp only [Finset.mem_biUnion, Finset.mem_range] at member
  rcases member with ⟨j, less, isTouched⟩
  exact holds.touched (by omega) isTouched

/-- `writei` writes an entry for which there are blocks. -/
theorem OpenDirectory.exists_writei (dir : OpenDirectory sb s dp data) (devsw : Devsw) (isEntry : de.length = 16)
    (room : 16 * k + 16 ≤ data.length ∨ 16 * k = data.length ∧ data.length + 16 ≤ maxfile * bsize ∧
      missing s.image (s.inode dp).ip (places data.length 16) ≤ free sb s.image) :
    ∃ ip image, s.writei devsw sb dp de (16 * k) =
        .ok (some 16, { s.set dp { s.inode dp with ip } with image }) ∧
      Wrote sb (s.inode dp).inum (s.inode dp).ip s.image data de (16 * k) ip image := by
  have bound := dir.file.inodeHolds.bound
  have isMissing : missing s.image (s.inode dp).ip (places (16 * k) de.length) ≤ free sb s.image := by
    rw [isEntry]
    rcases room with inside | ⟨atEnd, -, enough⟩
    · exact (dir.file.inodeHolds.missing_inside inside).trans_le (Nat.zero_le _)
    · rw [atEnd]
      exact enough
  have accepted : ¬Refused (s.inode dp).ip (16 * k) de.length := by
    unfold Refused
    rw [dir.size, isEntry]
    unfold maxfile ndirect nindirect bsize at *
    omega
  rcases dir.file.exists_writei devsw dir.size accepted isMissing with ⟨ip, image, isWrite, wrote⟩
  refine ⟨ip, image, ?_, wrote⟩
  unfold Itable.writei
  rw [isWrite, isEntry]

theorem scan_absent (absent : toMap (slotsOf data) (key name) = none) : scan (slotsOf data) 0 (key name) = none := by
  rw [scan_eq, toMap_none absent]
  rfl

theorem scan_present (isMap : toMap (slotsOf data) (key name) = some v) : ∃ k,
    scan (slotsOf data) 0 (key name) = some (v, 16 * k) ∧ HasPair (slotsOf data) k (key name) v := by
  rcases toMap_some isMap with ⟨k, isPlace, holds⟩
  refine ⟨k, ?_, holds⟩
  rw [scan_eq, isPlace, isMap, Option.bind_some, Option.map_some, Nat.zero_add]

/-! ## `dirlink` -/

theorem OpenDirectory.dirlink_absent (dir : OpenDirectory sb s dp data) (devsw : Devsw) (inum : ℕ)
    (absent : toMap (slotsOf data) (key name) = none) : dirlink devsw sb s dp name inum = do
      let (result, s) ← s.writei devsw sb dp (newEntry name inum) (16 * firstEmpty (slotsOf data))
      if result ≠ some 16 then .error (.panic "dirlink") else return (0, s) := by
  have isLoop := dir.directory.dirlinkLoop devsw sb data.length 0 (Nat.zero_le _) (by omega)
  rw [Nat.mul_zero, List.drop_zero, Nat.zero_add] at isLoop
  unfold dirlink
  rw [dir.directory.dirlookup, scan_absent absent]
  change (Fs.dirlinkLoop devsw sb dp (s.inode dp).ip.size 0 s >>= _) = _
  rw [dir.size, isLoop]
  rfl

theorem OpenDirectory.dirlink_present (dir : OpenDirectory sb s dp data) (devsw : Devsw) (inum : ℕ)
    (isMap : toMap (slotsOf data) (key name) = some v) : dirlink devsw sb s dp name inum = do
      let (ip, s) ← s.iget v
      let s ← s.iput sb ip
      return (-1, s) := by
  rcases scan_present isMap with ⟨k, isScan, -⟩
  unfold dirlink
  rw [dir.directory.dirlookup, isScan, lookupResult]
  rcases s.iget v with stop | ⟨ip, s'⟩
  · rfl
  · rfl

/-- A new pair. -/
theorem OpenDirectory.newPair (dir : OpenDirectory sb s dp data)
    (absent : toMap (slotsOf data) (key name) = none) (positive : 0 < inum) (small : inum < 2 ^ 16) :
    put (slotsOf data) (firstEmpty (slotsOf data)) (slotOf (newEntry name inum)) =
      SlotTable.insert (slotsOf data) (key name) inum ∧
    Distinct (put (slotsOf data) (firstEmpty (slotsOf data)) (slotOf (newEntry name inum))) ∧
    16 * firstEmpty (slotsOf data) ≤ data.length := by
  have isSlot : slotOf (newEntry name inum) = some (key name, inum) := slotOf_newEntry positive small
  have bound := firstEmpty_le (slotsOf data)
  rw [length_slotsOf] at bound
  rw [isSlot]
  exact ⟨rfl, dir.distinct.insert absent inum, by omega⟩

/-- `dirlink` adds a name that is not there. -/
theorem OpenDirectory.linked (dir : OpenDirectory sb s dp data) (devsw : Devsw)
    (absent : toMap (slotsOf data) (key name) = none) (positive : 0 < inum) (small : inum < 2 ^ 16)
    (room : HasRoom sb s dp data) : ∃ ip image,
    dirlink devsw sb s dp name inum = .ok (0, { s.set dp { s.inode dp with ip } with image }) ∧
    Rewritten sb s dp data (firstEmpty (slotsOf data)) (newEntry name inum)
      { s.set dp { s.inode dp with ip } with image } ∧
    Wrote sb (s.inode dp).inum (s.inode dp).ip s.image data (newEntry name inum)
      (16 * firstEmpty (slotsOf data)) ip image := by
  rcases dir.newPair absent positive small with ⟨-, distinct, inside⟩
  have isEntry := length_newEntry name inum
  have whole := dir.whole
  have bound := firstEmpty_le (slotsOf data)
  unfold HasRoom at room
  rw [length_slotsOf] at room bound
  have possible : 16 * firstEmpty (slotsOf data) + 16 ≤ data.length ∨ 16 * firstEmpty (slotsOf data) = data.length ∧
      data.length + 16 ≤ maxfile * bsize ∧
      missing s.image (s.inode dp).ip (places data.length 16) ≤ free sb s.image := by
    by_cases slot : firstEmpty (slotsOf data) < data.length / 16
    · exact .inl (by omega)
    · exact .inr ⟨by omega, room.resolve_left slot⟩
  rcases dir.exists_writei devsw isEntry possible with ⟨ip, image, isWrite, wrote⟩
  refine ⟨ip, image, ?_, dir.rewritten isEntry inside distinct isWrite, wrote⟩
  rw [dir.dirlink_absent devsw inum absent, isWrite]
  rfl

/-- The inode can be found in the cache, or get an entry, and its lock is not held by the caller. -/
def Available (s : Itable) (v : ℕ) : Prop :=
  s.Room v ∧ ∀ i, 0 < (s.inode i).ref → (s.inode i).inum = v → (s.inode i).locked = false

theorem Itable.Got.notLocked (got : s.Got v i s') (ok : s.Ok) (available : Available s v) :
    (s.inode i).locked = false := by
  cases got with
  | again used same => exact available.2 i used same
  | fresh _ unused => exact ok.idle i unused

/-- `dirlink` finds the name. -/
theorem OpenDirectory.found (dir : OpenDirectory sb s dp data) (devsw : Devsw) (inum : ℕ)
    (isMap : toMap (slotsOf data) (key name) = some v) (available : Available s v) :
    ∃ s', dirlink devsw sb s dp name inum = .ok (-1, s') ∧ s.Unchanged s' := by
  rcases Itable.iget_ok_iff.2 available.1 with ⟨i, s₁, isGet⟩
  have got := Itable.iget_got isGet
  rcases got.iput sb (got.notLocked dir.ok available) with ⟨s₂, isPut, unchanged⟩
  refine ⟨s₂, ?_, unchanged⟩
  rw [dir.dirlink_present devsw inum isMap, isGet]
  change (s₁.iput sb i >>= _) = _
  rw [isPut]
  rfl

/-- `iput` of a name that has been found waits for a lock of the caller. -/
theorem OpenDirectory.asleep (dir : OpenDirectory sb s dp data) (devsw : Devsw) (inum : ℕ)
    (isMap : toMap (slotsOf data) (key name) = some v) (used : 0 < (s.inode i).ref) (same : (s.inode i).inum = v)
    (locked : (s.inode i).locked = true) : dirlink devsw sb s dp name inum = .error .asleep := by
  rcases Itable.iget_ok_iff.2 ⟨i, .inl ⟨used, same⟩⟩ with ⟨j, s₁, isGet⟩
  have got := Itable.iget_got isGet
  have isEntry : j = i := by
    cases got with
    | again used' same' => exact dir.ok.unique j i used' used (same'.trans same.symm)
    | fresh none _ => exact absurd same (none i used)
  have stays := got.locked j
  rw [isEntry, locked] at stays
  rw [dir.dirlink_present devsw inum isMap, isGet]
  change (s₁.iput sb j >>= _) = _
  unfold Itable.iput
  rw [isEntry, stays, if_pos rfl]
  rfl

/-! ## Erasing an entry -/

theorem OpenDirectory.erasable (dir : OpenDirectory sb s dp data) (holds : HasPair (slotsOf data) k (key name) v) :
    16 * k + 16 ≤ data.length ∧ Distinct (put (slotsOf data) k (slotOf (List.replicate 16 0))) ∧
    toMap (put (slotsOf data) k (slotOf (List.replicate 16 0))) =
      Function.update (toMap (slotsOf data)) (key name) none := by
  have less := holds.lt
  rw [slotOf_zeroes]
  refine ⟨?_, dir.distinct.erase less.le, dir.distinct.toMap_erase holds⟩
  rw [length_slotsOf] at less
  omega

theorem OpenDirectory.erased (dir : OpenDirectory sb s dp data) (devsw : Devsw)
    (holds : HasPair (slotsOf data) k (key name) v) : ∃ ip image,
    eraseEntry devsw sb s dp (16 * k) = .ok { s.set dp { s.inode dp with ip } with image } ∧
    Rewritten sb s dp data k (List.replicate 16 0) { s.set dp { s.inode dp with ip } with image } ∧
    Wrote sb (s.inode dp).inum (s.inode dp).ip s.image data (List.replicate 16 0) (16 * k) ip image := by
  rcases dir.erasable holds with ⟨inside, distinct, -⟩
  have isEntry : (List.replicate 16 (0 : Byte)).length = 16 := List.length_replicate
  rcases dir.exists_writei devsw isEntry (.inl inside) with ⟨ip, image, isWrite, wrote⟩
  refine ⟨ip, image, ?_, dir.rewritten isEntry (by omega) distinct isWrite, wrote⟩
  unfold eraseEntry
  rw [isWrite]
  rfl

/-! ## Directories are finite maps -/

/-- A call of `dirlink`, or the erasure of an entry that `dirlookup` has found. -/
inductive DirStep (devsw : Devsw) (sb : Superblock) (dp : Fin ninode) (s s' : Itable) : Prop where
  | link (name : ℕ → Byte) (inum : ℕ) (result : ℤ) : 0 < inum → inum < 2 ^ 16 →
      dirlink devsw sb s dp name inum = .ok (result, s') → DirStep devsw sb dp s s'
  | erase (name : ℕ → Byte) (ip : Fin ninode) (off : ℕ) (found : Itable) :
      dirlookup devsw sb s dp name = .ok (some (ip, off), found) →
      eraseEntry devsw sb found dp off = .ok s' → DirStep devsw sb dp s s'

/-- What is changed on the disk belongs to the directory. -/
def OwnContent (sb : Superblock) (s : Itable) (dp : Fin ninode) (s' : Itable) : Prop :=
  OnlyContent s dp s' ∧
    OwnChange sb (s.inode dp).inum (s.inode dp).ip s.image (s'.inode dp).ip s'.image

/-- The calls do what they should do for the map. -/
structure DirCorrect (devsw : Devsw) (sb : Superblock) (s : Itable) (dp : Fin ninode) (data : List Byte)
    (name : ℕ → Byte) (inum : ℕ) : Prop where
  lookup : ∀ v, toMap (slotsOf data) (key name) = some v → ∃ k i s',
    position (slotsOf data) (key name) = some k ∧ s.iget v = .ok (i, s') ∧
    dirlookup devsw sb s dp name = .ok (some (i, 16 * k), s')
  lookupAbsent : toMap (slotsOf data) (key name) = none → dirlookup devsw sb s dp name = .ok (none, s)
  link : toMap (slotsOf data) (key name) = none → ∃ s' data', dirlink devsw sb s dp name inum = .ok (0, s') ∧
    data' = patch data (16 * firstEmpty (slotsOf data)) (newEntry name inum) ∧ OpenDirectory sb s' dp data' ∧
    toMap (slotsOf data') = Function.update (toMap (slotsOf data)) (key name) (some inum) ∧ OwnContent sb s dp s'
  linkPresent : ∀ v, toMap (slotsOf data) (key name) = some v →
    ∃ s', dirlink devsw sb s dp name inum = .ok (-1, s') ∧ s.Unchanged s'
  erase : ∀ i off found, dirlookup devsw sb s dp name = .ok (some (i, off), found) → ∃ s' data',
    eraseEntry devsw sb found dp off = .ok s' ∧ OpenDirectory sb s' dp data' ∧
    toMap (slotsOf data') = Function.update (toMap (slotsOf data)) (key name) none ∧ OwnContent sb found dp s'

theorem OpenDirectory.lookup_found (dir : OpenDirectory sb s dp data)
    (isLookup : dirlookup devsw sb s dp name = .ok (some (i, off), s')) : ∃ v k,
    off = 16 * k ∧ HasPair (slotsOf data) k (key name) v ∧ s.Got v i s' := by
  rw [dir.directory.dirlookup] at isLookup
  rcases isMap : toMap (slotsOf data) (key name) with _ | v
  · rw [scan_absent isMap] at isLookup
    cases isLookup
  · rcases scan_present isMap with ⟨k, isScan, holds⟩
    rw [isScan, lookupResult] at isLookup
    rcases isGet : s.iget v with stop | ⟨j, s₁⟩
    · rw [isGet] at isLookup
      cases isLookup
    · rw [isGet] at isLookup
      cases isLookup
      exact ⟨v, k, rfl, holds, Itable.iget_got isGet⟩

/-- Names stay different. -/
theorem OpenDirectory.step (dir : OpenDirectory sb s dp data) (step : DirStep devsw sb dp s s') :
    ∃ data', OpenDirectory sb s' dp data' := by
  cases step with
  | link name inum result positive small isLink =>
      rcases isMap : toMap (slotsOf data) (key name) with _ | v
      · rcases dir.newPair isMap positive small with ⟨-, distinct, inside⟩
        rw [dir.dirlink_absent devsw inum isMap] at isLink
        rcases isWrite : s.writei devsw sb dp (newEntry name inum) (16 * firstEmpty (slotsOf data)) with
          stop | ⟨written, s₁⟩
        · rw [isWrite] at isLink
          cases isLink
        · rw [isWrite] at isLink
          change (if written ≠ some 16 then _ else _) = _ at isLink
          split at isLink
          · cases isLink
          · rename_i isAll
            cases isLink
            rw [not_not.1 isAll] at isWrite
            exact ⟨_, (dir.rewritten (length_newEntry name inum) inside distinct isWrite).dir⟩
      · rw [dir.dirlink_present devsw inum isMap] at isLink
        rcases isGet : s.iget v with stop | ⟨i, s₁⟩
        · rw [isGet] at isLink
          cases isLink
        · rw [isGet] at isLink
          change (s₁.iput sb i >>= _) = _ at isLink
          have got := Itable.iget_got isGet
          rcases isLocked : (s.inode i).locked with _ | _
          · rcases got.iput sb isLocked with ⟨s₂, isPut, unchanged⟩
            rw [isPut] at isLink
            cases isLink
            exact ⟨data, dir.unchanged unchanged⟩
          · unfold Itable.iput at isLink
            rw [got.locked, isLocked, if_pos rfl] at isLink
            cases isLink
  | erase name ip off found isLookup isErase =>
      rcases dir.lookup_found isLookup with ⟨v, k, rfl, holds, got⟩
      rcases (dir.got got).erased devsw holds with ⟨ip', image', isErase', rewritten, -⟩
      rw [isErase] at isErase'
      cases isErase'
      exact ⟨_, rewritten.dir⟩

/-- A directory is a finite map, and `dirlink` finds a name unless `iput` has to wait for the caller. -/
theorem directory_map (devsw : Devsw) (dir : OpenDirectory sb s dp data) :
    (∀ s', Relation.ReflTransGen (DirStep devsw sb dp) s s' → ∃ data', OpenDirectory sb s' dp data') ∧
    ∀ name inum, 0 < inum → inum < 2 ^ 16 → HasRoom sb s dp data →
      (DirCorrect devsw sb s dp data name inum ↔
        ∀ v, toMap (slotsOf data) (key name) = some v → Available s v) := by
  constructor
  · intro s' runs
    induction runs with
    | refl => exact ⟨data, dir⟩
    | tail _ step ih =>
        rcases ih with ⟨data', dir'⟩
        exact dir'.step step
  · intro name inum positive small room
    constructor
    · intro correct v isMap
      rcases correct.lookup v isMap with ⟨k, j, s', -, isGet, -⟩
      refine ⟨Itable.iget_ok_iff.1 ⟨j, s', isGet⟩, fun i used same => ?_⟩
      rcases isLocked : (s.inode i).locked with _ | _
      · rfl
      · rcases correct.linkPresent v isMap with ⟨s'', isLink, -⟩
        rw [dir.asleep devsw inum isMap used same isLocked] at isLink
        cases isLink
    · intro available
      refine ⟨fun v isMap => ?_, fun absent => ?_, fun absent => ?_, fun v isMap =>
        dir.found devsw inum isMap (available v isMap), fun i off found isLookup => ?_⟩
      · rcases toMap_some isMap with ⟨k, isPlace, -⟩
        rcases Itable.iget_ok_iff.2 (available v isMap).1 with ⟨i, s', isGet⟩
        refine ⟨k, i, s', isPlace, isGet, ?_⟩
        rw [dir.directory.dirlookup, scan_eq, isPlace, isMap, Option.bind_some, Option.map_some, lookupResult, isGet,
          Nat.zero_add]
        rfl
      · rw [dir.directory.dirlookup, scan_absent absent]
        rfl
      · rcases dir.linked devsw absent positive small room with ⟨ip, image, isLink, rewritten, wrote⟩
        refine ⟨_, _, isLink, rfl, rewritten.dir, ?_, rewritten.only, ?_⟩
        · rw [rewritten.slots, (dir.newPair absent positive small).1]
          exact dir.distinct.toMap_insert absent inum
        · rw [Itable.set_self]
          exact wrote.change
      · rcases dir.lookup_found isLookup with ⟨v, k, rfl, holds, got⟩
        have dir' := dir.got got
        rcases dir'.erased devsw holds with ⟨ip, image, isErase, rewritten, wrote⟩
        refine ⟨_, _, isErase, rewritten.dir, ?_, rewritten.only, ?_⟩
        · rw [rewritten.slots]
          exact (dir'.erasable holds).2.2
        · rw [Itable.set_self]
          exact wrote.change

/-- An empty directory is locked; nothing else is in the cache. -/
def emptyDirectory : Itable where
  inode i := if i = 0 then { inum := 1, ref := 1, locked := true, valid := true, ip := { type := tDir, nlink := 1 } }
    else {}
  image := fourUsed

theorem emptyDirectory_open : OpenDirectory eightBlocks emptyDirectory 0 [] := by
  have isZero : ∀ i, 0 < (emptyDirectory.inode i).ref → i = 0 := by
    intro i used
    by_contra other
    unfold emptyDirectory at used
    dsimp only at used
    rw [if_neg other] at used
    cases used
  refine ⟨⟨fun i j usedI usedJ _ => (isZero i usedI).trans (isZero j usedJ).symm, fun i unused => ?_⟩, by decide, rfl,
    rfl, rfl, dvd_zero 16, sizedDisk_noBlocks (by decide) rfl (by decide), ?_⟩
  · by_cases isFirst : i = 0
    · subst isFirst
      cases unused
    · unfold emptyDirectory
      dsimp only
      rw [if_neg isFirst]
  · intro i j name v w holds
    cases holds

theorem emptyDirectory_room : HasRoom eightBlocks emptyDirectory 0 [] := .inr (by decide +kernel)

/-- The name of one byte. -/
def shortName (byte : Byte) (m : ℕ) : Byte := if m = 0 then byte else 0

/-- A name has been added to the empty directory. -/
structure OneEntry (s : Itable) (data : List Byte) (byte : Byte) (inum : ℕ) : Prop where
  dir : OpenDirectory eightBlocks s 0 data
  room : HasRoom eightBlocks s 0 data
  slots : toMap (slotsOf data) = Function.update (toMap (slotsOf [])) (key (shortName byte)) (some inum)
  inum : (s.inode 0).inum = 1
  others : ∀ i ≠ 0, (s.inode i).ref = 0

theorem oneEntry (byte : Byte) (inum : ℕ) (positive : 0 < inum) (small : inum < 2 ^ 16) :
    ∃ s data, OneEntry s data byte inum := by
  let devsw : Devsw := ⟨fun _ _ => none, fun _ _ => none⟩
  have absent : toMap (slotsOf []) (key (shortName byte)) = none := rfl
  rcases emptyDirectory_open.linked devsw absent positive small emptyDirectory_room with
    ⟨ip, image, -, rewritten, -⟩
  generalize isState : ({ emptyDirectory.set 0 { emptyDirectory.inode 0 with ip } with image } : Itable) = s at rewritten
  have isLength : (patch ([] : List Byte) (16 * firstEmpty (slotsOf [])) (newEntry (shortName byte) inum)).length =
      16 := by
    have isFirst : 16 * firstEmpty (slotsOf []) = 0 := rfl
    rw [isFirst, length_patch _ (by simp), length_newEntry]
    rfl
  have dir := rewritten.dir
  refine ⟨s, _, dir, .inr ⟨?_, ?_⟩, ?_, ?_, fun i different => ?_⟩
  · rw [isLength]
    decide
  · have holds := dir.file.inodeHolds
    rw [isLength]
    refine Nat.le_trans (Nat.le_of_eq ?_) (Nat.zero_le _)
    unfold missing
    rw [Finset.card_eq_zero, Finset.filter_eq_empty_iff]
    intro l member
    have isPlaces : places 16 16 = touched (0 / bsize) := by decide
    rw [isPlaces] at member
    exact holds.touched (by rw [isLength]; decide) member
  · rw [rewritten.slots, slotOf_newEntry positive small]
    exact emptyDirectory_open.distinct.toMap_insert absent inum
  · rw [← isState, Itable.set_self]
    rfl
  · have untouched := rewritten.only.1 i different
    rw [untouched]
    unfold emptyDirectory
    dsimp only
    rw [if_neg different]

/-- A directory with one entry, where this name is there and another one is not. -/
theorem directory_map_oneEntry : ∃ s data, OneEntry s data 0x61 7 ∧
    DirCorrect ⟨fun _ _ => none, fun _ _ => none⟩ eightBlocks s 0 data (shortName 0x61) 9 ∧
    DirCorrect ⟨fun _ _ => none, fun _ _ => none⟩ eightBlocks s 0 data (shortName 0x62) 9 := by
  rcases oneEntry 0x61 7 (by decide) (by decide) with ⟨s, data, one⟩
  have map := (directory_map ⟨fun _ _ => none, fun _ _ => none⟩ one.dir).2
  refine ⟨s, data, one, ?_, ?_⟩
  · refine (map _ 9 (by decide) (by decide) one.room).2 fun v isMap => ⟨⟨1, .inr (one.others 1 (by decide))⟩, ?_⟩
    intro i used same
    rw [one.slots, Function.update_self] at isMap
    cases isMap
    by_cases isDirectory : i = 0
    · rw [isDirectory, one.inum] at same
      cases same
    · rw [one.others i isDirectory] at used
      cases used
  · refine (map _ 9 (by decide) (by decide) one.room).2 fun v isMap => ?_
    rw [one.slots, Function.update_of_ne (by decide)] at isMap
    cases isMap

/-- `dirlink` of a directory that names itself by `.`, called with this name, waits for the lock of the
directory, which the caller holds. -/
theorem directory_map_incorrect : ∃ s data, OpenDirectory eightBlocks s 0 data ∧ HasRoom eightBlocks s 0 data ∧
    toMap (slotsOf data) (key (shortName dot)) = some 1 ∧
    dirlink ⟨fun _ _ => none, fun _ _ => none⟩ eightBlocks s 0 (shortName dot) 7 = .error .asleep ∧
    ¬DirCorrect ⟨fun _ _ => none, fun _ _ => none⟩ eightBlocks s 0 data (shortName dot) 7 := by
  rcases oneEntry dot 1 (by decide) (by decide) with ⟨s, data, one⟩
  have isMap : toMap (slotsOf data) (key (shortName dot)) = some 1 := by
    rw [one.slots, Function.update_self]
  have waits := one.dir.asleep ⟨fun _ _ => none, fun _ _ => none⟩ 7 isMap one.dir.used one.inum one.dir.locked
  refine ⟨s, data, one.dir, one.room, isMap, waits, fun correct => ?_⟩
  rcases correct.linkPresent 1 isMap with ⟨s', isLink, -⟩
  rw [waits] at isLink
  cases isLink

end Xv6.Fs
