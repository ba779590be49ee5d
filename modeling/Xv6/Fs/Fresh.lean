import Xv6.Fs.Calls
import Xv6.Fs.Consistent

/-!
# A new file system

The image that `mkfs` makes is consistent also in its names and link counts, and so the system calls keep it
consistent.
-/

namespace Xv6.Fs

open Bytes SlotTable LinkCount Transition

variable {s s' : Mkfs} {dinode : ℕ → Dinode} {content : ℕ → List Byte} {files : List Input} {file : Input} {f : Mkfs}
  {data rest : List Byte} {name : List Byte} {d i j k m n v w inum : ℕ}

/-! ## Link counts -/

/-- Every inode of the image has one link. -/
def OneLink (s : Mkfs) : Prop := ∀ i ∈ inodes s, (s.rinode i).nlink = 1

theorem Holds.ialloc_oneLink (holds : Holds s dinode content) (positive : 1 ≤ s.freeinode) (room : s.freeinode ≤ ninodes)
    {type : ℕ} (small : type < 256 ^ 2) (one : OneLink s) : OneLink (s.ialloc type).2 := by
  rcases holds.ialloc positive room type small with ⟨-, holds', freeinode, -⟩
  intro i member
  rw [holds'.onDisk i member]
  by_cases isNew : i = s.freeinode
  · subst isNew
    rw [Function.update_self]
  · have isOld : i ∈ inodes s := by
      rcases member with ⟨above, less⟩
      rw [freeinode] at less
      exact ⟨above, (Nat.le_of_lt_succ less).lt_of_ne isNew⟩
    rw [Function.update_of_ne isNew, ← holds.onDisk i isOld]
    exact one i isOld

theorem Holds.iappend_oneLink (holds : Holds s dinode content) (member : i ∈ inodes s)
    (bound : (content i).length + data.length ≤ maxfile * bsize) (isCode : s.iappend i data = some s')
    (one : OneLink s) : OneLink s' := by
  rcases holds.stored.appendLoop data.length member le_rfl bound (holds.space_lt bound) with ⟨d, s₁, isLoop, appended⟩
  have isInodes := inodes_congr appended.freeinode
  have fits := appended.stored.laid.fits i (isInodes.symm ▸ member)
  rw [Function.update_self] at fits
  have fits' : ({ d with size := (content i).length + data.length } : Dinode).Fits :=
    ⟨fits.type, fits.major, fits.minor, fits.nlink, bound.trans_lt (by decide), fits.addrs⟩
  have isAppend : s.iappend i data = some (s₁.winode i { d with size := (content i).length + data.length }) := by
    unfold Mkfs.iappend
    rw [holds.onDisk i member]
    dsimp only
    rw [holds.size i member, isLoop]
    rfl
  rw [isAppend] at isCode
  cases isCode
  intro j isInode
  have isOld : j ∈ inodes s := isInodes ▸ isInode
  by_cases isI : j = i
  · subst isI
    have isOne := one j isOld
    rw [holds.onDisk j isOld] at isOne
    rw [rinode_winode fits']
    change d.nlink = 1
    rw [appended.addrs]
    exact isOne
  · rw [rinode_winode_other isI]
    unfold Mkfs.rinode
    rw [appended.metadata _ (iblock_lt_nmeta (holds.le isOld))]
    exact one j isOld

theorem Holds.reads_oneLink (reads : List (List Byte)) : ∀ {s s' : Mkfs} {dinode : ℕ → Dinode} {content : ℕ → List Byte},
    Holds s dinode content → i ∈ inodes s → (content i).length + reads.flatten.length ≤ maxfile * bsize →
    reads.foldlM (fun s buf => s.iappend i buf) s = some s' → OneLink s → OneLink s' := by
  induction reads with
  | nil =>
      intro s s' dinode content _ _ _ isCode one
      cases isCode
      exact one
  | cons buf reads ih =>
      intro s s' dinode content holds member bound isCode one
      rw [List.flatten_cons, List.length_append] at bound
      have bound' : (content i).length + buf.length ≤ maxfile * bsize := by omega
      rcases holds.iappend member buf bound' with ⟨d, s₁, isFirst, first⟩
      have member' : i ∈ inodes s₁ := inodes_congr first.freeinode ▸ member
      rw [List.foldlM_cons, isFirst] at isCode
      refine ih first.holds member' ?_ isCode (holds.iappend_oneLink member bound' isFirst one)
      rw [Function.update_self, List.length_append]
      omega

theorem Made.addFile_oneLink (made : Made s files) (room : files.length + 2 ≤ ninodes)
    (small : file.bytes.length ≤ maxfile * bsize) (isCode : s.addFile file = some s') (one : OneLink s) : OneLink s' := by
  rcases made.holds with ⟨dinode, holds, -⟩
  have isNew := made.freeinode
  have rootNe : rootino ≠ s.freeinode := by
    rw [isNew]
    unfold rootino
    omega
  have fewer : s.freeinode ≤ ninodes := by omega
  rcases holds.ialloc (by omega) fewer tFile (by decide) with ⟨isInum, holds₁, freeinode₁, -⟩
  have one₁ := holds.ialloc_oneLink (by omega) fewer (show tFile < 256 ^ 2 by decide) one
  have isRoot : rootino ∈ inodes (s.ialloc tFile).2 := ⟨le_rfl, by
    rw [freeinode₁, isNew]
    unfold rootino
    omega⟩
  have isContent : Function.update (contentOf files) s.freeinode [] rootino = rootBytes files :=
    Function.update_of_ne rootNe _ _
  have bound : (Function.update (contentOf files) s.freeinode [] rootino).length +
      (dirent s.freeinode (skipUnderscore file.name)).length ≤ maxfile * bsize := by
    rw [isContent, length_rootBytes, length_dirent]
    unfold maxfile ndirect nindirect bsize
    unfold ninodes at room
    omega
  rcases holds₁.iappend isRoot (dirent s.freeinode (skipUnderscore file.name)) bound with ⟨d₂, s₂, isEntry, entry⟩
  have one₂ := holds₁.iappend_oneLink isRoot bound isEntry one₁
  have isFile : s.freeinode ∈ inodes s₂ := ⟨by omega, by
    rw [entry.freeinode, freeinode₁]
    exact Nat.lt_succ_self _⟩
  unfold Mkfs.addFile at isCode
  split at isCode
  · cases isCode
  · change ((s.ialloc tFile).2.iappend rootino (dirent (s.ialloc tFile).1 (skipUnderscore file.name)) >>= _) = _ at isCode
    rw [isInum, isEntry] at isCode
    refine Holds.reads_oneLink file.reads entry.holds isFile ?_ isCode one₂
    rw [Function.update_of_ne rootNe.symm, Function.update_self, List.length_nil, Nat.zero_add]
    exact small

theorem Made.addFiles_oneLink (rest : List Input) : ∀ {s s' : Mkfs} {files : List Input}, Made s files →
    (∀ file ∈ rest, slash ∉ file.name) → files.length + rest.length + 1 ≤ ninodes →
    (∀ file ∈ rest, file.bytes.length ≤ maxfile * bsize) →
    rest.foldlM (fun s file => s.addFile file) s = some s' → OneLink s → OneLink s' := by
  induction rest with
  | nil =>
      intro s s' files _ _ _ _ isCode one
      cases isCode
      exact one
  | cons file rest ih =>
      intro s s' files made noSlash room small isCode one
      rw [List.length_cons] at room
      have room' : files.length + 2 ≤ ninodes := by omega
      have isSmall := small file (List.mem_cons_self ..)
      rcases made.addFile (noSlash file (List.mem_cons_self ..)) room' isSmall with ⟨s₁, isFirst, made₁⟩
      rw [List.foldlM_cons, isFirst] at isCode
      refine ih made₁ (fun other isOther => noSlash other (List.mem_cons_of_mem _ isOther)) ?_
        (fun other isOther => small other (List.mem_cons_of_mem _ isOther)) isCode
        (made.addFile_oneLink room' isSmall isFirst one)
      rw [List.length_append, List.length_singleton]
      omega

theorem makeRoot_oneLink (isCode : Mkfs.makeRoot = some s) : OneLink s := by
  have none : OneLink (Mkfs.wsect {} 1 Mkfs.superblock) := by
    rintro i ⟨above, less⟩
    have less' : i < 1 := less
    omega
  have fewer : (Mkfs.wsect {} 1 Mkfs.superblock).freeinode ≤ ninodes := by decide
  rcases holds_superblock.ialloc le_rfl fewer tDir (by decide) with ⟨isInum, holds, freeinode, -⟩
  have one := holds_superblock.ialloc_oneLink le_rfl fewer (show tDir < 256 ^ 2 by decide) none
  rw [show (Mkfs.wsect {} 1 Mkfs.superblock).freeinode = rootino from rfl] at isInum holds freeinode
  rw [Function.update_eq_self] at holds
  generalize isAllocated : Mkfs.ialloc (Mkfs.wsect {} 1 Mkfs.superblock) tDir = allocated at *
  have isRoot : rootino ∈ inodes allocated.2 := ⟨le_rfl, by
    rw [freeinode]
    exact Nat.lt_succ_self _⟩
  have bound₁ : ([] : List Byte).length + (dirent rootino [dot]).length ≤ maxfile * bsize := by decide
  rcases holds.iappend isRoot (dirent rootino [dot]) bound₁ with ⟨d₁, s₁, isCode₁, first⟩
  have one₁ := holds.iappend_oneLink isRoot bound₁ isCode₁ one
  have isRoot₁ : rootino ∈ inodes s₁ := inodes_congr first.freeinode ▸ isRoot
  have isMake : Mkfs.makeRoot = s₁.iappend rootino (dirent rootino [dot, dot]) := by
    unfold Mkfs.makeRoot
    rw [isAllocated]
    dsimp only
    rw [if_pos isInum, isCode₁]
    rfl
  rw [isMake] at isCode
  refine first.holds.iappend_oneLink isRoot₁ ?_ isCode one₁
  rw [Function.update_self]
  decide

/-- `mkfs` gives every inode one link. -/
theorem mkfs_oneLink (bounds : WithinBounds files) (isImage : mkfs files = some f) (member : 1 ≤ i)
    (less : i < files.length + 2) : (readInode sb f.image i).nlink = 1 := by
  rcases made_makeRoot with ⟨s₁, isRoot, made₁⟩
  have room : ([] : List Input).length + files.length + 1 ≤ ninodes := by
    rw [List.length_nil, Nat.zero_add]
    exact bounds.inodes
  rcases made₁.addFiles files bounds.slashes room bounds.size with ⟨s₂, isFiles, made₂⟩
  have one := Made.addFiles_oneLink files made₁ bounds.slashes room bounds.size isFiles (makeRoot_oneLink isRoot)
  rw [List.nil_append] at made₂
  have isFinal : mkfs files = s₂.fixRoot.balloc s₂.freeblock := by
    unfold mkfs
    rw [isRoot]
    dsimp only [Option.bind_eq_bind, Option.bind_some]
    rw [isFiles]
    rfl
  rw [isFinal] at isImage
  unfold Mkfs.balloc at isImage
  split at isImage
  · cases isImage
    have few := bounds.inodes
    have bound : i ≤ ninodes := by omega
    have isInode : i ∈ inodes s₂ := ⟨member, by
      rw [made₂.freeinode]
      exact less⟩
    have isRead : readInode sb (s₂.fixRoot.wsect sb.bmapstart ((List.range s₂.freeblock).foldl setBit zeroes)).image i =
        s₂.fixRoot.rinode i := by
      unfold readInode Mkfs.rinode Mkfs.wsect
      dsimp only
      rw [Function.update_of_ne (iblock_bounds bound).2.ne]
    rw [isRead]
    unfold Mkfs.fixRoot
    dsimp only
    by_cases isI : i = rootino
    · subst isI
      rcases made₂.holds with ⟨dinode, holds, -⟩
      have fits := fits_readInode sb s₂.image rootino
      have isSize : (s₂.rinode rootino).size = 16 * (files.length + 2) := by
        rw [holds.onDisk rootino isInode, holds.size rootino isInode, ← length_rootBytes files]
        rfl
      have fits' : ({ s₂.rinode rootino with size := ((s₂.rinode rootino).size / bsize + 1) * bsize } : Dinode).Fits := by
        refine ⟨fits.type, fits.major, fits.minor, fits.nlink, ?_, fits.addrs⟩
        dsimp only
        rw [isSize]
        unfold bsize
        unfold ninodes at few
        omega
      rw [rinode_winode fits']
      exact one rootino isInode
    · rw [rinode_winode_other isI]
      exact one i isInode
  · cases isImage

/-! ## The names -/

/-- The name that an input file has in the image. -/
def fileName (file : Input) : List Byte := (skipUnderscore file.name).take dirsiz

/-- The names of the input files are strings, and are not taken yet. -/
structure ProperNames (files : List Input) : Prop where
  noNul : ∀ file ∈ files, 0 ∉ file.name
  notDots : ∀ file ∈ files, fileName file ≠ dotName ∧ fileName file ≠ dotdotName

theorem nameAt_take : ∀ (n : ℕ) (name : List Byte), 0 ∉ name → nameAt n (fun m => name.getD m 0) = name.take n
  | 0, name, _ => rfl
  | n + 1, [], _ => rfl
  | n + 1, a :: name, noNul => by
      have notZero : a ≠ 0 := fun zero => noNul (zero ▸ List.mem_cons_self ..)
      have rest := nameAt_take n name fun member => noNul (List.mem_cons_of_mem _ member)
      rw [nameAt, List.getD_cons_zero, if_neg notZero, List.take_succ_cons]
      simp only [List.getD_cons_succ]
      rw [rest]

theorem strncpy_take : ∀ (n : ℕ) (name : List Byte), 0 ∉ name → strncpy n (fun m => name.getD m 0) =
    name.take n ++ List.replicate (n - name.length) 0
  | 0, name, _ => by
      rw [Nat.zero_sub]
      rfl
  | n + 1, [], _ => rfl
  | n + 1, a :: name, noNul => by
      have notZero : a ≠ 0 := fun zero => noNul (zero ▸ List.mem_cons_self ..)
      have rest := strncpy_take n name fun member => noNul (List.mem_cons_of_mem _ member)
      rw [strncpy, List.getD_cons_zero, if_neg notZero, List.take_succ_cons, List.length_cons, Nat.add_sub_add_right]
      simp only [List.getD_cons_succ]
      rw [rest]
      rfl

theorem slotOf_dirent (noNul : 0 ∉ name) (positive : 0 < inum) (small : inum < 2 ^ 16) :
    slotOf (dirent inum name) = some (name.take dirsiz, inum) := by
  have isEntry : dirent inum name = newEntry (fun m => name.getD m 0) inum := by
    unfold dirent newEntry padName
    rw [strncpy_take dirsiz name noNul]
  rw [isEntry, slotOf_newEntry positive small]
  unfold key
  rw [nameAt_take dirsiz name noNul]

theorem slotsOf_cons {de : List Byte} (isEntry : de.length = 16) : slotsOf (de ++ rest) = slotOf de :: slotsOf rest := by
  have isCount : (de ++ rest).length / 16 = rest.length / 16 + 1 := by
    rw [List.length_append]
    omega
  unfold slotsOf
  rw [isCount, List.range_succ_eq_map, List.map_cons, List.map_map, Nat.mul_zero, List.drop_zero]
  congr 1
  · rw [← isEntry, List.take_left]
  · apply List.map_congr_left
    intro k _
    have isPlace : 16 * (k + 1) = de.length + 16 * k := by omega
    change slotOf (((de ++ rest).drop (16 * (k + 1))).take 16) = _
    rw [isPlace, List.drop_append, List.drop_eq_nil_of_le (Nat.le_add_right _ _), List.nil_append,
      Nat.add_sub_cancel_left]

/-- The slots of entries one after the other. -/
theorem slotsOf_entries : ∀ entries : List (ℕ × List Byte),
    (∀ entry ∈ entries, 0 ∉ entry.2 ∧ 0 < entry.1 ∧ entry.1 < 2 ^ 16) →
    slotsOf (entries.flatMap (fun entry => dirent entry.1 entry.2) ++ rest) =
      entries.map (fun entry => some (entry.2.take dirsiz, entry.1)) ++ slotsOf rest
  | [], _ => rfl
  | entry :: entries, proper => by
      rcases proper entry (List.mem_cons_self ..) with ⟨noNul, positive, small⟩
      rw [List.flatMap_cons, List.append_assoc, slotsOf_cons (length_dirent _ _), slotOf_dirent noNul positive small,
        slotsOf_entries entries fun other member => proper other (List.mem_cons_of_mem _ member)]
      rfl

theorem slotsOf_zeroes : ∀ n, slotsOf (List.replicate (16 * n) 0) = List.replicate n none
  | 0 => rfl
  | n + 1 => by
      have isSum : 16 * (n + 1) = 16 + 16 * n := by omega
      rw [isSum, List.replicate_add, slotsOf_cons (List.length_replicate ..), slotsOf_zeroes n, List.replicate_succ]
      rfl

/-- The content of the root directory, with the zeroes up to the end of its block. -/
def rootData (files : List Input) : List Byte :=
  rootBytes files ++ List.replicate (rootSize files - (rootBytes files).length) 0

theorem skipUnderscore_noNul (noNul : 0 ∉ name) : 0 ∉ skipUnderscore name := by
  unfold skipUnderscore
  split
  · exact fun member => noNul (List.mem_of_mem_tail member)
  · exact noNul

theorem slotsOf_rootData (names : ProperNames files) (few : files.length + 1 ≤ ninodes) : ∃ n, slotsOf (rootData files) =
    (entries files).map (fun entry => some (entry.2.take dirsiz, entry.1)) ++ List.replicate n none := by
  have isPadding : rootSize files - (rootBytes files).length =
      16 * ((rootSize files - (rootBytes files).length) / 16) := by
    have isLength := length_rootBytes files
    unfold rootSize bsize
    omega
  refine ⟨(rootSize files - (rootBytes files).length) / 16, ?_⟩
  unfold rootData
  rw [isPadding, rootBytes, slotsOf_entries, slotsOf_zeroes]
  · rw [Nat.mul_div_cancel_left _ (by decide)]
  · intro entry member
    have range := entries_inum entry member
    refine ⟨?_, range.1, ?_⟩
    · unfold entries at member
      rw [List.mem_append, List.mem_mapIdx] at member
      rcases member with isDot | ⟨k, less, rfl⟩
      · have isName : entry.2 = [dot] ∨ entry.2 = [dot, dot] := by
          rw [List.mem_cons, List.mem_singleton] at isDot
          rcases isDot with rfl | rfl
          · exact .inl rfl
          · exact .inr rfl
        rcases isName with isName | isName
        · rw [isName]
          decide
        · rw [isName]
          decide
      · exact skipUnderscore_noNul (names.noNul _ (List.getElem_mem less))
    · unfold ninodes at few
      omega

theorem getElem?_entries (less : k < files.length) :
    (entries files)[k + 2]? = some (k + 2, skipUnderscore files[k].name) := by
  unfold entries
  rw [List.getElem?_append_right (by exact Nat.le_add_left _ _)]
  change (files.mapIdx _)[k]? = _
  rw [List.getElem?_mapIdx, List.getElem?_eq_getElem less]
  rfl

/-- An entry of the root directory. -/
inductive RootEntry (files : List Input) : ℕ → List Byte → ℕ → Prop where
  | self : RootEntry files 0 dotName rootino
  | parent : RootEntry files 1 dotdotName rootino
  | file (k : ℕ) (less : k < files.length) : RootEntry files (k + 2) (fileName files[k]) (k + 2)

theorem rootData_holds (names : ProperNames files) (few : files.length + 1 ≤ ninodes) :
    HasPair (slotsOf (rootData files)) k name v ↔ RootEntry files k name v := by
  rcases slotsOf_rootData names few with ⟨n, isSlots⟩
  have isCount : (entries files).length = files.length + 2 := length_entries
  unfold HasPair
  rw [isSlots]
  constructor
  · intro holds
    by_cases inside : k < files.length + 2
    · rw [List.getElem?_append_left (by rw [List.length_map, isCount]; exact inside), List.getElem?_map] at holds
      rcases k with _ | _ | k
      · change some (some ([dot], rootino)) = _ at holds
        cases holds
        exact .self
      · change some (some ([dot, dot], rootino)) = _ at holds
        cases holds
        exact .parent
      · have less : k < files.length := by omega
        rw [getElem?_entries less] at holds
        cases holds
        exact .file k less
    · rw [List.getElem?_append_right (by rw [List.length_map, isCount]; omega), List.getElem?_replicate] at holds
      split at holds
      · cases holds
      · cases holds
  · intro entry
    cases entry with
    | self => rfl
    | parent => rfl
    | file k less =>
        have inside : k + 2 < ((entries files).map fun entry => some (entry.2.take dirsiz, entry.1)).length := by
          rw [List.length_map, isCount]
          omega
        rw [List.getElem?_append_left inside, List.getElem?_map, getElem?_entries less]
        rfl

/-! ## The disk -/

/-- The inodes that there is place for in the image. -/
def imageInodes : Set ℕ := {n | 0 < n ∧ n ≤ ninodes}

def imageData (files : List Input) (n : ℕ) : List Byte := if n = rootino then rootData files else []

theorem bblock_image {c : ℕ} (less : c < sb.size) : bblock c sb = sb.bmapstart := by
  have inside : c < bpb := less.trans (by decide)
  unfold bblock
  rw [Nat.div_eq_of_lt inside, Nat.zero_add]

theorem metadata_lt {b : ℕ} (isMeta : IsMetadata sb imageInodes b) : b < nmeta := by
  rcases isMeta with rfl | ⟨i, member, rfl⟩ | ⟨c, less, rfl⟩
  · exact nmeta_pos
  · exact iblock_lt_nmeta member.2
  · rw [bblock_image less]
    decide

/-- The blocks of a consistent image. -/
theorem Consistent.blocks {devsw : Devsw} {image : ℕ → Block} (consistent : Consistent devsw files image) :
    Files sb imageInodes (readInode sb image) image := by
  have inside : ∀ b < sb.size, b < bpb := fun b less => less.trans (by decide)
  refine ⟨by decide, fun i member c less => ?_, fun b less isMeta => ?_, fun i member k bound has => ?_,
    {x | x ≠ 0 ∧ ∃ i ∈ imageInodes, ∃ k ≤ maxfile, slot image (readInode sb image i) k = x}, fun x => Iff.rfl,
    fun i member j member' k bound l bound' same has => consistent.once i member.2 j member'.2 k bound l bound' same has⟩
  · rw [bblock_image less]
    exact (iblock_bounds member.2).2.ne'
  · exact (consistent.bitmap b (inside b less)).2 (.inl (metadata_lt isMeta))
  · rcases consistent.range i member.2 k bound has with ⟨above, less⟩
    refine ⟨less, (consistent.bitmap _ (inside _ less)).2 (.inr ⟨i, member.2, k, bound, rfl⟩), fun isMeta => ?_⟩
    exact absurd (metadata_lt isMeta) (Nat.not_lt.2 above)

/-- The number of an inode that is in use. -/
theorem number_cases (positive : 0 < n) (less : n < files.length + 2) :
    n = rootino ∨ ∃ k < files.length, n = k + 2 := by
  match n with
  | 1 => exact .inl rfl
  | k + 2 => exact .inr ⟨k, by omega, rfl⟩

namespace Final

theorem type_root (final : Final files dinode f) : (readInode sb f.image rootino).type = tDir := by
  rw [final.inode rootino (by decide), inode_root]
  exact final.dir

theorem type_file (final : Final files dinode f) (less : k < files.length) :
    (readInode sb f.image (k + 2)).type = tFile := by
  have few := final.few
  rw [final.inode (k + 2) (by omega), inode_file dinode less]
  exact final.file k less

theorem type_free (final : Final files dinode f) (member : n ∈ imageInodes) (more : files.length + 2 ≤ n) :
    (readInode sb f.image n).type = 0 := by
  have isFree : n ∉ inodes f := fun isInode => absurd (final.mem_inodes.1 isInode).2 (Nat.not_lt.2 more)
  rw [final.inode n member.2, final.inode_free isFree]

theorem linked_iff (final : Final files dinode f)
    (one : ∀ i, 1 ≤ i → i < files.length + 2 → (readInode sb f.image i).nlink = 1) :
    n ∈ linked sb imageInodes f.image ↔ 0 < n ∧ n < files.length + 2 := by
  have few := final.few
  constructor
  · rintro ⟨member, hasType, -⟩
    refine ⟨member.1, ?_⟩
    by_contra more
    exact hasType (final.type_free member (Nat.not_lt.1 more))
  · rintro ⟨positive, less⟩
    refine ⟨⟨positive, by omega⟩, ?_, ?_⟩
    · rcases number_cases positive less with rfl | ⟨k, isFile, rfl⟩
      · rw [final.type_root]
        decide
      · rw [final.type_file isFile]
        decide
    · rw [one n positive less]
      exact Nat.one_ne_zero

theorem directory_iff (final : Final files dinode f) (positive : 0 < n) (less : n < files.length + 2) :
    n ∈ directories sb f.image ↔ n = rootino := by
  rcases number_cases positive less with rfl | ⟨k, isFile, rfl⟩
  · exact iff_of_true final.type_root rfl
  · refine iff_of_false ?_ ?_
    · change (readInode sb f.image (k + 2)).type ≠ tDir
      rw [final.type_file isFile]
      decide
    · unfold rootino
      omega

/-- The entries of the root directory lead to the files. -/
theorem properEntries (final : Final files dinode f) (names : ProperNames files)
    (one : ∀ i, 1 ≤ i → i < files.length + 2 → (readInode sb f.image i).nlink = 1) :
    Fs.properEntries sb imageInodes f.image (imageData files) =
      {e | ∃ k < files.length, e = (rootino, k + 2, k + 2)} := by
  ext ⟨d, l, v⟩
  constructor
  · rintro ⟨member, isDir, name, notDot, notDotdot, holds⟩
    rcases (final.linked_iff one).1 member with ⟨positive, less⟩
    obtain rfl : d = rootino := (final.directory_iff positive less).1 isDir
    rcases (rootData_holds names final.few).1 holds with - | - | ⟨k, isFile⟩
    · exact absurd rfl notDot
    · exact absurd rfl notDotdot
    · exact ⟨k, isFile, rfl⟩
  · rintro ⟨k, isFile, isEntry⟩
    cases isEntry
    have proper := names.notDots _ (List.getElem_mem isFile)
    refine ⟨(final.linked_iff one).2 ⟨Nat.one_pos, by unfold rootino; omega⟩, final.type_root, fileName files[k], proper.1,
      proper.2, ?_⟩
    exact (rootData_holds names final.few).2 (.file k isFile)

theorem directory (final : Final files dinode f) (partly : PartlyFilled files) :
    Directory (readInode sb f.image rootino) f.image (rootData files) := by
  have isLength := length_rootBytes files
  have isInode := final.inode rootino (by decide)
  have size : (rootData files).length = rootSize files := by
    unfold rootData
    rw [List.length_append, List.length_replicate]
    unfold rootSize bsize
    omega
  refine ⟨final.type_root, ⟨?_, ?_, ?_⟩, ?_⟩
  · rw [final.type_root]
    decide
  · rw [isInode, inode_root, size]
  · rw [isInode]
    exact final.root_holds partly
  · rw [size]
    unfold rootSize bsize
    omega

theorem tidy (final : Final files dinode f) (names : ProperNames files)
    (one : ∀ i, 1 ≤ i → i < files.length + 2 → (readInode sb f.image i).nlink = 1) :
    Tidy (Fs.properEntries sb imageInodes f.image (imageData files)) (directories sb f.image)
      (linked sb imageInodes f.image) rootino fun n => (readInode sb f.image n).nlink := by
  have isRoot : rootino ∈ linked sb imageInodes f.image :=
    (final.linked_iff one).2 ⟨by decide, by unfold rootino; omega⟩
  have isFile : ∀ k < files.length, k + 2 ∈ linked sb imageInodes f.image ∧ k + 2 ∉ directories sb f.image := by
    intro k less
    have inside : k + 2 < files.length + 2 := Nat.add_lt_add_right less 2
    refine ⟨(final.linked_iff one).2 ⟨by omega, inside⟩, fun isDir => ?_⟩
    have isRoot := (final.directory_iff (by omega) inside).1 isDir
    unfold rootino at isRoot
    omega
  rw [final.properEntries names one]
  refine ⟨isRoot, ?_, ?_, ?_, ?_, fun v member notRoot => ?_, fun v member => ?_⟩
  · rintro e ⟨k, less, rfl⟩
    exact isRoot
  · rintro e ⟨k, less, rfl⟩
    exact (isFile k less).1
  · rintro e ⟨k, less, rfl⟩
    unfold rootino
    dsimp only
    omega
  · rintro e ⟨k, less, rfl⟩ isDir
    exact absurd isDir (isFile k less).2
  · rcases (final.linked_iff one).1 member with ⟨positive, inside⟩
    rcases (number_cases positive inside).resolve_left notRoot with ⟨k, less, rfl⟩
    exact ⟨(rootino, k + 2, k + 2), ⟨k, less, rfl⟩, rfl⟩
  · rcases (final.linked_iff one).1 member with ⟨positive, inside⟩
    have noneBelow : below {e | ∃ k < files.length, e = (rootino, k + 2, k + 2)} (directories sb f.image) v = ∅ := by
      ext e
      refine iff_of_false ?_ (Set.notMem_empty e)
      rintro ⟨⟨k, less, rfl⟩, -, isDir⟩
      exact (isFile k less).2 isDir
    rw [one v positive inside]
    unfold links
    rw [noneBelow, Set.encard_empty, add_zero]
    rcases number_cases positive inside with rfl | ⟨k, less, rfl⟩
    · have noneInto : into {e | ∃ k < files.length, e = (rootino, k + 2, k + 2)} rootino = ∅ := by
        ext e
        refine iff_of_false ?_ (Set.notMem_empty e)
        rintro ⟨⟨k, less, rfl⟩, isRoot⟩
        unfold rootino at isRoot
        dsimp only at isRoot
        omega
      rw [noneInto, Set.encard_empty, zero_add, flag_true rfl]
    · have single : into {e | ∃ k < files.length, e = (rootino, k + 2, k + 2)} (k + 2) = {(rootino, k + 2, k + 2)} := by
        ext e
        constructor
        · rintro ⟨⟨l, less', rfl⟩, same⟩
          dsimp only at same
          rw [same]
          rfl
        · rintro rfl
          exact ⟨⟨k, less, rfl⟩, rfl⟩
      have notRoot : k + 2 ≠ rootino := by
        unfold rootino
        omega
      rw [single, Set.encard_singleton, flag_false notRoot]
      rfl

theorem hasContent (final : Final files dinode f) (partly : PartlyFilled files) (member : n ∈ imageInodes) :
    HasContent sb f.image n := by
  intro _ notDevice
  rcases final.inode_holds partly member.2 with ⟨content, holds, isSize⟩
  exact ⟨content, notDevice, isSize, holds⟩

theorem distinct (final : Final files dinode f) (bounds : WithinBounds files) (names : ProperNames files) :
    Distinct (slotsOf (rootData files)) := by
  have same : ∀ k l (less : k < files.length) (less' : l < files.length), fileName files[k] = fileName files[l] → k = l := by
    intro k l less less' same
    have isPadded : ∀ m (isFile : m < files.length), (files.map fun file => padName (skipUnderscore file.name))[m]? =
        some (fileName files[m] ++ List.replicate (dirsiz - (fileName files[m]).length) 0) := by
      intro m isFile
      rw [List.getElem?_map, List.getElem?_eq_getElem isFile]
      have isLength : dirsiz - (fileName files[m]).length = dirsiz - (skipUnderscore files[m].name).length := by
        unfold fileName
        rw [List.length_take]
        omega
      rw [isLength]
      rfl
    have isMapped : k < (files.map fun file => padName (skipUnderscore file.name)).length := by
      rw [List.length_map]
      exact less
    refine (List.getElem?_inj isMapped bounds.names).1 ?_
    rw [isPadded k less, isPadded l less', same]
  intro i j name v w first second
  rcases (rootData_holds names final.few).1 first with - | - | ⟨k, less⟩
  · have isEntry := (rootData_holds names final.few).1 second
    generalize isName : dotName = name at isEntry
    rcases isEntry with - | - | ⟨l, less'⟩
    · rfl
    · exact absurd isName (by decide)
    · exact absurd isName.symm (names.notDots _ (List.getElem_mem less')).1
  · have isEntry := (rootData_holds names final.few).1 second
    generalize isName : dotdotName = name at isEntry
    rcases isEntry with - | - | ⟨l, less'⟩
    · exact absurd isName (by decide)
    · rfl
    · exact absurd isName.symm (names.notDots _ (List.getElem_mem less')).2
  · have isEntry := (rootData_holds names final.few).1 second
    have proper := names.notDots _ (List.getElem_mem less)
    generalize isName : fileName files[k] = name at isEntry
    rw [isName] at proper
    rcases isEntry with - | - | ⟨l, less'⟩
    · exact absurd rfl proper.1
    · exact absurd rfl proper.2
    · rw [same k l less less' isName]

/-- The image is consistent, also in its names and its link counts. -/
theorem sound (final : Final files dinode f) (devsw : Devsw) (bounds : WithinBounds files) (names : ProperNames files)
    (partly : PartlyFilled files) (one : ∀ i, 1 ≤ i → i < files.length + 2 → (readInode sb f.image i).nlink = 1) :
    SoundDisk sb imageInodes f.image (imageData files) := by
  have few := final.few
  have onlyRoot : ∀ n ∈ linked sb imageInodes f.image, n ∈ directories sb f.image → n = rootino := by
    intro n member isDir
    rcases (final.linked_iff one).1 member with ⟨positive, less⟩
    exact (final.directory_iff positive less).1 isDir
  have small : ninodes < 2 ^ 16 := by decide
  refine ⟨(final.consistent devsw partly).blocks, final.tidy names one, fun n member isDir => ?_,
    fun n member isDir => ?_, fun n member isDir => ?_, fun n member => ⟨member.1.1, member.1.2.trans_lt small⟩,
    fun n member => ?_, fun n positive less => ⟨positive, less.le⟩, by decide, fun n => final.hasContent partly⟩
  · obtain rfl := onlyRoot n member isDir
    exact final.directory partly
  · obtain rfl := onlyRoot n member isDir
    exact final.distinct bounds names
  · obtain rfl := onlyRoot n member isDir
    exact ⟨(rootData_holds names few).2 .self, rootino, (rootData_holds names few).2 .parent, .inl ⟨rfl, rfl⟩⟩
  · rcases (final.linked_iff one).1 member with ⟨positive, less⟩
    rw [one n positive less]
    decide

end Final

/-! ## The first process -/

/-- No inode is in use. -/
def unused (image : ℕ → Block) : Itable := ⟨fun _ => {}, image⟩

/-- `userinit` finds the root. -/
theorem namei_root (devsw : Devsw) (image : ℕ → Block) (buffer : ℕ → Byte) (cwd : Fin ninode) : ∃ s,
    namei devsw sb [slash] buffer cwd (unused image) = .ok (some 0, buffer, s) ∧ (unused image).Got rootino 0 s :=
  ⟨_, rfl, .fresh (fun _ used => absurd used (Nat.lt_irrefl 0)) rfl⟩

/-- A consistent disk, and no inode that is in use. -/
theorem SoundDisk.unused {superblock : Superblock} {inodes : Set ℕ} {image : ℕ → Block} {data : ℕ → List Byte}
    (disk : SoundDisk superblock inodes image data) : Sound superblock inodes (unused image) := by
  have idle : ∀ k, ¬0 < ((Fs.unused image).inode k).ref := fun _ => Nat.lt_irrefl 0
  exact ⟨⟨⟨fun k _ used => absurd used (idle k), fun _ _ => rfl⟩, fun k used => absurd used (idle k), fun _ => rfl,
    fun k used => absurd used (idle k)⟩, data, disk⟩

/-- What `userinit` starts with: the image of `mkfs`, and the reference of the first process to the root. -/
structure Booted (devsw : Devsw) (files : List Input) (buffer : ℕ → Byte) (cwd : Fin ninode) (f : Mkfs) (s : Itable) :
    Prop where
  made : mkfs files = some f
  root : namei devsw sb [slash] buffer cwd (unused f.image) = .ok (some 0, buffer, s)
  image : s.image = f.image
  others : ∀ k ≠ 0, (s.inode k).ref = 0
  sound : Sound sb imageInodes s
  within : Within sb imageInodes s 0

theorem WithinBounds.booted (bounds : WithinBounds files) (names : ProperNames files) (partly : PartlyFilled files)
    (devsw : Devsw) (buffer : ℕ → Byte) (cwd : Fin ninode) : ∃ f dinode s, Booted devsw files buffer cwd f s ∧
    Final files dinode f ∧ ∀ i, 1 ≤ i → i < files.length + 2 → (readInode sb f.image i).nlink = 1 := by
  rcases bounds.final with ⟨f, dinode, isImage, final⟩
  have one : ∀ i, 1 ≤ i → i < files.length + 2 → (readInode sb f.image i).nlink = 1 :=
    fun i positive less => mkfs_oneLink bounds isImage positive less
  have disk := final.sound devsw bounds names partly one
  have sound := disk.unused
  rcases namei_root devsw f.image buffer cwd with ⟨s, isRoot, got⟩
  have member : rootino ∈ linked sb imageInodes f.image := disk.tidy.hasRoot
  have holding := (Itable.Holding.start sound.cache.ok sound.cache.coherent sound.cache.unlocked).got got
  rw [zero_add] at holding
  have isInum := got.inum
  refine ⟨f, dinode, s, ⟨isImage, isRoot, holding.image, fun k other => ?_, sound.found holding ?_, ?_, ?_⟩, final, one⟩
  · rw [holding.ref, Pi.single_eq_of_ne other]
    rfl
  · rw [isInum]
    exact member
  · exact holding.used_single
  · rw [isInum, holding.image]
    exact member

/-- The file system is consistent after everything that the processes do from the first one on, one call after the
other. -/
theorem mkfs_calls_consistent (devsw : Devsw) (files : List Input) (bounds : WithinBounds files)
    (names : ProperNames files) (partly : PartlyFilled files) (buffer : ℕ → Byte) (cwd : Fin ninode) : ∃ f s₀,
    Booted devsw files buffer cwd f s₀ ∧ ∀ s, Reachable (step devsw sb) (Admitted sb imageInodes) s₀ s →
      Sound sb imageInodes s ∧ ∀ c, Admitted sb imageInodes s c → Answered devsw sb imageInodes s c := by
  rcases bounds.booted names partly devsw buffer cwd with ⟨f, dinode, s₀, booted, -, -⟩
  refine ⟨f, s₀, booted, fun s reach => ?_⟩
  have sound := booted.sound.reachable reach
  exact ⟨sound, fun c admitted => sound.answered admitted devsw⟩

theorem twoFiles_properNames : ProperNames twoFiles := ⟨by decide, by decide⟩

theorem twoFiles_partlyFilled : PartlyFilled twoFiles := show (twoFiles.length + 2) % 32 ≠ 0 by decide

theorem mkfs_calls_consistent_twoFiles : WithinBounds twoFiles ∧ ∃ f s₀,
    Booted ⟨fun _ _ => none, fun _ _ => none⟩ twoFiles (fun _ => 0) 0 f s₀ ∧
    ∀ s, Reachable (step ⟨fun _ _ => none, fun _ _ => none⟩ sb) (Admitted sb imageInodes) s₀ s →
      Sound sb imageInodes s ∧ ∀ c, Admitted sb imageInodes s c →
        Answered ⟨fun _ _ => none, fun _ _ => none⟩ sb imageInodes s c :=
  ⟨twoFiles_withinBounds, mkfs_calls_consistent _ twoFiles twoFiles_withinBounds twoFiles_properNames twoFiles_partlyFilled _ _⟩

/-- There are blocks behind the last one that `mkfs` has used. -/
theorem Final.free (final : Final files dinode f) : fssize - f.freeblock ≤ free sb f.image := by
  have within : Finset.Ico f.freeblock fssize ⊆
      (Finset.range sb.size).filter fun b => inUse sb f.image b = false := by
    intro b member
    rw [Finset.mem_Ico] at member
    rw [Finset.mem_filter, Finset.mem_range, final.bitmap b (member.2.trans (by decide)), decide_eq_false_iff_not,
      Nat.not_lt]
    exact ⟨member.2, member.1⟩
  have card := Finset.card_le_card within
  rw [Nat.card_Ico] at card
  exact card

/-- The first process has room for a call. -/
theorem Booted.roomy {devsw : Devsw} {buffer : ℕ → Byte} {cwd : Fin ninode} {s : Itable}
    (booted : Booted devsw files buffer cwd f s) (final : Final files dinode f)
    (one : ∀ i, 1 ≤ i → i < files.length + 2 → (readInode sb f.image i).nlink = 1)
    (blocks : f.freeblock + 6 ≤ fssize) : Roomy sb imageInodes s := by
  have few := final.few
  have isFree := final.free
  refine ⟨⟨1, 2, 3, by decide, by decide, by decide, booted.others 1 (by decide), booted.others 2 (by decide),
    booted.others 3 (by decide)⟩, ?_, ?_, ?_⟩
  · rw [booted.image]
    omega
  · rw [booted.image]
    intro n member
    rcases (final.linked_iff one).1 member with ⟨positive, less⟩
    rw [one n positive less]
    decide
  · rw [booted.image]
    intro n member isDir
    rcases (final.linked_iff one).1 member with ⟨positive, less⟩
    obtain rfl := (final.directory_iff positive less).1 isDir
    rw [final.inode rootino (by decide), Final.inode_root]
    dsimp only
    unfold rootSize
    rw [length_rootBytes]
    unfold maxfile ndirect nindirect bsize
    unfold ninodes at few
    omega

theorem Final.freeblock (final : Final files dinode f) : f.freeblock =
    nmeta + (needed (16 * (files.length + 2)) + (files.map fun file => needed file.bytes.length).sum) := by
  have count := final.stored.laid.count
  rw [final.freeinode, sum_needed] at count
  exact count

/-- The directory `/d` -/
def newDirectory : List Byte := [slash, 0x64]

/-- The first process makes the directory `/d`. -/
def makeDirectory : Invocation := ⟨.mkdir (some newDirectory), 0, fun _ => 0, fun _ => 0⟩

theorem exists_booted : ∃ f dinode s, Booted ⟨fun _ _ => none, fun _ _ => none⟩ twoFiles (fun _ => 0) 0 f s ∧
    Final twoFiles dinode f ∧ Roomy sb imageInodes s := by
  rcases twoFiles_withinBounds.booted twoFiles_properNames twoFiles_partlyFilled ⟨fun _ _ => none, fun _ _ => none⟩
    (fun _ => 0) 0 with ⟨f, dinode, s, booted, final, one⟩
  refine ⟨f, dinode, s, booted, final, booted.roomy final one ?_⟩
  rw [final.freeblock]
  decide

/-- After `/d` has been made. -/
theorem calls_consistent_newDirectory : ∃ s₀ s, Sound sb imageInodes s₀ ∧ Admitted sb imageInodes s₀ makeDirectory ∧
    step ⟨fun _ _ => none, fun _ _ => none⟩ sb s₀ makeDirectory s ∧ Sound sb imageInodes s ∧
    ∀ c, Admitted sb imageInodes s c → Answered ⟨fun _ _ => none, fun _ _ => none⟩ sb imageInodes s c := by
  rcases exists_booted with ⟨f, dinode, s₀, booted, final, room⟩
  have admitted : Admitted sb imageInodes s₀ makeDirectory :=
    ⟨fun _ => room, fun _ => booted.within, by decide, fun _ none => absurd none List.not_mem_nil,
      fun _ _ _ isCall => by cases isCall⟩
  have ends : Outcome sb imageInodes s₀ (makeDirectory.run ⟨fun _ _ => none, fun _ _ => none⟩ sb s₀) := by
    rcases booted.sound.answered admitted ⟨fun _ _ => none, fun _ _ => none⟩ with ends | ⟨isCall, -, -⟩
    · exact ends
    · cases isCall
  generalize isResult : makeDirectory.run ⟨fun _ _ => none, fun _ _ => none⟩ sb s₀ = result at ends
  cases ends with
  | @returns s _ =>
      exact ⟨s₀, s, booted.sound, admitted, isResult,
        calls_consistent booted.sound (Reachable.refl.next admitted isResult)⟩
  | full taken =>
      have isFree := final.type_free (show 4 ∈ imageInodes from ⟨by decide, by decide⟩) (le_refl 4)
      rw [← booted.image] at isFree
      exact absurd isFree (taken 4 (by decide) (by decide))

/-- `/d` is made by `create`. -/
theorem create_correct_newDirectory : ∃ s data, System sb s imageInodes (linked sb imageInodes s.image) data ∧
    CreateCorrect sb s imageInodes data 0 newDirectory tDir 0 0
      (create ⟨fun _ _ => none, fun _ _ => none⟩ sb newDirectory tDir 0 0 (fun _ => 0) 0 s) := by
  rcases exists_booted with ⟨f, dinode, s, booted, final, room⟩
  rcases booted.sound.disk with ⟨data, disk⟩
  have cache := booted.sound.cache
  have system := disk.system cache
  exact ⟨s, data, system, create_correct ⟨fun _ _ => none, fun _ _ => none⟩ system room.spare.spare
    (disk.creatable cache room.blocks) ⟨by decide, by decide, by decide, by decide⟩
    (room.fits disk cache booted.within newDirectory) booted.within.used booted.within.member (by decide) fun _ => 0⟩

/-! ## Paths -/

/-- The path `/name` leads to the file. -/
theorem Final.walk_file (final : Final files dinode f) (bounds : WithinBounds files) (names : ProperNames files)
    (less : k < files.length) :
    walk sb f.image (imageData files) rootino [fileName files[k]] = some (k + 2) := by
  have isMap : toMap (slotsOf (imageData files rootino)) (fileName files[k]) = some (k + 2) :=
    (final.distinct bounds names).toMap_iff.2 ⟨k + 2, (rootData_holds names final.few).2 (.file k less)⟩
  rw [walk, if_pos final.type_root, isMap]
  rfl

/-- The first process is in the root, and the first `k` files are open. -/
structure FilesOpen (f : Mkfs) (k : ℕ) (s : Itable) : Prop where
  image : s.image = f.image
  cache : SoundCache sb s imageInodes
  used : 0 < (s.inode 0).ref
  root : (s.inode 0).inum = rootino
  count : (Finset.univ.filter fun i => 0 < (s.inode i).ref).card = k + 1
  inums : ∀ i, 0 < (s.inode i).ref → (s.inode i).inum < k + 2

/-- `open` of a file -/
def openFile (path : List Byte) : Invocation := ⟨.open (some path) 0 true, 0, fun _ => 0, fun _ => 0⟩

/-- While the root has an entry and another one is unused, a file can get one. -/
theorem FilesOpen.not_noEntry {s : Itable} {data : ℕ → List Byte} (opened : FilesOpen f k s) (room : k + 1 < ninode)
    (name : List Byte) : ¬NoEntry sb s data rootino [name] := by
  have isUnused : ∃ i, ¬0 < (s.inode i).ref := by
    by_contra none
    push Not at none
    have all := opened.count
    rw [Finset.filter_true_of_mem fun i _ => none i, Finset.card_univ, Fintype.card_fin] at all
    omega
  rcases isUnused with ⟨i, unused⟩
  rintro (⟨absent, -⟩ | ⟨n, less, u, v, isU, -, absent, j, others, isUsed | ⟨u', isBefore, noEntry⟩⟩)
  · exact absent 0 opened.used opened.root
  · by_cases same : i = j
    · exact unused (same ▸ isUsed)
    · exact unused (others i same)
  · obtain rfl : n = 0 := Nat.lt_one_iff.1 less
    cases isU
    cases isBefore
    exact noEntry 0 opened.used opened.root

/-- The next file is opened. -/
theorem FilesOpen.openNext {s : Itable} {path : List Byte} (opened : FilesOpen f k s) (final : Final files dinode f)
    (bounds : WithinBounds files) (names : ProperNames files) (disk : SoundDisk sb imageInodes f.image (imageData files))
    (less : k < files.length) (room : k + 1 < ninode) (absolute : path.head? = some slash) (noNul : 0 ∉ path)
    (isPath : namesOf path = [fileName files[k]]) (devsw : Devsw) :
    ∃ s', step devsw sb s (openFile path) s' ∧ FilesOpen f (k + 1) s' := by
  have disk' : SoundDisk sb imageInodes s.image (imageData files) := opened.image.symm ▸ disk
  have cache := opened.cache
  have hasRoot : (s.inode 0).inum ∈ linked sb imageInodes s.image := opened.root.symm ▸ disk'.tidy.hasRoot
  have isStart : startOf s path 0 = rootino := if_pos absolute
  have isTarget : resolve sb s.image (imageData files) false rootino (namesOf path) = some (k + 2) := by
    rw [isPath, opened.image]
    exact final.walk_file bounds names less
  have correct := (disk'.system cache).graph.namex devsw false cache.ok cache.coherent cache.unlocked opened.used
    hasRoot noNul fun _ => 0
  rw [isStart, isTarget, isPath] at correct
  rcases correct with ⟨-, noEntry⟩ | ⟨found, name, s₁, isResult, resolved, -⟩
  · exact absurd noEntry (opened.not_noEntry room _)
  · generalize isSome : some (k + 2) = target at resolved
    cases resolved with
    | absent _ => cases isSome
    | @found i _ holding =>
        have isInum : (s₁.inode i).inum = k + 2 := (Option.some_inj.1 isSome).symm
        have isType : (readInode sb s₁.image (s₁.inode i).inum).type = tFile := by
          rw [isInum, holding.image, opened.image]
          exact final.type_file less
        have hasType : (readInode sb s₁.image (s₁.inode i).inum).type ≠ 0 := by
          rw [isType]
          decide
        rcases holding.exists_ilock holding.used_single (Set.notMem_empty i) hasType with
          ⟨s₂, isLock, holding₂, isIp, inum₂⟩
        rw [insert_empty_eq] at holding₂
        rcases holding₂.exists_iunlock holding₂.used_single (Set.mem_singleton i) with ⟨s₃, isUnlock, holding₃, inum₃⟩
        rw [Set.sdiff_self] at holding₃
        have isInum₃ : (s₃.inode i).inum = k + 2 := (inum₃ i).trans ((inum₂ i).trans isInum)
        have taken : step devsw sb s (openFile path) s₃ := by
          change (sys_open devsw sb (some path) 0 true (fun _ => 0) 0 s).map Prod.snd = .ok s₃
          rw [sys_open_rest]
          have isOpen : openLocked devsw sb path 0 (fun _ => 0) 0 s = .ok (some i, s₂) := by
            unfold openLocked
            rw [if_neg (by decide)]
            unfold namei
            rw [isResult]
            change (s₁.ilock sb i >>= _) = _
            rw [isLock]
            exact if_neg fun both => both.2 rfl
          rw [isOpen]
          exact isUnlock
        -- the entry was unused
        have fresh : ¬0 < (s.inode i).ref := by
          intro used
          have less' := opened.inums i used
          rw [← holding₃.inum i used, isInum₃] at less'
          exact Nat.lt_irrefl _ less'
        have isUsed : ∀ j, 0 < (s₃.inode j).ref ↔ j = i ∨ 0 < (s.inode j).ref := by
          intro j
          rw [holding₃.ref]
          by_cases same : j = i
          · subst same
            simp
          · simp [same]
        refine ⟨s₃, taken, holding₃.image.trans opened.image, ⟨holding₃.ok, holding₃.coherent,
          fun j => holding₃.notLocked (Set.notMem_empty j), fun j used => ?_⟩, (isUsed 0).2 (.inr opened.used), ?_, ?_, ?_⟩
        · rcases (isUsed j).1 used with rfl | before
          · refine ⟨isInum₃.symm ▸ ⟨Nat.succ_pos _, ?_⟩, ?_⟩
            · have few := final.few
              omega
            · rw [holding₃.image, isInum₃, opened.image, final.type_file less]
              decide
          · rw [holding₃.inum j before, holding₃.image]
            exact cache.cached j before
        · rw [holding₃.inum 0 opened.used]
          exact opened.root
        · have isInsert : (Finset.univ.filter fun j => 0 < (s₃.inode j).ref) =
              insert i (Finset.univ.filter fun j => 0 < (s.inode j).ref) := by
            ext j
            simp [isUsed]
          rw [isInsert, Finset.card_insert_of_notMem (by simpa using fresh), opened.count]
        · intro j used
          rcases (isUsed j).1 used with rfl | before
          · rw [isInum₃]
            exact Nat.lt_succ_self _
          · rw [holding₃.inum j before]
            exact (opened.inums j before).trans (Nat.lt_succ_self _)

/-- Fifty-one empty files -/
def manyFiles : List Input := (List.range 51).map fun k => ⟨[BitVec.ofNat 8 (0x80 + k)], []⟩

end Xv6.Fs
