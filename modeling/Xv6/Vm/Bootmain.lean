import Xv6.Lib.Bytes
import Xv6.Vm.Exec

/-!
# The boot loader

`bootmain.c`. Memory is a function from physical addresses to bytes, the disk one from positions to bytes. Pointers are
numbers: what is loaded lies below the end of the address space, so that they do not wrap around. `SECTSIZE` is 512.
-/

namespace Xv6.Boot

open Bytes (Byte)

/-- `elf`, the scratch space for the first page of the kernel -/
abbrev scratch : ℕ := 0x10000

/-- The fields of `struct proghdr` that the loader uses -/
structure Proghdr where
  off : ℕ
  paddr : ℕ
  filesz : ℕ
  memsz : ℕ
  deriving DecidableEq

def Proghdr.read (bytes : ℕ → Byte) (ph : ℕ) : Proghdr where
  off := Bytes.get bytes 4 (ph + 4)
  paddr := Bytes.get bytes 4 (ph + 12)
  filesz := Bytes.get bytes 4 (ph + 16)
  memsz := Bytes.get bytes 4 (ph + 20)

section

variable (disk : ℕ → Byte)

/-- `readsect`; the disk is ready in the end. -/
def readsect (dst offset : ℕ) (mem : ℕ → Byte) (a : ℕ) : Byte :=
  if dst ≤ a ∧ a < dst + 512 then disk (offset * 512 + (a - dst)) else mem a

/-- The loop of `readseg` -/
def readsegLoop (epa pa offset : ℕ) (mem : ℕ → Byte) : ℕ → Byte :=
  if pa < epa then readsegLoop epa (pa + 512) (offset + 1) (readsect disk pa offset mem) else mem
termination_by epa - pa
decreasing_by omega

def readseg (pa count offset : ℕ) (mem : ℕ → Byte) : ℕ → Byte :=
  readsegLoop disk (pa + count) (pa - offset % 512) (offset / 512 + 1) mem

/-- `stosb` of zeros -/
def stosb (pa count : ℕ) (mem : ℕ → Byte) (a : ℕ) : Byte := if pa ≤ a ∧ a < pa + count then 0 else mem a

/-- A round of the loop of `bootmain` -/
def loadSegment (ph : Proghdr) (mem : ℕ → Byte) : ℕ → Byte :=
  let mem := readseg disk ph.paddr ph.filesz ph.off mem
  if ph.filesz < ph.memsz then stosb (ph.paddr + ph.filesz) (ph.memsz - ph.filesz) mem else mem

/-- The loop, with the number of headers from `ph` on; they are read where they were loaded. -/
def loadSegments : ℕ → ℕ → (ℕ → Byte) → ℕ → Byte
  | 0, _, mem => mem
  | n + 1, ph, mem => loadSegments n (ph + 32) (loadSegment disk (.read mem ph) mem)

/-- `bootmain` up to the call of the entry: its address and the memory. It returns if there is no kernel. -/
def bootmain (mem : ℕ → Byte) : Option (ℕ × (ℕ → Byte)) :=
  let mem := readseg disk scratch 4096 0 mem
  if Bytes.get mem 4 scratch ≠ Vm.elfMagic then none
  else
    let mem := loadSegments disk (Bytes.get mem 2 (scratch + 44)) (scratch + Bytes.get mem 4 (scratch + 28)) mem
    some (Bytes.get mem 4 (scratch + 24), mem)

/-! ## What is loaded -/

/-- The file of the kernel begins at sector 1. -/
def kernelFile (k : ℕ) : Byte := disk (512 + k)

end

namespace Proghdr

variable (ph : Proghdr)

/-- The first byte that is written: sectors are read whole. -/
def first : ℕ := ph.paddr - ph.off % 512

/-- The end of the segment in memory -/
def last : ℕ := ph.paddr + max ph.filesz ph.memsz

end Proghdr

/-- The bytes of the file and zeros behind them -/
structure Loaded (file : ℕ → Byte) (ph : Proghdr) (mem : ℕ → Byte) : Prop where
  data : ∀ k < ph.filesz, mem (ph.paddr + k) = file (ph.off + k)
  bss : ∀ k < ph.memsz, ph.filesz ≤ k → mem (ph.paddr + k) = 0

/-- The program headers of a kernel -/
def headers (file : ℕ → Byte) : List Proghdr :=
  (List.range (Bytes.get file 2 44)).map fun i => .read file (Bytes.get file 4 28 + 32 * i)

/-- The first sector of a segment begins behind another segment; empty ones do not count. -/
def Proghdr.Before (ph ph' : Proghdr) : Prop := ph.first < ph.last → ph'.first < ph'.last → ph.last ≤ ph'.first

instance (ph ph' : Proghdr) : Decidable (ph.Before ph') := inferInstanceAs (Decidable (_ → _))

/-- A kernel that can be loaded: its headers are on the first page, and its segments lie between the scratch space and
the end of the address space, in the order of their headers. -/
structure Bootable (file : ℕ → Byte) : Prop where
  magic : Bytes.get file 4 0 = Vm.elfMagic
  table : Bytes.get file 4 28 + 32 * Bytes.get file 2 44 ≤ 4096
  above : ∀ ph ∈ headers file, ph.first < ph.last → scratch + 4096 ≤ ph.first
  inside : ∀ ph ∈ headers file, ph.last + 512 ≤ 2 ^ 32
  increasing : (headers file).Pairwise Proghdr.Before

/-- The segments of a list, one after the other -/
def loadList (disk : ℕ → Byte) (phs : List Proghdr) (mem : ℕ → Byte) : ℕ → Byte :=
  phs.foldl (fun mem ph => loadSegment disk ph mem) mem

variable {disk mem mem' file : ℕ → Byte} {ph ph' : Proghdr} {pa epa offset a count n : ℕ}

theorem readsegLoop_below (ha : a < pa) : readsegLoop disk epa pa offset mem a = mem a := by
  induction pa, offset, mem using readsegLoop.induct disk epa with
  | case1 pa offset mem more ih =>
      rw [readsegLoop, if_pos more, ih (by omega)]
      unfold readsect
      rw [if_neg (by omega)]
  | case2 pa offset mem done => rw [readsegLoop, if_neg done]

/-- A sector is not written again by the rounds after it. -/
theorem readsegLoop_inside (lower : pa ≤ a) (upper : a < epa) :
    readsegLoop disk epa pa offset mem a = disk (offset * 512 + (a - pa)) := by
  induction pa, offset, mem using readsegLoop.induct disk epa with
  | case1 pa offset mem more ih =>
      rw [readsegLoop, if_pos more]
      by_cases later : pa + 512 ≤ a
      · have position : (offset + 1) * 512 + (a - (pa + 512)) = offset * 512 + (a - pa) := by omega
        rw [ih later, position]
      · rw [readsegLoop_below (by omega)]
        unfold readsect
        rw [if_pos (by omega)]
  | case2 pa offset mem done => omega

theorem readsegLoop_none (hpa : epa ≤ pa) : readsegLoop disk epa pa offset mem = mem := by
  rw [readsegLoop, if_neg (by omega)]

/-- `readseg` reads the bytes that it is asked for, though it reads whole sectors. -/
theorem readseg_inside (aligned : offset % 512 ≤ pa) (lower : pa ≤ a) (upper : a < pa + count) :
    readseg disk pa count offset mem a = kernelFile disk (offset + (a - pa)) := by
  have division := Nat.div_add_mod offset 512
  unfold readseg
  rw [readsegLoop_inside (by omega) upper]
  unfold kernelFile
  congr 1
  rw [Nat.add_mul]
  omega

theorem loadSegment_below (ha : a < ph.first) : loadSegment disk ph mem a = mem a := by
  have reads : readseg disk ph.paddr ph.filesz ph.off mem a = mem a := readsegLoop_below ha
  unfold Proghdr.first at ha
  unfold loadSegment
  split
  · unfold stosb
    rw [if_neg (by omega), reads]
  · exact reads

theorem loadSegment_empty (empty : ph.last ≤ ph.first) : loadSegment disk ph mem = mem := by
  unfold Proghdr.last Proghdr.first at empty
  have reads : readseg disk ph.paddr ph.filesz ph.off mem = mem := readsegLoop_none (by omega)
  unfold loadSegment
  rw [if_neg (by omega)]
  exact reads

theorem loadSegment_loaded (aligned : ph.off % 512 ≤ ph.paddr) :
    Loaded (kernelFile disk) ph (loadSegment disk ph mem) := by
  have reads : ∀ k < ph.filesz,
      readseg disk ph.paddr ph.filesz ph.off mem (ph.paddr + k) = kernelFile disk (ph.off + k) := by
    intro k hk
    rw [readseg_inside aligned (by omega) (by omega), Nat.add_sub_cancel_left]
  unfold loadSegment
  refine ⟨?_, ?_⟩
  · intro k hk
    split
    · show stosb _ _ _ (ph.paddr + k) = _
      rw [stosb, if_neg (by omega)]
      exact reads k hk
    · exact reads k hk
  · intro k hk behind
    rw [if_pos (by omega)]
    show stosb _ _ _ (ph.paddr + k) = _
    rw [stosb, if_pos (by omega)]

/-- What is not written later stays loaded. -/
theorem Loaded.congr (loaded : Loaded file ph mem) (same : ∀ a < ph.last, mem' a = mem a) : Loaded file ph mem' := by
  unfold Proghdr.last at same
  refine ⟨?_, ?_⟩
  · intro k hk
    rw [same _ (by omega)]
    exact loaded.data k hk
  · intro k hk behind
    rw [same _ (by omega)]
    exact loaded.bss k hk behind

theorem Loaded.empty (h : ph.last ≤ ph.first) : Loaded file ph mem := by
  unfold Proghdr.last Proghdr.first at h
  exact ⟨fun k hk => by omega, fun k hk _ => by omega⟩

theorem Proghdr.read_congr {bytes bytes' : ℕ → Byte} {ph ph' : ℕ}
    (same : ∀ m < 32, bytes (ph + m) = bytes' (ph' + m)) : read bytes ph = read bytes' ph' := by
  have number : ∀ field : ℕ, field + 4 ≤ 32 → Bytes.get bytes 4 (ph + field) = Bytes.get bytes' 4 (ph' + field) := by
    intro field inside
    apply Bytes.get_shift
    intro m hm
    rw [Nat.add_assoc, Nat.add_assoc]
    exact same _ (by omega)
  unfold read
  rw [number 4 (by omega), number 12 (by omega), number 16 (by omega), number 20 (by omega)]

/-- Segments in increasing order are all loaded, and nothing before them is touched. -/
theorem loadList_loaded (disk : ℕ → Byte) (phs : List Proghdr) : ∀ mem : ℕ → Byte, phs.Pairwise Proghdr.Before →
    (∀ ph ∈ phs, ph.first < ph.last → ph.off % 512 ≤ ph.paddr) →
    (∀ ph ∈ phs, Loaded (kernelFile disk) ph (loadList disk phs mem)) ∧
      ∀ a, (∀ ph ∈ phs, ph.first < ph.last → a < ph.first) → loadList disk phs mem a = mem a := by
  induction phs with
  | nil => exact fun _ _ _ => ⟨nofun, fun _ _ => rfl⟩
  | cons ph phs ih =>
      intro mem increasing aligned
      rw [List.pairwise_cons] at increasing
      rcases ih (loadSegment disk ph mem) increasing.2 (fun ph' h => aligned ph' (List.mem_cons_of_mem _ h)) with
        ⟨rest, untouched⟩
      refine ⟨?_, ?_⟩
      · intro ph' hph'
        rcases List.mem_cons.1 hph' with rfl | later
        · by_cases nonempty : ph'.first < ph'.last
          · have here : Loaded (kernelFile disk) ph' (loadSegment disk ph' mem) :=
              loadSegment_loaded (aligned ph' List.mem_cons_self nonempty)
            apply here.congr
            intro a ha
            apply untouched a
            intro next hnext touches
            have behind := increasing.1 next hnext nonempty touches
            omega
          · apply Loaded.empty (Nat.le_of_not_lt nonempty)
        · exact rest ph' later
      · intro a ha
        have before : loadSegment disk ph mem a = mem a := by
          by_cases nonempty : ph.first < ph.last
          · apply loadSegment_below (ha ph List.mem_cons_self nonempty)
          · rw [loadSegment_empty (Nat.le_of_not_lt nonempty)]
        rw [← before]
        apply untouched a
        exact fun next hnext => ha next (List.mem_cons_of_mem _ hnext)

/-- The first page of the file is in the scratch space. -/
def HasHeader (file mem : ℕ → Byte) : Prop := ∀ k < 4096, mem (scratch + k) = file k

theorem loadSegment_header (header : HasHeader file mem)
    (above : ph.first < ph.last → scratch + 4096 ≤ ph.first) : HasHeader file (loadSegment disk ph mem) := by
  intro k hk
  by_cases nonempty : ph.first < ph.last
  · have behind := above nonempty
    rw [loadSegment_below (by omega)]
    exact header k hk
  · rw [loadSegment_empty (Nat.le_of_not_lt nonempty)]
    exact header k hk

/-- The loop finds the headers as they are in the file, since no segment is loaded over them. -/
theorem loadSegments_headers (disk : ℕ → Byte) (n : ℕ) : ∀ (off : ℕ) (mem : ℕ → Byte), HasHeader file mem → off + 32 * n ≤ 4096 →
    (∀ ph ∈ (List.range n).map (fun i => Proghdr.read file (off + 32 * i)),
      ph.first < ph.last → scratch + 4096 ≤ ph.first) →
    loadSegments disk n (scratch + off) mem =
        loadList disk ((List.range n).map fun i => .read file (off + 32 * i)) mem ∧
      HasHeader file (loadSegments disk n (scratch + off) mem) := by
  induction n with
  | zero => exact fun _ _ header _ _ => ⟨rfl, header⟩
  | succ n ih =>
      intro off mem header room above
      have split : (List.range (n + 1)).map (fun i => Proghdr.read file (off + 32 * i)) =
          .read file off :: (List.range n).map fun i => .read file (off + 32 + 32 * i) := by
        rw [List.range_succ_eq_map, List.map_cons, List.map_map]
        congr 1
        apply List.map_congr_left
        intro i _
        simp only [Function.comp]
        congr 1
        omega
      rw [split] at above ⊢
      have found : Proghdr.read mem (scratch + off) = .read file off := by
        apply Proghdr.read_congr
        intro m hm
        rw [Nat.add_assoc]
        exact header _ (by omega)
      have kept : HasHeader file (loadSegment disk (.read file off) mem) :=
        loadSegment_header header (above _ List.mem_cons_self)
      have rest := ih (off + 32) _ kept (by omega) fun ph hph => above ph (List.mem_cons_of_mem _ hph)
      rw [loadSegments, found, Nat.add_assoc]
      exact rest

theorem HasHeader.get (header : HasHeader file mem) {width offset : ℕ} (inside : offset + width ≤ 4096) :
    Bytes.get mem width (scratch + offset) = Bytes.get file width offset := by
  apply Bytes.get_shift
  intro m hm
  rw [Nat.add_assoc]
  exact header _ (by omega)

/-- The boot loader loads a kernel: it finds every segment's bytes and clears the rest of it, although it reads whole
sectors and does not look at what it overwrites; the header stays in the scratch space, and everything below it, the
boot block and its stack, stays as it was. -/
theorem bootmain_correct (disk mem : ℕ → Byte) (bootable : Bootable (kernelFile disk)) :
    ∃ mem', bootmain disk mem = some (Bytes.get (kernelFile disk) 4 24, mem') ∧
      (∀ ph ∈ headers (kernelFile disk), Loaded (kernelFile disk) ph mem') ∧
      (∀ k < 4096, mem' (scratch + k) = kernelFile disk k) ∧
      ∀ a < scratch, mem' a = mem a := by
  have header : HasHeader (kernelFile disk) (readseg disk scratch 4096 0 mem) := by
    intro k hk
    rw [readseg_inside (by omega) (by omega) (by omega), Nat.add_sub_cancel_left, Nat.zero_add]
  have table := bootable.table
  have aligned : ∀ ph ∈ headers (kernelFile disk), ph.first < ph.last → ph.off % 512 ≤ ph.paddr := by
    intro ph hph nonempty
    have above := bootable.above ph hph nonempty
    unfold Proghdr.first at above
    omega
  rcases loadSegments_headers disk _ _ _ header table bootable.above with ⟨loads, kept⟩
  rcases loadList_loaded disk _ (readseg disk scratch 4096 0 mem) bootable.increasing aligned with
    ⟨loaded, untouched⟩
  refine ⟨_, ?_, ?_, kept, ?_⟩
  · have magic : Bytes.get (readseg disk scratch 4096 0 mem) 4 scratch = Vm.elfMagic := by
      rw [← bootable.magic]
      exact @HasHeader.get _ _ header 4 0 (by omega)
    unfold bootmain
    dsimp only
    rw [if_neg (not_not.2 magic), header.get (by omega), header.get (by omega), kept.get (by omega)]
  · rw [loads]
    exact loaded
  · intro a ha
    rw [loads]
    refine (untouched a ?_).trans ?_
    · intro ph hph nonempty
      have above := bootable.above ph hph nonempty
      omega
    · apply readsegLoop_below
      omega

/-- A kernel with two segments: the first one has two bytes in the file and two more in memory. -/
def smallKernel : ℕ → Byte :=
  [(0, Vm.elfMagic), (24, 0x10000c), (28, 52), (44, 2), (52 + 4, 128), (52 + 12, 0x100080), (52 + 16, 2), (52 + 20, 4),
    (84 + 4, 512), (84 + 12, 0x100200), (84 + 16, 1), (84 + 20, 1), (128, 0x2211), (512, 0x33)].foldl
    (fun bytes field => Bytes.put bytes 4 field.1 field.2) fun _ => 0

theorem smallKernel_bootable : Bootable smallKernel :=
  ⟨by decide, by decide, by decide, by decide, by decide⟩

theorem bootmain_correct_small :
    ∃ mem', bootmain (fun a => smallKernel (a - 512)) (fun _ => 0xff) = some (0x10000c, mem') ∧
      mem' 0x100081 = 0x22 ∧ mem' 0x100082 = 0 ∧ mem' 0x100200 = 0x33 ∧ mem' 0x7c00 = 0xff := by
  have file : kernelFile (fun a => smallKernel (a - 512)) = smallKernel := by
    funext k
    simp [kernelFile]
  have bootable : Bootable (kernelFile fun a => smallKernel (a - 512)) := by
    rw [file]
    exact smallKernel_bootable
  rcases bootmain_correct (fun a => smallKernel (a - 512)) (fun _ => 0xff) bootable with
    ⟨mem', boots, loaded, -, below⟩
  rw [file] at boots loaded
  have first : Loaded smallKernel ⟨128, 0x100080, 2, 4⟩ mem' := loaded _ (by decide)
  have second : Loaded smallKernel ⟨512, 0x100200, 1, 1⟩ mem' := loaded _ (by decide)
  exact ⟨mem', boots, first.data 1 (by decide), first.bss 2 (by decide) (by decide), second.data 0 (by decide),
    below _ (by decide)⟩

end Xv6.Boot
