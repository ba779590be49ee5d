import Xv6.Fs.ReadWrite
import Xv6.Lib.Transition

/-!
# Runs of system calls

The processes make system calls on names, read and write open files, and take and give up references to the
inodes that they use, one after the other. The file system is consistent after every call.
-/

namespace Xv6.Fs

open Bytes Transition

/-- What the processes do. A path that `argstr` does not accept is `none`; a `write` is one pass of the loop of
`filewrite`. -/
inductive Call where
  | open (path : Option (List Byte)) (omode : ℕ) (hasEntry : Bool)
  | mkdir (path : Option (List Byte))
  | mknod (path : Option (List Byte)) (major minor : Option ℤ)
  | link (old new : Option (List Byte))
  | unlink (path : Option (List Byte))
  | chdir (path : Option (List Byte))
  | read (ip : Fin ninode) (readable : Bool) (off n : BitVec 32)
  | write (ip : Fin ninode) (src : List Byte) (off : BitVec 32)
  | idup (ip : Fin ninode)
  | iput (ip : Fin ninode)

/-- A call of a process, with its directory and what is on its stack before the call. -/
structure Invocation where
  call : Call
  cwd : Fin ninode
  buffer : ℕ → Byte
  name : ℕ → Byte

/-- The paths of a call. -/
def Call.paths : Call → List (List Byte)
  | .open path _ _ | .mkdir path | .mknod path _ _ | .unlink path | .chdir path => path.toList
  | .link old new => old.toList ++ new.toList
  | .read .. | .write .. | .idup _ | .iput _ => []

/-- The references that a call uses. -/
def Call.references : Call → List (Fin ninode)
  | .read ip _ _ _ | .write ip _ _ | .idup ip | .iput ip => [ip]
  | _ => []

/-- The call may allocate blocks or raise link counts, or looks up a path. -/
def Call.NeedsRoom : Call → Prop
  | .read .. | .idup _ | .iput _ => False
  | _ => True

def Invocation.run (devsw : Devsw) (sb : Superblock) (s : Itable) (c : Invocation) : Except Stop Itable :=
  match c.call with
  | .open path omode hasEntry => (sys_open devsw sb path omode hasEntry c.buffer c.cwd s).map Prod.snd
  | .mkdir path => (sys_mkdir devsw sb path c.buffer c.cwd s).map Prod.snd
  | .mknod path major minor => (sys_mknod devsw sb path major minor c.buffer c.cwd s).map Prod.snd
  | .link old new => (sys_link devsw sb old new c.buffer c.name c.cwd s).map Prod.snd
  | .unlink path => (sys_unlink devsw sb path c.buffer c.cwd s).map Prod.snd
  | .chdir path => (sys_chdir devsw sb path c.buffer c.cwd s).map fun result => result.2.2
  | .read ip readable off n => (fileread devsw sb readable ip off n s).map Prod.snd
  | .write ip src off => (writePiece devsw sb ip src off s).map Prod.snd
  | .idup ip => .ok (s.idup ip)
  | .iput ip => s.iput sb ip

def step (devsw : Devsw) (sb : Superblock) (s : Itable) (c : Invocation) (s' : Itable) : Prop :=
  c.run devsw sb s = .ok s'

/-- A call that the file system has room for, of a process whose directory has links. `sys_open` opens directories
for reading only. -/
structure Admitted (sb : Superblock) (inodes : Set ℕ) (s : Itable) (c : Invocation) : Prop where
  room : c.call.NeedsRoom → Roomy sb inodes s
  within : c.call.paths ≠ [] → Within sb inodes s c.cwd
  noNul : ∀ path ∈ c.call.paths, 0 ∉ path
  used : ∀ ip ∈ c.call.references, 0 < (s.inode ip).ref
  piece : ∀ ip src off, c.call = .write ip src off → src.length ≤ writeMax ∧
    (readInode sb s.image (s.inode ip).inum).type ≠ tDir

/-- How a call ends; `sys_link` waits for its own lock if the new name is `.` or `..`. -/
inductive Answered (devsw : Devsw) (sb : Superblock) (inodes : Set ℕ) (s : Itable) (c : Invocation) : Prop where
  | ends : Outcome sb inodes s (c.run devsw sb s) → Answered devsw sb inodes s c
  | waits {old new : List Byte} : c.call = .link (some old) (some new) → c.run devsw sb s = .error .asleep →
      ((namesOf new).getLast? = some dotName ∨ (namesOf new).getLast? = some dotdotName) →
      Answered devsw sb inodes s c

variable {devsw : Devsw} {sb : Superblock} {s s' s₀ : Itable} {inodes : Set ℕ} {cwd : Fin ninode}
  {c : Invocation} {path : List Byte}

theorem toShort_lt (n : ℤ) : toShort n < 2 ^ 16 := (BitVec.ofInt 16 n).isLt

theorem Sound.mkdir (sound : Sound sb inodes s) (room : Roomy sb inodes s) (within : Within sb inodes s cwd)
    (noNul : 0 ∉ path) (devsw : Devsw) (buffer : ℕ → Byte) :
    Outcome sb inodes s ((sys_mkdir devsw sb (some path) buffer cwd s).map Prod.snd) := by
  have short : ShortFields tDir 0 0 := ⟨by decide, by decide, by decide, by decide⟩
  exact sound.makeNode room within short noNul devsw buffer

theorem Sound.mknod (sound : Sound sb inodes s) (room : Roomy sb inodes s) (within : Within sb inodes s cwd)
    (noNul : 0 ∉ path) (devsw : Devsw) (major minor : Option ℤ) (buffer : ℕ → Byte) :
    Outcome sb inodes s ((sys_mknod devsw sb (some path) major minor buffer cwd s).map Prod.snd) := by
  rcases major with _ | major
  · exact .returns sound
  rcases minor with _ | minor
  · exact .returns sound
  have short : ShortFields tDev (toShort major) (toShort minor) :=
    ⟨by decide, by decide, toShort_lt major, toShort_lt minor⟩
  exact sound.makeNode room within short noNul devsw buffer

/-- Every call is answered, and leaves a consistent file system. -/
theorem Sound.answered (sound : Sound sb inodes s) (admitted : Admitted sb inodes s c) (devsw : Devsw) :
    Answered devsw sb inodes s c := by
  rcases c with ⟨call, cwd, buffer, name⟩
  rcases admitted with ⟨room, within, noNul, used, piece⟩
  cases call with
  | «open» path omode hasEntry =>
      apply Answered.ends
      rcases path with _ | path
      · exact .returns sound
      · apply sound.open (room trivial) (within (List.cons_ne_nil path []))
        exact noNul path (List.mem_singleton_self path)
  | mkdir path =>
      apply Answered.ends
      rcases path with _ | path
      · exact .returns sound
      · apply sound.mkdir (room trivial) (within (List.cons_ne_nil path []))
        exact noNul path (List.mem_singleton_self path)
  | mknod path major minor =>
      apply Answered.ends
      rcases path with _ | path
      · exact .returns sound
      · apply sound.mknod (room trivial) (within (List.cons_ne_nil path []))
        exact noNul path (List.mem_singleton_self path)
  | link old new =>
      rcases old with _ | old
      · exact .ends (.returns sound)
      rcases new with _ | new
      · exact .ends (.returns sound)
      have oldNul : 0 ∉ old := noNul old (List.mem_cons_self ..)
      have newNul : 0 ∉ new := noNul new (List.mem_cons_of_mem _ (List.mem_singleton_self new))
      rcases sound.link (room trivial) (within (List.cons_ne_nil old [new])) oldNul newNul devsw buffer name with
        ends | ⟨waits, isDots⟩
      · exact .ends ends
      · refine .waits rfl ?_ isDots
        unfold Invocation.run
        dsimp only
        rw [waits]
        rfl
  | unlink path =>
      apply Answered.ends
      rcases path with _ | path
      · exact .returns sound
      · apply sound.unlink (room trivial) (within (List.cons_ne_nil path []))
        exact noNul path (List.mem_singleton_self path)
  | chdir path =>
      apply Answered.ends
      rcases path with _ | path
      · exact .returns sound
      · apply sound.chdir (room trivial) (within (List.cons_ne_nil path []))
        exact noNul path (List.mem_singleton_self path)
  | read ip readable off n =>
      rcases sound.fileread (used ip (List.mem_singleton_self ip)) devsw readable off n with
        ⟨r, s', isRead, -, sound'⟩
      apply Answered.ends
      unfold Invocation.run
      dsimp only
      rw [isRead]
      exact .returns sound'
  | write ip src off =>
      rcases piece ip src off rfl with ⟨few, notDir⟩
      have enough : 5 ≤ free sb s.image := Nat.le_trans (by decide) (room trivial).blocks
      rcases sound.writePiece (used ip (List.mem_singleton_self ip)) notDir few enough devsw off with
        ⟨r, s', isWrite, sound'⟩
      apply Answered.ends
      unfold Invocation.run
      dsimp only
      rw [isWrite]
      exact .returns sound'
  | idup ip => exact .ends (.returns (sound.idup (used ip (List.mem_singleton_self ip))))
  | iput ip =>
      rcases sound.iput (used ip (List.mem_singleton_self ip)) with ⟨s', isPut, sound'⟩
      apply Answered.ends
      unfold Invocation.run
      dsimp only
      rw [isPut]
      exact .returns sound'

/-- What one call leaves. -/
theorem Sound.step (sound : Sound sb inodes s) (admitted : Admitted sb inodes s c) (taken : Fs.step devsw sb s c s') :
    Sound sb inodes s' := by
  unfold Fs.step at taken
  rcases sound.answered admitted devsw with ends | ⟨-, waits, -⟩
  · rw [taken] at ends
    rcases ends with sound' | -
    exact sound'
  · rw [taken] at waits
    cases waits

/-- What all calls leave. -/
theorem Sound.reachable (sound : Sound sb inodes s₀)
    (reach : Reachable (Fs.step devsw sb) (Admitted sb inodes) s₀ s) : Sound sb inodes s := by
  apply reach.invariant (Sound sb inodes) sound
  intro s c s' _ sound' admitted taken
  exact sound'.step admitted taken

/-- The file system is consistent after every run of calls, and every further call is answered. -/
theorem calls_consistent (sound : Sound sb inodes s₀)
    (reach : Reachable (step devsw sb) (Admitted sb inodes) s₀ s) :
    Sound sb inodes s ∧ ∀ c, Admitted sb inodes s c → Answered devsw sb inodes s c := by
  have sound' := sound.reachable reach
  exact ⟨sound', fun c admitted => sound'.answered admitted devsw⟩

end Xv6.Fs
