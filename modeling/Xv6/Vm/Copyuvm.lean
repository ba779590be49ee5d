import Xv6.Vm.Conservation
import Xv6.Vm.Pages

/-!
# The copy that `fork` makes

`copyuvm` copies an address space entry by entry into frames of its own, or gives everything back, and
`fork` leaves nothing behind when it fails.
-/

namespace Xv6.Vm

open Ownership Fallible

variable {m m' m₁ m₂ : Mem} {src d x : Page} {pool : Set Page} {v w hi size : ℕ}

/-- The pages of `d` below `hi` are copies of those of `src` in frames of their own; its other entries are
as before. -/
structure Copied (src d : Page) (pool : Set Page) (hi : ℕ) (m m' : Mem) : Prop where
  space : Space m' d pool
  after : After pool m m'
  present : ∀ v < hi, (entry m src v).present = true
  copies : ∀ v < hi, ∃ x ∈ m.freelist, entry m' d v = { entry m src v with page := x } ∧
    (m'.content x).bytes = (m.content (entry m src v).page).bytes
  others : ∀ w < 2 ^ 20, hi ≤ w → entry m' d w = entry m d w
  free : ∀ x ∈ m'.freelist, x ∈ m.freelist

theorem Copied.refl (space : Space m d pool) : Copied src d pool 0 m m :=
  ⟨space, .refl, nofun, nofun, fun _ _ _ => rfl, fun _ member => member⟩

/-- A further page is copied. -/
theorem Copied.next {freelist : List Page} (copied : Copied src d pool v m m₁) (apart : Apart m src pool)
    (user : v < userPages) (present : (entry m src v).present = true) (list : m₁.freelist = x :: freelist)
    (entered : Entered d pool v { entry m src v with page := x }
      { m₁ with calls := m₁.calls + 1, freelist,
                content := Function.update m₁.content x (m₁.content (entry m src v).page) } m') :
    Copied src d pool (v + 1) m m' := by
  have space := copied.space
  have filled := space.fillPage list (m₁.content (entry m src v).page)
  have nodup := space.nodup
  rw [list, List.nodup_cons] at nodup
  have isFree : x ∈ m₁.freelist := by rw [list]; exact List.mem_cons_self
  have after := (space.takePage list (m₁.content (entry m src v).page)).2.1
  refine ⟨entered.space, (copied.after.trans after).trans entered.after, fun w below => ?_, fun w below => ?_,
    fun w bound above => ?_, fun y member => ?_⟩
  · by_cases isV : w = v
    · exact isV ▸ present
    · exact copied.present w (by omega)
  · have bound : w < 2 ^ 20 := by
      unfold userPages at user
      omega
    have isEntry := entered.entries w bound
    by_cases isV : w = v
    · subst isV
      rw [if_pos rfl] at isEntry
      refine ⟨x, copied.free x isFree, isEntry, ?_⟩
      have source : m₁.content (entry m src w).page = m.content (entry m src w).page :=
        copied.after.outside _ (apart _ _ (own_page user present))
      rw [entered.takes.bytes x nodup.1]
      dsimp only
      rw [Function.update_self, source]
    · rw [if_neg isV] at isEntry
      rcases copied.copies w (by omega) with ⟨y, member, isOld, bytes⟩
      have old : entry m' d w = entry m₁ d w := isEntry.trans (filled.2 w bound)
      have isPage : y ∉ m₁.freelist := by
        have present' : (entry m₁ d w).present = true := by
          rw [isOld]
          exact copied.present w (by omega)
        have holds := own_page (show w < userPages by omega) present'
        rw [isOld] at holds
        exact space.not_free holds
      rw [list, List.mem_cons, not_or] at isPage
      refine ⟨y, member, old.trans isOld, ?_⟩
      rw [entered.takes.bytes y isPage.2]
      dsimp only
      rw [Function.update_of_ne isPage.1]
      exact bytes
  · rw [entered.entries w bound, if_neg (by omega)]
    exact (filled.2 w bound).trans (copied.others w bound (by omega))
  · refine copied.free y ?_
    rw [list]
    exact List.mem_cons_of_mem _ (entered.takes.free y member)

/-- The loop of `copyuvm` has copied all pages. -/
theorem Copied.loop (apart : Apart m src pool) (bound : size ≤ kernbase)
    (absent : ∀ v < pagesOf size, (entry m d v).present = false) (passes : ℕ) :
    ∀ {m₁ v}, Copied src d pool v m m₁ → v ≤ pagesOf size → pagesOf size ≤ v + passes →
      copyuvmLoop src d size passes (v * pgsize) m₁ = .ok (true, m') → Copied src d pool (pagesOf size) m m' := by
  induction passes with
  | zero =>
      intro m₁ v copied inside enough ran
      have isEnd : v = pagesOf size := by omega
      cases ran
      exact isEnd ▸ copied
  | succ passes ih =>
      intro m₁ v copied inside enough ran
      unfold copyuvmLoop at ran
      by_cases done : v * pgsize < size
      · have below := lt_pagesOf.2 done
        have user := below.trans_le (pagesOf_le bound)
        have bound' : v < 2 ^ 20 := user.trans (by decide)
        have framed := (frame src apart copied.after).2.1 v bound'
        rw [if_pos done] at ran
        cases holds : tableOf m₁ src (v / 1024) with
        | none =>
            rw [walkpgdir_none bound' holds] at ran
            cases ran
        | some table =>
            have same : m₁.pte table (v % 1024) = entry m src v := by
              rw [← framed, entry, holds]
            rw [walkpgdir_some false bound' holds] at ran
            dsimp only at ran
            rw [same] at ran
            split at ran
            · rename_i present
              rcases kalloc_cases m₁ with failed | ⟨x, freelist, list, isPage⟩
              · rw [failed] at ran
                cases ran
              · rcases copied.space.takePage list (m₁.content (entry m src v).page) with ⟨space₁, -, inPool, -, -⟩
                have filled := copied.space.fillPage list (m₁.content (entry m src v).page)
                have absent₁ := (filled.2 v bound').trans (copied.others v bound' le_rfl)
                rw [isPage] at ran
                dsimp only at ran
                rcases space₁.mapEntry (entry m src v) inPool (copied.space.valid x inPool) user
                  ((congrArg Pte.present absent₁).trans (absent v below)) with ⟨m₂, mapped, -⟩ | ⟨m₂, mapped, entered⟩
                · rw [mapped] at ran
                  simp only [bind_ok, Bool.false_eq_true, if_false] at ran
                  rcases bind_eq_ok.1 ran with ⟨m₃, -, stopped⟩
                  cases stopped
                · have next : v * pgsize + pgsize = (v + 1) * pgsize := by rw [Nat.add_mul, Nat.one_mul]
                  have isEntry : ({ entry m src v with page := x, present := true } : Pte) =
                      { entry m src v with page := x } := by rw [← present]
                  rw [isEntry] at entered
                  rw [mapped] at ran
                  simp only [bind_ok, if_true, next] at ran
                  exact ih (copied.next apart user present list entered) below (by omega) ran
            · cases ran
      · have isEnd : v = pagesOf size := by
          have notLess := mt lt_pagesOf.1 done
          omega
        rw [if_neg done] at ran
        cases ran
        exact isEnd ▸ copied

/-- What `copyuvm` makes: `m₁` is the state after `setupkvm`. -/
structure CopyOf (src d : Page) (pool : Set Page) (size : ℕ) (m m₁ m' : Mem) : Prop where
  space : Space m' d pool
  after : After pool m m'
  /-- the same flags, an equal content, and a frame that was free -/
  copies : ∀ v < pagesOf size, ∃ x ∈ pool, entry m' d v = { entry m src v with page := x } ∧
    (m'.content x).bytes = (m.content (entry m src v).page).bytes
  distinct : ∀ v < pagesOf size, ∀ w < userPages, (entry m' d w).present = true →
    (entry m' d v).page = (entry m' d w).page → v = w
  noOther : ∀ v < userPages, pagesOf size ≤ v → (entry m' d v).present = false
  kernel : ∀ w < 2 ^ 20, userPages ≤ w → entry m' d w = entry m₁ d w

/-- The parent is as it was. -/
structure Untouched (src : Page) (m m' : Mem) : Prop where
  entries : ∀ v < 2 ^ 20, entry m' src v = entry m src v
  pages : ∀ part page, own m src part = some page → m'.content page = m.content page

theorem Apart.untouched (apart : Apart m src pool) (after : After pool m m') : Untouched src m m' :=
  ⟨(frame src apart after).2.1, fun part page holds => after.outside page (apart part page holds)⟩

/-- `copyuvm` copies the parent, or gives everything back. -/
def CopyCorrect (src : Page) (pool : Set Page) (size : ℕ) (m : Mem) : Prop :=
  (∃ d m₁ m', setupkvm m = .ok (some d, m₁) ∧ copyuvm src size m = .ok (some d, m') ∧
    CopyOf src d pool size m m₁ m' ∧ Untouched src m m') ∨
  ∃ m', copyuvm src size m = .ok (none, m') ∧ m'.free = m.free ∧ After pool m m' ∧ Untouched src m m'

theorem Idle.copy_correct (idle : Idle m pool) (apart : Apart m src pool) (bound : size < kernbase)
    (present : ∀ v < pagesOf size, (entry m src v).present = true) : CopyCorrect src pool size m := by
  rcases idle.copyuvm apart bound.le with ⟨fault, _, _, v, inside, missing⟩ | ⟨m', ran, idle', after, -⟩ |
    ⟨d, m', ran, made⟩
  · have absent := image_eq_none.1 missing
    rw [present v inside] at absent
    cases absent
  · exact .inr ⟨m', ran, idle'.free.trans idle.free.symm, after, apart.untouched after⟩
  · left
    have isRun := ran
    unfold Vm.copyuvm at isRun
    rcases idle.setupkvm with ⟨m₁, failed, -⟩ | ⟨d', m₁, isMade, becomes, -⟩
    · rw [failed] at isRun
      cases isRun
    · rw [isMade] at isRun
      simp only [bind_ok] at isRun
      rcases bind_eq_ok.1 isRun with ⟨⟨copied, m₂⟩, isLoop, rest⟩
      cases copied with
      | false =>
          simp only [Bool.false_eq_true, if_false] at rest
          rcases bind_eq_ok.1 rest with ⟨m₃, -, stopped⟩
          cases stopped
      | true =>
          cases rest
          have apart₁ := apart.after becomes.after
          have enough : pagesOf size ≤ 0 + (size / pgsize + 1) := by
            unfold pagesOf pgsize
            omega
          have absent : ∀ v < pagesOf size, (entry m₁ d v).present = false :=
            fun v inside => image_eq_none.1 (becomes.image v (inside.trans_le (pagesOf_le bound.le)))
          rw [← Nat.zero_mul pgsize] at isLoop
          have copied := Copied.loop apart₁ bound.le absent _ (.refl becomes.space) (Nat.zero_le _) enough isLoop
          have framed := frame src apart becomes.after
          have user : pagesOf size ≤ userPages := pagesOf_le bound.le
          refine ⟨d, m₁, m₂, isMade, ran, ⟨copied.space, becomes.after.trans copied.after, fun v inside => ?_,
            fun v inside w user' present' same => ?_, fun v user' above => ?_, fun w bound' kernel => ?_⟩,
            apart.untouched (becomes.after.trans copied.after)⟩
          · rcases copied.copies v inside with ⟨x, member, isEntry, bytes⟩
            have small : v < 2 ^ 20 := (inside.trans_le user).trans (by decide)
            have inPool : x ∈ pool := becomes.space.owned.free_mem x member
            rw [framed.2.1 v small] at isEntry bytes
            have source := apart _ _ (own_page (inside.trans_le user) (present v inside))
            refine ⟨x, inPool, isEntry, bytes.trans ?_⟩
            rw [becomes.after.outside _ source]
          · rcases copied.copies v inside with ⟨x, member, isEntry, _⟩
            have isPresent : (entry m₂ d v).present = true := by
              rw [isEntry]
              exact copied.present v inside
            have holds := own_page (inside.trans_le user) isPresent
            rw [same] at holds
            cases copied.space.owned.single _ _ _ holds (own_page user' present')
            rfl
          · rw [copied.others v (user'.trans (by decide)) above]
            exact image_eq_none.1 (becomes.image v user')
          · exact copied.others w bound' (user.trans kernel)

/-! ## A `fork` that fails -/

/-- The references that the inodes have, and the working directories. -/
structure WorkingDirs where
  ref : ℕ → ℕ
  cwd : Slot → ℕ

/-- `idup` -/
def idup (ip : ℕ) (dirs : WorkingDirs) : WorkingDirs :=
  { dirs with ref := Function.update dirs.ref ip (dirs.ref ip + 1) }

/-- `fork` with the working directories; the parent's is duplicated after its files. -/
def forkCwd (build : Build) (curproc : Slot) (s : System) (dirs : WorkingDirs) :
    Except Fault (Option Slot × System × WorkingDirs) := do
  let (child, s) ← fork build curproc s
  match child with
  | none => return (none, s, dirs)
  | some np =>
      let dirs := idup (dirs.cwd curproc) dirs
      return (some np, s, { dirs with cwd := Function.update dirs.cwd np (dirs.cwd curproc) })

/-- No slot, file or inode is left in use. -/
structure ForkUndone (s s' : System) (dirs dirs' : WorkingDirs) : Prop where
  states : ∀ q, (s'.proc q).state = (s.proc q).state
  ofiles : ∀ q, (s'.proc q).ofile = (s.proc q).ofile
  files : s'.file = s.file
  pipes : s'.pipe = s.pipe
  dirs : dirs' = dirs

variable {s s' : System} {dirs dirs' : WorkingDirs} {build : Build} {p : Slot}

/-- Only one slot has changed, and not its state or its files. -/
theorem ForkUndone.of_slot {q : Slot} (others : ∀ r ≠ q, s'.proc r = s.proc r)
    (state : (s'.proc q).state = (s.proc q).state) (ofile : (s'.proc q).ofile = (s.proc q).ofile)
    (files : s'.file = s.file) (pipes : s'.pipe = s.pipe) : ForkUndone s s' dirs dirs := by
  refine ⟨fun r => ?_, fun r => ?_, files, pipes, rfl⟩
  · by_cases same : r = q
    · exact same ▸ state
    · rw [others r same]
  · by_cases same : r = q
    · exact same ▸ ofile
    · rw [others r same]

theorem fork_undone (ran : forkCwd build p s dirs = .ok (none, s', dirs')) : ForkUndone s s' dirs dirs' := by
  rcases bind_eq_ok.1 ran with ⟨⟨child, s₁⟩, isFork, rest⟩
  cases child with
  | some np => cases rest
  | none =>
      cases rest
      unfold fork allocproc at isFork
      cases found : (List.finRange nproc).find? fun p => (s.proc p).state = .unused with
      | none =>
          rw [found] at isFork
          cases isFork
          exact ⟨fun _ => rfl, fun _ => rfl, rfl, rfl, rfl⟩
      | some q =>
          have unused : (s.proc q).state = .unused := by simpa using List.find?_some found
          rw [found] at isFork
          dsimp only at isFork
          rcases kalloc_cases s.mem with failed | ⟨kstack, freelist, list, isPage⟩
          · rw [failed] at isFork
            cases isFork
            refine .of_slot (q := q) (fun r different => setProc_other _ _ different) ?_ ?_ rfl rfl
            · rw [setProc_self]
              exact unused.symm
            · rw [setProc_self]
          · rw [isPage] at isFork
            rcases bind_eq_ok.1 isFork with ⟨⟨pgdir, m⟩, isCopy, rest⟩
            cases pgdir with
            | none =>
                rcases bind_eq_ok.1 rest with ⟨m', freed, result⟩
                cases result
                refine .of_slot (q := q) (fun r different => ?_) ?_ ?_ rfl rfl
                · rw [setProc_other _ _ different]
                  exact setProc_other _ _ different
                · rw [setProc_self]
                  exact unused.symm
                · rw [setProc_self]
                  dsimp only
                  rw [setProc_self]
            | some pgdir =>
                rcases bind_eq_ok.1 rest with ⟨s₂, -, result⟩
                cases result

/-- `copyuvm` copies the parent or gives everything back, and a `fork` that fails leaves nothing behind. -/
theorem fork_copies (src : Page) (pool : Set Page) (size : ℕ) (m : Mem) (idle : Idle m pool)
    (apart : Apart m src pool) (bound : size < kernbase)
    (present : ∀ v < pagesOf size, (entry m src v).present = true) :
    CopyCorrect src pool size m ∧ ∀ build p s dirs s' dirs',
      forkCwd build p s dirs = .ok (none, s', dirs') → ForkUndone s s' dirs dirs' :=
  ⟨idle.copy_correct apart bound present, fun _ _ _ _ _ _ ran => fork_undone ran⟩

theorem fork_copies_onePage : CopyCorrect 0x1000 onePage.free pgsize onePage ∧ ∀ build p s dirs s' dirs',
    forkCwd build p s dirs = .ok (none, s', dirs') → ForkUndone s s' dirs dirs' := by
  rcases onePage_exact with ⟨space, exact⟩
  refine fork_copies 0x1000 onePage.free pgsize onePage space.idle space.apart (by decide) fun v inside => ?_
  have user := inside.trans_le (pagesOf_le (show pgsize ≤ kernbase by decide))
  rcases (exact v user).2 inside with ⟨page, isPage⟩
  by_contra absent
  have missing : image onePage 0x1000 v = none := image_eq_none.2 (by simpa using absent)
  cases missing.symm.trans isPage

end Xv6.Vm
