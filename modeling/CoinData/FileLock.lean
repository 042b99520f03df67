import CoinData.Runs
import Mathlib.Logic.Function.Basic

/-!
# The file lock

`FileLock::lock` opens the file at its path, which makes one if there is
none, and waits for the record lock of what it has opened. `unlock` gives
the record lock up, closes the file, and removes whatever file the path
then names. A record lock belongs to an inode and is held by a process; a
path that was removed leaves the inode to those who have it open, and the
next process to open the path makes a new one.

So two processes exclude each other only if they have opened the same
inode. `KeptForOthers` is what this takes: nobody removes the path while
another process has opened it and has not begun its `unlock`.
-/

/-- Where a process is in a use of its lock. -/
inductive FileLockPc where
  /-- Next, `lock` opens the file. -/
  | idle
  /-- The record lock of the inode is waited for. -/
  | opened (inode : ℕ)
  /-- `lock` has returned, and `unlock` has not begun. -/
  | inside (inode : ℕ)
  /-- Next, `fcntl` releases the record lock. -/
  | unlock (inode : ℕ)
  /-- Next, the file is closed. -/
  | close (inode : ℕ)
  /-- Next, `access` tells whether the path names a file. -/
  | access
  /-- Next, the path is removed. -/
  | remove
  /-- The process has ended: a call of the system has failed. -/
  | terminated
deriving DecidableEq, Repr

/-- **The file system and the processes**: the inode the path names, the
number of inodes made so far, who holds the record lock of an inode, and
where each process is. -/
structure FileLocks (ι : Type) where
  path : Option ℕ
  inodes : ℕ
  owner : ℕ → Option ι
  pc : ι → FileLockPc

/-- Who takes a step. -/
inductive FileLockStep (ι : Type) where
  /-- The next call of the system succeeds, or `unlock` begins. -/
  | process (p : ι)
  /-- The next call fails. -/
  | fails (p : ι)
deriving DecidableEq, Repr

namespace FileLocks

variable {ι : Type} [DecidableEq ι]

/-- No file, and nobody at work. -/
def new : FileLocks ι := ⟨none, 0, fun _ => none, fun _ => .idle⟩

/-- A process goes on. -/
def goto (s : FileLocks ι) (p : ι) (pc : FileLockPc) : FileLocks ι :=
  { s with pc := Function.update s.pc p pc }

/-- The record lock of an inode is released, if the process holds it; this
is also what closing the file does. -/
def release (s : FileLocks ι) (p : ι) (inode : ℕ) : FileLocks ι :=
  if s.owner inode = some p then { s with owner := Function.update s.owner inode none } else s

/-- The next step of a process. `remove` fails if somebody else has removed
the path after `access`; what `unlock` then throws ends the process. -/
def processStep (s : FileLocks ι) (p : ι) : Option (FileLocks ι) :=
  match s.pc p with
  | .idle =>
    match s.path with
    | some inode => some (s.goto p (.opened inode))
    | none =>
      some ({ s with path := some s.inodes, inodes := s.inodes + 1 }.goto p (.opened s.inodes))
  | .opened inode =>
    if s.owner inode = none ∨ s.owner inode = some p then
      some ({ s with owner := Function.update s.owner inode (some p) }.goto p (.inside inode))
    else none
  | .inside inode => some (s.goto p (.unlock inode))
  | .unlock inode => some ((s.release p inode).goto p (.close inode))
  | .close inode => some ((s.release p inode).goto p .access)
  | .access => some (s.goto p (if s.path.isSome then .remove else .idle))
  | .remove =>
    match s.path with
    | some _ => some ({ s with path := none }.goto p .idle)
    | none => some (s.goto p .terminated)
  | .terminated => none

/-- A failing `open` or `fcntl` ends the process, which closes the file. -/
def failStep (s : FileLocks ι) (p : ι) : Option (FileLocks ι) :=
  match s.pc p with
  | .idle => some (s.goto p .terminated)
  | .opened inode | .unlock inode => some ((s.release p inode).goto p .terminated)
  | _ => none

/-- Take a step, if it is possible. -/
def next (s : FileLocks ι) : FileLockStep ι → Option (FileLocks ι)
  | .process p => s.processStep p
  | .fails p => s.failStep p

omit [DecidableEq ι] in
/-- **Exclusion**: at most one process is between the return of `lock` and
the start of `unlock`. -/
def Exclusive (s : FileLocks ι) : Prop :=
  ∀ p q i j, s.pc p = .inside i → s.pc q = .inside j → p = q

omit [DecidableEq ι] in
/-- **The path is kept for others**: who removes it is the only process to
have it open, up to those that have begun their `unlock`. -/
def KeptForOthers (s : FileLocks ι) : FileLockStep ι → Prop
  | .process p => s.pc p = .remove → ∀ inode, s.path = some inode →
      ∀ q ≠ p, s.pc q ≠ .opened inode ∧ s.pc q ≠ .inside inode
  | .fails _ => True

end FileLocks

/-- **The system of a file lock**: any number of processes use it, each as
often as it likes. -/
def fileLockSystem (ι : Type) [DecidableEq ι] :
    TransitionSystem (FileLocks ι) (FileLockStep ι) where
  init s := s = FileLocks.new
  step s l s' := s.next l = some s'

namespace FileLocks

variable {ι : Type} {s s' : FileLocks ι} {p q : ι} {pc : FileLockPc} {i : ℕ}

/-! ## What a process that goes on leaves alone -/

section Frame

variable [DecidableEq ι]

@[simp] theorem goto_path (s : FileLocks ι) (p : ι) (pc : FileLockPc) :
    (s.goto p pc).path = s.path := rfl

@[simp] theorem goto_inodes (s : FileLocks ι) (p : ι) (pc : FileLockPc) :
    (s.goto p pc).inodes = s.inodes := rfl

@[simp] theorem goto_owner (s : FileLocks ι) (p : ι) (pc : FileLockPc) :
    (s.goto p pc).owner = s.owner := rfl

@[simp] theorem goto_pc_self (s : FileLocks ι) (p : ι) (pc : FileLockPc) :
    (s.goto p pc).pc p = pc := Function.update_self _ _ _

theorem goto_pc_of_ne (h : q ≠ p) : (s.goto p pc).pc q = s.pc q := Function.update_of_ne h _ _

@[simp] theorem release_path (s : FileLocks ι) (p : ι) (i : ℕ) :
    (s.release p i).path = s.path := by
  unfold release
  split <;> rfl

@[simp] theorem release_inodes (s : FileLocks ι) (p : ι) (i : ℕ) :
    (s.release p i).inodes = s.inodes := by
  unfold release
  split <;> rfl

@[simp] theorem release_pc (s : FileLocks ι) (p : ι) (i : ℕ) :
    (s.release p i).pc = s.pc := by
  unfold release
  split <;> rfl

/-- What others hold stays held. -/
theorem release_owner_of_ne (h : q ≠ p) {j : ℕ} :
    (s.release p i).owner j = some q ↔ s.owner j = some q := by
  unfold release
  split
  · rename_i howner
    by_cases hj : j = i
    · subst hj
      rw [howner]
      simpa using Ne.symm h
    · show Function.update s.owner i none j = some q ↔ _
      rw [Function.update_of_ne hj]
  · rfl

end Frame

/-! ## The invariant -/

/-- A process which has opened the file and has not begun its `unlock` has
it from the path. -/
def Waits (pc : FileLockPc) (i : ℕ) : Prop := pc = .opened i ∨ pc = .inside i

/-- A process at this place holds the record lock of the inode. -/
def HasLock (pc : FileLockPc) (i : ℕ) : Prop := pc = .inside i ∨ pc = .unlock i

/-- **Which record locks are held**: by the processes inside, and by those
which are about to release theirs. -/
structure Locked (s : FileLocks ι) : Prop where
  owner_iff : ∀ i p, s.owner i = some p ↔ HasLock (s.pc p) i
  path_lt : ∀ i, s.path = some i → i < s.inodes
  pc_lt : ∀ p i, Waits (s.pc p) i ∨ HasLock (s.pc p) i → i < s.inodes

/-- **Who waits or is inside has opened the file that the path names.** -/
def Current (s : FileLocks ι) : Prop := ∀ p i, Waits (s.pc p) i → s.path = some i

/-- **If all have opened the same file, they exclude each other.** -/
theorem Current.exclusive (h : s.Current) (hlocked : s.Locked) : s.Exclusive := by
  intro p q i j hp hq
  have hi := h p i (.inr hp)
  have hj := h q j (.inr hq)
  rw [hi] at hj
  cases hj
  have hpo := (hlocked.owner_iff i p).mpr (.inl hp)
  have hqo := (hlocked.owner_iff i q).mpr (.inl hq)
  rw [hpo] at hqo
  exact Option.some.inj hqo

theorem Locked.new : (new : FileLocks ι).Locked where
  owner_iff _ _ := ⟨nofun, nofun⟩
  path_lt _ h := nomatch h
  pc_lt _ _ := nofun

theorem Current.new : (new : FileLocks ι).Current := by
  intro p i hp
  rcases hp with hp | hp <;> cases hp

/-- What the path names is not what the record locks are about. -/
theorem Locked.setPath (h : s.Locked) (path : Option ℕ) {inodes : ℕ} (hle : s.inodes ≤ inodes)
    (hpath : ∀ i, path = some i → i < inodes) :
    ({ s with path := path, inodes := inodes }).Locked :=
  ⟨h.owner_iff, hpath, fun p i hi => Nat.lt_of_lt_of_le (h.pc_lt p i hi) hle⟩

variable [DecidableEq ι]

/-- A process goes on with the locks it has. -/
theorem Locked.goto (h : s.Locked) (hlock : ∀ i, HasLock pc i ↔ HasLock (s.pc p) i)
    (hlt : ∀ i, Waits pc i → i < s.inodes) : (s.goto p pc).Locked := by
  refine ⟨fun i q => ?_, h.path_lt, fun q i => ?_⟩
  · by_cases hq : q = p
    · subst hq
      rw [goto_pc_self, hlock]
      exact h.owner_iff i q
    · rw [goto_pc_of_ne hq]
      exact h.owner_iff i q
  · by_cases hq : q = p
    · subst hq
      rw [goto_pc_self, hlock]
      exact Or.rec (hlt i) fun hlocked => h.pc_lt q i (.inr hlocked)
    · rw [goto_pc_of_ne hq]
      exact h.pc_lt q i

/-- A process has given up what it may hold. -/
theorem Locked.release (h : s.Locked) (hpc : ∀ j, HasLock (s.pc p) j → j = i)
    (hnot : ∀ j, ¬ (Waits pc j ∨ HasLock pc j)) : ((s.release p i).goto p pc).Locked := by
  refine ⟨fun j q => ?_, ?_, fun q j => ?_⟩
  · by_cases hq : q = p
    · subst hq
      rw [goto_pc_self]
      refine iff_of_false ?_ fun hlocked => hnot j (.inr hlocked)
      rw [goto_owner]
      unfold FileLocks.release
      split
      · by_cases hj : j = i
        · subst hj
          show Function.update s.owner j none j ≠ some q
          rw [Function.update_self]
          nofun
        · show Function.update s.owner i none j ≠ some q
          rw [Function.update_of_ne hj]
          exact fun ho => hj (hpc j ((h.owner_iff j q).mp ho))
      · rename_i hno
        intro ho
        have hj := hpc j ((h.owner_iff j q).mp ho)
        subst hj
        exact hno ho
    · rw [goto_pc_of_ne hq, goto_owner, release_owner_of_ne hq, release_pc]
      exact h.owner_iff j q
  · rw [goto_path, release_path, goto_inodes, release_inodes]
    exact h.path_lt
  · rw [goto_inodes, release_inodes]
    by_cases hq : q = p
    · subst hq
      rw [goto_pc_self]
      exact fun hpc => absurd hpc (hnot j)
    · rw [goto_pc_of_ne hq, release_pc]
      exact h.pc_lt q j

/-- **A process gets the record lock** if nobody else has it. -/
theorem Locked.lock (h : s.Locked) (hpc : s.pc p = .opened i)
    (hfree : s.owner i = none ∨ s.owner i = some p) :
    ({ s with owner := Function.update s.owner i (some p) }.goto p (.inside i)).Locked := by
  have hfree' : ∀ q ≠ p, s.owner i ≠ some q := by
    intro q hq ho
    rcases hfree with hnone | hsome
    · rw [hnone] at ho
      cases ho
    · rw [hsome] at ho
      exact hq (Option.some.inj ho).symm
  refine ⟨fun j q => ?_, h.path_lt, fun q j => ?_⟩
  · by_cases hq : q = p
    · subst hq
      rw [goto_pc_self]
      show Function.update s.owner i (some q) j = some q ↔ HasLock (.inside i) j
      by_cases hj : j = i
      · subst hj
        rw [Function.update_self]
        exact iff_of_true rfl (.inl rfl)
      · rw [Function.update_of_ne hj, h.owner_iff j q, hpc]
        refine iff_of_false ?_ ?_
        · rintro (hlock | hlock) <;> cases hlock
        · rintro (hlock | hlock) <;> cases hlock
          exact hj rfl
    · rw [goto_pc_of_ne hq]
      show Function.update s.owner i (some p) j = some q ↔ HasLock (s.pc q) j
      by_cases hj : j = i
      · subst hj
        rw [Function.update_self, ← h.owner_iff j q]
        exact iff_of_false (fun ho => hq (Option.some.inj ho).symm) (hfree' q hq)
      · rw [Function.update_of_ne hj]
        exact h.owner_iff j q
  · show Waits ((s.goto p (.inside i)).pc q) j ∨ HasLock ((s.goto p (.inside i)).pc q) j →
      j < s.inodes
    by_cases hq : q = p
    · subst hq
      rw [goto_pc_self]
      intro hj
      have hij : j = i := by
        rcases hj with (hj | hj) | (hj | hj) <;> cases hj <;> rfl
      subst hij
      exact h.pc_lt q j (.inl (.inl hpc))
    · rw [goto_pc_of_ne hq]
      exact h.pc_lt q j

/-- A process without a record lock goes on, and has not opened the file
after that. -/
theorem Locked.pass (h : s.Locked) (hp : ∀ i, ¬ HasLock (s.pc p) i)
    (hpc : ∀ i, ¬ (Waits pc i ∨ HasLock pc i)) : (s.goto p pc).Locked :=
  h.goto (fun i => iff_of_false (fun hi => hpc i (.inr hi)) (hp i))
    fun i hi => absurd (.inl hi) (hpc i)

/-- A process opens an inode there is. -/
theorem Locked.open (h : s.Locked) (hp : s.pc p = .idle) (hi : i < s.inodes) :
    (s.goto p (.opened i)).Locked := by
  refine h.goto (fun j => ?_) fun j hj => ?_
  · rw [hp]
    simp [HasLock]
  · rcases hj with hj | hj <;> cases hj
    exact hi

/-- **Every step keeps the record locks.** -/
theorem Locked.next (h : s.Locked) {l : FileLockStep ι} (hstep : s.next l = some s') :
    s'.Locked := by
  cases l with
  | process p =>
    simp only [FileLocks.next, processStep] at hstep
    cases hpc : s.pc p with
    | idle =>
      rw [hpc] at hstep
      dsimp only at hstep
      split at hstep <;> cases hstep
      · rename_i i hpath
        exact h.open hpc (h.path_lt i hpath)
      · have h' := h.setPath (some s.inodes) (Nat.le_succ s.inodes) fun i hi => by
          cases hi
          exact Nat.lt_succ_self _
        exact h'.open hpc (Nat.lt_succ_self _)
    | opened i =>
      rw [hpc] at hstep
      dsimp only at hstep
      split at hstep
      · rename_i hfree
        cases hstep
        exact h.lock hpc hfree
      · cases hstep
    | inside i =>
      rw [hpc] at hstep
      cases hstep
      refine h.goto (fun j => ?_) fun j hj => ?_
      · rw [hpc]
        simp [HasLock]
      · rcases hj with hj | hj <;> cases hj
    | unlock i =>
      rw [hpc] at hstep
      cases hstep
      refine h.release (fun j hj => ?_) (by simp [Waits, HasLock])
      rw [hpc] at hj
      rcases hj with hj | hj <;> cases hj
      rfl
    | close i =>
      rw [hpc] at hstep
      cases hstep
      refine h.release (fun j hj => ?_) (by simp [Waits, HasLock])
      rw [hpc] at hj
      rcases hj with hj | hj <;> cases hj
    | access =>
      rw [hpc] at hstep
      cases hstep
      refine h.pass (by simp [HasLock, hpc]) ?_
      split <;> simp [Waits, HasLock]
    | remove =>
      rw [hpc] at hstep
      dsimp only at hstep
      split at hstep <;> cases hstep
      · have h' := h.setPath none (Nat.le_refl _) nofun
        exact h'.pass (by simp [HasLock, hpc]) (by simp [Waits, HasLock])
      · exact h.pass (by simp [HasLock, hpc]) (by simp [Waits, HasLock])
    | terminated =>
      rw [hpc] at hstep
      cases hstep
  | fails p =>
    simp only [FileLocks.next, failStep] at hstep
    split at hstep <;> cases hstep
    · rename_i hpc
      exact h.pass (by simp [HasLock, hpc]) (by simp [Waits, HasLock])
    · rename_i i hpc
      refine h.release (fun j hj => ?_) (by simp [Waits, HasLock])
      rw [hpc] at hj
      rcases hj with hj | hj <;> cases hj
    · rename_i i hpc
      refine h.release (fun j hj => ?_) (by simp [Waits, HasLock])
      rw [hpc] at hj
      rcases hj with hj | hj <;> cases hj
      rfl

/-! ## What a process has opened -/

/-- A process goes on with the file it has open, or with none. -/
theorem Current.goto (h : s.Current) (hpath : s'.path = s.path)
    (hpc : s'.pc = Function.update s.pc p pc) (hwaits : ∀ i, Waits pc i → Waits (s.pc p) i) :
    s'.Current := by
  intro q i hi
  rw [hpc] at hi
  rw [hpath]
  by_cases hq : q = p
  · subst hq
    rw [Function.update_self] at hi
    exact h q i (hwaits i hi)
  · rw [Function.update_of_ne hq] at hi
    exact h q i hi

/-- A process closes its file, or gives its lock up. -/
theorem Current.release (h : s.Current) (hwaits : ∀ j, ¬ Waits pc j) :
    ((s.release p i).goto p pc).Current := by
  refine h.goto (p := p) (s.release_path p i) ?_ fun j hj => absurd hj (hwaits j)
  show Function.update (s.release p i).pc p pc = _
  rw [release_pc]

/-- A process opens the file that the path names. -/
theorem Current.open (h : s.Current) (hpath : s.path = some i) :
    (s.goto p (.opened i)).Current := by
  intro q j hj
  by_cases hq : q = p
  · subst hq
    rw [goto_pc_self] at hj
    rcases hj with hj | hj <;> cases hj
    exact hpath
  · rw [goto_pc_of_ne hq] at hj
    exact h q j hj

/-- **A step keeps the path for those who have opened the file**, if whoever
removes it does. -/
theorem Current.next (h : s.Current) {l : FileLockStep ι} (hl : s.KeptForOthers l)
    (hstep : s.next l = some s') : s'.Current := by
  cases l with
  | process p =>
    simp only [FileLocks.next, processStep] at hstep
    cases hpc : s.pc p with
    | idle =>
      rw [hpc] at hstep
      dsimp only at hstep
      split at hstep <;> cases hstep
      · rename_i i hpath
        exact h.open hpath
      · -- nobody has a file open that no path names
        rename_i hpath
        refine Current.open (fun q j hj => ?_) rfl
        have hsome := h q j hj
        rw [hpath] at hsome
        cases hsome
    | opened i =>
      rw [hpc] at hstep
      dsimp only at hstep
      split at hstep <;> cases hstep
      refine h.goto rfl rfl fun j hj => ?_
      rw [hpc]
      rcases hj with hj | hj <;> cases hj
      exact .inl rfl
    | inside i =>
      rw [hpc] at hstep
      cases hstep
      exact h.goto rfl rfl (by simp [Waits])
    | unlock i | close i =>
      rw [hpc] at hstep
      cases hstep
      exact h.release (by simp [Waits])
    | access =>
      rw [hpc] at hstep
      cases hstep
      refine h.goto rfl rfl fun j hj => ?_
      split at hj <;> rcases hj with hj | hj <;> cases hj
    | remove =>
      rw [hpc] at hstep
      dsimp only at hstep
      split at hstep <;> cases hstep
      · rename_i i hpath
        intro q j hj
        by_cases hq : q = p
        · subst hq
          rw [goto_pc_self] at hj
          rcases hj with hj | hj <;> cases hj
        · -- the path names what the others have opened
          rw [goto_pc_of_ne hq] at hj
          have hsome := h q j hj
          have hkept := hl hpc j hsome q hq
          exact (hj.elim hkept.1 hkept.2).elim
      · exact h.goto rfl rfl (by simp [Waits])
    | terminated =>
      rw [hpc] at hstep
      cases hstep
  | fails p =>
    simp only [FileLocks.next, failStep] at hstep
    split at hstep <;> cases hstep
    · exact h.goto rfl rfl (by simp [Waits])
    · exact h.release (by simp [Waits])
    · exact h.release (by simp [Waits])

end FileLocks

section Exclusion

open FileLocks TransitionSystem

variable {ι : Type} [DecidableEq ι] {tr : List (FileLocks ι × FileLockStep ι)} {s s' : FileLocks ι}
variable {p q : ι} {i : ℕ}

/-- Every reachable state has its record locks in order. -/
theorem fileLockSystem_locked (hs : (fileLockSystem ι).Reachable s) : s.Locked := by
  refine hs.invariant (fun s hs => ?_) fun _ _ _ _ h hstep => h.next hstep
  cases hs
  exact .new

/-- **As long as the path is kept for others, at most one process is between
the return of `lock` and the start of `unlock`.** -/
theorem fileLockSystem_exclusive (hr : (fileLockSystem ι).Run tr s) (hmet : Met KeptForOthers tr) :
    Throughout Exclusive tr s := by
  have hcurrent : Throughout (fun s => s.Current ∧ s.Locked) tr s := by
    refine hr.throughout_of_met (fun s hs => ?_) (fun _ _ _ _ h hstep hl => ?_) hmet
    · cases hs
      exact ⟨.new, .new⟩
    · exact ⟨h.1.next hl hstep, h.2.next hstep⟩
  exact ⟨hcurrent.1.1.exclusive hcurrent.1.2,
    fun e he => (hcurrent.2 e he).1.exclusive (hcurrent.2 e he).2⟩

/-- Two processes use the lock one after the other, and the second makes the
file that the first has removed. -/
theorem fileLockSystem_exclusive_two :
    ∃ tr s, (fileLockSystem Bool).Run tr s ∧ s.pc true = .inside 1 ∧
      Throughout Exclusive tr s := by
  have hrun : (trace FileLocks.next [] (FileLocks.new : FileLocks Bool)
      (List.flatten [List.replicate 7 (.process false), List.replicate 2 (.process true)])).map
        (fun r => (r.2.pc true, decide (∀ e ∈ r.1, e.1.pc true ≠ .remove ∧
          (e.1.pc false = .remove → e.1.pc true = .idle)))) = some (.inside 1, true) := by
    decide +kernel
  obtain ⟨tr, s, hr, hs⟩ :=
    Run.exists_of_trace (S := fileLockSystem Bool) (fun _ _ _ h => h) rfl hrun
  obtain ⟨htrue, hremove⟩ := Prod.mk.inj hs
  refine ⟨tr, s, hr, htrue, fileLockSystem_exclusive hr fun e he => ?_⟩
  obtain ⟨hnot, hidle⟩ := of_decide_eq_true hremove e he
  obtain ⟨s, l⟩ := e
  cases l with
  | fails p => trivial
  | process p =>
    intro hp i _ q hq
    cases p with
    | true => exact absurd hp hnot
    | false =>
      cases q with
      | false => exact absurd rfl hq
      | true =>
        rw [hidle hp]
        exact ⟨nofun, nofun⟩

/-- **Two are inside at once**: the second waits for an inode whose path the
first removes, the third makes a new one. -/
theorem fileLockSystem_not_exclusive :
    ¬ ∀ (tr : List (FileLocks (Fin 3) × FileLockStep (Fin 3))) (s : FileLocks (Fin 3)),
      (fileLockSystem (Fin 3)).Run tr s → Throughout Exclusive tr s := by
  intro h
  have hrun : (trace FileLocks.next [] (FileLocks.new : FileLocks (Fin 3))
      (List.flatten [[.process 0, .process 0, .process 1], List.replicate 5 (.process 0),
        [.process 1, .process 2, .process 2]])).map (fun r => (r.2.pc 1, r.2.pc 2)) =
      some (.inside 0, .inside 1) := by
    decide +kernel
  obtain ⟨tr, s, hr, hs⟩ :=
    Run.exists_of_trace (S := fileLockSystem (Fin 3)) (fun _ _ _ h => h) rfl hrun
  obtain ⟨hone, htwo⟩ := Prod.mk.inj hs
  cases (h tr s hr).1 1 2 0 1 hone htwo

/-- A process that has removed the path makes a new inode, whose record
lock is free. -/
theorem exists_inside_of_removed (hr : (fileLockSystem ι).Run tr s) (hp : s.pc p = .idle)
    (hpath : s.path = none) :
    ∃ tr' s', (fileLockSystem ι).Run (tr' ++ tr) s' ∧ s'.pc p = .inside s.inodes ∧
      ∀ q ≠ p, s'.pc q = s.pc q := by
  have hlocked := fileLockSystem_locked hr.reachable
  have hopen : s.next (.process p) = some ({ s with
      path := some s.inodes, inodes := s.inodes + 1 }.goto p (.opened s.inodes)) := by
    simp only [FileLocks.next, processStep, hp, hpath]
  have hr₁ := hr.snoc hopen
  set s₁ := { s with path := some s.inodes, inodes := s.inodes + 1 }.goto p (.opened s.inodes)
  have hp₁ : s₁.pc p = .opened s.inodes := goto_pc_self _ _ _
  have hfree : s₁.owner s.inodes = none := by
    show s.owner s.inodes = none
    by_contra hne
    obtain ⟨q, hq⟩ := Option.ne_none_iff_exists'.mp hne
    exact Nat.lt_irrefl _ (hlocked.pc_lt q _ (.inr ((hlocked.owner_iff _ q).mp hq)))
  have hlock : s₁.next (.process p) = some ({ s₁ with
      owner := Function.update s₁.owner s.inodes (some p) }.goto p (.inside s.inodes)) := by
    simp only [FileLocks.next, processStep, hp₁, hfree, true_or, if_true]
  refine ⟨[(s₁, .process p), (s, .process p)], _, hr₁.snoc hlock, goto_pc_self _ _ _, ?_⟩
  intro q hq
  rw [goto_pc_of_ne hq]
  exact goto_pc_of_ne hq

/-- A process gets a record lock nobody else has, while another is inside. -/
theorem exists_not_exclusive_of_free {m : ℕ} (hr : (fileLockSystem ι).Run tr s)
    (hp : s.pc p = .inside m) (hq : s.pc q = .opened i) (hqp : q ≠ p)
    (hfree : s.owner i = none ∨ s.owner i = some q) :
    ∃ tr' s', (fileLockSystem ι).Run (tr' ++ tr) s' ∧ ¬ s'.Exclusive := by
  have hlock : s.next (.process q) =
      some ({ s with owner := Function.update s.owner i (some q) }.goto q (.inside i)) := by
    simp only [FileLocks.next, processStep, hq, if_pos hfree]
  refine ⟨[(s, .process q)], _, hr.snoc hlock, fun h => hqp ?_⟩
  refine h q p i m (goto_pc_self _ _ _) ?_
  rw [goto_pc_of_ne hqp.symm]
  exact hp

/-- A process that waits for another inode gets its record lock, or somebody
else is inside with it. -/
theorem exists_not_exclusive_of_opened {m : ℕ} (hr : (fileLockSystem ι).Run tr s)
    (hp : s.pc p = .inside m) (hq : s.pc q = .opened i) (hne : m ≠ i) :
    ∃ tr' s', (fileLockSystem ι).Run (tr' ++ tr) s' ∧ ¬ s'.Exclusive := by
  have hlocked := fileLockSystem_locked hr.reachable
  have hqp : q ≠ p := by
    rintro rfl
    rw [hp] at hq
    cases hq
  cases howner : s.owner i with
  | none => exact exists_not_exclusive_of_free hr hp hq hqp (.inl howner)
  | some r =>
    by_cases hrq : r = q
    · subst hrq
      exact exists_not_exclusive_of_free hr hp hq hqp (.inr howner)
    have hrp : r ≠ p := by
      rintro rfl
      rcases (hlocked.owner_iff i r).mp howner with hpc | hpc <;> rw [hp] at hpc <;> cases hpc
      exact hne rfl
    rcases (hlocked.owner_iff i r).mp howner with hpc | hpc
    · exact ⟨[], s, hr, fun h => hrp (h r p i m hpc hp)⟩
    · -- who holds it is about to release it
      have hrelease : s.next (.process r) = some ((s.release r i).goto r (.close i)) := by
        simp only [FileLocks.next, processStep, hpc]
      have hr₁ := hr.snoc hrelease
      have hpc₁ : ∀ t ≠ r, ((s.release r i).goto r (.close i)).pc t = s.pc t := by
        intro t ht
        rw [goto_pc_of_ne ht, release_pc]
      have hfree : ((s.release r i).goto r (.close i)).owner i = none := by
        simp only [goto_owner, release, if_pos howner, Function.update_self]
      obtain ⟨tr', s', hr', hs'⟩ := exists_not_exclusive_of_free hr₁
        ((hpc₁ p hrp.symm).trans hp) ((hpc₁ q (Ne.symm hrq)).trans hq) hqp (.inl hfree)
      exact ⟨tr' ++ [(s, .process r)], s', by rwa [List.append_assoc], hs'⟩

/-- **The condition asks for no more than it has to**: after a step that
does not keep the path for others, the run can go on until two processes
are inside. -/
theorem exists_not_exclusive_of_removed {l : FileLockStep ι} (hr : (fileLockSystem ι).Run tr s)
    (hstep : s.next l = some s') (hl : ¬ s.KeptForOthers l) :
    ∃ tr₂ s₂, (fileLockSystem ι).Run (tr₂ ++ (s, l) :: tr) s₂ ∧ ¬ s₂.Exclusive := by
  cases l with
  | fails p => exact absurd trivial hl
  | process p =>
    simp only [KeptForOthers, Classical.not_imp, not_forall] at hl
    obtain ⟨hp, i, hpath, q, hqp, hq⟩ := hl
    have hi : i < s.inodes := (fileLockSystem_locked hr.reachable).path_lt i hpath
    have hr' := hr.snoc (S := fileLockSystem ι) hstep
    simp only [FileLocks.next, processStep, hp, hpath, Option.some.injEq] at hstep
    subst hstep
    obtain ⟨tr₁, s₁, hr₁, hp₁, hother⟩ :=
      exists_inside_of_removed hr' (p := p) (goto_pc_self _ _ _) rfl
    have hq₁ : s₁.pc q = s.pc q := by
      rw [hother q hqp, goto_pc_of_ne hqp]
    by_cases hqi : s.pc q = .inside i
    · exact ⟨tr₁, s₁, hr₁, fun h => hqp (h q p i _ (hq₁.trans hqi) hp₁)⟩
    · have hopened : s.pc q = .opened i := by
        by_contra hne
        exact hq ⟨hne, hqi⟩
      obtain ⟨tr₂, s₂, hr₂, hs₂⟩ :=
        exists_not_exclusive_of_opened hr₁ hp₁ (hq₁.trans hopened) (Nat.ne_of_gt hi)
      exact ⟨tr₂ ++ tr₁, s₂, by rwa [List.append_assoc], hs₂⟩

end Exclusion
