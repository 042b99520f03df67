import CoinData.LockGuard

/-!
# Lock areas

The constructor of a `ProcessLockArea` locks a mutex, runs a function, and
unlocks it. If a lock times out, it asks whether the holder is alive: it
tries again if so; else it takes it that the holder has died, says that the
mutex is consistent, runs another function, if it has been given one, and
returns.

Whether the holder is alive is read from `holder_pid_`, which the holder
writes after it has locked the mutex and clears before it unlocks it. And
that a holder has died is not found out by a timeout: a robust mutex tells
it to the next process which locks it, and `timedlock` aborts that process.
Both shows in the system below, in which processes construct areas on one
mutex, and may die anywhere.
-/

/-- Where a process is in the constructor. -/
inductive AreaPc where
  | idle
  /-- In `timedlock`, at `pthread_mutex_timedlock`. -/
  | locking
  /-- In `timedlock`, at `holder_pid_ = getpid()`. -/
  | acquired
  /-- `timedlock` has returned `ETIMEDOUT`: at `m_.holder() != 0`. -/
  | timedOut
  /-- At `kill(m_.holder(), 0) == 0`. -/
  | asking
  /-- At `pthread_mutex_consistent`. -/
  | repairing
  /-- At `kill(m_.owener_pid_, 0) != 0`. -/
  | judging
  /-- At `failed_func`, after which it returns. -/
  | failing
  /-- The mutex is locked: at `not m_.is_died_`. -/
  | entered
  /-- In `unlock`, at `holder_pid_ == 0`. -/
  | checking
  /-- At `holder_pid_ = 0`. -/
  | clearing
  /-- At `pthread_mutex_unlock`. -/
  | releasing
  /-- At `abort()`. -/
  | aborting
  | aborted
deriving DecidableEq, Repr

/-- An area: whether it has a `failed_func`, how often its functions have
run, and whether `locked_func` ran while the process owned the mutex. It is
a `later` one if a process has died holding the mutex before. -/
structure Area where
  failedFunc : Bool := false
  lockedRuns : ℕ := 0
  failedRuns : ℕ := 0
  owning : Bool := false
  later : Bool := false
deriving DecidableEq, Repr

/-- How the construction of an area has ended, and whether the mutex could
be locked then. -/
structure AreaEnd where
  area : Area
  aborted : Bool
  lockable : Bool
deriving DecidableEq, Repr

/-- **A mutex and the processes which construct areas on it.** -/
structure LockAreas where
  mutex : ProcessMutex
  alive : ℕ → Bool
  pc : ℕ → AreaPc
  area : ℕ → Area
  ended : List AreaEnd
  /-- A process has died while it held the mutex. -/
  orphaned : Bool

/-- A process constructs an area, takes its next step, or dies. -/
inductive AreaStep where
  | construct (pid : ℕ) (failedFunc : Bool)
  | turn (pid : ℕ)
  | die (pid : ℕ)
deriving DecidableEq, Repr

namespace LockAreas

/-- `kill(pid, 0) == 0`; of pid zero it is true of the caller itself. -/
def kill (s : LockAreas) (pid : ℕ) : Bool := pid = 0 || s.alive pid

/-- A process goes on, having changed the mutex. -/
def goto (s : LockAreas) (pid : ℕ) (mutex : ProcessMutex) (pc : AreaPc) : LockAreas :=
  { s with mutex := mutex, pc := Function.update s.pc pid pc }

/-- Change the area of a process. -/
def setArea (s : LockAreas) (pid : ℕ) (a : Area) : LockAreas :=
  { s with area := Function.update s.area pid a }

/-- `failed_func` is run, if there is one. -/
def runFailed (a : Area) : Area :=
  if a.failedFunc then { a with failedRuns := a.failedRuns + 1 } else a

/-- The construction of an area ends. -/
def finish (s : LockAreas) (pid : ℕ) (mutex : ProcessMutex) (a : Area) (pc : AreaPc) :
    LockAreas :=
  { s.goto pid mutex pc with
    ended := ⟨a, pc = .aborted, mutex.mutex = .free⟩ :: s.ended }

/-- A process is gone. -/
def dies (s : LockAreas) (pid : ℕ) : LockAreas :=
  { s with
    alive := Function.update s.alive pid false
    orphaned := s.orphaned || s.mutex.mutex.owner = some pid }

/-- The next step of a process in the constructor. -/
def turn (s : LockAreas) (pid : ℕ) : Option LockAreas :=
  let m := s.mutex
  let a := s.area pid
  match s.pc pid with
  | .idle => none
  | .locking =>
    match m.mutex.timedlock s.alive pid with
    | (.ok, mutex) => some (s.goto pid { m with mutex := mutex } .acquired)
    | (.etimedout, _) => some (s.goto pid m .timedOut)
    -- `timedlock` knows no other result
    | (_, mutex) => some (s.goto pid { m with mutex := mutex } .aborting)
  | .acquired => some (s.goto pid { m with holderPid := pid } .entered)
  | .timedOut => some (s.goto pid m (if m.holderPid = 0 then .repairing else .asking))
  | .asking => some (s.goto pid m (if s.kill m.holderPid then .locking else .repairing))
  | .repairing => some (s.goto pid { m with mutex := m.mutex.makeConsistent pid } .judging)
  | .judging =>
    some (s.goto pid (if s.kill m.owenerPid then m else { m with isDied := true }) .failing)
  | .failing => some (s.finish pid m (runFailed a) .idle)
  | .entered =>
    if m.isDied then some ((s.setArea pid (runFailed a)).goto pid m .checking)
    else some ((s.setArea pid { a with
      lockedRuns := a.lockedRuns + 1, owning := m.mutex.owner = some pid }).goto pid m .checking)
  | .checking => some (s.goto pid m (if m.holderPid = 0 then .aborting else .clearing))
  | .clearing => some (s.goto pid { m with holderPid := 0 } .releasing)
  | .releasing =>
    match m.mutex.unlock pid with
    | (true, mutex) => some (s.finish pid { m with mutex := mutex } a .idle)
    | (false, _) => some (s.goto pid m .aborting)
  | .aborting => some ((s.dies pid).finish pid m a .aborted)
  | .aborted => none

/-- Take a step, if it is possible. -/
def next (s : LockAreas) : AreaStep → Option LockAreas
  | .construct pid failedFunc =>
    if pid ≠ 0 ∧ s.alive pid = true ∧ s.pc pid = .idle then
      some ((s.setArea pid { failedFunc := failedFunc, later := s.orphaned }).goto pid s.mutex
        .locking)
    else none
  | .turn pid => if s.alive pid then s.turn pid else none
  | .die pid => if s.alive pid then some (s.dies pid) else none

/-- Before the first area, on a mutex made by process `pid`. -/
def fresh (pid : ℕ) (alive : ℕ → Bool) : LockAreas :=
  ⟨.make pid, alive, fun _ => .idle, fun _ => {}, [], false⟩

end LockAreas

/-- **The system of a mutex**, made by process `pid`, with the processes
which are alive. -/
def lockAreaSystem (pid : ℕ) (alive : ℕ → Bool) : TransitionSystem LockAreas AreaStep where
  init s := s = LockAreas.fresh pid alive
  step s l s' := s.next l = some s'

/-- **The same system, in which nobody dies.** -/
def liveAreaSystem (pid : ℕ) (alive : ℕ → Bool) : TransitionSystem LockAreas AreaStep where
  init s := s = LockAreas.fresh pid alive
  step s l s' := (∀ p, l ≠ .die p) ∧ s.next l = some s'

namespace LockAreas

/-- Take a step other than the death of a process, if it is possible. -/
def nextLive (s : LockAreas) : AreaStep → Option LockAreas
  | .die _ => none
  | .construct pid failedFunc => s.next (.construct pid failedFunc)
  | .turn pid => s.next (.turn pid)

theorem step_of_nextLive {pid : ℕ} {alive : ℕ → Bool} (s : LockAreas) (l : AreaStep)
    (s' : LockAreas) (h : s.nextLive l = some s') : (liveAreaSystem pid alive).step s l s' := by
  cases l with
  | construct => exact ⟨nofun, h⟩
  | turn => exact ⟨nofun, h⟩
  | die => cases h

end LockAreas

/-! ## Nobody dies -/

/-- The area has done what it is for: `locked_func` has run once, while the
process owned the mutex, and `failed_func` not. -/
def Area.Done (a : Area) : Prop := a.lockedRuns = 1 ∧ a.failedRuns = 0 ∧ a.owning = true

/-- Where a process is with the mutex, if it has it. -/
def AreaPc.phase : AreaPc → LockPhase
  | .acquired => .acquired
  | .entered | .checking | .clearing => .named
  | .releasing => .cleared
  | _ => .outside

/-- What has been done of an area, on the way to its end. -/
def AreaPc.Fits (a : Area) : AreaPc → Prop
  | .idle => True
  | .locking | .acquired | .timedOut | .asking | .entered => a.lockedRuns = 0 ∧ a.failedRuns = 0
  | .checking | .clearing | .releasing => a.Done
  | .repairing | .judging | .failing | .aborting | .aborted => False

namespace LockAreas

/-- The protocol of the mutex and the word. -/
def lock (s : LockAreas) : NamedLock ℕ :=
  ⟨s.mutex.mutex.owner, s.mutex.holder, fun p => (s.pc p).phase⟩

/-- **Every area whose constructor has returned is done.** -/
def Served (s : LockAreas) : Prop := ∀ e ∈ s.ended, e.aborted = false → e.area.Done

/-- **The word is there**: a process which asks for the holder after a
timeout reads a pid. -/
def FindsHolder (s : LockAreas) : AreaStep → Prop
  | .turn pid => s.pc pid = .timedOut → s.mutex.holderPid ≠ 0
  | _ => True

instance (s : LockAreas) : (l : AreaStep) → Decidable (s.FindsHolder l)
  | .turn pid => inferInstanceAs (Decidable (s.pc pid = .timedOut → s.mutex.holderPid ≠ 0))
  | .construct .. | .die .. => inferInstanceAs (Decidable True)

/-- The invariant, as long as nobody dies and holders are found. -/
structure LiveInv (s : LockAreas) : Prop where
  consistent : s.lock.Consistent
  clean : s.mutex.mutex = .free ∨ ∃ q, s.mutex.mutex = .owned q true
  notDied : s.mutex.isDied = false
  alive : ∀ p, s.pc p ≠ .idle → p ≠ 0 ∧ s.alive p = true
  fits : ∀ p, (s.pc p).Fits (s.area p)
  ended : ∀ e ∈ s.ended, e.area.Done

variable {s s' : LockAreas} {p : ℕ} {pc : AreaPc} {a : Area}

theorem phase_eq (hpc : s.pc p = pc) : s.lock.phase p = pc.phase := congrArg AreaPc.phase hpc

/-- One process goes on, and the invariant is kept if it keeps the protocol,
and does with its area what it should. -/
theorem LiveInv.move (h : s.LiveInv) (hpc : s'.pc = Function.update s.pc p pc)
    (harea : s'.area = Function.update s.area p a) (halive : s'.alive = s.alive)
    (hended : ∀ e ∈ s'.ended, e ∈ s.ended ∨ e.area.Done)
    (hp : p ≠ 0 ∧ s.alive p = true) (hfit : pc.Fits a)
    (hclean : s'.mutex.mutex = .free ∨ ∃ q, s'.mutex.mutex = .owned q true)
    (hdied : s'.mutex.isDied = false)
    (hlock : (⟨s'.mutex.mutex.owner, s'.mutex.holder,
      Function.update s.lock.phase p pc.phase⟩ : NamedLock ℕ).Consistent) : s'.LiveInv := by
  refine ⟨?_, hclean, hdied, fun q hq => ?_, fun q => ?_, fun e he => ?_⟩
  · have hphase : s'.lock.phase = Function.update s.lock.phase p pc.phase := by
      show AreaPc.phase ∘ s'.pc = _
      rw [hpc]
      exact Function.comp_update AreaPc.phase s.pc p pc
    rw [← hphase] at hlock
    exact hlock
  · rw [halive]
    by_cases hqp : q = p
    · rw [hqp]
      exact hp
    · rw [hpc, Function.update_of_ne hqp] at hq
      exact h.alive q hq
  · rw [hpc, harea]
    by_cases hq : q = p
    · rw [hq, Function.update_self, Function.update_self]
      exact hfit
    · rw [Function.update_of_ne hq, Function.update_of_ne hq]
      exact h.fits q
  · rcases hended e he with hold | hdone
    · exact h.ended e hold
    · exact hdone

/-- Going on without a change to the area. -/
theorem LiveInv.goto (h : s.LiveInv) {m : ProcessMutex} (hp : p ≠ 0 ∧ s.alive p = true)
    (hfit : pc.Fits (s.area p))
    (hclean : m.mutex = .free ∨ ∃ q, m.mutex = .owned q true) (hdied : m.isDied = false)
    (hlock : (⟨m.mutex.owner, m.holder, Function.update s.lock.phase p pc.phase⟩ :
      NamedLock ℕ).Consistent) : (s.goto p m pc).LiveInv :=
  h.move rfl (Function.update_eq_self ..).symm rfl (fun _ he => Or.inl he) hp hfit hclean hdied
    hlock

/-- Who has written the word is named by it. -/
theorem LiveInv.holderPid (h : s.LiveInv) (hphase : (s.pc p).phase = .named) :
    s.mutex.holderPid = p := by
  have hname : s.mutex.holder = some p := (h.consistent.name p).mpr hphase
  unfold ProcessMutex.holder at hname
  split at hname
  · cases hname
  · exact Option.some.inj hname

/-- Whom the word names is alive. -/
theorem LiveInv.kill_holder (h : s.LiveInv) : s.kill s.mutex.holderPid = true := by
  unfold LockAreas.kill
  by_cases hzero : s.mutex.holderPid = 0
  · rw [decide_eq_true hzero, Bool.true_or]
  · have hname : s.mutex.holder = some s.mutex.holderPid := if_neg hzero
    have hphase : (s.pc s.mutex.holderPid).phase = .named := (h.consistent.name _).mp hname
    have hpc : s.pc s.mutex.holderPid ≠ .idle := by
      intro hidle
      rw [hidle] at hphase
      cases hphase
    rw [(h.alive _ hpc).2, Bool.or_true]

/-- **A process locks the mutex**, or waits for it. -/
theorem LiveInv.turn_locking (h : s.LiveInv) (hpc : s.pc p = .locking)
    (hs : s.turn p = some s') : s'.LiveInv := by
  have hp : s.pc p ≠ .idle → p ≠ 0 ∧ s.alive p = true := h.alive p
  have hfit := h.fits p
  dsimp only [LockAreas.turn] at hs
  rw [hpc] at hs hp hfit
  dsimp only at hs
  rcases h.clean with hfree | ⟨q, hq⟩
  · rw [hfree] at hs
    cases hs
    refine h.goto (hp nofun) hfit (Or.inr ⟨p, rfl⟩) h.notDied
      (h.consistent.step (.acquire p ?_ (phase_eq hpc)))
    show s.mutex.mutex.owner = none
    rw [hfree]
    rfl
  · -- the mutex is another's, who is alive
    have hin : (s.pc q).phase ≠ .outside :=
      (h.consistent.inside q).mpr (by show s.mutex.mutex.owner = _; rw [hq]; rfl)
    have hne : q ≠ p := by
      rintro rfl
      rw [hpc] at hin
      exact hin rfl
    have hidle : s.pc q ≠ .idle := by
      intro hidle
      rw [hidle] at hin
      exact hin rfl
    rw [hq, RobustMutex.timedlock_alive hne (h.alive q hidle).2] at hs
    cases hs
    exact h.goto (hp nofun) hfit h.clean h.notDied (h.consistent.stay (phase_eq hpc).symm)

/-- **A step of a process in the constructor keeps the invariant**, if it
finds the holder. -/
theorem LiveInv.turn (h : s.LiveInv) (hs : s.turn p = some s')
    (hfind : s.pc p = .timedOut → s.mutex.holderPid ≠ 0) : s'.LiveInv := by
  have hp : s.pc p ≠ .idle → p ≠ 0 ∧ s.alive p = true := h.alive p
  have hfit := h.fits p
  dsimp only [LockAreas.turn] at hs
  cases hpc : s.pc p with
  | idle =>
    rw [hpc] at hs
    cases hs
  | locking => exact h.turn_locking hpc hs
  | acquired =>
    rw [hpc] at hs hp hfit
    cases hs
    have hholder : ({ s.mutex with holderPid := p } : ProcessMutex).holder = some p :=
      if_neg (hp nofun).1
    refine h.goto (hp nofun) hfit h.clean h.notDied ?_
    rw [hholder]
    exact h.consistent.step (.write p (phase_eq hpc))
  | timedOut =>
    rw [hpc] at hs hp hfit
    dsimp only at hs
    rw [if_neg (hfind hpc)] at hs
    cases hs
    exact h.goto (hp nofun) hfit h.clean h.notDied (h.consistent.stay (phase_eq hpc).symm)
  | asking =>
    rw [hpc] at hs hp hfit
    dsimp only at hs
    rw [if_pos h.kill_holder] at hs
    cases hs
    exact h.goto (hp nofun) hfit h.clean h.notDied (h.consistent.stay (phase_eq hpc).symm)
  | entered =>
    have howner : s.mutex.mutex.owner = some p := by
      refine (h.consistent.inside p).mp ?_
      show (s.pc p).phase ≠ _
      rw [hpc]
      exact nofun
    rw [hpc] at hs hp hfit
    dsimp only at hs
    rw [h.notDied, if_neg Bool.false_ne_true] at hs
    cases hs
    refine h.move rfl rfl rfl (fun _ he => Or.inl he) (hp nofun) ⟨?_, hfit.2, ?_⟩ h.clean
      h.notDied (h.consistent.stay (phase_eq hpc).symm)
    · show (s.area p).lockedRuns + 1 = 1
      rw [hfit.1]
    · exact decide_eq_true howner
  | checking =>
    have hholder := h.holderPid (show (s.pc p).phase = .named by rw [hpc]; rfl)
    rw [hpc] at hs hp hfit
    dsimp only at hs
    rw [hholder, if_neg (hp nofun).1] at hs
    cases hs
    exact h.goto (hp nofun) hfit h.clean h.notDied (h.consistent.stay (phase_eq hpc).symm)
  | clearing =>
    rw [hpc] at hs hp hfit
    cases hs
    exact h.goto (hp nofun) hfit h.clean h.notDied (h.consistent.step (.clear p (phase_eq hpc)))
  | releasing =>
    have hphase : s.lock.phase p = .cleared := phase_eq hpc
    have howner : s.mutex.mutex.owner = some p := by
      refine (h.consistent.inside p).mp ?_
      rw [hphase]
      exact nofun
    rw [hpc] at hs hp hfit
    dsimp only at hs
    rw [RobustMutex.owned_of_owner h.clean howner, RobustMutex.unlock_self] at hs
    cases hs
    refine h.move rfl (Function.update_eq_self ..).symm rfl (fun e he => ?_) (hp nofun) trivial
      (Or.inl rfl) h.notDied (h.consistent.step (.release p hphase))
    rcases List.mem_cons.mp he with rfl | he
    · exact Or.inr hfit
    · exact Or.inl he
  | repairing | judging | failing | aborting | aborted =>
    rw [hpc] at hfit
    exact hfit.elim

/-- **A step keeps the invariant**, if nobody dies and the holder is
found. -/
theorem LiveInv.step (h : s.LiveInv) {l : AreaStep} (hl : ∀ q, l ≠ .die q)
    (hs : s.next l = some s') (hc : s.FindsHolder l) : s'.LiveInv := by
  cases l with
  | construct pid failedFunc =>
    dsimp only [next] at hs
    split at hs
    · next hcall =>
      cases hs
      exact h.move rfl rfl rfl (fun _ he => Or.inl he) ⟨hcall.1, hcall.2.1⟩ ⟨rfl, rfl⟩ h.clean
        h.notDied (h.consistent.stay (phase_eq hcall.2.2).symm)
    · cases hs
  | turn pid =>
    dsimp only [next] at hs
    split at hs
    · exact h.turn hs hc
    · cases hs
  | die pid => exact absurd rfl (hl pid)

theorem fresh_liveInv (pid : ℕ) (alive : ℕ → Bool) : (fresh pid alive).LiveInv :=
  ⟨⟨fun _ => iff_of_false (fun h => h rfl) nofun, fun _ => iff_of_false nofun nofun⟩, Or.inl rfl,
    rfl, fun _ h => absurd rfl h, fun _ => trivial, nofun⟩

end LockAreas

open TransitionSystem

/-- **Areas of processes which are alive**: if every process which asks for
the holder after a timeout reads a pid, then in every state passed, every
area whose constructor has returned has run its `locked_func` once, while it
owned the mutex, and its `failed_func` not. -/
theorem lockArea_served {pid : ℕ} {alive : ℕ → Bool} {tr : List (LockAreas × AreaStep)}
    {s : LockAreas} (hr : (liveAreaSystem pid alive).Run tr s)
    (hc : Met LockAreas.FindsHolder tr) : Throughout LockAreas.Served tr s := by
  have hinv : Throughout LockAreas.LiveInv tr s := by
    refine hr.throughout_of_met ?_ (fun s l s' _ h hstep hl => h.step hstep.1 hstep.2 hl) hc
    rintro s rfl
    exact LockAreas.fresh_liveInv pid alive
  exact ⟨fun e he _ => hinv.1.ended e he, fun t ht e he _ => (hinv.2 t ht).ended e he⟩

/-- A process waits for another, is told that it is alive, and has its area
in the end. -/
theorem lockArea_served_wait : ∃ tr s, (liveAreaSystem 1 fun _ => true).Run tr s
    ∧ s.ended.length = 2 ∧ Throughout LockAreas.Served tr s := by
  have htrace : (trace LockAreas.nextLive [] (LockAreas.fresh 1 fun _ => true)
      (List.flatten [[.construct 1 false, .turn 1, .turn 1, .construct 2 true, .turn 2, .turn 2,
        .turn 2], List.replicate 4 (.turn 1), List.replicate 6 (.turn 2)])).map
        (fun e => (e.2.ended.length, decide (Met LockAreas.FindsHolder e.1)))
      = some (2, true) := by decide +kernel
  obtain ⟨tr, s, hr, heq⟩ :=
    Run.exists_of_trace (S := liveAreaSystem 1 fun _ => true) LockAreas.step_of_nextLive rfl htrace
  obtain ⟨hlen, hmet⟩ := Prod.mk.inj heq
  exact ⟨tr, s, hr, hlen, lockArea_served hr (of_decide_eq_true hmet)⟩

/-- Who acquires the mutex writes its pid only then. An area which times out
in between takes the holder for dead, and its constructor returns without
having run anything. -/
theorem lockArea_not_served : ∃ tr s, (liveAreaSystem 1 fun _ => true).Run tr s
    ∧ ¬ Throughout LockAreas.Served tr s := by
  have htrace : (trace LockAreas.nextLive [] (LockAreas.fresh 1 fun _ => true)
      (List.flatten [[.construct 1 false, .turn 1, .construct 2 false],
        List.replicate 5 (.turn 2)])).map
        (fun e => e.2.ended)
      = some [⟨{}, false, false⟩] := by decide +kernel
  obtain ⟨tr, s, hr, hended⟩ :=
    Run.exists_of_trace (S := liveAreaSystem 1 fun _ => true) LockAreas.step_of_nextLive rfl htrace
  refine ⟨tr, s, hr, fun h => ?_⟩
  have hmem : (⟨{}, false, false⟩ : AreaEnd) ∈ s.ended := by
    rw [show s.ended = _ from hended]
    exact List.mem_singleton_self _
  have hdone := h.1 _ hmem rfl
  exact Nat.zero_ne_one hdone.1

/-! ## A process dies -/

/-- **An area which has recovered from the death of the holder**: it did not
abort, ran one of its functions, and left the mutex lockable. -/
def AreaEnd.Recovers (e : AreaEnd) : Prop :=
  e.aborted = false ∧ e.area.lockedRuns + e.area.failedRuns = 1 ∧ e.lockable = true

namespace LockAreas

/-- The mutex is with a process which will not give it back: it has died, or
is about to abort. -/
def Doomed (s : LockAreas) : Prop :=
  ∃ q c, s.mutex.mutex = .owned q c ∧ (s.alive q = false ∨ s.pc q = .aborting)

/-- The invariant of all runs. As long as no holder has died, the mutex is
free or with a process which is alive; after that it is lost. -/
structure DeathInv (s : LockAreas) : Prop where
  sound : s.orphaned = false →
    s.mutex.mutex = .free ∨ ∃ q, s.mutex.mutex = .owned q true ∧ s.alive q = true
  doomed : s.orphaned = true → s.Doomed
  later : ∀ p, s.pc p ≠ .idle → (s.area p).later = true → s.orphaned = true
  ended : ∀ e ∈ s.ended, e.area.later = true → ¬ e.Recovers

variable {s s' : LockAreas} {p : ℕ} {pc : AreaPc} {a : Area}

/-- A lost mutex is not free. -/
theorem Doomed.not_free (h : s.Doomed) : s.mutex.mutex ≠ .free := by
  obtain ⟨q, c, hq, _⟩ := h
  rw [hq]
  exact nofun

/-- A process in the middle of the constructor does not have a lost mutex. -/
theorem Doomed.other (h : s.Doomed) (hp : s.alive p = true) (hpc : s.pc p ≠ .aborting) :
    ∃ q c, q ≠ p ∧ s.mutex.mutex = .owned q c ∧ (s.alive q = false ∨ s.pc q = .aborting) := by
  obtain ⟨q, c, hq, hgone⟩ := h
  refine ⟨q, c, ?_, hq, hgone⟩
  rintro rfl
  rcases hgone with hdead | habort
  · rw [hp] at hdead
    cases hdead
  · exact hpc habort

/-- The mutex stays lost when another process goes on. -/
theorem Doomed.stays (h : s.Doomed) (hp : s.alive p = true) (hpc : s.pc p ≠ .aborting)
    (hnew : s'.pc = Function.update s.pc p pc) (halive : s'.alive = s.alive)
    (hm : s'.mutex.mutex = s.mutex.mutex) : s'.Doomed := by
  obtain ⟨q, c, hne, hq, hgone⟩ := h.other hp hpc
  refine ⟨q, c, hm.trans hq, ?_⟩
  rw [halive, hnew, Function.update_of_ne hne]
  exact hgone

/-- One process goes on, and the invariant is kept if the mutex is as it
should be. -/
theorem DeathInv.move (h : s.DeathInv) (hpc : s'.pc = Function.update s.pc p pc)
    (harea : s'.area = Function.update s.area p a) (horphaned : s'.orphaned = s.orphaned)
    (hlater : pc ≠ .idle → a.later = true → s.orphaned = true)
    (hended : ∀ e ∈ s'.ended, e ∈ s.ended ∨ (e.area.later = true → ¬ e.Recovers))
    (hsound : s.orphaned = false →
      s'.mutex.mutex = .free ∨ ∃ q, s'.mutex.mutex = .owned q true ∧ s'.alive q = true)
    (hdoomed : s.Doomed → s'.Doomed) : s'.DeathInv := by
  refine ⟨fun ho => hsound (horphaned.symm.trans ho),
    fun ho => hdoomed (h.doomed (horphaned.symm.trans ho)), fun q hq hl => ?_, fun e he hl => ?_⟩
  · rw [horphaned]
    rw [hpc] at hq
    rw [harea] at hl
    by_cases hqp : q = p
    · rw [hqp, Function.update_self] at hq hl
      exact hlater hq hl
    · rw [Function.update_of_ne hqp] at hq hl
      exact h.later q hq hl
  · rcases hended e he with hold | hnew
    · exact h.ended e hold hl
    · exact hnew hl

/-- A process goes on, and leaves the mutex to whom it belongs. -/
theorem DeathInv.goto (h : s.DeathInv) {m : ProcessMutex} {old : AreaPc}
    (hp : s.alive p = true) (hpc : s.pc p = old) (hmid : old ≠ .idle ∧ old ≠ .aborting)
    (hm : m.mutex = s.mutex.mutex) : (s.goto p m pc).DeathInv := by
  rw [← hpc] at hmid
  refine h.move rfl (Function.update_eq_self ..).symm rfl (fun _ => h.later p hmid.1)
    (fun _ he => Or.inl he) (fun ho => ?_) fun hd => hd.stays hp hmid.2 rfl rfl hm
  show m.mutex = .free ∨ ∃ q, m.mutex = .owned q true ∧ s.alive q = true
  rw [hm]
  exact h.sound ho

/-- **A process dies.** If it holds the mutex, the mutex is lost. -/
theorem DeathInv.dies (h : s.DeathInv) (pid : ℕ) : (s.dies pid).DeathInv := by
  have hdead : ∀ q, s.alive q = false → (s.dies pid).alive q = false := by
    intro q hq
    show Function.update s.alive pid false q = false
    by_cases hqp : q = pid
    · rw [hqp, Function.update_self]
    · rw [Function.update_of_ne hqp]
      exact hq
  refine ⟨fun ho => ?_, fun ho => ?_, fun q hq hl => ?_, h.ended⟩
  · obtain ⟨hnot, howner⟩ := Bool.or_eq_false_iff.mp ho
    refine (h.sound hnot).imp_right ?_
    rintro ⟨q, hq, halive⟩
    refine ⟨q, hq, ?_⟩
    have hne : q ≠ pid := by
      rintro rfl
      refine of_decide_eq_false howner ?_
      rw [hq]
      rfl
    show Function.update s.alive pid false q = true
    rw [Function.update_of_ne hne]
    exact halive
  · rcases Bool.or_eq_true_iff.mp ho with hbefore | howner
    · obtain ⟨q, c, hq, hgone⟩ := h.doomed hbefore
      exact ⟨q, c, hq, hgone.imp_left (hdead q)⟩
    · have howner : s.mutex.mutex.owner = some pid := of_decide_eq_true howner
      cases hm : s.mutex.mutex with
      | owned q c =>
        rw [hm] at howner
        cases howner
        exact ⟨pid, c, hm, Or.inl (Function.update_self ..)⟩
      | free =>
        rw [hm] at howner
        cases howner
      | notRecoverable =>
        rw [hm] at howner
        cases howner
  · show (s.orphaned || _) = true
    rw [h.later q hq hl, Bool.true_or]

/-- `failed_func` does not make an area a later one. -/
theorem later_runFailed (a : Area) : (runFailed a).later = a.later := by
  unfold runFailed
  split <;> rfl

/-- **A process tries to lock.** A mutex which is lost goes to it, and it
aborts; or it times out. -/
theorem DeathInv.turn_locking (h : s.DeathInv) (hp : s.alive p = true) (hpc : s.pc p = .locking)
    (hs : s.turn p = some s') : s'.DeathInv := by
  have hidle : s.pc p ≠ .idle := by
    rw [hpc]
    exact nofun
  have habort : s.pc p ≠ .aborting := by
    rw [hpc]
    exact nofun
  dsimp only [LockAreas.turn] at hs
  rw [hpc] at hs
  dsimp only at hs
  by_cases ho : s.orphaned = true
  · obtain ⟨q, c, hne, hq, hgone⟩ := (h.doomed ho).other hp habort
    cases hq' : s.alive q with
    | true =>
      rw [hq, RobustMutex.timedlock_alive hne hq'] at hs
      cases hs
      exact h.goto hp hpc ⟨nofun, nofun⟩ rfl
    | false =>
      rw [hq, RobustMutex.timedlock_dead hne hq'] at hs
      cases hs
      refine h.move rfl (Function.update_eq_self ..).symm rfl (fun _ _ => ho)
        (fun _ he => Or.inl he) (fun hn => absurd ho (by rw [hn]; exact nofun)) fun _ => ?_
      exact ⟨p, false, rfl, Or.inr (Function.update_self ..)⟩
  · have hnot : s.orphaned = false := Bool.eq_false_iff.mpr ho
    have hlater : (s.area p).later = true → s.orphaned = true := h.later p hidle
    rcases h.sound hnot with hfree | ⟨q, hq, halive⟩
    · rw [hfree] at hs
      cases hs
      exact h.move rfl (Function.update_eq_self ..).symm rfl (fun _ => hlater)
        (fun _ he => Or.inl he) (fun _ => Or.inr ⟨p, rfl, hp⟩)
        fun hd => absurd hfree hd.not_free
    · by_cases hne : q = p
      · -- it has the mutex itself
        subst hne
        have hlock : s.mutex.mutex.timedlock s.alive q = (.edeadlk, s.mutex.mutex) := by
          rw [hq]
          exact if_pos rfl
        rw [hlock] at hs
        cases hs
        exact h.goto hp hpc ⟨nofun, nofun⟩ rfl
      · rw [hq, RobustMutex.timedlock_alive hne halive] at hs
        cases hs
        exact h.goto hp hpc ⟨nofun, nofun⟩ rfl

/-- **A process says that the mutex is consistent.** It is not its own. -/
theorem DeathInv.turn_repairing (h : s.DeathInv) (hp : s.alive p = true)
    (hpc : s.pc p = .repairing) (hs : s.turn p = some s') : s'.DeathInv := by
  have habort : s.pc p ≠ .aborting := by
    rw [hpc]
    exact nofun
  have hlater : (s.area p).later = true → s.orphaned = true :=
    h.later p (by rw [hpc]; exact nofun)
  dsimp only [LockAreas.turn] at hs
  rw [hpc] at hs
  cases hs
  refine h.move rfl (Function.update_eq_self ..).symm rfl (fun _ => hlater)
    (fun _ he => Or.inl he) (fun ho => ?_) fun hd => ?_
  · show s.mutex.mutex.makeConsistent p = .free
      ∨ ∃ q, s.mutex.mutex.makeConsistent p = .owned q true ∧ s.alive q = true
    rcases h.sound ho with hfree | ⟨q, hq, halive⟩
    · rw [hfree]
      exact Or.inl rfl
    · rw [hq, RobustMutex.makeConsistent_true]
      exact Or.inr ⟨q, rfl, halive⟩
  · refine hd.stays (p := p) hp habort rfl rfl ?_
    obtain ⟨q, c, hne, hq, _⟩ := hd.other hp habort
    show s.mutex.mutex.makeConsistent p = _
    rw [hq, RobustMutex.makeConsistent_other hne]

/-- **A process unlocks the mutex**, which it does not have if it is lost. -/
theorem DeathInv.turn_releasing (h : s.DeathInv) (hp : s.alive p = true)
    (hpc : s.pc p = .releasing) (hs : s.turn p = some s') : s'.DeathInv := by
  have hidle : s.pc p ≠ .idle := by
    rw [hpc]
    exact nofun
  have habort : s.pc p ≠ .aborting := by
    rw [hpc]
    exact nofun
  have hlater : (s.area p).later = true → s.orphaned = true := h.later p hidle
  dsimp only [LockAreas.turn] at hs
  rw [hpc] at hs
  dsimp only at hs
  by_cases ho : s.orphaned = true
  · obtain ⟨q, c, hne, hq, _⟩ := (h.doomed ho).other hp habort
    rw [hq, RobustMutex.unlock_other hne] at hs
    cases hs
    exact h.goto hp hpc ⟨nofun, nofun⟩ rfl
  · rcases h.sound (Bool.eq_false_iff.mpr ho) with hfree | ⟨q, hq, _⟩
    · rw [hfree] at hs
      cases hs
      exact h.goto hp hpc ⟨nofun, nofun⟩ rfl
    · by_cases hne : q = p
      · subst hne
        rw [hq, RobustMutex.unlock_self] at hs
        cases hs
        refine h.move rfl (Function.update_eq_self ..).symm rfl
          (fun hnot => absurd rfl hnot) (fun e he => ?_) (fun _ => Or.inl rfl) fun hd => ?_
        · rcases List.mem_cons.mp he with rfl | he
          · exact Or.inr fun hl => absurd (hlater hl) ho
          · exact Or.inl he
        · obtain ⟨q', c', hne, hq', _⟩ := hd.other hp habort
          rw [hq] at hq'
          cases hq'
          exact absurd rfl hne
      · rw [hq, RobustMutex.unlock_other hne] at hs
        cases hs
        exact h.goto hp hpc ⟨nofun, nofun⟩ rfl

/-- **A step of a process in the constructor keeps the invariant.** -/
theorem DeathInv.turn (h : s.DeathInv) (hp : s.alive p = true) (hs : s.turn p = some s') :
    s'.DeathInv := by
  cases hpc : s.pc p with
  | idle | aborted =>
    dsimp only [LockAreas.turn] at hs
    rw [hpc] at hs
    cases hs
  | locking => exact h.turn_locking hp hpc hs
  | aborting =>
    dsimp only [LockAreas.turn] at hs
    rw [hpc] at hs
    cases hs
    refine (h.dies p).move rfl (Function.update_eq_self ..).symm rfl ?_ (fun e he => ?_)
      (h.dies p).sound ?_
    · exact fun _ => (h.dies p).later p (by show s.pc p ≠ _; rw [hpc]; exact nofun)
    · rcases List.mem_cons.mp he with rfl | he
      · exact Or.inr fun _ hr => by cases hr.1
      · exact Or.inl he
    · rintro ⟨q, c, hq, hgone⟩
      refine ⟨q, c, hq, ?_⟩
      by_cases hqp : q = p
      · left
        rw [hqp]
        exact Function.update_self ..
      · refine hgone.imp_right fun habort => ?_
        show Function.update s.pc p .aborted q = .aborting
        rw [Function.update_of_ne hqp]
        exact habort
  | acquired | timedOut | asking | checking | clearing =>
    dsimp only [LockAreas.turn] at hs
    rw [hpc] at hs
    cases hs
    exact h.goto hp hpc ⟨nofun, nofun⟩ rfl
  | repairing => exact h.turn_repairing hp hpc hs
  | judging =>
    dsimp only [LockAreas.turn] at hs
    rw [hpc] at hs
    cases hs
    refine h.goto hp hpc ⟨nofun, nofun⟩ ?_
    split <;> rfl
  | failing =>
    dsimp only [LockAreas.turn] at hs
    rw [hpc] at hs
    cases hs
    have hlater : (s.area p).later = true → s.orphaned = true :=
      h.later p (by rw [hpc]; exact nofun)
    refine h.move rfl (Function.update_eq_self ..).symm rfl (fun hidle => absurd rfl hidle)
      (fun e he => ?_) h.sound
      fun hd => hd.stays hp (by rw [hpc]; exact nofun) rfl rfl rfl
    rcases List.mem_cons.mp he with rfl | he
    · refine Or.inr fun hl hr => ?_
      have ho := hlater ((later_runFailed _).symm.trans hl)
      exact (h.doomed ho).not_free (of_decide_eq_true hr.2.2)
    · exact Or.inl he
  | entered =>
    have hlater : (s.area p).later = true → s.orphaned = true :=
      h.later p (by rw [hpc]; exact nofun)
    have habort : s.pc p ≠ .aborting := by
      rw [hpc]
      exact nofun
    dsimp only [LockAreas.turn] at hs
    rw [hpc] at hs
    dsimp only at hs
    split at hs
    · cases hs
      refine h.move rfl rfl rfl (fun _ hl => ?_) (fun _ he => Or.inl he) h.sound
        fun hd => hd.stays hp habort rfl rfl rfl
      exact hlater ((later_runFailed _).symm.trans hl)
    · cases hs
      exact h.move rfl rfl rfl (fun _ => hlater) (fun _ he => Or.inl he) h.sound
        fun hd => hd.stays hp habort rfl rfl rfl
  | releasing => exact h.turn_releasing hp hpc hs

/-- **A step keeps the invariant.** -/
theorem DeathInv.step (h : s.DeathInv) {l : AreaStep} (hs : s.next l = some s') :
    s'.DeathInv := by
  cases l with
  | construct pid failedFunc =>
    dsimp only [next] at hs
    split at hs
    · next hcall =>
      cases hs
      exact h.move rfl rfl rfl (fun _ hl => hl) (fun _ he => Or.inl he) h.sound
        fun hd => hd.stays hcall.2.1 (by rw [hcall.2.2]; exact nofun) rfl rfl rfl
    · cases hs
  | turn pid =>
    dsimp only [next] at hs
    split at hs
    · next hp => exact h.turn hp hs
    · cases hs
  | die pid =>
    dsimp only [next] at hs
    split at hs
    · cases hs
      exact h.dies pid
    · cases hs

theorem fresh_deathInv (pid : ℕ) (alive : ℕ → Bool) : (fresh pid alive).DeathInv :=
  ⟨fun _ => Or.inl rfl, nofun, fun _ h => absurd rfl h, nofun⟩

end LockAreas

/-- **No area recovers from the death of a holder**: in every state which
can be reached, if a process has died holding the mutex, it is not free
again, and every area constructed after that, whose construction has ended,
has aborted, or has left the mutex locked. -/
theorem lockArea_never_recovers {pid : ℕ} {alive : ℕ → Bool} {s : LockAreas}
    (hr : (lockAreaSystem pid alive).Reachable s) :
    (s.orphaned = true → s.mutex.mutex ≠ .free)
      ∧ ∀ e ∈ s.ended, e.area.later = true → ¬ e.Recovers := by
  have hinv : s.DeathInv := by
    refine hr.invariant ?_ fun _ _ _ _ h hstep => h.step hstep
    rintro s rfl
    exact LockAreas.fresh_deathInv pid alive
  exact ⟨fun ho => (hinv.doomed ho).not_free, hinv.ended⟩

/-- The next process to lock is told that the owner has died, and aborts;
one that waits meanwhile runs `failed_func`, and the mutex stays lost. -/
theorem lockArea_never_recovers_twice : ∃ s, (lockAreaSystem 1 fun _ => true).Reachable s
    ∧ s.ended = [⟨{ later := true }, true, false⟩,
        ⟨{ failedFunc := true, failedRuns := 1, later := true }, false, false⟩]
    ∧ s.mutex.mutex ≠ .free ∧ ∀ e ∈ s.ended, e.area.later = true → ¬ e.Recovers := by
  have htrace : (trace LockAreas.next [] (LockAreas.fresh 1 fun _ => true)
      (List.flatten [[.construct 1 false, .turn 1, .turn 1, .die 1, .construct 2 false, .turn 2,
        .construct 3 true], List.replicate 6 (.turn 3), [.turn 2]])).map
        (fun e => (e.2.ended, e.2.orphaned))
      = some ([⟨{ later := true }, true, false⟩,
        ⟨{ failedFunc := true, failedRuns := 1, later := true }, false, false⟩], true) := by
    decide +kernel
  obtain ⟨tr, s, hr, heq⟩ :=
    Run.exists_of_trace (S := lockAreaSystem 1 fun _ => true) (fun _ _ _ h => h) rfl htrace
  obtain ⟨hended, horphaned⟩ := Prod.mk.inj heq
  have hnever := lockArea_never_recovers hr.reachable
  exact ⟨s, hr.reachable, hended, hnever.1 horphaned, hnever.2⟩

/-- A process dies in its critical section, and the next one to construct an
area aborts. -/
theorem lockArea_not_recovers : ∃ s, (lockAreaSystem 1 fun _ => true).Reachable s
    ∧ ∃ e ∈ s.ended, e.area.later = true ∧ ¬ e.Recovers := by
  have htrace : (trace LockAreas.next [] (LockAreas.fresh 1 fun _ => true)
      [.construct 1 false, .turn 1, .turn 1, .die 1, .construct 2 false, .turn 2, .turn 2]).map
        (fun e => e.2.ended)
      = some [⟨{ later := true }, true, false⟩] := by decide +kernel
  obtain ⟨tr, s, hr, hended⟩ :=
    Run.exists_of_trace (S := lockAreaSystem 1 fun _ => true) (fun _ _ _ h => h) rfl htrace
  refine ⟨s, hr.reachable, ⟨{ later := true }, true, false⟩, ?_, rfl, fun h => ?_⟩
  · rw [show s.ended = _ from hended]
    exact List.mem_singleton_self _
  · cases h.1
