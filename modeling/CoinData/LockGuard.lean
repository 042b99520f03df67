import CoinData.RobustMutex
import CoinData.Runs

/-!
# Locking the ring

A `ProcessMutex` is a robust mutex in shared memory, with the pid of its
holder beside it. Every operation of a `SharedCircularBuffer` starts with a
`ProcessLockGuard`, which locks the mutex with a timeout, and unlocks it at
its end. The guard does not ask whether it got the mutex: after a timeout
the operation runs all the same, and at its end clears the pid of the
rightful holder.

A process is at one operation at a time, and takes the steps of `timedlock`
and `unlock` one by one.
-/

/-- `ProcessMutex`. The process which has made it is `owener_pid_`. -/
structure ProcessMutex where
  mutex : RobustMutex ℕ
  holderPid : ℕ
  owenerPid : ℕ
  isDied : Bool
deriving DecidableEq, Repr

/-- A mutex made by process `pid`. -/
def ProcessMutex.make (pid : ℕ) : ProcessMutex := ⟨.free, 0, pid, false⟩

/-- The operations with a guard of their own. -/
inductive RingOp where
  | pushBack
  | index
  | copy
  | head
  | tail
deriving DecidableEq, Repr

/-- Where a process is in an operation. -/
inductive GuardPc where
  | idle
  /-- In `timedlock`, at `pthread_mutex_timedlock`. -/
  | locking (op : RingOp)
  /-- In `timedlock`, at `holder_pid_ = getpid()`. -/
  | acquired (op : RingOp)
  | body (op : RingOp)
  /-- In `unlock`, at `holder_pid_ == 0`. -/
  | checking
  /-- At `holder_pid_ = 0`. -/
  | clearing
  /-- At `pthread_mutex_unlock`. -/
  | releasing
  | aborted
deriving DecidableEq, Repr

/-- A process waits for the mutex. -/
def GuardPc.isLocking : GuardPc → Bool
  | .locking _ => true
  | _ => false

/-- A process is in neither `timedlock` nor `unlock`. -/
def GuardPc.isQuiet : GuardPc → Bool
  | .idle | .body _ => true
  | _ => false

/-- **A ring and the processes which use it**, as far as the mutex goes. -/
structure RingLocks where
  mutex : ProcessMutex
  pc : ℕ → GuardPc

/-- A process calls an operation, or takes its next step. -/
inductive GuardStep where
  | call (pid : ℕ) (op : RingOp)
  | turn (pid : ℕ)
deriving DecidableEq, Repr

namespace RingLocks

/-- A process goes on, having changed the mutex. -/
def goto (s : RingLocks) (pid : ℕ) (mutex : ProcessMutex) (pc : GuardPc) : RingLocks :=
  ⟨mutex, Function.update s.pc pid pc⟩

/-- Take a step, if it is possible. Nobody dies here. -/
def next (s : RingLocks) : GuardStep → Option RingLocks
  | .call pid op =>
    if pid ≠ 0 ∧ s.pc pid = .idle then some (s.goto pid s.mutex (.locking op)) else none
  | .turn pid =>
    match s.pc pid with
    | .idle => none
    | .locking op =>
      match s.mutex.mutex.timedlock (fun _ => true) pid with
      | (.ok, m) => some (s.goto pid { s.mutex with mutex := m } (.acquired op))
      -- the guard goes on without the mutex
      | (.etimedout, _) => some (s.goto pid s.mutex (.body op))
      | (_, m) => some (s.goto pid { s.mutex with mutex := m } .aborted)
    | .acquired op => some (s.goto pid { s.mutex with holderPid := pid } (.body op))
    | .body _ => some (s.goto pid s.mutex .checking)
    | .checking =>
      if s.mutex.holderPid = 0 then some (s.goto pid s.mutex .aborted)
      else some (s.goto pid s.mutex .clearing)
    | .clearing => some (s.goto pid { s.mutex with holderPid := 0 } .releasing)
    | .releasing =>
      match s.mutex.mutex.unlock pid with
      | (true, m) => some (s.goto pid { s.mutex with mutex := m } .idle)
      | (false, _) => some (s.goto pid s.mutex .aborted)
    | .aborted => none

end RingLocks

/-- **The system of a ring**, made by process `pid`. -/
def ringLockSystem (pid : ℕ) : TransitionSystem RingLocks GuardStep where
  init s := s = ⟨.make pid, fun _ => .idle⟩
  step s l s' := s.next l = some s'

namespace RingLocks

/-- **What the guard is for**: a body runs only while nobody else owns the
mutex, no process aborts, and while nobody is at locking or unlocking,
`holder_pid_` is the pid of the owner, or zero if there is none. -/
structure Guarded (s : RingLocks) : Prop where
  exclusive : ∀ p op, s.pc p = .body op → ∀ q, s.mutex.mutex.owner = some q → q = p
  noAbort : ∀ p, s.pc p ≠ .aborted
  holder : (∀ p, (s.pc p).isQuiet = true) →
    (s.mutex.holderPid ≠ 0 ↔ ∃ q, s.mutex.mutex.owner = some q)
      ∧ ∀ q, s.mutex.mutex.owner = some q → s.mutex.holderPid = q

/-- **No lock times out**: the mutex is free when `pthread_mutex_timedlock`
returns. -/
def InTime (s : RingLocks) : GuardStep → Prop
  | .turn pid => (s.pc pid).isLocking = true → s.mutex.mutex.owner = none
  | .call .. => True

instance (s : RingLocks) : (l : GuardStep) → Decidable (s.InTime l)
  | .turn pid =>
    inferInstanceAs (Decidable ((s.pc pid).isLocking = true → s.mutex.mutex.owner = none))
  | .call .. => inferInstanceAs (Decidable True)

end RingLocks

/-! ## The protocol behind it -/

/-- The holder which the word names. -/
def ProcessMutex.holder (m : ProcessMutex) : Option ℕ :=
  if m.holderPid = 0 then none else some m.holderPid

/-- Where a process is with the mutex, if it has it. -/
def GuardPc.phase : GuardPc → LockPhase
  | .idle | .locking _ | .aborted => .outside
  | .acquired _ => .acquired
  | .body _ | .checking | .clearing => .named
  | .releasing => .cleared

namespace RingLocks

/-- The protocol of the mutex and the word. -/
def lock (s : RingLocks) : NamedLock ℕ :=
  ⟨s.mutex.mutex.owner, s.mutex.holder, fun p => (s.pc p).phase⟩

/-- The invariant, as long as no lock times out. -/
structure Inv (s : RingLocks) : Prop where
  consistent : s.lock.Consistent
  clean : s.mutex.mutex = .free ∨ ∃ q, s.mutex.mutex = .owned q true
  noAbort : ∀ p, s.pc p ≠ .aborted
  pid : ∀ p, s.pc p ≠ .idle → p ≠ 0

variable {s s' : RingLocks} {p : ℕ} {m : ProcessMutex} {pc : GuardPc}

theorem phase_eq (hpc : s.pc p = pc) : s.lock.phase p = pc.phase := congrArg GuardPc.phase hpc

theorem phase_goto (s : RingLocks) (p : ℕ) (m : ProcessMutex) (pc : GuardPc) :
    (s.goto p m pc).lock.phase = Function.update s.lock.phase p pc.phase :=
  Function.comp_update GuardPc.phase s.pc p pc

/-- Going on keeps the invariant, if the protocol is kept. -/
theorem Inv.goto (h : s.Inv) (hp : p ≠ 0) (hpc : pc ≠ .aborted)
    (hclean : m.mutex = .free ∨ ∃ q, m.mutex = .owned q true)
    (hlock : (⟨m.mutex.owner, m.holder, Function.update s.lock.phase p pc.phase⟩ :
      NamedLock ℕ).Consistent) : (s.goto p m pc).Inv := by
  refine ⟨?_, hclean, fun q => ?_, fun q hq => ?_⟩
  · have heq : (s.goto p m pc).lock
        = ⟨m.mutex.owner, m.holder, Function.update s.lock.phase p pc.phase⟩ := by
      rw [← s.phase_goto p m pc]
      rfl
    rw [heq]
    exact hlock
  · show Function.update s.pc p pc q ≠ _
    by_cases hq : q = p
    · rw [hq, Function.update_self]
      exact hpc
    · rw [Function.update_of_ne hq]
      exact h.noAbort q
  · by_cases hqp : q = p
    · rw [hqp]
      exact hp
    · refine h.pid q fun hidle => hq ?_
      show Function.update s.pc p pc q = _
      rw [Function.update_of_ne hqp, hidle]

/-- Where the phase stays, the protocol takes no step. -/
theorem Inv.stay (h : s.Inv) (hp : p ≠ 0) (hpc : pc ≠ .aborted)
    (hphase : pc.phase = s.lock.phase p) : (s.goto p s.mutex pc).Inv :=
  h.goto hp hpc h.clean (h.consistent.stay hphase)

/-- **A step in time keeps the invariant.** -/
theorem Inv.step (h : s.Inv) {l : GuardStep} (hs : s.next l = some s') (hl : s.InTime l) :
    s'.Inv := by
  cases l with
  | call pid op =>
    dsimp only [next] at hs
    split at hs
    · next hcall =>
      cases hs
      exact h.stay hcall.1 nofun (phase_eq hcall.2).symm
    · cases hs
  | turn pid =>
    dsimp only [next] at hs
    have hpid : s.pc pid ≠ .idle → pid ≠ 0 := h.pid pid
    cases hpc : s.pc pid with
    | idle =>
      rw [hpc] at hs
      cases hs
    | locking op =>
      have howner := hl (by rw [hpc]; rfl)
      rw [hpc] at hs hpid
      rcases h.clean with hfree | ⟨q, hq⟩
      · rw [hfree] at hs
        cases hs
        exact h.goto (hpid nofun) nofun (Or.inr ⟨pid, rfl⟩)
          (h.consistent.step (.acquire pid howner (phase_eq hpc)))
      · rw [hq] at howner
        cases howner
    | acquired op =>
      rw [hpc] at hs hpid
      cases hs
      have hne := hpid nofun
      have hholder : ({ s.mutex with holderPid := pid } : ProcessMutex).holder = some pid :=
        if_neg hne
      refine h.goto hne nofun h.clean ?_
      rw [hholder]
      exact h.consistent.step (.write pid (phase_eq hpc))
    | body op =>
      rw [hpc] at hs hpid
      cases hs
      exact h.stay (hpid nofun) nofun (phase_eq hpc).symm
    | checking =>
      have hname : s.lock.name = some pid := (h.consistent.name pid).mpr (phase_eq hpc)
      have hne : s.mutex.holderPid ≠ 0 := by
        intro hzero
        change s.mutex.holder = some pid at hname
        rw [ProcessMutex.holder, if_pos hzero] at hname
        cases hname
      rw [hpc] at hs hpid
      dsimp only at hs
      rw [if_neg hne] at hs
      cases hs
      exact h.stay (hpid nofun) nofun (phase_eq hpc).symm
    | clearing =>
      rw [hpc] at hs hpid
      cases hs
      exact h.goto (hpid nofun) nofun h.clean (h.consistent.step (.clear pid (phase_eq hpc)))
    | releasing =>
      have hphase : s.lock.phase pid = .cleared := phase_eq hpc
      have howner : s.mutex.mutex.owner = some pid := by
        refine (h.consistent.inside pid).mp ?_
        rw [hphase]
        exact nofun
      rw [hpc] at hs hpid
      dsimp only at hs
      rw [RobustMutex.owned_of_owner h.clean howner, RobustMutex.unlock_self] at hs
      cases hs
      exact h.goto (hpid nofun) nofun (Or.inl rfl) (h.consistent.step (.release pid hphase))
    | aborted => exact absurd hpc (h.noAbort pid)

/-- The invariant says what the guard is for. -/
theorem Inv.guarded (h : s.Inv) : s.Guarded := by
  refine ⟨fun p op hp q hq => ?_, h.noAbort, fun hquiet => ?_⟩
  · have hin : s.mutex.mutex.owner = some p := by
      refine (h.consistent.inside p).mp ?_
      show (s.pc p).phase ≠ _
      rw [hp]
      exact nofun
    rw [hin] at hq
    exact (Option.some.inj hq).symm
  · -- who owns the mutex is in a body, and the word names it
    have hnamed : ∀ q, s.mutex.mutex.owner = some q → s.mutex.holder = some q := by
      intro q hq
      refine (h.consistent.name q).mpr ?_
      have hin := (h.consistent.inside q).mpr hq
      have hq' := hquiet q
      show (s.pc q).phase = _
      change (s.pc q).phase ≠ _ at hin
      cases hpc : s.pc q <;> rw [hpc] at hin hq' <;>
        first | rfl | exact absurd rfl hin | cases hq'
    have hword : ∀ q, s.mutex.holder = some q ↔ s.mutex.holderPid ≠ 0 ∧ s.mutex.holderPid = q := by
      intro q
      unfold ProcessMutex.holder
      split
      · next hzero => exact iff_of_false nofun fun hand => hand.1 hzero
      · next hne => exact ⟨fun heq => ⟨hne, Option.some.inj heq⟩, fun hand => congrArg some hand.2⟩
    refine ⟨⟨fun hne => ?_, ?_⟩, fun q hq => ((hword q).mp (hnamed q hq)).2⟩
    · have hphase := (h.consistent.name s.mutex.holderPid).mp ((hword _).mpr ⟨hne, rfl⟩)
      refine ⟨s.mutex.holderPid, (h.consistent.inside _).mp ?_⟩
      rw [hphase]
      exact nofun
    · rintro ⟨q, hq⟩
      exact ((hword q).mp (hnamed q hq)).1

/-- **A lock which times out** lets a body run while another process owns
the mutex. -/
theorem Inv.not_guarded (h : s.Inv) {l : GuardStep} (hs : s.next l = some s')
    (hl : ¬ s.InTime l) : ¬ s'.Guarded := by
  cases l with
  | call pid op => exact absurd trivial hl
  | turn pid =>
    obtain ⟨hwait, howner⟩ := Classical.not_imp.mp hl
    obtain ⟨op, hpc⟩ : ∃ op, s.pc pid = .locking op := by
      cases hpc : s.pc pid <;> rw [hpc] at hwait <;> first | exact ⟨_, rfl⟩ | cases hwait
    dsimp only [next] at hs
    rw [hpc] at hs
    rcases h.clean with hfree | ⟨q, hq⟩
    · rw [hfree] at howner
      exact absurd rfl howner
    · have hne : q ≠ pid := by
        rintro rfl
        have hin : (s.pc q).phase ≠ .outside :=
          (h.consistent.inside q).mpr (by show s.mutex.mutex.owner = _; rw [hq]; rfl)
        rw [hpc] at hin
        exact hin rfl
      rw [hq] at hs
      dsimp only at hs
      rw [RobustMutex.timedlock_alive hne rfl] at hs
      cases hs
      intro hguard
      refine hne (hguard.exclusive pid op (Function.update_self ..) q ?_)
      show s.mutex.mutex.owner = _
      rw [hq]
      rfl

theorem make_inv (pid : ℕ) : (⟨.make pid, fun _ => .idle⟩ : RingLocks).Inv :=
  ⟨⟨fun _ => iff_of_false (fun h => h rfl) nofun, fun _ => iff_of_false nofun nofun⟩, Or.inl rfl,
    nofun, fun _ h => absurd rfl h⟩

end RingLocks

open TransitionSystem

/-- **When the guards guard the ring.** In every state a run passes, no body
runs while another process owns the mutex, nobody aborts, and the pid of the
holder is right, exactly if no lock of the run times out. -/
theorem ring_guarded_iff {pid : ℕ} {tr : List (RingLocks × GuardStep)} {s : RingLocks}
    (hr : (ringLockSystem pid).Run tr s) :
    Throughout RingLocks.Guarded tr s ↔ Met RingLocks.InTime tr := by
  refine hr.forall_iff (J := RingLocks.Inv) ?_ ?_ ?_
  · rintro s rfl
    exact ⟨(RingLocks.make_inv pid).guarded, RingLocks.make_inv pid⟩
  · intro s l s' _ h hs hl
    exact ⟨(h.step hs hl).guarded, h.step hs hl⟩
  · intro s l s' _ h hs hl
    exact h.not_guarded hs hl

/-- Two processes use the ring one after the other, the second waiting for
the first. -/
theorem ring_guarded_iff_wait : ∃ tr s, (ringLockSystem 1).Run tr s ∧ tr.length = 14
    ∧ Throughout RingLocks.Guarded tr s := by
  have htrace : (trace RingLocks.next [] ⟨.make 1, fun _ => .idle⟩
      (List.flatten [[.call 1 .pushBack, .turn 1, .call 2 .copy], List.replicate 5 (.turn 1),
        List.replicate 6 (.turn 2)])).map
        (fun e => (e.1.length, decide (Met RingLocks.InTime e.1)))
      = some (14, true) := by decide +kernel
  obtain ⟨tr, s, hr, heq⟩ :=
    Run.exists_of_trace (S := ringLockSystem 1) (fun _ _ _ h => h) rfl htrace
  obtain ⟨hlen, hmet⟩ := Prod.mk.inj heq
  exact ⟨tr, s, hr, hlen, (ring_guarded_iff hr).mpr (of_decide_eq_true hmet)⟩

/-- **A lock times out**: the body of a second process runs while the first
one owns the mutex; and when the second is done, it has cleared the pid of
the first, and both abort. -/
theorem ring_not_guarded :
    (∃ s, (ringLockSystem 1).Reachable s ∧ s.pc 2 = .body .copy
      ∧ s.mutex.mutex.owner = some 1 ∧ ¬ s.Guarded)
    ∧ ∃ s, (ringLockSystem 1).Reachable s ∧ s.pc 1 = .aborted ∧ s.pc 2 = .aborted := by
  constructor
  · have htrace : (trace RingLocks.next [] ⟨.make 1, fun _ => .idle⟩
        [.call 1 .pushBack, .turn 1, .turn 1, .call 2 .copy, .turn 2]).map
          (fun e => (e.2.pc 2, e.2.mutex.mutex.owner)) = some (.body .copy, some 1) := by
      decide +kernel
    obtain ⟨tr, s, hr, heq⟩ :=
      Run.exists_of_trace (S := ringLockSystem 1) (fun _ _ _ h => h) rfl htrace
    obtain ⟨hpc, howner⟩ := Prod.mk.inj heq
    exact ⟨s, hr.reachable, hpc, howner,
      fun hguard => absurd (hguard.exclusive 2 _ hpc 1 howner) (by decide)⟩
  · have htrace : (trace RingLocks.next [] ⟨.make 1, fun _ => .idle⟩
        (List.flatten [[.call 1 .pushBack, .turn 1, .turn 1, .call 2 .copy],
          List.replicate 5 (.turn 2), [.turn 1, .turn 1]])).map (fun e => (e.2.pc 1, e.2.pc 2))
        = some (.aborted, .aborted) := by decide +kernel
    obtain ⟨tr, s, hr, heq⟩ :=
      Run.exists_of_trace (S := ringLockSystem 1) (fun _ _ _ h => h) rfl htrace
    obtain ⟨hone, htwo⟩ := Prod.mk.inj heq
    exact ⟨s, hr.reachable, hone, htwo⟩
