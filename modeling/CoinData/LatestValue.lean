import CoinData.LockGuard
import CoinData.Simulation
import Mathlib.Data.Nat.ModEq

/-!
# The latest value

A `LocalWriter` and the `LocalReader`s of its name share a `CommunicatorItem`
whose buffer is one pointer. To write is to store a pointer and to count, to
read is to remember the count and to take the pointer, and both are done under
the mutex of the item. `is_update` compares the count with the one remembered,
and `is_online` reads a flag, without the mutex. A null pointer which is
written is counted and not stored, as the assignment of `ShmSharedPtr` ignores
it.

`atomicItem` is what the users may think of: a value and a count, on which calls
take effect one after another. `latest_value_linearizable` says that they are
not deceived as long as no process dies in `lock`, in `unlock`, or in between.
It is to be seen where the effect of a write is: when it counts, and not when
it stores, because `is_update` does not wait for the mutex.

A process is at one call at a time. A reader has been connected before.
-/

/-- A call of a `LocalWriter` or of a `LocalReader`. -/
inductive LatestCall (V : Type) where
  | write (data : Option V)
  | read
  | isUpdate
  | isOnline
deriving DecidableEq, Repr

/-- What a call returns. -/
inductive LatestResult (V : Type) where
  | written
  | data (data : Option V)
  | flag (b : Bool)
deriving DecidableEq, Repr

/-- What is seen of an item from outside. -/
inductive LatestEvent (V : Type) where
  | call (pid : ℕ) (op : LatestCall V)
  | ret (pid : ℕ) (res : LatestResult V)
  /-- A writer is constructed. -/
  | online
  /-- A writer is destroyed: it sets `is_online`, and resets the pointer. -/
  | offline
  | reset
deriving DecidableEq, Repr

/-! ## The item as it is -/

/-- A call under the mutex. -/
inductive LockedCall (V : Type) where
  | write (data : Option V)
  | read
deriving DecidableEq, Repr

/-- Where a process is in a call. -/
inductive LatestPc (V : Type) where
  | idle
  /-- In `lock`, at `pthread_mutex_lock`. -/
  | locking (op : LockedCall V)
  /-- In `lock`, at `holder_pid_ = getpid()`. -/
  | acquired (op : LockedCall V)
  /-- In `write`, at `buffer = data`. -/
  | storing (data : Option V)
  /-- At `index += 1`. -/
  | counting (data : Option V)
  /-- In `read`, at `idx_ = index`. -/
  | recording
  /-- At the copy of the pointer. -/
  | copying
  /-- In `unlock`, at `holder_pid_ == 0`. -/
  | checking (res : LatestResult V)
  /-- At `holder_pid_ = 0`. -/
  | clearing (res : LatestResult V)
  /-- At `pthread_mutex_unlock`. -/
  | releasing (res : LatestResult V)
  /-- In `is_update`, at the comparison. -/
  | comparing
  /-- In `is_online`. -/
  | asking
  | returning (res : LatestResult V)
  | aborted
deriving DecidableEq, Repr

namespace LatestPc

variable {V : Type}

def isIdle : LatestPc V → Bool
  | .idle => true
  | _ => false

/-- A writer has stored, and not counted yet. -/
def isCounting : LatestPc V → Bool
  | .counting _ => true
  | _ => false

/-- What a call returns with its next step. -/
def returned : LatestPc V → Option (LatestResult V)
  | .returning res => some res
  | _ => none

/-- Behind the lock. -/
def body : LockedCall V → LatestPc V
  | .write data => .storing data
  | .read => .recording

/-- Where a process is with the mutex, if it has it. -/
def phase : LatestPc V → LockPhase
  | .idle | .locking _ | .comparing | .asking | .returning _ | .aborted => .outside
  | .acquired _ => .acquired
  | .storing _ | .counting _ | .recording | .copying | .checking _ | .clearing _ => .named
  | .releasing _ => .cleared

end LatestPc

/-- **A `CommunicatorItem` with one pointer**, and the processes which use it.
`idx` has the `idx_` of each reader. -/
structure LatestItem (V : Type) where
  isOnline : Bool
  index : BitVec 64
  buffer : Option V
  mutex : ProcessMutex
  idx : ℕ → BitVec 64
  pc : ℕ → LatestPc V
  alive : ℕ → Bool

/-- Who takes a step. -/
inductive LatestStep (V : Type) where
  | call (pid : ℕ) (op : LatestCall V)
  | turn (pid : ℕ)
  | die (pid : ℕ)
  | online
  | offline
  | reset
deriving DecidableEq, Repr

namespace LatestItem

variable {V : Type}

/-- A process goes on. -/
def goto (s : LatestItem V) (pid : ℕ) (pc : LatestPc V) : LatestItem V :=
  { s with pc := Function.update s.pc pid pc }

/-- A process aborts. -/
def abort (s : LatestItem V) (pid : ℕ) : LatestItem V :=
  { s.goto pid .aborted with alive := Function.update s.alive pid false }

/-- Assign to a `ShmSharedPtr`. -/
def assign (old : Option V) : Option V → Option V
  | none => old
  | some v => some v

/-- The next step of a process. -/
def turn (s : LatestItem V) (pid : ℕ) : Option (LatestItem V) :=
  match s.pc pid with
  | .idle | .aborted => none
  | .locking op =>
    match s.mutex.mutex.timedlock s.alive pid with
    | (.ok, m) => some { s.goto pid (.acquired op) with mutex := { s.mutex with mutex := m } }
    -- `pthread_mutex_lock` goes on waiting
    | (.etimedout, _) => none
    -- `lock` returns false, and the guard does not ask
    | (_, m) => some { s.goto pid (.body op) with mutex := { s.mutex with mutex := m } }
  | .acquired op =>
    some { s.goto pid (.body op) with mutex := { s.mutex with holderPid := pid } }
  | .storing data => some { s.goto pid (.counting data) with buffer := assign s.buffer data }
  | .counting _ => some { s.goto pid (.checking .written) with index := s.index + 1 }
  | .recording => some { s.goto pid .copying with idx := Function.update s.idx pid s.index }
  | .copying => some (s.goto pid (.checking (.data s.buffer)))
  | .checking res =>
    if s.mutex.holderPid = 0 then some (s.abort pid) else some (s.goto pid (.clearing res))
  | .clearing res =>
    some { s.goto pid (.releasing res) with mutex := { s.mutex with holderPid := 0 } }
  | .releasing res =>
    match s.mutex.mutex.unlock pid with
    | (true, m) => some { s.goto pid (.returning res) with mutex := { s.mutex with mutex := m } }
    | (false, _) => some (s.abort pid)
  | .comparing => some (s.goto pid (.returning (.flag (s.idx pid != s.index))))
  | .asking => some (s.goto pid (.returning (.flag s.isOnline)))
  | .returning _ => some (s.goto pid .idle)

/-- Where a call starts. -/
def entry : LatestCall V → LatestPc V
  | .write data => .locking (.write data)
  | .read => .locking .read
  | .isUpdate => .comparing
  | .isOnline => .asking

/-- No writer is between storing and counting. -/
def Counted (s : LatestItem V) : Prop :=
  match s.mutex.mutex.owner with
  | none => True
  | some pid => (s.pc pid).isCounting = false

instance (s : LatestItem V) : Decidable s.Counted := by
  unfold Counted
  split <;> infer_instance

/-- Take a step, if it is possible. A writer is destroyed when its writes have
returned. -/
def next (s : LatestItem V) : LatestStep V → Option (LatestItem V)
  | .call pid op =>
    if pid ≠ 0 ∧ s.alive pid = true ∧ (s.pc pid).isIdle = true then
      some (s.goto pid (entry op))
    else none
  | .turn pid => if s.alive pid = true then s.turn pid else none
  | .die pid => some { s with alive := Function.update s.alive pid false }
  | .online => some { s with isOnline := true }
  | .offline => some { s with isOnline := false }
  | .reset => if s.Counted then some { s with buffer := none } else none

/-- What is seen of a step. -/
def observe (s : LatestItem V) : LatestStep V → Option (LatestEvent V)
  | .call pid op => some (.call pid op)
  | .turn pid => (s.pc pid).returned.map (.ret pid)
  | .die _ => none
  | .online => some .online
  | .offline => some .offline
  | .reset => some .reset

/-- An item made by process `pid`. What a reader remembers before it has read is
whatever was in its memory. -/
def fresh (pid : ℕ) (idx : ℕ → BitVec 64) : LatestItem V :=
  ⟨false, 0, none, .make pid, idx, fun _ => .idle, fun _ => true⟩

/-- **Nobody dies with the mutex.** -/
def DiesOutside (s : LatestItem V) : LatestStep V → Prop
  | .die pid => (s.pc pid).phase = .outside
  | _ => True

instance (s : LatestItem V) : (l : LatestStep V) → Decidable (s.DiesOutside l)
  | .die pid => inferInstanceAs (Decidable ((s.pc pid).phase = .outside))
  | .call .. | .turn _ | .online | .offline | .reset => inferInstanceAs (Decidable True)

end LatestItem

/-- **The system of an item** made by process `pid`. -/
def latestSystem (V : Type) (pid : ℕ) : TransitionSystem (LatestItem V) (LatestStep V) where
  init s := ∃ idx, s = .fresh pid idx
  step s l s' := s.next l = some s'

/-! ## The item as it is meant -/

/-- Where a process is in a call, as far as the call has an effect. -/
inductive AtomicPc (V : Type) where
  | idle
  | called (op : LatestCall V)
  | done (res : LatestResult V)

/-- **An item on which calls take effect at once.** `seen` is how many writes
there were when a reader has read. -/
structure AtomicItem (V : Type) where
  isOnline : Bool
  value : Option V
  count : ℕ
  seen : ℕ → ℕ
  pc : ℕ → AtomicPc V

/-- What happens to it. -/
inductive AtomicStep (V : Type) where
  | call (pid : ℕ) (op : LatestCall V)
  | effect (pid : ℕ)
  | ret (pid : ℕ)
  | online
  | offline
  | reset

namespace AtomicItem

variable {V : Type}

/-- **The effect of a call.** There is an update if the number of writes since
the last read is no multiple of 2⁶⁴. -/
def perform (a : AtomicItem V) (pid : ℕ) : LatestCall V → AtomicItem V × LatestResult V
  | .write none => ({ a with count := a.count + 1 }, .written)
  | .write (some v) => ({ a with value := some v, count := a.count + 1 }, .written)
  | .read => ({ a with seen := Function.update a.seen pid a.count }, .data a.value)
  | .isUpdate => (a, .flag (decide (¬ a.seen pid ≡ a.count [MOD 2 ^ 64])))
  | .isOnline => (a, .flag a.isOnline)

/-- The steps. -/
inductive Step : AtomicItem V → AtomicStep V → AtomicItem V → Prop
  | call {a : AtomicItem V} {pid : ℕ} {op : LatestCall V} : a.pc pid = .idle →
      Step a (.call pid op) { a with pc := Function.update a.pc pid (.called op) }
  | effect {a : AtomicItem V} {pid : ℕ} {op : LatestCall V} : a.pc pid = .called op →
      Step a (.effect pid)
        { (a.perform pid op).1 with pc := Function.update a.pc pid (.done (a.perform pid op).2) }
  | ret {a : AtomicItem V} {pid : ℕ} {res : LatestResult V} : a.pc pid = .done res →
      Step a (.ret pid) { a with pc := Function.update a.pc pid .idle }
  | online {a : AtomicItem V} : Step a .online { a with isOnline := true }
  | offline {a : AtomicItem V} : Step a .offline { a with isOnline := false }
  | reset {a : AtomicItem V} : Step a .reset { a with value := none }

/-- What is seen of a step. -/
def observe (a : AtomicItem V) : AtomicStep V → Option (LatestEvent V)
  | .call pid op => some (.call pid op)
  | .effect _ => none
  | .ret pid =>
    match a.pc pid with
    | .done res => some (.ret pid res)
    | _ => none
  | .online => some .online
  | .offline => some .offline
  | .reset => some .reset

end AtomicItem

/-- **The system of an item on which calls take effect at once.** -/
def atomicSystem (V : Type) : TransitionSystem (AtomicItem V) (AtomicStep V) where
  init a := a.isOnline = false ∧ a.value = none ∧ a.count = 0 ∧ ∀ pid, a.pc pid = .idle
  step := AtomicItem.Step

/-! ## The mutex -/

namespace LatestPc

variable {V : Type}

/-- A reader has remembered the count, and not taken the pointer yet. -/
def isCopying : LatestPc V → Bool
  | .copying => true
  | _ => false

/-- What the guard of the mutex sees of a call. -/
def guard : LatestPc V → GuardPc
  | .idle | .comparing | .asking | .returning _ => .idle
  | .locking _ => .locking .copy
  | .acquired _ => .acquired .copy
  | .storing _ | .counting _ | .recording | .copying => .body .copy
  | .checking _ => .checking
  | .clearing _ => .clearing
  | .releasing _ => .releasing
  | .aborted => .aborted

theorem guard_phase (pc : LatestPc V) : pc.guard.phase = pc.phase := by
  cases pc <;> rfl

theorem guard_body (op : LockedCall V) : (body op).guard = .body .copy := by
  cases op <;> rfl

/-- Where a process is, as far as the call has an effect. -/
def pending : LatestPc V → AtomicPc V
  | .idle | .aborted => .idle
  | .locking (.write data) | .acquired (.write data) | .storing data | .counting data =>
    .called (.write data)
  | .locking .read | .acquired .read | .recording | .copying => .called .read
  | .comparing => .called .isUpdate
  | .asking => .called .isOnline
  | .checking res | .clearing res | .releasing res | .returning res => .done res

end LatestPc

namespace LatestItem

variable {V : Type} {s s' : LatestItem V} {p : ℕ}

/-- **What the guard of the mutex sees**: it is that of a ring. -/
def locks (s : LatestItem V) : RingLocks := ⟨s.mutex, fun p => (s.pc p).guard⟩

/-- **What holds of the mutex**, as long as nobody dies with it. -/
structure Guarded (s : LatestItem V) : Prop where
  locks : s.locks.Inv
  living : ∀ p, (s.pc p).phase ≠ .outside → s.alive p = true

/-- Two processes are not behind the lock together. -/
theorem Guarded.eq (h : s.Guarded) {p q : ℕ} (hp : (s.pc p).phase ≠ .outside)
    (hq : (s.pc q).phase ≠ .outside) : p = q := by
  refine h.locks.consistent.eq ?_ ?_
  · show (s.pc p).guard.phase ≠ .outside
    rwa [LatestPc.guard_phase]
  · show (s.pc q).guard.phase ≠ .outside
    rwa [LatestPc.guard_phase]

theorem locks_update {pc : LatestPc V} {s' : LatestItem V}
    (hpc : s'.pc = Function.update s.pc p pc) :
    s'.locks = s.locks.goto p s'.mutex pc.guard := by
  unfold locks RingLocks.goto
  rw [hpc]
  congr 1
  exact Function.comp_update LatestPc.guard s.pc p pc

/-- A process goes on by a step of the guard, or by one the guard does not
see. -/
theorem Guarded.goto (h : s.Guarded) {pc : LatestPc V}
    (hpc : s'.pc = Function.update s.pc p pc) (halive : s'.alive = s.alive) (hp : s.alive p = true)
    (hstep : (s'.mutex = s.mutex ∧ pc.guard = (s.pc p).guard)
      ∨ ∃ l, s.locks.next l = some (s.locks.goto p s'.mutex pc.guard) ∧ s.locks.InTime l) :
    s'.Guarded := by
  refine ⟨?_, fun q hq => ?_⟩
  · rw [locks_update hpc]
    rcases hstep with ⟨hmutex, hguard⟩ | ⟨l, hl, htime⟩
    · rw [hmutex, hguard]
      have hsame : s.locks.goto p s.mutex (s.pc p).guard = s.locks :=
        congrArg (RingLocks.mk s.mutex) (Function.update_eq_self p s.locks.pc)
      rw [hsame]
      exact h.locks
    · exact h.locks.step hl htime
  · rw [halive]
    rw [hpc] at hq
    by_cases hqp : q = p
    · rw [hqp]
      exact hp
    · rw [Function.update_of_ne hqp] at hq
      exact h.living q hq

/-- **A turn keeps what holds of the mutex.** -/
theorem Guarded.turn (h : s.Guarded) (hp : s.alive p = true) (hs : s.turn p = some s') :
    s'.Guarded := by
  have hg : s.locks.pc p = (s.pc p).guard := rfl
  -- a step of the guard which takes no lock is in time
  have hquiet {t : RingLocks} (hn : s.locks.next (.turn p) = some t)
      (hlock : (s.pc p).guard.isLocking = false) :
      ∃ l, s.locks.next l = some t ∧ s.locks.InTime l :=
    ⟨_, hn, fun hwait => by cases hlock.symm.trans hwait⟩
  have hnoabort {m : ProcessMutex} :
      ¬ ∃ l, s.locks.next l = some (s.locks.goto p m .aborted) ∧ s.locks.InTime l := by
    rintro ⟨l, hl, htime⟩
    exact (h.locks.step hl htime).noAbort p (Function.update_self ..)
  unfold LatestItem.turn at hs
  cases hpc : s.pc p with
  | idle | aborted =>
    rw [hpc] at hs
    cases hs
  | locking op =>
    rw [hpc] at hs hg
    dsimp only at hs
    rcases h.locks.clean with hfree | ⟨q, hq⟩
    · have hfree : s.mutex.mutex = .free := hfree
      rw [hfree] at hs
      cases hs
      refine h.goto rfl rfl hp (.inr ⟨.turn p, ?_, fun _ => ?_⟩)
      · unfold RingLocks.next
        dsimp only
        rw [hg, show s.locks.mutex.mutex = .free from hfree]
        rfl
      · rw [show s.locks.mutex.mutex = .free from hfree]
        rfl
    · have hq : s.mutex.mutex = .owned q true := hq
      have hin : (s.pc q).phase ≠ .outside := by
        rw [← LatestPc.guard_phase]
        refine (h.locks.consistent.inside q).mpr ?_
        show s.mutex.mutex.owner = _
        rw [hq]
        rfl
      have hne : q ≠ p := by
        rintro rfl
        rw [hpc] at hin
        exact hin rfl
      rw [hq, RobustMutex.timedlock_alive hne (h.living q hin)] at hs
      cases hs
  | acquired op =>
    rw [hpc] at hs hg
    cases hs
    refine h.goto rfl rfl hp (.inr (hquiet ?_ (by rw [hpc]; rfl)))
    unfold RingLocks.next
    dsimp only
    rw [hg, LatestPc.guard_body]
    rfl
  | storing data | recording | comparing | asking | returning res =>
    rw [hpc] at hs
    cases hs
    exact h.goto rfl rfl hp (.inl ⟨rfl, by rw [hpc]; rfl⟩)
  | counting data | copying =>
    rw [hpc] at hs hg
    cases hs
    refine h.goto rfl rfl hp (.inr (hquiet ?_ (by rw [hpc]; rfl)))
    unfold RingLocks.next
    dsimp only
    rw [hg]
    rfl
  | checking res =>
    rw [hpc] at hs hg
    dsimp only at hs
    split at hs
    · next hzero =>
      have habort : s.locks.next (.turn p) = some (s.locks.goto p s.mutex .aborted) := by
        unfold RingLocks.next
        dsimp only
        rw [hg]
        exact if_pos hzero
      exact absurd (hquiet habort (by rw [hpc]; rfl)) hnoabort
    · next hne =>
      cases hs
      refine h.goto rfl rfl hp (.inr (hquiet ?_ (by rw [hpc]; rfl)))
      unfold RingLocks.next
      dsimp only
      rw [hg]
      exact if_neg hne
  | clearing res =>
    rw [hpc] at hs hg
    cases hs
    refine h.goto rfl rfl hp (.inr (hquiet ?_ (by rw [hpc]; rfl)))
    unfold RingLocks.next
    dsimp only
    rw [hg]
    rfl
  | releasing res =>
    rw [hpc] at hs hg
    dsimp only at hs
    have hunlock : s.locks.next (.turn p) = match s.mutex.mutex.unlock p with
        | (true, m) => some (s.locks.goto p { s.mutex with mutex := m } .idle)
        | (false, _) => some (s.locks.goto p s.mutex .aborted) := by
      unfold RingLocks.next
      dsimp only
      rw [hg]
      rfl
    split at hs
    · next hres =>
      cases hs
      rw [hres] at hunlock
      exact h.goto rfl rfl hp (.inr (hquiet hunlock (by rw [hpc]; rfl)))
    · next hres =>
      rw [hres] at hunlock
      exact absurd (hquiet hunlock (by rw [hpc]; rfl)) hnoabort

/-- **A step with which nobody dies inside keeps what holds of the mutex.** -/
theorem Guarded.next (h : s.Guarded) {l : LatestStep V} (hs : s.next l = some s')
    (hl : s.DiesOutside l) : s'.Guarded := by
  cases l with
  | call p op =>
    dsimp only [LatestItem.next] at hs
    split at hs
    · next hcall =>
      obtain ⟨hp, halive, hidle⟩ := hcall
      cases hs
      have hpc : s.pc p = .idle := by
        cases hpc : s.pc p <;> rw [hpc] at hidle <;> first | rfl | cases hidle
      have hg : s.locks.pc p = .idle := congrArg LatestPc.guard hpc
      have hcall : s.locks.next (.call p .copy) = some (s.locks.goto p s.mutex (.locking .copy)) :=
        if_pos ⟨hp, hg⟩
      cases op with
      | write data | read => exact h.goto rfl rfl halive (.inr ⟨_, hcall, trivial⟩)
      | isUpdate | isOnline => exact h.goto rfl rfl halive (.inl ⟨rfl, by rw [hpc]; rfl⟩)
    · cases hs
  | turn p =>
    dsimp only [LatestItem.next] at hs
    split at hs
    · next halive => exact h.turn halive hs
    · cases hs
  | die p =>
    cases hs
    refine ⟨h.locks, fun q hq => ?_⟩
    have hne : q ≠ p := by
      rintro rfl
      exact hq hl
    show Function.update s.alive p false q = true
    rw [Function.update_of_ne hne]
    exact h.living q hq
  | online | offline =>
    cases hs
    exact ⟨h.locks, h.living⟩
  | reset =>
    dsimp only [LatestItem.next] at hs
    split at hs
    · cases hs
      exact ⟨h.locks, h.living⟩
    · cases hs

theorem fresh_guarded (pid : ℕ) (idx : ℕ → BitVec 64) : (fresh pid idx : LatestItem V).Guarded :=
  ⟨RingLocks.make_inv pid, fun _ h => absurd rfl h⟩

/-! ## The simulation -/

/-- **The item agrees with the one on which calls take effect at once.** The
value of the latter is what the last write which has counted has stored, and a
reader has seen the writes up to the one whose pointer it has taken. -/
structure Agrees (s : LatestItem V) (a : AtomicItem V) : Prop where
  isOnline : a.isOnline = s.isOnline
  index : s.index = BitVec.ofNat 64 a.count
  pc : ∀ p, a.pc p = (s.pc p).pending
  idx : ∀ p, s.idx p = bif (s.pc p).isCopying then s.index else BitVec.ofNat 64 (a.seen p)
  value : (∀ p, (s.pc p).isCounting = false) → s.buffer = a.value
  stored : ∀ p data, s.pc p = .counting data → s.buffer = assign a.value data

variable {a : AtomicItem V}

theorem pending_update {pc : LatestPc V} (h : s.Agrees a) (hpc : pc.pending = (s.pc p).pending)
    (q : ℕ) : a.pc q = (Function.update s.pc p pc q).pending := by
  by_cases hq : q = p
  · rw [hq, Function.update_self, hpc]
    exact h.pc p
  · rw [Function.update_of_ne hq]
    exact h.pc q

/-- **A process goes on unseen**, beside the pointer. -/
theorem Agrees.goto (h : s.Agrees a) {pc : LatestPc V} (hpc : s'.pc = Function.update s.pc p pc)
    (hsame : s'.isOnline = s.isOnline ∧ s'.index = s.index ∧ s'.buffer = s.buffer ∧ s'.idx = s.idx)
    (hpend : pc.pending = (s.pc p).pending)
    (hcounting : pc.isCounting = false ∧ (s.pc p).isCounting = false)
    (hcopying : pc.isCopying = false ∧ (s.pc p).isCopying = false) : s'.Agrees a := by
  obtain ⟨honline, hindex, hbuffer, hidx⟩ := hsame
  refine ⟨h.isOnline.trans honline.symm, hindex.trans h.index, fun q => ?_, fun q => ?_,
    fun hnone => ?_, fun q data hq => ?_⟩
  · rw [hpc]
    exact pending_update h hpend q
  · rw [hpc, hidx, hindex, h.idx q]
    by_cases hq : q = p
    · rw [hq, Function.update_self, hcopying.1, hcopying.2]
    · rw [Function.update_of_ne hq]
  · rw [hbuffer]
    refine h.value fun q => ?_
    by_cases hq : q = p
    · rw [hq]
      exact hcounting.2
    · have hnone := hnone q
      rwa [hpc, Function.update_of_ne hq] at hnone
  · rw [hbuffer]
    rw [hpc] at hq
    by_cases hqp : q = p
    · rw [hqp, Function.update_self] at hq
      have hcounting := hcounting.1
      rw [hq] at hcounting
      cases hcounting
    · rw [Function.update_of_ne hqp] at hq
      exact h.stored q data hq

/-- Who is behind the lock is alone there. -/
theorem Guarded.alone (h : s.Guarded) (hp : (s.pc p).phase ≠ .outside) {q : ℕ} (hq : q ≠ p) :
    (s.pc q).isCounting = false ∧ (s.pc q).isCopying = false := by
  have hout : (s.pc q).phase = .outside := by
    by_contra hin
    exact hq (h.eq hin hp)
  cases hpc : s.pc q <;> rw [hpc] at hout <;> first | exact ⟨rfl, rfl⟩ | cases hout

/-- **The pointer is stored**, and the write has no effect yet. -/
theorem Agrees.store (h : s.Agrees a) (hG : s.Guarded) {data : Option V}
    (hpc : s.pc p = .storing data) :
    ({ s.goto p (.counting data) with buffer := assign s.buffer data } : LatestItem V).Agrees
      a := by
  have hin : (s.pc p).phase ≠ .outside := by rw [hpc]; simp [LatestPc.phase]
  have hvalue : s.buffer = a.value := by
    refine h.value fun q => ?_
    by_cases hq : q = p
    · rw [hq, hpc]
      rfl
    · exact (hG.alone hin hq).1
  refine ⟨h.isOnline, h.index, fun q => ?_, fun q => ?_, fun hnone => ?_, fun q data' hq => ?_⟩
  · exact pending_update h (by rw [hpc]; rfl) q
  · show s.idx q = bif (Function.update s.pc p (.counting data) q).isCopying then s.index else _
    rw [h.idx q]
    by_cases hq : q = p
    · rw [hq, Function.update_self, hpc]
      rfl
    · rw [Function.update_of_ne hq]
  · have hself := hnone p
    dsimp only [LatestItem.goto] at hself
    rw [Function.update_self] at hself
    cases hself
  · show assign s.buffer data = _
    by_cases hqp : q = p
    · dsimp only [LatestItem.goto] at hq
      rw [hqp, Function.update_self] at hq
      cases hq
      rw [hvalue]
    · dsimp only [LatestItem.goto] at hq
      rw [Function.update_of_ne hqp] at hq
      have hcounting := (hG.alone hin hqp).1
      rw [hq] at hcounting
      cases hcounting

/-- **A write has its effect when it counts.** -/
theorem Agrees.count (h : s.Agrees a) (hG : s.Guarded) {data : Option V}
    (hpc : s.pc p = .counting data) :
    ({ s.goto p (.checking .written) with index := s.index + 1 } : LatestItem V).Agrees
      { (a.perform p (.write data)).1 with
        pc := Function.update a.pc p (.done (a.perform p (.write data)).2) } := by
  have hin : (s.pc p).phase ≠ .outside := by rw [hpc]; simp [LatestPc.phase]
  have hcopying (q : ℕ) : (s.pc q).isCopying = false := by
    by_cases hq : q = p
    · rw [hq, hpc]
      rfl
    · exact (hG.alone hin hq).2
  have hstored := h.stored p data hpc
  have hres : (a.perform p (.write data)).2 = .written := by cases data <;> rfl
  have hcount : (a.perform p (.write data)).1.count = a.count + 1 := by cases data <;> rfl
  have hseen : (a.perform p (.write data)).1.seen = a.seen := by cases data <;> rfl
  refine ⟨?_, ?_, fun q => ?_, fun q => ?_, fun _ => ?_, fun q data' hq => ?_⟩
  · refine Eq.trans ?_ h.isOnline
    cases data <;> rfl
  · dsimp only
    rw [hcount, h.index, BitVec.ofNat_add]
    rfl
  · dsimp only [LatestItem.goto]
    by_cases hq : q = p
    · rw [hq, Function.update_self, Function.update_self, hres]
      rfl
    · rw [Function.update_of_ne hq, Function.update_of_ne hq]
      exact h.pc q
  · dsimp only [LatestItem.goto]
    rw [hseen, h.idx q, hcopying q]
    by_cases hq : q = p
    · rw [hq, Function.update_self]
      rfl
    · rw [Function.update_of_ne hq, hcopying q]
      rfl
  · show s.buffer = _
    rw [hstored]
    cases data <;> rfl
  · dsimp only [LatestItem.goto] at hq
    by_cases hqp : q = p
    · rw [hqp, Function.update_self] at hq
      cases hq
    · rw [Function.update_of_ne hqp] at hq
      have hcounting := (hG.alone hin hqp).1
      rw [hq] at hcounting
      cases hcounting

/-- **The count is remembered**, and the read has no effect yet. -/
theorem Agrees.record (h : s.Agrees a) (hpc : s.pc p = .recording) :
    ({ s.goto p .copying with idx := Function.update s.idx p s.index } : LatestItem V).Agrees
      a := by
  refine ⟨h.isOnline, h.index, fun q => ?_, fun q => ?_, fun hnone => ?_, fun q data hq => ?_⟩
  · exact pending_update h (by rw [hpc]; rfl) q
  · dsimp only [LatestItem.goto]
    by_cases hq : q = p
    · rw [hq, Function.update_self, Function.update_self]
      rfl
    · rw [Function.update_of_ne hq, Function.update_of_ne hq]
      exact h.idx q
  · refine h.value fun q => ?_
    by_cases hq : q = p
    · rw [hq, hpc]
      rfl
    · have hnone := hnone q
      dsimp only [LatestItem.goto] at hnone
      rwa [Function.update_of_ne hq] at hnone
  · dsimp only [LatestItem.goto] at hq
    by_cases hqp : q = p
    · rw [hqp, Function.update_self] at hq
      cases hq
    · rw [Function.update_of_ne hqp] at hq
      exact h.stored q data hq

/-- **A read has its effect when it takes the pointer.** -/
theorem Agrees.copy (h : s.Agrees a) (hG : s.Guarded) (hpc : s.pc p = .copying) :
    (s.goto p (.checking (.data s.buffer))).Agrees
      { (a.perform p .read).1 with
        pc := Function.update a.pc p (.done (a.perform p .read).2) } := by
  have hin : (s.pc p).phase ≠ .outside := by rw [hpc]; simp [LatestPc.phase]
  have hvalue : s.buffer = a.value := by
    refine h.value fun q => ?_
    by_cases hq : q = p
    · rw [hq, hpc]
      rfl
    · exact (hG.alone hin hq).1
  refine ⟨h.isOnline, h.index, fun q => ?_, fun q => ?_, fun _ => hvalue, fun q data hq => ?_⟩
  · dsimp only [LatestItem.goto, AtomicItem.perform]
    by_cases hq : q = p
    · rw [hq, Function.update_self, Function.update_self, hvalue]
      rfl
    · rw [Function.update_of_ne hq, Function.update_of_ne hq]
      exact h.pc q
  · dsimp only [LatestItem.goto, AtomicItem.perform]
    by_cases hq : q = p
    · have hidx := h.idx p
      rw [hpc] at hidx
      rw [hq, Function.update_self, Function.update_self, hidx]
      exact h.index
    · rw [Function.update_of_ne hq, Function.update_of_ne hq]
      exact h.idx q
  · dsimp only [LatestItem.goto] at hq
    by_cases hqp : q = p
    · rw [hqp, Function.update_self] at hq
      cases hq
    · rw [Function.update_of_ne hqp] at hq
      have hcounting := (hG.alone hin hqp).1
      rw [hq] at hcounting
      cases hcounting

/-- **A call that waits for nobody** changes nothing but where its process
is. -/
theorem Agrees.answer (h : s.Agrees a) {pc : LatestPc V}
    (hcounting : pc.isCounting = false ∧ (s.pc p).isCounting = false)
    (hcopying : pc.isCopying = false ∧ (s.pc p).isCopying = false) :
    (s.goto p pc).Agrees { a with pc := Function.update a.pc p pc.pending } := by
  refine ⟨h.isOnline, h.index, fun q => ?_, fun q => ?_, fun hnone => ?_, fun q data hq => ?_⟩
  · dsimp only [LatestItem.goto]
    by_cases hq : q = p
    · rw [hq, Function.update_self, Function.update_self]
    · rw [Function.update_of_ne hq, Function.update_of_ne hq]
      exact h.pc q
  · dsimp only [LatestItem.goto]
    rw [h.idx q]
    by_cases hq : q = p
    · rw [hq, Function.update_self, hcopying.1, hcopying.2]
    · rw [Function.update_of_ne hq]
  · refine h.value fun q => ?_
    by_cases hq : q = p
    · rw [hq]
      exact hcounting.2
    · have hnone := hnone q
      dsimp only [LatestItem.goto] at hnone
      rwa [Function.update_of_ne hq] at hnone
  · dsimp only [LatestItem.goto] at hq
    by_cases hqp : q = p
    · rw [hqp, Function.update_self] at hq
      have hcounting := hcounting.1
      rw [hq] at hcounting
      cases hcounting
    · rw [Function.update_of_ne hqp] at hq
      exact h.stored q data hq

/-- The comparison of `is_update`. -/
theorem bne_ofNat (m n : ℕ) :
    (BitVec.ofNat 64 m != BitVec.ofNat 64 n) = decide (¬ m ≡ n [MOD 2 ^ 64]) := by
  have hiff : BitVec.ofNat 64 m = BitVec.ofNat 64 n ↔ m ≡ n [MOD 2 ^ 64] := by
    rw [← BitVec.toNat_inj, BitVec.toNat_ofNat, BitVec.toNat_ofNat]
    rfl
  by_cases h : m ≡ n [MOD 2 ^ 64]
  · rw [hiff.mpr h, decide_eq_false (not_not.mpr h)]
    exact bne_self_eq_false _
  · rw [decide_eq_true h]
    exact bne_iff_ne.mpr (mt hiff.mp h)

/-- **A turn is no step, or one step**, of the item on which calls take effect
at once. -/
theorem Agrees.turn (h : s.Agrees a) (hG : s.Guarded) (halive : s.alive p = true)
    (hs : s.turn p = some s') :
    (s'.Agrees a ∧ s.observe (.turn p) = none)
      ∨ ∃ k a', AtomicItem.Step a k a' ∧ s'.Agrees a' ∧ a.observe k = s.observe (.turn p) := by
  have hG' := hG.turn halive hs
  have hap := h.pc p
  have hobs : s.observe (.turn p) = (s.pc p).returned.map (.ret p) := rfl
  unfold LatestItem.turn at hs
  rw [hobs]
  cases hpc : s.pc p with
  | idle | aborted =>
    rw [hpc] at hs
    cases hs
  | locking op =>
    refine .inl ⟨?_, rfl⟩
    rw [hpc] at hs
    dsimp only at hs
    split at hs
    · cases hs
      exact h.goto rfl ⟨rfl, rfl, rfl, rfl⟩ (by rw [hpc]; cases op <;> rfl)
        ⟨rfl, by rw [hpc]; rfl⟩ ⟨rfl, by rw [hpc]; rfl⟩
    · cases hs
    · cases hs
      exact h.goto rfl ⟨rfl, rfl, rfl, rfl⟩ (by rw [hpc]; cases op <;> rfl)
        ⟨by cases op <;> rfl, by rw [hpc]; rfl⟩ ⟨by cases op <;> rfl, by rw [hpc]; rfl⟩
  | acquired op =>
    refine .inl ⟨?_, rfl⟩
    rw [hpc] at hs
    cases hs
    exact h.goto rfl ⟨rfl, rfl, rfl, rfl⟩ (by rw [hpc]; cases op <;> rfl)
      ⟨by cases op <;> rfl, by rw [hpc]; rfl⟩ ⟨by cases op <;> rfl, by rw [hpc]; rfl⟩
  | storing data =>
    rw [hpc] at hs
    cases hs
    exact .inl ⟨h.store hG hpc, rfl⟩
  | counting data =>
    rw [hpc] at hs hap
    cases hs
    exact .inr ⟨.effect p, _, .effect hap, h.count hG hpc, rfl⟩
  | recording =>
    rw [hpc] at hs
    cases hs
    exact .inl ⟨h.record hpc, rfl⟩
  | copying =>
    rw [hpc] at hs hap
    cases hs
    exact .inr ⟨.effect p, _, .effect hap, h.copy hG hpc, rfl⟩
  | checking res =>
    refine .inl ⟨?_, rfl⟩
    rw [hpc] at hs
    dsimp only at hs
    split at hs
    · cases hs
      refine absurd ?_ (hG'.locks.noAbort p)
      exact congrArg LatestPc.guard (Function.update_self p _ s.pc)
    · cases hs
      exact h.goto rfl ⟨rfl, rfl, rfl, rfl⟩ (by rw [hpc]; rfl) ⟨rfl, by rw [hpc]; rfl⟩
        ⟨rfl, by rw [hpc]; rfl⟩
  | clearing res =>
    refine .inl ⟨?_, rfl⟩
    rw [hpc] at hs
    cases hs
    exact h.goto rfl ⟨rfl, rfl, rfl, rfl⟩ (by rw [hpc]; rfl) ⟨rfl, by rw [hpc]; rfl⟩
      ⟨rfl, by rw [hpc]; rfl⟩
  | releasing res =>
    refine .inl ⟨?_, rfl⟩
    rw [hpc] at hs
    dsimp only at hs
    split at hs
    · cases hs
      exact h.goto rfl ⟨rfl, rfl, rfl, rfl⟩ (by rw [hpc]; rfl) ⟨rfl, by rw [hpc]; rfl⟩
        ⟨rfl, by rw [hpc]; rfl⟩
    · cases hs
      refine absurd ?_ (hG'.locks.noAbort p)
      exact congrArg LatestPc.guard (Function.update_self p _ s.pc)
  | comparing =>
    have hidx := h.idx p
    rw [hpc] at hs hap hidx
    cases hs
    have hflag : (s.idx p != s.index) = decide (¬ a.seen p ≡ a.count [MOD 2 ^ 64]) := by
      rw [hidx, h.index]
      exact bne_ofNat _ _
    rw [hflag]
    exact .inr ⟨.effect p, _, .effect hap,
      h.answer ⟨rfl, by rw [hpc]; rfl⟩ ⟨rfl, by rw [hpc]; rfl⟩, rfl⟩
  | asking =>
    rw [hpc] at hs hap
    cases hs
    rw [← h.isOnline]
    exact .inr ⟨.effect p, _, .effect hap,
      h.answer ⟨rfl, by rw [hpc]; rfl⟩ ⟨rfl, by rw [hpc]; rfl⟩, rfl⟩
  | returning res =>
    rw [hpc] at hs hap
    cases hs
    refine .inr ⟨.ret p, _, .ret hap,
      h.answer ⟨rfl, by rw [hpc]; rfl⟩ ⟨rfl, by rw [hpc]; rfl⟩, ?_⟩
    unfold AtomicItem.observe
    dsimp only
    rw [hap]
    rfl

/-- **A step is no step, or one step**, of the item on which calls take effect
at once. -/
theorem Agrees.next (h : s.Agrees a) (hG : s.Guarded) {l : LatestStep V} (hs : s.next l = some s') :
    (s'.Agrees a ∧ s.observe l = none)
      ∨ ∃ k a', AtomicItem.Step a k a' ∧ s'.Agrees a' ∧ a.observe k = s.observe l := by
  cases l with
  | call p op =>
    dsimp only [LatestItem.next] at hs
    split at hs
    · next hcall =>
      obtain ⟨_, _, hidle⟩ := hcall
      cases hs
      have hpc : s.pc p = .idle := by
        cases hpc : s.pc p <;> rw [hpc] at hidle <;> first | rfl | cases hidle
      have hap := h.pc p
      rw [hpc] at hap
      have hpend : (entry op).pending = .called op := by cases op <;> rfl
      have hanswer : (s.goto p (entry op)).Agrees
          { a with pc := Function.update a.pc p (entry op).pending } :=
        h.answer ⟨by cases op <;> rfl, by rw [hpc]; rfl⟩ ⟨by cases op <;> rfl, by rw [hpc]; rfl⟩
      rw [hpend] at hanswer
      exact .inr ⟨.call p op, _, .call hap, hanswer, rfl⟩
    · cases hs
  | turn p =>
    dsimp only [LatestItem.next] at hs
    split at hs
    · next halive => exact h.turn hG halive hs
    · cases hs
  | die p =>
    cases hs
    exact .inl ⟨⟨h.isOnline, h.index, h.pc, h.idx, h.value, h.stored⟩, rfl⟩
  | online =>
    cases hs
    exact .inr ⟨.online, _, .online, ⟨rfl, h.index, h.pc, h.idx, h.value, h.stored⟩, rfl⟩
  | offline =>
    cases hs
    exact .inr ⟨.offline, _, .offline, ⟨rfl, h.index, h.pc, h.idx, h.value, h.stored⟩, rfl⟩
  | reset =>
    dsimp only [LatestItem.next] at hs
    split at hs
    · next hcounted =>
      cases hs
      refine .inr ⟨.reset, _, .reset, ⟨h.isOnline, h.index, h.pc, h.idx, fun _ => rfl, ?_⟩, rfl⟩
      intro q data hq
      have hq : s.pc q = .counting data := hq
      have howner : s.mutex.mutex.owner = some q := by
        refine (hG.locks.consistent.inside q).mp ?_
        show (s.pc q).guard.phase ≠ .outside
        rw [hq]
        simp [LatestPc.guard, GuardPc.phase]
      unfold Counted at hcounted
      rw [howner] at hcounted
      dsimp only at hcounted
      rw [hq] at hcounted
      cases hcounted
    · cases hs

end LatestItem

open TransitionSystem

/-- **The item simulates the one on which calls take effect at once.** -/
theorem latestSystem_simulation (V : Type) (pid : ℕ) :
    Simulation (latestSystem V pid) (atomicSystem V) LatestItem.DiesOutside LatestItem.observe
      AtomicItem.observe fun s a => s.Guarded ∧ s.Agrees a where
  init := by
    rintro s ⟨idx, rfl⟩
    refine ⟨⟨false, none, 0, fun p => (idx p).toNat, fun _ => .idle⟩, ⟨rfl, rfl, rfl, fun _ => rfl⟩,
      LatestItem.fresh_guarded pid idx, ⟨rfl, rfl, fun _ => rfl, fun p => ?_, fun _ => rfl, ?_⟩⟩
    · exact (BitVec.ofNat_toNat _ _ |>.trans (BitVec.setWidth_eq _)).symm
    · intro p data hp
      cases hp
  step := by
    rintro s l s' a ⟨hG, h⟩ hs hl
    have hG' := hG.next hs hl
    rcases h.next hG hs with ⟨h', hnone⟩ | ⟨k, a', hstep, h', hobs⟩
    · exact .inl ⟨⟨hG', h'⟩, hnone⟩
    · exact .inr ⟨k, a', hstep, ⟨hG', h'⟩, hobs⟩

/-- **Calls to a writer and to its readers take effect one after another.**
Whatever is seen of a run in which no process dies with the mutex, calls and
what they return, may be seen of an item on which each call takes effect at
once, at some time between its start and its end: a read returns what the last
write has stored, and `is_update` says whether the number of writes since the
last read is no multiple of 2⁶⁴. -/
theorem latest_value_linearizable {V : Type} {pid : ℕ} {tr : List (LatestItem V × LatestStep V)}
    {s : LatestItem V} (hr : (latestSystem V pid).Run tr s) (hc : Met LatestItem.DiesOutside tr) :
    ∃ tr' a, (atomicSystem V).Run tr' a
      ∧ history AtomicItem.observe tr' = history LatestItem.observe tr := by
  obtain ⟨tr', a, hrA, _, hobs⟩ := (latestSystem_simulation V pid).exists_run hr hc
  exact ⟨tr', a, hrA, hobs⟩

/-- A reader waits for a writer, a process dies without the mutex, and the
reader is told of a second write. -/
theorem latest_value_linearizable_two : ∃ tr a, (atomicSystem ℕ).Run tr a
    ∧ history AtomicItem.observe tr = [.ret 2 (.flag true), .call 2 .isUpdate, .ret 1 .written,
      .call 1 (.write (some 6)), .ret 2 (.data (some 5)), .ret 1 .written, .call 2 .read,
      .call 1 (.write (some 5))] := by
  have htrace : (trace LatestItem.next [] (LatestItem.fresh 1 fun _ => 0)
      (List.flatten [[.call 1 (.write (some 5)), .turn 1, .call 2 .read],
        List.replicate 7 (.turn 1), List.replicate 8 (.turn 2), [.die 3, .call 1 (.write (some 6))],
        List.replicate 8 (.turn 1), [.call 2 .isUpdate, .turn 2, .turn 2]])).map
        (fun e => (decide (Met LatestItem.DiesOutside e.1), history LatestItem.observe e.1))
      = some (true, [.ret 2 (.flag true), .call 2 .isUpdate, .ret 1 .written,
        .call 1 (.write (some 6)), .ret 2 (.data (some 5)), .ret 1 .written, .call 2 .read,
        .call 1 (.write (some 5))]) := by decide +kernel
  obtain ⟨tr, s, hr, heq⟩ :=
    Run.exists_of_trace (S := latestSystem ℕ 1) (fun _ _ _ h => h) ⟨_, rfl⟩ htrace
  obtain ⟨hmet, hseen⟩ := Prod.mk.inj heq
  obtain ⟨tr', a, hrA, hobs⟩ := latest_value_linearizable hr (of_decide_eq_true hmet)
  exact ⟨tr', a, hrA, hobs.trans hseen⟩

/-! ## After a death with the mutex -/

namespace LatestPc

variable {V : Type}

def isAcquired : LatestPc V → Bool
  | .acquired _ => true
  | _ => false

/-- A call has not passed the check of `unlock`, or has no need to. -/
def isEarly : LatestPc V → Bool
  | .acquired _ | .clearing _ | .releasing _ | .returning .written | .returning (.data _) => false
  | _ => true

end LatestPc

namespace LatestItem

variable {V : Type} {s s' : LatestItem V} {p : ℕ}

/-- **The mutex is lost**: it has been unlocked inconsistent, and the word which
is to name its owner is clear. -/
def Ruined (s : LatestItem V) : Prop :=
  s.mutex.mutex = .notRecoverable ∧ s.mutex.holderPid = 0

/-- Who has got the mutex from `pthread_mutex_lock`, and goes on, owns it. -/
def Owns (s : LatestItem V) : Prop :=
  ∀ q, s.alive q = true → (s.pc q).isAcquired = true → s.mutex.mutex = .owned q true

theorem Owns.goto (h : s.Owns) {pc : LatestPc V} (hpc : s'.pc = Function.update s.pc p pc)
    (halive : ∀ q, s'.alive q = true → s.alive q = true)
    (hself : pc.isAcquired = true → s'.mutex.mutex = .owned p true)
    (hothers : ∀ q, q ≠ p → s.alive q = true → s.mutex.mutex = .owned q true →
      s'.mutex.mutex = .owned q true) : s'.Owns := by
  intro q hq hacq
  rw [hpc] at hacq
  by_cases hqp : q = p
  · rw [hqp, Function.update_self] at hacq
    rw [hqp]
    exact hself hacq
  · rw [Function.update_of_ne hqp] at hacq
    exact hothers q hqp (halive q hq) (h q (halive q hq) hacq)

theorem abort_alive {q : ℕ} (h : (s.abort p).alive q = true) : s.alive q = true := by
  have h : Function.update s.alive p false q = true := h
  by_cases hq : q = p
  · rw [hq, Function.update_self] at h
    cases h
  · rwa [Function.update_of_ne hq] at h

theorem Owns.turn (h : s.Owns) (hs : s.turn p = some s') : s'.Owns := by
  have hidle {pc : LatestPc V} (hacq : pc.isAcquired = false) {P : Prop} :
      pc.isAcquired = true → P := fun h => by cases hacq.symm.trans h
  unfold LatestItem.turn at hs
  cases hpc : s.pc p with
  | idle | aborted =>
    rw [hpc] at hs
    cases hs
  | locking op =>
    rw [hpc] at hs
    dsimp only at hs
    -- while a living process owns the mutex, nobody else gets on
    cases hm : s.mutex.mutex with
    | free =>
      rw [hm] at hs
      cases hs
      refine h.goto rfl (fun _ hq => hq) (fun _ => rfl) fun q _ _ hq => ?_
      cases hm.symm.trans hq
    | owned q₀ c =>
      by_cases hself : q₀ = p
      · have hlock : (RobustMutex.owned q₀ c).timedlock s.alive p = (.edeadlk, .owned q₀ c) :=
          if_pos hself
        rw [hm, hlock] at hs
        cases hs
        exact h.goto rfl (fun _ hq => hq) (hidle (by cases op <;> rfl)) fun _ _ _ hq =>
          hm.symm.trans hq
      · by_cases halive : s.alive q₀ = true
        · rw [hm, RobustMutex.timedlock_alive hself halive] at hs
          cases hs
        · rw [hm, RobustMutex.timedlock_dead hself (Bool.not_eq_true _ ▸ halive)] at hs
          cases hs
          refine h.goto rfl (fun _ hq => hq) (hidle (by cases op <;> rfl)) fun q _ hq hown => ?_
          cases hm.symm.trans hown
          exact absurd hq halive
    | notRecoverable =>
      rw [hm] at hs
      cases hs
      refine h.goto rfl (fun _ hq => hq) (hidle (by cases op <;> rfl)) fun q _ _ hq => ?_
      cases hm.symm.trans hq
  | acquired op =>
    rw [hpc] at hs
    cases hs
    exact h.goto rfl (fun _ hq => hq) (hidle (by cases op <;> rfl)) fun _ _ _ hq => hq
  | storing data | counting data | recording | copying | clearing res | comparing | asking
  | returning res =>
    rw [hpc] at hs
    cases hs
    exact h.goto rfl (fun _ hq => hq) (hidle rfl) fun _ _ _ hq => hq
  | checking res =>
    rw [hpc] at hs
    dsimp only at hs
    split at hs
    · cases hs
      exact h.goto rfl (fun _ hq => abort_alive hq) (hidle rfl) fun _ _ _ hq => hq
    · cases hs
      exact h.goto rfl (fun _ hq => hq) (hidle rfl) fun _ _ _ hq => hq
  | releasing res =>
    rw [hpc] at hs
    dsimp only at hs
    split at hs
    · next hunlock =>
      cases hs
      refine h.goto rfl (fun _ hq => hq) (hidle rfl) fun q hqp _ hq => ?_
      rw [hq, RobustMutex.unlock_other hqp] at hunlock
      cases hunlock
    · cases hs
      exact h.goto rfl (fun _ hq => abort_alive hq) (hidle rfl) fun _ _ _ hq => hq

/-- What is seen to return. -/
theorem observe_ret {l : LatestStep V} {res : LatestResult V}
    (h : s.observe l = some (.ret p res)) : s.pc p = .returning res := by
  cases l with
  | turn q =>
    obtain ⟨res', hres, heq⟩ := Option.map_eq_some_iff.mp h
    cases heq
    cases hpc : s.pc p <;> rw [hpc] at hres <;> cases hres
    rfl
  | call q op | die q | online | offline | reset => cases h

theorem Owns.next (h : s.Owns) {l : LatestStep V} (hs : s.next l = some s') : s'.Owns := by
  cases l with
  | call p op =>
    dsimp only [LatestItem.next] at hs
    split at hs
    · cases hs
      exact h.goto rfl (fun _ hq => hq) (fun hacq => by cases op <;> cases hacq) fun _ _ _ hq => hq
    · cases hs
  | turn p =>
    dsimp only [LatestItem.next] at hs
    split at hs
    · exact h.turn hs
    · cases hs
  | die p =>
    cases hs
    intro q hq hacq
    by_cases hqp : q = p
    · have hq : Function.update s.alive p false q = true := hq
      rw [hqp, Function.update_self] at hq
      cases hq
    · have hq : Function.update s.alive p false q = true := hq
      rw [Function.update_of_ne hqp] at hq
      exact h q hq hacq
  | online | offline =>
    cases hs
    exact h
  | reset =>
    dsimp only [LatestItem.next] at hs
    split at hs
    · cases hs
      exact h
    · cases hs

/-- **The mutex stays lost**, and who comes later does not get past the check of
`unlock`. -/
theorem Ruined.turn (h : s.Ruined) (hO : s.Owns) {q : ℕ} (halive : s.alive q = true)
    (hs : s.turn q = some s') :
    s'.Ruined ∧ ((s.pc p).isEarly = true → (s'.pc p).isEarly = true) := by
  obtain ⟨hlost, hclear⟩ := h
  have hother {pc : LatestPc V} (hearly : (s.pc q).isEarly = true → pc.isEarly = true)
      (hp : (s.pc p).isEarly = true) : (Function.update s.pc q pc p).isEarly = true := by
    by_cases hpq : p = q
    · rw [hpq, Function.update_self]
      exact hearly (hpq ▸ hp)
    · rwa [Function.update_of_ne hpq]
  unfold LatestItem.turn at hs
  cases hpc : s.pc q with
  | idle | aborted =>
    rw [hpc] at hs
    cases hs
  | locking op =>
    rw [hpc, hlost] at hs
    cases hs
    exact ⟨⟨rfl, hclear⟩, hother fun _ => by cases op <;> rfl⟩
  | acquired op =>
    have howned := hO q halive (by rw [hpc]; rfl)
    cases hlost.symm.trans howned
  | storing data | counting data | recording | copying | comparing | asking =>
    rw [hpc] at hs
    cases hs
    exact ⟨⟨hlost, hclear⟩, hother fun _ => rfl⟩
  | checking res =>
    rw [hpc] at hs
    dsimp only at hs
    rw [if_pos hclear] at hs
    cases hs
    exact ⟨⟨hlost, hclear⟩, hother fun _ => rfl⟩
  | clearing res =>
    rw [hpc] at hs
    cases hs
    exact ⟨⟨hlost, rfl⟩, hother fun hearly => by rw [hpc] at hearly; cases hearly⟩
  | releasing res =>
    rw [hpc] at hs
    dsimp only at hs
    rw [hlost] at hs
    cases hs
    exact ⟨⟨hlost, hclear⟩, hother fun _ => rfl⟩
  | returning res =>
    rw [hpc] at hs
    cases hs
    exact ⟨⟨hlost, hclear⟩, hother fun _ => rfl⟩

theorem Ruined.next (h : s.Ruined) (hO : s.Owns) {l : LatestStep V} (hs : s.next l = some s') :
    s'.Ruined ∧ ((s.pc p).isEarly = true → (s'.pc p).isEarly = true) := by
  cases l with
  | call q op =>
    dsimp only [LatestItem.next] at hs
    split at hs
    · cases hs
      refine ⟨h, fun hp => ?_⟩
      show (Function.update s.pc q (entry op) p).isEarly = true
      by_cases hpq : p = q
      · rw [hpq, Function.update_self]
        cases op <;> rfl
      · rwa [Function.update_of_ne hpq]
    · cases hs
  | turn q =>
    dsimp only [LatestItem.next] at hs
    split at hs
    · next halive => exact h.turn hO halive hs
    · cases hs
  | die q =>
    cases hs
    exact ⟨h, id⟩
  | online | offline =>
    cases hs
    exact ⟨h, id⟩
  | reset =>
    dsimp only [LatestItem.next] at hs
    split at hs
    · cases hs
      exact ⟨h, id⟩
    · cases hs

end LatestItem

/-- **Nobody gets through after a death with the mutex.** The next process to
lock the mutex goes on all the same, and leaves it lost when it unlocks it. From
then on `write` and `read` return to no process that was not in a call already. -/
theorem latest_value_ruined {V : Type} {pid : ℕ} {tr₁ tr₂ : List (LatestItem V × LatestStep V)}
    {s₁ s : LatestItem V} {l₁ : LatestStep V}
    (hr : (latestSystem V pid).Run (tr₂ ++ (s₁, l₁) :: tr₁) s) (hruined : s₁.Ruined) {p : ℕ}
    (hidle : s₁.pc p = .idle) {res : LatestResult V}
    (hret : .ret p res ∈ history LatestItem.observe tr₂) : ∃ b, res = .flag b := by
  have hO {s : LatestItem V} (hs : (latestSystem V pid).Reachable s) : s.Owns :=
    hs.invariant (by rintro s ⟨idx, rfl⟩ q _ hacq; cases hacq) fun _ _ _ _ h hstep => h.next hstep
  have hearly : (s₁.pc p).isEarly = true := by
    rw [hidle]
    rfl
  suffices h : s.Ruined ∧ (s.pc p).isEarly = true
      ∧ ∀ res, .ret p res ∈ history LatestItem.observe tr₂ → ∃ b, res = .flag b from
    h.2.2 res hret
  clear hret res
  induction tr₂ generalizing s with
  | nil =>
    cases hr with
    | snoc hr hstep =>
      obtain ⟨h, hp⟩ := hruined.next (hO hr.reachable) hstep
      exact ⟨h, hp hearly, fun res hres => by cases hres⟩
  | cons e tr₂ ih =>
    cases hr with
    | @snoc _ s₀ _ l hr hstep =>
      obtain ⟨h₀, hp₀, hret₀⟩ := ih hr
      obtain ⟨h, hp⟩ := h₀.next (hO hr.reachable) hstep
      refine ⟨h, hp hp₀, fun res hres => ?_⟩
      rw [history_cons] at hres
      rcases List.mem_append.mp hres with hnew | hold
      · have hpc := LatestItem.observe_ret (Option.mem_toList.mp hnew)
        rw [hpc] at hp₀
        cases res with
        | flag b => exact ⟨b, rfl⟩
        | written | data d => cases hp₀
      · exact hret₀ res hold

/-- A writer dies after it has stored and before it counts; a reader takes the
pointer, and leaves the mutex lost. Then `is_update` returns false to another
reader, and nothing else does to this one; and a write aborts. -/
theorem latest_value_ruined_four : ∃ (tr₁ tr₂ : List (LatestItem ℕ × LatestStep ℕ))
    (s₁ s : LatestItem ℕ) (l₁ : LatestStep ℕ),
    (latestSystem ℕ 1).Run (tr₂ ++ (s₁, l₁) :: tr₁) s ∧ s₁.Ruined ∧ s.pc 4 = .aborted
    ∧ .ret 3 (.flag false) ∈ history LatestItem.observe tr₂
    ∧ ∀ res, .ret 3 res ∈ history LatestItem.observe tr₂ → ∃ b, res = .flag b := by
  have htrace : (trace LatestItem.next [] (LatestItem.fresh 1 fun _ => 0)
      (List.flatten [[.call 1 (.write (some 5)), .turn 1, .turn 1, .turn 1, .die 1, .call 2 .read],
        List.replicate 7 (.turn 2), [.online, .call 3 .isUpdate, .turn 3, .turn 3,
          .call 4 (.write (some 6))], List.replicate 4 (.turn 4)])).map
        (fun e => (e.1[8]?.map fun y => (y.1.mutex.mutex, y.1.mutex.holderPid, y.1.pc 3),
          history LatestItem.observe (e.1.take 8), e.2.pc 4))
      = some (some (.notRecoverable, 0, .idle),
        [.call 4 (.write (some 6)), .ret 3 (.flag false), .call 3 .isUpdate], .aborted) := by
    decide +kernel
  obtain ⟨tr, s, hr, heq⟩ :=
    Run.exists_of_trace (S := latestSystem ℕ 1) (fun _ _ _ h => h) ⟨_, rfl⟩ htrace
  simp only [Prod.mk.injEq, Option.map_eq_some_iff] at heq
  obtain ⟨⟨⟨s₁, l₁⟩, hget, hlost, hclear, hidle⟩, hseen, habort⟩ := heq
  obtain ⟨hlt, hget⟩ := List.getElem?_eq_some_iff.mp hget
  have hsplit : tr.take 8 ++ (s₁, l₁) :: tr.drop 9 = tr := by
    rw [← hget, ← List.drop_eq_getElem_cons hlt]
    exact List.take_append_drop 8 tr
  have hrun : (latestSystem ℕ 1).Run (tr.take 8 ++ (s₁, l₁) :: tr.drop 9) s := by
    rw [hsplit]
    exact hr
  refine ⟨_, _, s₁, s, l₁, hrun, ⟨hlost, hclear⟩, habort, ?_,
    fun res hres => latest_value_ruined (p := 3) hrun ⟨hlost, hclear⟩ hidle hres⟩
  rw [hseen]
  exact .tail _ (.head _)
