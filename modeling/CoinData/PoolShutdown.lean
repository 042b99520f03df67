import Mathlib.Algebra.Order.BigOperators.Group.Finset
import CoinData.Inevitability
import CoinData.PoolWakeups

/-!
# How a pool ends

The destructor of a pool clears `is_working_`, wakes every worker and joins
it, then the thread that watches the workers. A worker reads `is_working_` at
four places: at the head of both its loops, before it announces that it
waits, and as part of what it waits for.

Here the pool is seen from its constructor to the end of its destructor. The
calls on a queue are single steps, since each queue has one consumer and,
under `worker_lock_`, one producer; what is interleaved are the reads of
`is_working_`, the mutexes of the workers, and the condition variables. Nobody
calls the pool any more once it is destroyed.

A worker that has read `is_working_` in time may still block afterwards, but
then it has the mutex all along, and the destructor, which needs it, notifies
the worker when it has blocked. So **the destructor comes to its end**, and
whatever it finds: every thread it has joined has ended. How far the queues
are emptied is another question: **a worker calls one more task at most**, and
what is in its queue then is dropped.

A worker that `add_task_to` has made on the way to another one has no thread,
and joining it is the end of the process.
-/

/-- Where the thread of a worker is in `run_`. -/
inductive LifePc (τ : Type) where
  /-- `while(is_working_)`. -/
  | loop
  /-- `if(size_ != 0)`. -/
  | enough
  /-- `while(true && is_working_)`. -/
  | drain
  /-- `if(worker->tasks.size() == 0)`, in the inner loop. -/
  | look
  /-- Next, `pop_front` is called. -/
  | take
  /-- `if(task && task->task)`. -/
  | check (task : Option τ)
  /-- Next, the callable is called. -/
  | invoke (task : τ)
  | executing (task : τ)
  /-- `if(worker->tasks.size() == 0)`, after the inner loop. -/
  | lookAgain
  /-- `if(not is_working_) break`. -/
  | quit
  /-- Next, the status is stored. -/
  | announce
  /-- Next, the mutex is locked. -/
  | lock
  /-- It has the mutex, and looks at its queue. -/
  | evaluate
  /-- It has found the queue empty, and reads `is_working_`. -/
  | evaluateWorking
  /-- Next, it releases the mutex and blocks. -/
  | block
  | blocked
  /-- Next, the status is stored. -/
  | resume
  /-- Next, the mutex is unlocked. -/
  | unlock
  /-- `run_` has returned. -/
  | ended
deriving DecidableEq, Repr

/-- **A worker**: its queue, its thread, its mutex and its status. `late` counts
the tasks it has called since `is_working_` was cleared. -/
structure LifeWorker (τ : Type) where
  tasks : List τ
  thread : Option (LifePc τ)
  mtx : Option MtxHolder
  status : WorkStatus
  late : ℕ

namespace LifeWorker

variable {τ : Type}

/-- `Worker()`. -/
def new : LifeWorker τ := ⟨[], none, none, .stop, 0⟩

/-- **A step of `run_`**, short of calling a task. -/
def runStep (callable : τ → Bool) (isWorking : Bool) (size_ : ℕ) (w : LifeWorker τ) :
    LifePc τ → Option (LifeWorker τ)
  | .loop => some { w with thread := some (if isWorking then .enough else .ended) }
  | .enough => some { w with thread := some (if size_ ≠ 0 then .drain else .lookAgain) }
  | .drain => some { w with thread := some (if isWorking then .look else .lookAgain) }
  | .look => some { w with thread := some (if w.tasks.isEmpty then .lookAgain else .take) }
  | .take =>
    match w.tasks with
    -- the pointer stays as it is, which has nothing that can be called
    | [] => some { w with thread := some (.check none) }
    | task :: tasks => some { w with tasks := tasks, thread := some (.check (some task)) }
  | .check none => some { w with thread := some .drain }
  | .check (some task) =>
    some { w with thread := some (if callable task then .invoke task else .drain) }
  | .executing _ => some { w with status := .idle, thread := some .drain }
  | .lookAgain => some { w with thread := some (if w.tasks.isEmpty then .quit else .loop) }
  | .quit => some { w with thread := some (if isWorking then .announce else .ended) }
  | .announce => some { w with status := .waiting, thread := some .lock }
  | .lock =>
    if w.mtx = none then some { w with mtx := some .worker, thread := some .evaluate } else none
  | .evaluate =>
    some { w with thread := some (if w.tasks.isEmpty then .evaluateWorking else .resume) }
  | .evaluateWorking => some { w with thread := some (if isWorking then .block else .resume) }
  | .block => some { w with mtx := none, thread := some .blocked }
  | .resume => some { w with status := .idle, thread := some .unlock }
  | .unlock => some { w with mtx := none, thread := some .loop }
  | .invoke _ | .blocked | .ended => none

/-- `cv.notify_one()`. -/
def notifyOne (w : LifeWorker τ) : LifeWorker τ :=
  match w.thread with
  | some .blocked => { w with thread := some .lock }
  | _ => w

/-- **A step of somebody who wakes the worker**, and where he is then. -/
def wakeStep (w : LifeWorker τ) : WakePc → Option (LifeWorker τ × Option WakePc)
  | .lock => if w.mtx = none then some ({ w with mtx := some .caller }, some .notify) else none
  | .notify => some (w.notifyOne, some .unlock)
  | .unlock => some ({ w with mtx := none }, none)

/-- What `add_task_to` does to the worker, before it wakes it. A queue of ten
slots holds nine tasks; what `push_back` returns is not looked at. -/
def submit (w : LifeWorker τ) (task : τ) : LifeWorker τ :=
  { w with
    tasks := if w.tasks.length < 9 then w.tasks ++ [task] else w.tasks
    thread := some (w.thread.getD .loop) }

/-- The worker calls a task. -/
def call (w : LifeWorker τ) (isWorking : Bool) (task : τ) : LifeWorker τ :=
  { w with
    status := .working
    thread := some (.executing task)
    late := if isWorking then w.late else w.late + 1 }

end LifeWorker

/-- Where the thread is that watches the workers. -/
inductive WatcherPc where
  /-- `while(is_working_)`. -/
  | loop
  | sleep
  /-- It looks for workers that wait although they have tasks. -/
  | watch
  | ended
deriving DecidableEq, Repr

/-- Where the destructor is. -/
inductive DestroyPc where
  /-- It has not been called. -/
  | idle
  | wake (slot : ℕ) (pc : WakePc)
  | join (slot : ℕ)
  /-- Next, the thread that watches is joined. -/
  | joinWatcher
  | done
deriving DecidableEq, Repr

/-- The next step of waking a worker, or the next worker. -/
def DestroyPc.afterWake (slot : ℕ) : Option WakePc → DestroyPc
  | some pc => .wake slot pc
  | none => .wake (slot + 1) .lock

/-- **A pool up to its end**: `waker` is the call of `add_task_to` or
`spin_once` that wakes a worker under `worker_lock_`. -/
structure LifePool (τ : Type) where
  reserve : ℕ
  size : ℕ
  count : ℕ
  workers : ℕ → LifeWorker τ
  isWorking : Bool
  waker : Option (ℕ × WakePc)
  watcher : WatcherPc
  destroyer : DestroyPc
  invoked : List τ
  terminated : Bool

/-- Who takes a step. -/
inductive LifeStep (τ : Type) where
  | addTask (task : τ) (index : ℕ)
  | addCallable (task : τ) (index : ℕ)
  /-- `spin_once` has found a worker that waits although it has a task. -/
  | spinOnce (slot : ℕ)
  | waker
  | worker (slot : ℕ)
  /-- A thread wakes up for no reason. -/
  | wake (slot : ℕ)
  | watcher
  /-- The destructor is called, and clears `is_working_`. -/
  | destroy
  | destroyer
deriving DecidableEq, Repr

namespace LifePool

variable {τ : Type}

/-- The constructor. -/
def new (reserve : ℕ) : LifePool τ where
  reserve := reserve
  size := 0
  count := 0
  workers _ := .new
  isWorking := true
  waker := none
  watcher := .loop
  destroyer := .idle
  invoked := []
  terminated := false

/-- Change one worker. -/
def modify (s : LifePool τ) (slot : ℕ) (w : LifeWorker τ) : LifePool τ :=
  { s with workers := Function.update s.workers slot w }

/-- **`add_task_to`**, up to where it wakes the worker. -/
def submit (s : LifePool τ) (slot : ℕ) (task : τ) : LifePool τ :=
  { s.modify slot ((s.workers slot).submit task) with
    count := max s.count (slot + 1)
    size := max s.count (slot + 1)
    waker := some (slot, .lock) }

/-- The next step of who wakes a worker under `worker_lock_`. -/
def wakerStep (s : LifePool τ) : Option (LifePool τ) :=
  match s.waker with
  | none => none
  | some (slot, pc) =>
    ((s.workers slot).wakeStep pc).map fun (w, pc) =>
      { s.modify slot w with waker := pc.map (slot, ·) }

/-- The next step of the thread that watches. -/
def watcherStep (s : LifePool τ) : Option (LifePool τ) :=
  match s.watcher with
  | .loop => some { s with watcher := if s.isWorking then .sleep else .ended }
  | .sleep => some { s with watcher := .watch }
  -- under `worker_lock_`
  | .watch => if s.waker = none then some { s with watcher := .loop } else none
  | .ended => none

/-- **The next step of the destructor.** -/
def destroyerStep (s : LifePool τ) : Option (LifePool τ) :=
  match s.destroyer with
  | .idle => none
  | .wake slot pc =>
    if slot < s.count then
      ((s.workers slot).wakeStep pc).map fun (w, pc) =>
        { s.modify slot w with destroyer := .afterWake slot pc }
    else some { s with destroyer := .join 0 }
  | .join slot =>
    if slot < s.count then
      match (s.workers slot).thread with
      -- `worker->thread` is null
      | none => some { s with terminated := true }
      | some .ended => some { s with destroyer := .join (slot + 1) }
      | some _ => none
    else some { s with destroyer := .joinWatcher }
  | .joinWatcher => if s.watcher = .ended then some { s with destroyer := .done } else none
  | .done => none

variable [DecidableEq τ]

/-- **The next step of a worker's thread.** A callable which was called before
throws an exception that nothing catches. -/
def workerStep (callable : τ → Bool) (s : LifePool τ) (slot : ℕ) : Option (LifePool τ) :=
  match (s.workers slot).thread with
  | none => none
  | some (.invoke task) =>
    if task ∈ s.invoked then some { s with terminated := true }
    else some { s.modify slot ((s.workers slot).call s.isWorking task) with
      invoked := task :: s.invoked }
  | some pc =>
    ((s.workers slot).runStep callable s.isWorking s.size pc).map fun w => s.modify slot w

/-- Nobody holds `worker_lock_`, and the pool is not being destroyed. -/
def Free (s : LifePool τ) : Prop := s.destroyer = .idle ∧ s.waker = none

instance (s : LifePool τ) : Decidable s.Free := inferInstanceAs (Decidable (_ ∧ _))

/-- Take a step, if it is possible. The first overload of `add_task_to`
refuses an index above `reserve_`; the second takes it modulo `reserve_`. -/
def next (callable : τ → Bool) (s : LifePool τ) (l : LifeStep τ) : Option (LifePool τ) :=
  if s.terminated then none
  else
    match l with
    | .addTask task index =>
      if s.Free then if s.reserve < index then some s else some (s.submit index task) else none
    | .addCallable task index =>
      if s.Free ∧ s.reserve ≠ 0 ∧ callable task then some (s.submit (index % s.reserve) task)
      else none
    | .spinOnce slot =>
      if s.Free ∧ slot < s.count ∧ (s.workers slot).status = .waiting
          ∧ (s.workers slot).tasks ≠ [] then
        some { s with waker := some (slot, .lock) }
      else none
    | .waker => s.wakerStep
    | .worker slot => s.workerStep callable slot
    | .wake slot =>
      if (s.workers slot).thread = some .blocked then
        some (s.modify slot (s.workers slot).notifyOne)
      else none
    | .watcher => s.watcherStep
    | .destroy =>
      if s.Free then some { s with isWorking := false, destroyer := .wake 0 .lock } else none
    | .destroyer => s.destroyerStep

end LifePool

/-- **The system of a pool up to its end.** -/
def lifeSystem {τ : Type} [DecidableEq τ] (callable : τ → Bool) (reserve : ℕ) :
    TransitionSystem (LifePool τ) (LifeStep τ) where
  init s := s = LifePool.new reserve
  step s l s' := s.next callable l = some s'

namespace LifePool

variable {τ : Type}

/-- **The destructor has come to its end**: every thread has ended, unless the
process has. -/
def Finished (s : LifePool τ) : Prop :=
  s.terminated = true
    ∨ s.destroyer = .done ∧ s.watcher = .ended
      ∧ ∀ slot < s.count, (s.workers slot).thread = some .ended

end LifePool

/-! ## A worker -/

/-- The places where the thread has the mutex. -/
def LifePc.Holds {τ : Type} : LifePc τ → Prop
  | .evaluate | .evaluateWorking | .block | .resume | .unlock => True
  | _ => False

/-- The places a thread comes through after its last task. -/
def LifePc.After {τ : Type} : LifePc τ → Prop
  | .executing _ | .drain | .lookAgain | .quit | .loop | .ended => True
  | _ => False

/-- How far a thread is from its end, once `is_working_` is cleared. -/
def LifePc.rank {τ : Type} : LifePc τ → ℕ
  | .ended => 0
  | .loop | .quit => 1
  | .lookAgain | .unlock => 2
  | .drain | .resume => 3
  | .executing _ | .evaluateWorking => 4
  | .invoke _ | .evaluate => 5
  | .check _ | .lock => 6
  | .take | .blocked | .announce => 7
  | .look | .block => 8
  | .enough => 4

/-- Where somebody is who wakes a worker, after a step. -/
def WakePc.next : WakePc → Option WakePc
  | .lock => some .notify
  | .notify => some .unlock
  | .unlock => none

theorem WakePc.next_ne_lock (pc : WakePc) : pc.next ≠ some .lock := by
  cases pc <;> simp [WakePc.next]

namespace LifeWorker

variable {τ : Type} {w w' : LifeWorker τ} {callable : τ → Bool} {isWorking : Bool} {n : ℕ}
  {pc : LifePc τ} {caller notified : Prop}

/-- **What holds of a worker**: `caller` says that somebody who wakes it has its
mutex, `notified` that the destructor has notified it. -/
structure Inv (w : LifeWorker τ) (isWorking : Bool) (caller notified : Prop) : Prop where
  worker_iff : w.mtx = some .worker ↔ ∃ pc, w.thread = some pc ∧ pc.Holds
  caller_iff : w.mtx = some .caller ↔ caller
  not_blocked : notified → w.thread ≠ some .block ∧ w.thread ≠ some .blocked
  late : w.late = 0 ∨ w.late = 1 ∧ isWorking = false ∧ ∃ pc, w.thread = some pc ∧ pc.After

theorem Inv.new : (new : LifeWorker τ).Inv isWorking False False where
  worker_iff := by simp [LifeWorker.new]
  caller_iff := by simp [LifeWorker.new]
  not_blocked h := h.elim
  late := .inl rfl

/-- Nobody else has the mutex. -/
theorem Inv.mtx_eq_none (h : w.Inv isWorking False notified) (hthread : w.thread = some pc)
    (hpc : ¬ pc.Holds) : w.mtx = none := by
  match hmtx : w.mtx with
  | none => rfl
  | some .caller => exact (h.caller_iff.mp hmtx).elim
  | some .worker =>
    obtain ⟨pc', hthread', hholds⟩ := h.worker_iff.mp hmtx
    cases hthread.symm.trans hthread'
    exact absurd hholds hpc

/-- **What a step of the thread does**: it goes from `pc` to `pc'`, which is
nearer to the end if `is_working_` is cleared, and it has the mutex there if
it had it or has locked it. -/
structure Moves (w : LifeWorker τ) (isWorking : Bool) (pc pc' : LifePc τ)
    (w' : LifeWorker τ) : Prop where
  thread : w'.thread = some pc'
  late : w'.late = w.late
  mtx : w'.mtx = w.mtx ∧ (pc'.Holds ↔ pc.Holds)
    ∨ w.mtx = none ∧ w'.mtx = some .worker ∧ ¬ pc.Holds ∧ pc'.Holds
    ∨ w'.mtx = none ∧ pc.Holds ∧ ¬ pc'.Holds
  after : isWorking = false → pc.After → pc'.After
  rank_lt : isWorking = false → pc'.rank < pc.rank
  not_blocked : isWorking = false → pc ≠ .block → pc' ≠ .block ∧ pc' ≠ .blocked

theorem exists_moves (hstep : w.runStep callable isWorking n pc = some w') :
    ∃ pc', w.Moves isWorking pc pc' w' := by
  cases pc with
  | lock =>
    obtain ⟨hmtx, hstep⟩ := Option.ite_none_right_eq_some.mp hstep
    cases hstep
    exact ⟨_, rfl, rfl, .inr (.inl ⟨hmtx, rfl, id, trivial⟩), by simp [LifePc.After],
      by simp [LifePc.rank], by simp⟩
  | block | unlock =>
    cases hstep
    exact ⟨_, rfl, rfl, .inr (.inr ⟨rfl, trivial, id⟩), by simp [LifePc.After],
      by simp [LifePc.rank], by simp⟩
  | invoke task | blocked | ended => cases hstep
  | take =>
    unfold LifeWorker.runStep at hstep
    dsimp only at hstep
    split at hstep <;> cases hstep <;>
      exact ⟨_, rfl, rfl, .inl ⟨rfl, Iff.rfl⟩, by simp [LifePc.After],
        by simp [LifePc.rank], by simp⟩
  | loop | drain | quit | evaluateWorking =>
    cases isWorking <;> cases hstep <;>
      exact ⟨_, rfl, rfl, .inl ⟨rfl, Iff.rfl⟩, by simp [LifePc.After],
        by simp [LifePc.rank], by simp⟩
  | look | lookAgain | evaluate =>
    cases hstep
    cases w.tasks.isEmpty <;>
      exact ⟨_, rfl, rfl, .inl ⟨rfl, Iff.rfl⟩, by simp [LifePc.After],
        by simp [LifePc.rank], by simp⟩
  | enough =>
    cases hstep
    by_cases hsize : n = 0
    · exact ⟨_, rfl, rfl, .inl ⟨rfl, by simp [hsize, LifePc.Holds]⟩,
        by simp [LifePc.After], by simp [hsize, LifePc.rank], by simp [hsize]⟩
    · exact ⟨_, rfl, rfl, .inl ⟨rfl, by simp [hsize, LifePc.Holds]⟩,
        by simp [LifePc.After], by simp [hsize, LifePc.rank], by simp [hsize]⟩
  | check task =>
    cases task with
    | none =>
      cases hstep
      exact ⟨_, rfl, rfl, .inl ⟨rfl, Iff.rfl⟩, by simp [LifePc.After],
        by simp [LifePc.rank], by simp⟩
    | some task =>
      cases hstep
      cases callable task <;>
        exact ⟨_, rfl, rfl, .inl ⟨rfl, Iff.rfl⟩, by simp [LifePc.After],
          by simp [LifePc.rank], by simp⟩
  | executing task | announce | resume =>
    cases hstep
    exact ⟨_, rfl, rfl, .inl ⟨rfl, Iff.rfl⟩, by simp [LifePc.After], by simp [LifePc.rank],
      by simp⟩

/-- **A step of the thread keeps what holds of a worker.** -/
theorem Inv.moves (h : w.Inv isWorking caller notified) (hnotified : notified → isWorking = false)
    (hthread : w.thread = some pc) {pc' : LifePc τ} (hmove : w.Moves isWorking pc pc' w') :
    w'.Inv isWorking caller notified where
  worker_iff := by
    have hhad : w.mtx = some .worker ↔ pc.Holds := by simp [h.worker_iff, hthread]
    rw [hmove.thread]
    rcases hmove.mtx with ⟨hmtx, hholds⟩ | ⟨_, hmtx, _, hholds⟩ | ⟨hmtx, _, hholds⟩
    · simp [hmtx, hhad, hholds]
    · simp [hmtx, hholds]
    · simp [hmtx, hholds]
  caller_iff := by
    rw [← h.caller_iff]
    have hhad : w.mtx = some .worker ↔ pc.Holds := by simp [h.worker_iff, hthread]
    rcases hmove.mtx with ⟨hmtx, _⟩ | ⟨hfree, hmtx, _, _⟩ | ⟨hmtx, hholds, _⟩
    · rw [hmtx]
    · simp [hfree, hmtx]
    · simp [hmtx, hhad.mpr hholds]
  not_blocked hn := by
    have hpc : pc ≠ .block := fun heq => (h.not_blocked hn).1 (heq ▸ hthread)
    simpa [hmove.thread] using hmove.not_blocked (hnotified hn) hpc
  late := by
    rw [hmove.late]
    rcases h.late with hzero | ⟨hone, hworking, pc₀, hpc₀, hafter⟩
    · exact .inl hzero
    · cases hthread.symm.trans hpc₀
      exact .inr ⟨hone, hworking, pc', hmove.thread, hmove.after hworking hafter⟩

/-- **A task is called once more at most**, when `is_working_` is cleared. -/
theorem Inv.call (h : w.Inv isWorking caller notified) {task : τ}
    (hthread : w.thread = some (.invoke task)) :
    (w.call isWorking task).Inv isWorking caller notified where
  worker_iff := by
    have hhad := h.worker_iff
    simp only [hthread, Option.some.injEq, exists_eq_left'] at hhad
    simpa [LifeWorker.call, LifePc.Holds] using hhad
  caller_iff := h.caller_iff
  not_blocked _ := by simp [LifeWorker.call]
  late := by
    have hzero : w.late = 0 := by
      rcases h.late with hzero | ⟨_, _, pc₀, hpc₀, hafter⟩
      · exact hzero
      · cases hthread.symm.trans hpc₀
        exact hafter.elim
    cases isWorking
    · exact .inr ⟨by simp [LifeWorker.call, hzero], rfl, _, rfl, trivial⟩
    · exact .inl (by simp [LifeWorker.call, hzero])

/-- A notification moves the thread to where it locks the mutex, if it is
blocked. -/
theorem notifyOne_cases (w : LifeWorker τ) :
    w.thread = some .blocked ∧ w.notifyOne = { w with thread := some .lock }
      ∨ w.thread ≠ some .blocked ∧ w.notifyOne = w := by
  unfold notifyOne
  split
  · next h => exact .inl ⟨h, rfl⟩
  · next h => exact .inr ⟨h, rfl⟩

theorem Inv.notifyOne (h : w.Inv isWorking caller notified) :
    w.notifyOne.Inv isWorking caller notified := by
  rcases w.notifyOne_cases with ⟨hthread, heq⟩ | ⟨_, heq⟩
  · rw [heq]
    refine ⟨?_, h.caller_iff, fun _ => by simp, ?_⟩
    · have hhad := h.worker_iff
      simp only [hthread, Option.some.injEq, exists_eq_left'] at hhad
      simpa [LifePc.Holds] using hhad
    · rcases h.late with hzero | ⟨_, _, pc₀, hpc₀, hafter⟩
      · exact .inl hzero
      · cases hthread.symm.trans hpc₀
        exact hafter.elim
  · rw [heq]
    exact h

theorem Inv.imp {caller' notified' : Prop} (h : w.Inv isWorking caller notified)
    (hcaller : caller' ↔ caller) (hnotified : notified' → notified) :
    w.Inv isWorking caller' notified' :=
  ⟨h.worker_iff, h.caller_iff.trans hcaller.symm, fun hn => h.not_blocked (hnotified hn), h.late⟩

/-- **Somebody wakes the worker**: when he has notified it, it is not blocked,
and will not be on what it has seen before. -/
theorem Inv.wakeStep {pc : WakePc} {pc' : Option WakePc}
    (h : w.Inv isWorking (pc ≠ .lock) notified) (hstep : w.wakeStep pc = some (w', pc')) :
    w'.Inv isWorking (pc' ≠ none) (notified ∨ pc = .notify) := by
  cases pc with
  | lock =>
    obtain ⟨hfree, hstep⟩ := Option.ite_none_right_eq_some.mp hstep
    cases hstep
    refine ⟨?_, by simp, fun hn => h.not_blocked (hn.resolve_right (by simp)), h.late⟩
    have hnot := h.worker_iff
    rw [hfree] at hnot
    simpa using hnot
  | notify =>
    cases hstep
    have hcaller : w.mtx = some .caller := h.caller_iff.mpr (by simp)
    refine ⟨h.notifyOne.worker_iff, h.notifyOne.caller_iff.trans (by simp), fun _ => ?_,
      h.notifyOne.late⟩
    have hblock : w.thread ≠ some .block := by
      intro hthread
      have hworker := h.worker_iff.mpr ⟨_, hthread, trivial⟩
      rw [hcaller] at hworker
      cases hworker
    rcases w.notifyOne_cases with ⟨_, heq⟩ | ⟨hthread, heq⟩
    · simp [heq]
    · rw [heq]
      exact ⟨hblock, hthread⟩
  | unlock =>
    cases hstep
    have hcaller : w.mtx = some .caller := h.caller_iff.mpr (by simp)
    refine ⟨?_, by simp, fun hn => h.not_blocked (hn.resolve_right (by simp)), h.late⟩
    have hnot := h.worker_iff
    rw [hcaller] at hnot
    simpa using hnot

/-- Being woken does not start or end a thread. -/
theorem wakeStep_thread {pc : WakePc} {pc' : Option WakePc}
    (hstep : w.wakeStep pc = some (w', pc')) : (w'.thread = none ↔ w.thread = none)
      ∧ (w.thread = some .ended → w'.thread = some .ended) := by
  cases pc with
  | lock =>
    obtain ⟨_, hstep⟩ := Option.ite_none_right_eq_some.mp hstep
    cases hstep
    exact ⟨Iff.rfl, id⟩
  | notify =>
    cases hstep
    rcases w.notifyOne_cases with ⟨hthread, heq⟩ | ⟨_, heq⟩
    · simp [heq, hthread]
    · simp [heq]
  | unlock =>
    cases hstep
    exact ⟨Iff.rfl, id⟩

theorem wakeStep_next {pc : WakePc} {pc' : Option WakePc}
    (hstep : w.wakeStep pc = some (w', pc')) : pc' = pc.next := by
  cases pc with
  | lock =>
    obtain ⟨_, hstep⟩ := Option.ite_none_right_eq_some.mp hstep
    cases hstep
    rfl
  | notify | unlock =>
    cases hstep
    rfl

/-- The destructor clears `is_working_`. -/
theorem Inv.clear (h : w.Inv true caller notified) : w.Inv false caller notified where
  worker_iff := h.worker_iff
  caller_iff := h.caller_iff
  not_blocked := h.not_blocked
  late := h.late.imp id fun hlate => by cases hlate.2.1

theorem Inv.submit (h : w.Inv isWorking caller False) (task : τ) :
    (w.submit task).Inv isWorking caller False where
  worker_iff := by
    refine h.worker_iff.trans ?_
    cases hthread : w.thread <;> simp [LifeWorker.submit, hthread, LifePc.Holds]
  caller_iff := h.caller_iff
  not_blocked hn := hn.elim
  late := by
    rcases h.late with hzero | ⟨hone, hworking, pc₀, hpc₀, hafter⟩
    · exact .inl hzero
    · exact .inr ⟨hone, hworking, pc₀, by simp [LifeWorker.submit, hpc₀], hafter⟩

end LifeWorker

/-! ## The pool -/

namespace LifePool

variable {τ : Type} {s s' : LifePool τ} {callable : τ → Bool} {l : LifeStep τ} {slot : ℕ}

@[simp] theorem modify_workers_self (s : LifePool τ) (slot : ℕ) (w : LifeWorker τ) :
    (s.modify slot w).workers slot = w := Function.update_self ..

theorem modify_workers_of_ne (s : LifePool τ) (w : LifeWorker τ) {i : ℕ} (hi : i ≠ slot) :
    (s.modify slot w).workers i = s.workers i := Function.update_of_ne hi _ _

@[simp] theorem submit_workers_self (s : LifePool τ) (slot : ℕ) (task : τ) :
    (s.submit slot task).workers slot = (s.workers slot).submit task := Function.update_self ..

theorem submit_workers_of_ne (s : LifePool τ) (task : τ) {i : ℕ} (hi : i ≠ slot) :
    (s.submit slot task).workers i = s.workers i := Function.update_of_ne hi _ _

/-- **Somebody who wakes the worker has its mutex.** -/
def Wakes (s : LifePool τ) (slot : ℕ) : Prop :=
  ∃ pc, pc ≠ .lock ∧ (s.waker = some (slot, pc) ∨ s.destroyer = .wake slot pc)

/-- **The destructor has notified the worker.** -/
def Notified (s : LifePool τ) (slot : ℕ) : Prop :=
  match s.destroyer with
  | .idle => False
  | .wake slot' pc => slot < slot' ∨ slot = slot' ∧ pc = .unlock
  | .join _ | .joinWatcher | .done => slot < s.count

/-- The worker has been joined. -/
def Joined (s : LifePool τ) (slot : ℕ) : Prop :=
  match s.destroyer with
  | .idle | .wake _ _ => False
  | .join slot' => slot < slot'
  | .joinWatcher | .done => slot < s.count

/-- **What holds of a pool.** -/
structure Inv (s : LifePool τ) : Prop where
  working_iff : s.isWorking = true ↔ s.destroyer = .idle
  waker : s.destroyer ≠ .idle → s.waker = none
  lt_count : ∀ slot, (s.workers slot).thread ≠ none → slot < s.count
  worker : ∀ slot, (s.workers slot).Inv s.isWorking (s.Wakes slot) (s.Notified slot)
  wake_lt : ∀ slot pc, s.destroyer = .wake slot pc → pc ≠ .lock → slot < s.count
  joined : ∀ slot, s.Joined slot → (s.workers slot).thread = some .ended
  watcher : s.destroyer = .done → s.watcher = .ended

theorem Inv.new (reserve : ℕ) : (new reserve : LifePool τ).Inv where
  working_iff := by simp [LifePool.new]
  waker h := absurd rfl h
  lt_count slot h := absurd rfl h
  worker slot := by
    have hwakes : (LifePool.new reserve : LifePool τ).Wakes slot ↔ False := by
      simp [Wakes, LifePool.new]
    simp only [hwakes]
    exact .new
  wake_lt slot pc h := by cases h
  joined slot h := h.elim
  watcher h := by cases h

theorem Inv.not_working (h : s.Inv) (hd : s.destroyer ≠ .idle) : s.isWorking = false :=
  Bool.eq_false_iff.mpr fun hw => hd (h.working_iff.mp hw)

theorem Inv.notified_not_working (h : s.Inv) (hn : s.Notified slot) : s.isWorking = false := by
  refine h.not_working fun hidle => ?_
  unfold Notified at hn
  rw [hidle] at hn
  exact hn

/-- **One worker changes**, and the others are as they were. -/
theorem Inv.of_worker (h : s.Inv) (hworking : s'.isWorking = s.isWorking)
    (hother : ∀ i ≠ slot, s'.workers i = s.workers i ∧ (s'.Wakes i ↔ s.Wakes i)
      ∧ (s'.Notified i → s.Notified i))
    (hslot : (s'.workers slot).Inv s.isWorking (s'.Wakes slot) (s'.Notified slot)) (i : ℕ) :
    (s'.workers i).Inv s'.isWorking (s'.Wakes i) (s'.Notified i) := by
  rw [hworking]
  by_cases hi : i = slot
  · exact hi ▸ hslot
  · obtain ⟨hsame, hwakes, hnotified⟩ := hother i hi
    rw [hsame]
    exact (h.worker i).imp hwakes hnotified

/-- **A step of a thread**, or a notification. -/
theorem Inv.modify (h : s.Inv) {w : LifeWorker τ}
    (hw : w.Inv s.isWorking (s.Wakes slot) (s.Notified slot))
    (hsome : (s.workers slot).thread ≠ none)
    (hended : (s.workers slot).thread ≠ some .ended) : (s.modify slot w).Inv where
  working_iff := h.working_iff
  waker := h.waker
  lt_count i hi := by
    by_cases hislot : i = slot
    · exact hislot ▸ h.lt_count slot hsome
    · rw [modify_workers_of_ne _ _ hislot] at hi
      exact h.lt_count i hi
  worker := by
    refine h.of_worker rfl (fun i hi => ⟨modify_workers_of_ne _ _ hi, Iff.rfl, id⟩) ?_
    rw [modify_workers_self]
    exact hw
  wake_lt := h.wake_lt
  joined i hi := by
    by_cases hislot : i = slot
    · exact absurd (hislot ▸ h.joined i hi) hended
    · rw [modify_workers_of_ne _ _ hislot]
      exact h.joined i hi
  watcher := h.watcher

/-- As long as the pool is not being destroyed, the destructor has neither
notified nor joined anybody. -/
theorem Inv.of_idle (hidle : s.destroyer = .idle) (hworking : s.isWorking = true)
    (hlt : ∀ slot, (s.workers slot).thread ≠ none → slot < s.count)
    (hworker : ∀ slot, (s.workers slot).Inv true (s.Wakes slot) False) : s.Inv where
  working_iff := by simp [hidle, hworking]
  waker hd := absurd hidle hd
  lt_count := hlt
  worker slot := by
    rw [hworking]
    refine (hworker slot).imp Iff.rfl fun hn => ?_
    rwa [Notified, hidle] at hn
  wake_lt slot pc hd := by
    rw [hidle] at hd
    cases hd
  joined slot hj := by
    rw [Joined, hidle] at hj
    exact hj.elim
  watcher hd := by
    rw [hidle] at hd
    cases hd

theorem Inv.worker_of_idle (h : s.Inv) (hidle : s.destroyer = .idle) (slot : ℕ) :
    (s.workers slot).Inv true (s.Wakes slot) False := by
  have hworker := h.worker slot
  rw [h.working_iff.mpr hidle] at hworker
  exact hworker.imp Iff.rfl False.elim

/-- **A call of the pool**: a worker gets a task, and is going to be woken. -/
theorem Inv.submit (h : s.Inv) (hfree : s.Free) (slot : ℕ) (task : τ) :
    (s.submit slot task).Inv := by
  have hidle : (s.submit slot task).destroyer = .idle := hfree.1
  have hwakes (i : ℕ) : (s.submit slot task).Wakes i ↔ s.Wakes i := by
    have hwaker : (s.submit slot task).waker = some (slot, .lock) := rfl
    simp [Wakes, hwaker, hidle, hfree.1, hfree.2]
  refine .of_idle hidle (h.working_iff.mpr hfree.1) (fun i hi => ?_) fun i => ?_
  · by_cases hislot : i = slot
    · exact lt_max_of_lt_right (by omega)
    · rw [submit_workers_of_ne _ _ hislot] at hi
      exact lt_max_of_lt_left (h.lt_count i hi)
  · have hworker := h.worker_of_idle hfree.1 i
    by_cases hislot : i = slot
    · subst hislot
      rw [submit_workers_self]
      exact (hworker.submit task).imp (hwakes i) id
    · rw [submit_workers_of_ne _ _ hislot]
      exact hworker.imp (hwakes i) id

/-- `spin_once` is going to wake a worker. -/
theorem Inv.spinOnce (h : s.Inv) (hfree : s.Free) (slot : ℕ) :
    ({ s with waker := some (slot, .lock) } : LifePool τ).Inv := by
  refine .of_idle hfree.1 (h.working_iff.mpr hfree.1) h.lt_count fun i => ?_
  refine (h.worker_of_idle hfree.1 i).imp ?_ id
  simp [Wakes, hfree.1, hfree.2]

/-- **A call that wakes a worker goes on.** -/
theorem Inv.wakerStep (h : s.Inv) (hstep : s.wakerStep = some s') : s'.Inv := by
  unfold LifePool.wakerStep at hstep
  split at hstep
  · cases hstep
  next slot pc hwaker =>
  obtain ⟨⟨w, pc'⟩, hwake, rfl⟩ := Option.map_eq_some_iff.mp hstep
  have hidle : s.destroyer = .idle := by
    by_contra hd
    rw [h.waker hd] at hwaker
    cases hwaker
  have hwakes (i : ℕ) : s.Wakes i ↔ i = slot ∧ pc ≠ .lock := by
    simp only [Wakes, hwaker, hidle, Option.some.injEq, Prod.mk.injEq, reduceCtorEq, or_false]
    constructor
    · rintro ⟨_, hne, rfl, rfl⟩
      exact ⟨rfl, hne⟩
    · rintro ⟨rfl, hne⟩
      exact ⟨pc, hne, rfl, rfl⟩
  have hwakes' (i : ℕ) : ({ s.modify slot w with waker := pc'.map (slot, ·) } : LifePool τ).Wakes i
      ↔ i = slot ∧ pc' ≠ none := by
    have hnext : pc' ≠ some .lock := LifeWorker.wakeStep_next hwake ▸ pc.next_ne_lock
    change (∃ q, q ≠ WakePc.lock ∧ (pc'.map (slot, ·) = some (i, q) ∨ s.destroyer = .wake i q)) ↔ _
    cases pc' with
    | none => simp [hidle]
    | some q =>
      simp only [Option.map_some, Option.some.injEq, Prod.mk.injEq, hidle, reduceCtorEq, or_false]
      constructor
      · rintro ⟨_, _, rfl, rfl⟩
        exact ⟨rfl, by simp⟩
      · rintro ⟨rfl, _⟩
        exact ⟨q, fun heq => hnext (by rw [heq]), rfl, rfl⟩
  refine .of_idle hidle (h.working_iff.mpr hidle) (fun i hi => ?_) fun i => ?_
  · refine h.lt_count i ?_
    by_cases hislot : i = slot
    · subst hislot
      rw [modify_workers_self] at hi
      exact mt (LifeWorker.wakeStep_thread hwake).1.mpr hi
    · rwa [modify_workers_of_ne _ _ hislot] at hi
  · have hworker := h.worker_of_idle hidle i
    by_cases hislot : i = slot
    · subst hislot
      rw [modify_workers_self]
      refine (LifeWorker.Inv.wakeStep (hworker.imp ?_ id) hwake).imp ?_ False.elim
      · simp [hwakes]
      · simp [hwakes']
    · rw [modify_workers_of_ne _ _ hislot]
      refine hworker.imp ?_ id
      simp [hwakes, hwakes', hislot]

/-- **The destructor is called.** -/
theorem Inv.destroy (h : s.Inv) (hfree : s.Free) :
    ({ s with isWorking := false, destroyer := .wake 0 .lock } : LifePool τ).Inv where
  working_iff := by simp
  waker _ := hfree.2
  lt_count := h.lt_count
  worker i := by
    refine (h.worker_of_idle hfree.1 i).clear.imp ?_ ?_
    · simp [Wakes, hfree.1, hfree.2]
    · simp [Notified]
  wake_lt slot pc hd hpc := by
    cases hd
    exact absurd rfl hpc
  joined i hi := hi.elim
  watcher hd := by cases hd

/-- **The destructor wakes a worker.** -/
theorem Inv.destroyerWake (h : s.Inv) {pc : WakePc} {pc' : Option WakePc} {w : LifeWorker τ}
    (hd : s.destroyer = .wake slot pc) (hlt : slot < s.count)
    (hwake : (s.workers slot).wakeStep pc = some (w, pc')) (hs' : s' = { s.modify slot w with
      destroyer := .afterWake slot pc' }) : s'.Inv := by
  have hwaker : s.waker = none := h.waker (by simp [hd])
  have hnext := LifeWorker.wakeStep_next hwake
  have hd' : s'.destroyer = .afterWake slot pc' := by rw [hs']
  have hwaker' : s'.waker = none := by rw [hs', ← hwaker]; rfl
  have hcount : s'.count = s.count := by rw [hs']; rfl
  have hself : s'.workers slot = w := by rw [hs']; exact modify_workers_self s slot w
  have hother (i : ℕ) (hi : i ≠ slot) : s'.workers i = s.workers i := by
    rw [hs']
    exact modify_workers_of_ne s w hi
  have hworking : s'.isWorking = s.isWorking := by rw [hs']; rfl
  have hwakes (i : ℕ) : s.Wakes i ↔ i = slot ∧ pc ≠ .lock := by
    simp only [Wakes, hwaker, hd, DestroyPc.wake.injEq, reduceCtorEq, false_or]
    constructor
    · rintro ⟨_, hne, rfl, rfl⟩
      exact ⟨rfl, hne⟩
    · rintro ⟨rfl, hne⟩
      exact ⟨pc, hne, rfl, rfl⟩
  have hwakes' (i : ℕ) : s'.Wakes i ↔ i = slot ∧ pc' ≠ none := by
    subst hnext
    simp only [Wakes, hwaker', hd', reduceCtorEq, false_or]
    cases pc <;> simp [WakePc.next, DestroyPc.afterWake, eq_comm]
  have hnotified (i : ℕ) (hn : s'.Notified i) : s.Notified i ∨ i = slot ∧ pc = .notify := by
    subst hnext
    simp only [Notified, hd, hd'] at hn ⊢
    cases pc <;> simp [WakePc.next, DestroyPc.afterWake] at hn ⊢ <;> omega
  refine ⟨?_, fun _ => hwaker', fun i hi => ?_, ?_, fun slot' q hq hne => ?_, fun i hi => ?_,
    fun hdone => ?_⟩
  · rw [hworking, h.working_iff, hd, hd']
    cases pc' <;> simp [DestroyPc.afterWake]
  · rw [hcount]
    by_cases hislot : i = slot
    · exact hislot ▸ hlt
    · rw [hother i hislot] at hi
      exact h.lt_count i hi
  · refine h.of_worker hworking (fun i hi => ⟨hother i hi, ?_, fun hn => ?_⟩) ?_
    · simp [hwakes, hwakes', hi]
    · exact (hnotified i hn).resolve_right fun hslot => hi hslot.1
    · rw [hself]
      refine (LifeWorker.Inv.wakeStep ((h.worker slot).imp ?_ id) hwake).imp ?_ fun hn => ?_
      · simp [hwakes]
      · simp [hwakes']
      · exact (hnotified slot hn).imp id And.right
  · rw [hcount]
    rw [hd'] at hq
    cases pc' with
    | some q' =>
      cases hq
      exact hlt
    | none =>
      cases hq
      exact absurd rfl hne
  · rw [Joined, hd'] at hi
    cases pc' <;> exact hi.elim
  · rw [hd'] at hdone
    cases pc' <;> cases hdone

/-- **The destructor goes on.** -/
theorem Inv.destroyerStep (h : s.Inv) (hstep : s.destroyerStep = some s') : s'.Inv := by
  unfold LifePool.destroyerStep at hstep
  split at hstep
  · cases hstep
  · next slot pc hd =>
    split at hstep
    · next hlt =>
      obtain ⟨⟨w, pc'⟩, hwake, hs'⟩ := Option.map_eq_some_iff.mp hstep
      exact h.destroyerWake hd hlt hwake hs'.symm
    · next hge =>
      cases hstep
      have hpc : pc = .lock := by
        by_contra hne
        exact hge (h.wake_lt slot pc hd hne)
      refine ⟨?_, fun _ => h.waker (by simp [hd]), h.lt_count, fun i => ?_,
        fun _ _ hq => (by cases hq), fun i hi => absurd hi (Nat.not_lt_zero i),
        fun hdone => by cases hdone⟩
      · rw [h.working_iff, hd]
        simp
      · refine (h.worker i).imp ?_ fun hn => ?_
        · simp [Wakes, h.waker (by simp [hd]), hd, hpc]
        · rw [Notified, hd]
          exact .inl (Nat.lt_of_lt_of_le hn (Nat.le_of_not_lt hge))
  · next slot hd =>
    have hwaker : s.waker = none := h.waker (by simp [hd])
    split at hstep
    · next hlt =>
      split at hstep
      · cases hstep
        exact ⟨h.working_iff, h.waker, h.lt_count, h.worker, h.wake_lt, h.joined, h.watcher⟩
      · next hended =>
        cases hstep
        refine ⟨?_, fun _ => hwaker, h.lt_count, fun i => ?_, fun _ _ hq => (by cases hq),
          fun i hi => ?_, fun hdone => by cases hdone⟩
        · rw [h.working_iff, hd]
          simp
        · refine (h.worker i).imp ?_ fun hn => ?_
          · simp [Wakes, hwaker, hd]
          · rw [Notified, hd]
            exact hn
        · rcases Nat.lt_succ_iff_lt_or_eq.mp hi with hlt' | rfl
          · refine h.joined i ?_
            rw [Joined, hd]
            exact hlt'
          · exact hended
      · cases hstep
    · next hge =>
      cases hstep
      refine ⟨?_, fun _ => hwaker, h.lt_count, fun i => ?_, fun _ _ hq => (by cases hq),
        fun i hi => ?_, fun hdone => by cases hdone⟩
      · rw [h.working_iff, hd]
        simp
      · refine (h.worker i).imp ?_ fun hn => ?_
        · simp [Wakes, hwaker, hd]
        · rw [Notified, hd]
          exact hn
      · refine h.joined i ?_
        rw [Joined, hd]
        exact Nat.lt_of_lt_of_le hi (Nat.le_of_not_lt hge)
  · next hd =>
    have hwaker : s.waker = none := h.waker (by simp [hd])
    obtain ⟨hended, hstep⟩ := Option.ite_none_right_eq_some.mp hstep
    cases hstep
    refine ⟨?_, fun _ => hwaker, h.lt_count, fun i => ?_, fun _ _ hq => (by cases hq),
      fun i hi => h.joined i ?_, fun _ => hended⟩
    · rw [h.working_iff, hd]
      simp
    · refine (h.worker i).imp ?_ fun hn => ?_
      · simp [Wakes, hwaker, hd]
      · rw [Notified, hd]
        exact hn
    · rw [Joined, hd]
      exact hi
  · cases hstep

theorem Inv.next [DecidableEq τ] (h : s.Inv) (hstep : s.next callable l = some s') : s'.Inv := by
  obtain ⟨_, hstep⟩ := Option.ite_none_left_eq_some.mp hstep
  cases l with
  | addTask task index =>
    obtain ⟨hfree, hstep⟩ := Option.ite_none_right_eq_some.mp hstep
    split at hstep
    · cases hstep
      exact h
    · cases hstep
      exact h.submit hfree index task
  | addCallable task index =>
    obtain ⟨⟨hfree, _⟩, hstep⟩ := Option.ite_none_right_eq_some.mp hstep
    cases hstep
    exact h.submit hfree _ task
  | spinOnce slot =>
    obtain ⟨⟨hfree, _⟩, hstep⟩ := Option.ite_none_right_eq_some.mp hstep
    cases hstep
    exact h.spinOnce hfree slot
  | waker => exact h.wakerStep hstep
  | worker slot =>
    dsimp only [workerStep] at hstep
    split at hstep
    · cases hstep
    · next task hthread =>
      split at hstep
      · cases hstep
        exact ⟨h.working_iff, h.waker, h.lt_count, h.worker, h.wake_lt, h.joined, h.watcher⟩
      · cases hstep
        have hcall := h.modify ((h.worker slot).call hthread) (by simp [hthread])
          (by simp [hthread])
        exact ⟨hcall.working_iff, hcall.waker, hcall.lt_count, hcall.worker,
          hcall.wake_lt, hcall.joined, hcall.watcher⟩
    · next pc _ hthread =>
      obtain ⟨w, hrun, rfl⟩ := Option.map_eq_some_iff.mp hstep
      obtain ⟨pc', hmove⟩ := LifeWorker.exists_moves hrun
      refine h.modify ((h.worker slot).moves h.notified_not_working hthread hmove)
        (by simp [hthread]) ?_
      rintro hended
      rw [hthread] at hended
      cases hended
      cases hrun
  | wake slot =>
    obtain ⟨hthread, hstep⟩ := Option.ite_none_right_eq_some.mp hstep
    cases hstep
    exact h.modify (h.worker slot).notifyOne (by simp [hthread]) (by simp [hthread])
  | watcher =>
    dsimp only [watcherStep] at hstep
    have hwatcher (w : WatcherPc) (hne : s.watcher ≠ .ended) :
        ({ s with watcher := w } : LifePool τ).Inv :=
      ⟨h.working_iff, h.waker, h.lt_count, h.worker, h.wake_lt, h.joined,
        fun hd => absurd (h.watcher hd) hne⟩
    split at hstep
    · next hw =>
      cases hstep
      exact hwatcher _ (by simp [hw])
    · next hw =>
      cases hstep
      exact hwatcher _ (by simp [hw])
    · next hw =>
      obtain ⟨_, hstep⟩ := Option.ite_none_right_eq_some.mp hstep
      cases hstep
      exact hwatcher _ (by simp [hw])
    · cases hstep
  | destroy =>
    obtain ⟨hfree, hstep⟩ := Option.ite_none_right_eq_some.mp hstep
    cases hstep
    exact h.destroy hfree
  | destroyer => exact h.destroyerStep hstep

end LifePool

/-! ## The end of the destructor -/

/-- How far the thread that watches is from its end. -/
def WatcherPc.rank : WatcherPc → ℕ
  | .ended => 0
  | .loop => 1
  | .watch => 2
  | .sleep => 3

/-- How far a worker is from the end of its thread. -/
def LifeWorker.rank {τ : Type} (w : LifeWorker τ) : ℕ := (w.thread.map LifePc.rank).getD 0

/-- How much somebody has to do yet who wakes a worker. -/
def WakePc.rank : WakePc → ℕ
  | .unlock => 1
  | .notify => 2
  | .lock => 3

/-- How far the destructor is from its end. -/
def DestroyPc.rank (count : ℕ) : DestroyPc → ℕ
  | .done | .idle => 0
  | .joinWatcher => 1
  | .join slot => count - slot + 2
  | .wake slot pc => 3 * (count - slot) + pc.rank + count

namespace LifePool

variable {τ : Type} {s s' : LifePool τ} {callable : τ → Bool} {l : LifeStep τ} {slot : ℕ}

/-- **How far the pool is from its end.** -/
def rank (s : LifePool τ) : ℕ :=
  (if s.terminated then 0 else 1) + s.destroyer.rank s.count + s.watcher.rank
    + ∑ slot ∈ Finset.range s.count, (s.workers slot).rank

/-- Being woken takes nobody further from the end. -/
theorem rank_wakeStep {pc : WakePc} {pc' : Option WakePc} {w : LifeWorker τ}
    (hwake : (s.workers slot).wakeStep pc = some (w, pc')) (i : ℕ) :
    ((s.modify slot w).workers i).rank ≤ (s.workers i).rank := by
  by_cases hi : i = slot
  · subst hi
    rw [modify_workers_self]
    cases pc with
    | lock =>
      obtain ⟨_, hwake⟩ := Option.ite_none_right_eq_some.mp hwake
      cases hwake
      exact le_rfl
    | notify =>
      cases hwake
      rcases (s.workers i).notifyOne_cases with ⟨hthread, heq⟩ | ⟨_, heq⟩
      · simp [LifeWorker.rank, heq, hthread, LifePc.rank]
      · rw [heq]
    | unlock =>
      cases hwake
      exact le_rfl
  · rw [modify_workers_of_ne _ _ hi]

/-- **A step of the destructor takes the pool nearer to its end.** -/
theorem rank_destroyerStep (h : s.Inv) (hs : s.terminated = false)
    (hstep : s.destroyerStep = some s') : s'.rank < s.rank := by
  unfold LifePool.destroyerStep at hstep
  split at hstep
  · cases hstep
  · next slot pc hd =>
    split at hstep
    · next hlt =>
      obtain ⟨⟨w, pc'⟩, hwake, rfl⟩ := Option.map_eq_some_iff.mp hstep
      have hsum : ∑ i ∈ Finset.range s.count, ((s.modify slot w).workers i).rank
          ≤ ∑ i ∈ Finset.range s.count, (s.workers i).rank :=
        Finset.sum_le_sum fun i _ => rank_wakeStep hwake i
      have hdestroyer : (DestroyPc.afterWake slot pc').rank s.count
          < (DestroyPc.wake slot pc).rank s.count := by
        rw [LifeWorker.wakeStep_next hwake]
        cases pc <;> simp [WakePc.next, DestroyPc.afterWake, DestroyPc.rank, WakePc.rank]
        omega
      unfold rank
      rw [hd]
      change (if s.terminated then 0 else 1) + (DestroyPc.afterWake slot pc').rank s.count
        + s.watcher.rank + ∑ i ∈ Finset.range s.count, ((s.modify slot w).workers i).rank < _
      omega
    · next hge =>
      cases hstep
      have hpc : pc = .lock := by
        by_contra hne
        exact hge (h.wake_lt slot pc hd hne)
      have hlower : (DestroyPc.join 0).rank s.count < (DestroyPc.wake slot pc).rank s.count := by
        simp only [DestroyPc.rank, hpc, WakePc.rank]
        omega
      unfold rank
      rw [hd]
      exact Nat.add_lt_add_right (Nat.add_lt_add_right (Nat.add_lt_add_left hlower _) _) _
  · next slot hd =>
    split at hstep
    · next hlt =>
      split at hstep
      · cases hstep
        unfold rank
        rw [hs]
        exact Nat.add_lt_add_right (Nat.add_lt_add_right
          (Nat.add_lt_add_right Nat.zero_lt_one _) _) _
      · cases hstep
        have hlower : (DestroyPc.join (slot + 1)).rank s.count
            < (DestroyPc.join slot).rank s.count := by
          simp only [DestroyPc.rank]
          omega
        unfold rank
        rw [hd]
        exact Nat.add_lt_add_right (Nat.add_lt_add_right (Nat.add_lt_add_left hlower _) _) _
      · cases hstep
    · cases hstep
      have hlower : DestroyPc.joinWatcher.rank s.count < (DestroyPc.join slot).rank s.count := by
        simp only [DestroyPc.rank]
        omega
      unfold rank
      rw [hd]
      exact Nat.add_lt_add_right (Nat.add_lt_add_right (Nat.add_lt_add_left hlower _) _) _
  · next hd =>
    obtain ⟨_, hstep⟩ := Option.ite_none_right_eq_some.mp hstep
    cases hstep
    unfold rank
    rw [hd]
    exact Nat.add_lt_add_right (Nat.add_lt_add_right (Nat.add_lt_add_left Nat.zero_lt_one _) _) _
  · cases hstep

/-- A worker that gets nearer to its end takes the pool nearer to its end. -/
theorem Inv.rank_modify_lt (h : s.Inv) {w : LifeWorker τ} (hsome : (s.workers slot).thread ≠ none)
    (hrank : w.rank < (s.workers slot).rank) :
    (s.modify slot w).rank < s.rank :=
  Nat.add_lt_add_left (TransitionSystem.sum_update_lt LifeWorker.rank
    (Finset.mem_range.mpr (h.lt_count slot hsome)) hrank) _

variable [DecidableEq τ]

/-- **A step of a worker takes the pool nearer to its end**, once `is_working_`
is cleared. -/
theorem rank_workerStep (h : s.Inv) (hs : s.terminated = false) (hworking : s.isWorking = false)
    (hstep : s.workerStep callable slot = some s') : s'.rank < s.rank := by
  unfold LifePool.workerStep at hstep
  split at hstep
  · cases hstep
  · next task hthread =>
    split at hstep
    · cases hstep
      unfold rank
      rw [hs]
      exact Nat.add_lt_add_right (Nat.add_lt_add_right
        (Nat.add_lt_add_right Nat.zero_lt_one _) _) _
    · cases hstep
      refine h.rank_modify_lt (w := (s.workers slot).call s.isWorking task) (by simp [hthread]) ?_
      rw [LifeWorker.rank, LifeWorker.rank, hthread]
      exact Nat.lt_succ_self 4
  · next pc _ hthread =>
    obtain ⟨w, hrun, rfl⟩ := Option.map_eq_some_iff.mp hstep
    obtain ⟨pc', hmove⟩ := LifeWorker.exists_moves hrun
    refine h.rank_modify_lt (by simp [hthread]) ?_
    rw [LifeWorker.rank, LifeWorker.rank, hthread, hmove.thread]
    exact hmove.rank_lt hworking

/-- **Whatever is done while the pool is destroyed takes it nearer to its
end.** -/
theorem rank_next (h : s.Inv) (hd : s.destroyer ≠ .idle)
    (hstep : s.next callable l = some s') : s'.rank < s.rank := by
  obtain ⟨hs, hstep⟩ := Option.ite_none_left_eq_some.mp hstep
  have hs : s.terminated = false := Bool.eq_false_iff.mpr hs
  have hworking := h.not_working hd
  cases l with
  | addTask task index =>
    obtain ⟨hfree, _⟩ := Option.ite_none_right_eq_some.mp hstep
    exact absurd hfree.1 hd
  | addCallable task index =>
    obtain ⟨⟨hfree, _⟩, _⟩ := Option.ite_none_right_eq_some.mp hstep
    exact absurd hfree.1 hd
  | spinOnce slot =>
    obtain ⟨⟨hfree, _⟩, _⟩ := Option.ite_none_right_eq_some.mp hstep
    exact absurd hfree.1 hd
  | waker =>
    dsimp only [wakerStep] at hstep
    rw [h.waker hd] at hstep
    cases hstep
  | worker slot => exact rank_workerStep h hs hworking hstep
  | wake slot =>
    obtain ⟨hthread, hstep⟩ := Option.ite_none_right_eq_some.mp hstep
    cases hstep
    refine h.rank_modify_lt (by simp [hthread]) ?_
    rw [LifeWorker.rank, LifeWorker.rank, LifeWorker.notifyOne, hthread]
    exact Nat.lt_succ_self 6
  | watcher =>
    have hlower {pc : WatcherPc} (hlt : pc.rank < s.watcher.rank) :
        ({ s with watcher := pc } : LifePool τ).rank < s.rank :=
      Nat.add_lt_add_right (Nat.add_lt_add_left hlt _) _
    dsimp only [watcherStep] at hstep
    rw [hworking] at hstep
    split at hstep
    · next hw =>
      cases hstep
      exact hlower (by simp [hw, WatcherPc.rank])
    · next hw =>
      cases hstep
      exact hlower (by simp [hw, WatcherPc.rank])
    · next hw =>
      obtain ⟨_, hstep⟩ := Option.ite_none_right_eq_some.mp hstep
      cases hstep
      exact hlower (by simp [hw, WatcherPc.rank])
    · cases hstep
  | destroy =>
    obtain ⟨hfree, _⟩ := Option.ite_none_right_eq_some.mp hstep
    exact absurd hfree.1 hd
  | destroyer => exact rank_destroyerStep h hs hstep

/-- A thread that is neither blocked nor at its end can take a step, unless it
waits for its mutex. -/
theorem exists_workerStep {pc : LifePc τ} (hthread : (s.workers slot).thread = some pc)
    (hblocked : pc ≠ .blocked) (hended : pc ≠ .ended)
    (hlock : pc = .lock → (s.workers slot).mtx = none) :
    ∃ s', s.workerStep callable slot = some s' := by
  unfold workerStep
  rw [hthread]
  cases pc with
  | invoke task =>
    dsimp only
    split <;> exact ⟨_, rfl⟩
  | blocked => exact absurd rfl hblocked
  | ended => exact absurd rfl hended
  | lock => simp [LifeWorker.runStep, hlock rfl]
  | take =>
    dsimp only [LifeWorker.runStep]
    split <;> exact ⟨_, rfl⟩
  | check task => cases task <;> exact ⟨_, rfl⟩
  | _ => exact ⟨_, rfl⟩

/-- **Somebody can do something until the destructor has come to its end.** -/
theorem exists_next (h : s.Inv) (hd : s.destroyer ≠ .idle) (hnot : ¬ s.Finished) :
    ∃ l s', s.next callable l = some s' := by
  have hs : s.terminated = false := Bool.eq_false_iff.mpr fun ht => hnot (.inl ht)
  have hwaker : s.waker = none := h.waker hd
  have hdestroyer (hgo : ∃ s', s.destroyerStep = some s') : ∃ l s', s.next callable l = some s' :=
    hgo.imp' (fun _ => LifeStep.destroyer) fun s' hs' => ⟨s', by simp [next, hs, hs']⟩
  have hworker {slot : ℕ} (hgo : ∃ s', s.workerStep callable slot = some s') :
      ∃ l s', s.next callable l = some s' :=
    hgo.imp' (fun _ => LifeStep.worker slot) fun s' hs' => ⟨s', by simp [next, hs, hs']⟩
  match hdest : s.destroyer with
  | .idle => exact absurd hdest hd
  | .wake slot pc =>
    by_cases hlt : slot < s.count
    · by_cases hfree : pc = .lock → (s.workers slot).mtx = none
      · refine hdestroyer ?_
        unfold destroyerStep
        rw [hdest]
        cases pc <;> simp [hlt, LifeWorker.wakeStep, hfree]
      · obtain ⟨rfl, hmtx⟩ := Classical.not_imp.mp hfree
        match hm : (s.workers slot).mtx with
        | none => exact absurd hm hmtx
        | some .caller =>
          obtain ⟨pc, hpc, hwake⟩ := (h.worker slot).caller_iff.mp hm
          simp only [hwaker, hdest, reduceCtorEq, false_or, DestroyPc.wake.injEq, true_and] at hwake
          exact absurd hwake.symm hpc
        | some .worker =>
          -- the destructor waits for the mutex, and the worker that has it can go on
          obtain ⟨pc, hthread, hholds⟩ := (h.worker slot).worker_iff.mp hm
          refine hworker (exists_workerStep hthread ?_ ?_ ?_) <;> rintro rfl <;> exact hholds.elim
    · exact hdestroyer (by simp [destroyerStep, hdest, hlt])
  | .join slot =>
    by_cases hlt : slot < s.count
    · match hthread : (s.workers slot).thread with
      | none => exact hdestroyer (by simp [destroyerStep, hdest, hlt, hthread])
      | some pc =>
        by_cases hended : pc = .ended
        · exact hdestroyer (by simp [destroyerStep, hdest, hlt, hthread, hended])
        have hnotified : s.Notified slot := by
          rw [Notified, hdest]
          exact hlt
        have hnotwakes : ¬ s.Wakes slot := by
          simp [Wakes, hwaker, hdest]
        refine hworker (exists_workerStep hthread ?_ hended ?_)
        · rintro rfl
          exact ((h.worker slot).not_blocked hnotified).2 hthread
        · rintro rfl
          exact ((h.worker slot).imp (iff_of_false id hnotwakes) id).mtx_eq_none hthread id
    · exact hdestroyer (by simp [destroyerStep, hdest, hlt])
  | .joinWatcher =>
    by_cases hended : s.watcher = .ended
    · exact hdestroyer (by simp [destroyerStep, hdest, hended])
    · refine ⟨.watcher, ?_⟩
      simp only [next, hs, Bool.false_eq_true, if_false, watcherStep]
      cases hw : s.watcher with
      | ended => exact absurd hw hended
      | watch => simp [hwaker]
      | _ => exact ⟨_, rfl⟩
  | .done =>
    refine absurd (.inr ⟨hdest, h.watcher hdest, fun slot hlt => h.joined slot ?_⟩) hnot
    rw [Joined, hdest]
    exact hlt

/-- `is_working_` is not set again. -/
theorem isWorking_next (hworking : s.isWorking = false) (hstep : s.next callable l = some s') :
    s'.isWorking = false := by
  obtain ⟨_, hstep⟩ := Option.ite_none_left_eq_some.mp hstep
  cases l with
  | addTask task index =>
    obtain ⟨_, hstep⟩ := Option.ite_none_right_eq_some.mp hstep
    split at hstep <;> cases hstep <;> exact hworking
  | addCallable task index | spinOnce slot | wake slot =>
    obtain ⟨_, hstep⟩ := Option.ite_none_right_eq_some.mp hstep
    cases hstep
    exact hworking
  | waker =>
    dsimp only [wakerStep] at hstep
    split at hstep
    · cases hstep
    · obtain ⟨_, _, rfl⟩ := Option.map_eq_some_iff.mp hstep
      exact hworking
  | worker slot =>
    dsimp only [workerStep] at hstep
    split at hstep
    · cases hstep
    · split at hstep <;> cases hstep <;> exact hworking
    · obtain ⟨_, _, rfl⟩ := Option.map_eq_some_iff.mp hstep
      exact hworking
  | watcher =>
    dsimp only [watcherStep] at hstep
    split at hstep
    · cases hstep
      exact hworking
    · cases hstep
      exact hworking
    · obtain ⟨_, hstep⟩ := Option.ite_none_right_eq_some.mp hstep
      cases hstep
      exact hworking
    · cases hstep
  | destroy =>
    obtain ⟨_, hstep⟩ := Option.ite_none_right_eq_some.mp hstep
    cases hstep
    rfl
  | destroyer =>
    dsimp only [destroyerStep] at hstep
    split at hstep
    · cases hstep
    · split at hstep
      · obtain ⟨_, _, rfl⟩ := Option.map_eq_some_iff.mp hstep
        exact hworking
      · cases hstep
        exact hworking
    · split at hstep
      · split at hstep <;> cases hstep <;> exact hworking
      · cases hstep
        exact hworking
    · obtain ⟨_, hstep⟩ := Option.ite_none_right_eq_some.mp hstep
      cases hstep
      exact hworking
    · cases hstep

theorem inv_of_reachable {reserve : ℕ} (h : (lifeSystem callable reserve).Reachable s) : s.Inv :=
  h.invariant (fun _ hs => hs ▸ .new reserve) fun _ _ _ _ hinv hstep => hinv.next hstep

/-- **The destructor comes to its end.** Whatever the pool is doing when the
destructor is called, and in whatever order its threads go on, after finitely
many steps every worker that has been made is joined, unless the process has
ended before; until then somebody can take a step. -/
theorem destroy_inevitably {reserve : ℕ} (h : (lifeSystem callable reserve).Reachable s)
    (hd : s.destroyer ≠ .idle) : (lifeSystem callable reserve).Inevitably Finished s := by
  refine .of_rank (I := fun s => s.Inv ∧ s.destroyer ≠ .idle) rank ?_ ?_
    ⟨inv_of_reachable h, hd⟩
  · rintro s ⟨hinv, hd⟩ hnot
    exact exists_next hinv hd hnot
  · rintro s l s' ⟨hinv, hd⟩ _ hstep
    refine ⟨⟨hinv.next hstep, fun hidle => ?_⟩, rank_next hinv hd hstep⟩
    have hset := (hinv.next hstep).working_iff.mpr hidle
    rw [isWorking_next (hinv.not_working hd) hstep] at hset
    cases hset

/-- The worker has called its only task and is blocked when the destructor is
called. -/
theorem destroy_inevitably_one : ∃ s : LifePool ℕ,
    (lifeSystem (fun _ => true) 1).Reachable s ∧ (s.workers 0).thread = some .blocked
      ∧ (lifeSystem (fun _ => true) 1).Inevitably Finished s := by
  have htrace : (TransitionSystem.trace (fun s => LifePool.next (fun _ => true) s) []
      (.new 1 : LifePool ℕ) (.addTask 7 0 :: List.replicate 3 .waker
        ++ List.replicate 17 (.worker 0) ++ [.destroy])).map
        (fun e => ((e.2.workers 0).thread, e.2.destroyer))
      = some (some .blocked, .wake 0 .lock) := by decide +kernel
  obtain ⟨tr, s, hr, heq⟩ := TransitionSystem.Run.exists_of_trace
    (S := lifeSystem (fun _ => true) 1) (fun _ _ _ h => h) rfl htrace
  obtain ⟨hblocked, hdestroyer⟩ := Prod.mk.inj heq
  refine ⟨s, hr.reachable, hblocked, destroy_inevitably hr.reachable ?_⟩
  rw [show s.destroyer = .wake 0 .lock from hdestroyer]
  simp

/-- **A worker calls one more task at most** once the destructor has been
called. -/
theorem late_le_one {reserve : ℕ} (h : (lifeSystem callable reserve).Reachable s) (slot : ℕ) :
    (s.workers slot).late ≤ 1 := by
  rcases ((inv_of_reachable h).worker slot).late with hzero | ⟨hone, _⟩
  · exact hzero.le.trans (Nat.zero_le 1)
  · exact hone.le

/-- Three tasks are in the queue, and the worker has seen one when the destructor
is called. It calls that one, and the two others are dropped. -/
theorem late_le_one_of_three : ∃ s : LifePool ℕ,
    (lifeSystem (fun _ => true) 1).Reachable s ∧ s.destroyer = .done ∧ s.invoked = [5]
      ∧ (s.workers 0).tasks = [6, 7] ∧ (s.workers 0).late ≤ 1 := by
  have htrace : (TransitionSystem.trace (fun s => LifePool.next (fun _ => true) s) []
      (.new 1 : LifePool ℕ) ((.addTask 5 0 :: List.replicate 3 .waker)
        ++ (.addTask 6 0 :: List.replicate 3 .waker) ++ (.addTask 7 0 :: List.replicate 3 .waker)
        ++ List.replicate 3 (.worker 0) ++ [.watcher, .destroy] ++ List.replicate 8 (.worker 0)
        ++ List.replicate 6 .destroyer ++ List.replicate 3 .watcher ++ [.destroyer])).map
        (fun e => (e.2.destroyer, e.2.invoked, (e.2.workers 0).tasks))
      = some (.done, [5], [6, 7]) := by decide +kernel
  obtain ⟨tr, s, hr, heq⟩ := TransitionSystem.Run.exists_of_trace
    (S := lifeSystem (fun _ => true) 1) (fun _ _ _ h => h) rfl htrace
  obtain ⟨hdestroyer, heq⟩ := Prod.mk.inj heq
  obtain ⟨hinvoked, htasks⟩ := Prod.mk.inj heq
  exact ⟨s, hr.reachable, hdestroyer, hinvoked, htasks, late_le_one hr.reachable 0⟩

end LifePool
