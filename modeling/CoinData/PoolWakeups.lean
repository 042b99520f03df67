import CoinData.ThreadBindPool

/-!
# Who wakes a worker

The thread of a worker that finds its queue empty waits on a condition
variable. The queue is filled without the mutex of this variable and emptied
without it too; what is done with the mutex is that the worker looks at the
queue before it blocks, and that it is notified.

Here the pool is seen with what it synchronises on: the mutex and the status
of each worker, where its thread is while it waits, and where `add_task_to`
and `spin_once` are while they wake it. To wait is to release the mutex and
block in one step, and a thread which was notified, or woken for no reason,
locks the mutex and looks at the queue again. Every step is one of the pool's
or leaves it as it is.

A worker blocks only after it has found its queue empty with the mutex
locked. What is put in later is followed by a notification, which needs the
mutex, so that it comes after the worker has blocked or before it looks; and
so **no worker is blocked with something in its queue, unless it is still to
be notified**.

The thread that watches the workers is left out: it takes `worker_lock_` and
writes a log.
-/

/-- `Worker::WorkStatus`. -/
inductive WorkStatus where
  | idle
  | working
  | waiting
  | stop
deriving DecidableEq, Repr

/-- Who has the mutex of a worker: its thread, or who wakes it. -/
inductive MtxHolder where
  | worker
  | caller
deriving DecidableEq, Repr

/-- Where the thread of a worker is in the block that waits. -/
inductive WaitPc where
  /-- Elsewhere in `run_`. -/
  | away
  /-- Next, the status is stored. -/
  | announce
  /-- Next, the mutex is locked. -/
  | lock
  /-- It has the mutex, and evaluates what it waits for. -/
  | holding
  /-- It is blocked, without the mutex. -/
  | blocked
  /-- It has found something: next, the status is stored. -/
  | leave
  /-- Next, the mutex is unlocked. -/
  | unlock
deriving DecidableEq, Repr

/-- Where somebody is who wakes a worker. -/
inductive WakePc where
  | lock
  | notify
  | unlock
deriving DecidableEq, Repr

/-- Where `spin_once` is. It holds `worker_lock_`, except at `idle`. -/
inductive PoolSpinPc where
  | idle
  /-- Next, the status of the worker is loaded. -/
  | status (slot : ℕ)
  /-- Next, `size` loads the tail of its queue. -/
  | size (slot : ℕ)
  /-- Next, `size` loads the head. -/
  | sized (slot currentTail : ℕ)
  | wake (slot : ℕ) (pc : WakePc)
deriving DecidableEq, Repr

/-- **What a worker synchronises on.** -/
structure WorkerSync where
  status : WorkStatus
  mtx : Option MtxHolder
  wait : WaitPc
deriving DecidableEq, Repr

namespace WorkerSync

/-- `Worker()`. -/
def new : WorkerSync := ⟨.stop, none, .away⟩

/-- `cv.notify_one()`. -/
def notifyOne (y : WorkerSync) : WorkerSync :=
  match y.wait with
  | .blocked => { y with wait := .lock }
  | _ => y

/-- **A step of somebody who wakes the worker**, and where he is then. -/
def wakeStep (y : WorkerSync) : WakePc → Option (WorkerSync × Option WakePc)
  | .lock => if y.mtx = none then some ({ y with mtx := some .caller }, some .notify) else none
  | .notify => some (y.notifyOne, some .unlock)
  | .unlock => some ({ y with mtx := none }, none)

/-- What becomes of it when the thread of the worker goes on in `run_`. -/
def follow {τ : Type} (y : WorkerSync) (thread thread' : Option (RunPc τ)) : WorkerSync :=
  match y.wait, thread, thread' with
  -- what is waited for is evaluated
  | .holding, _, some (.sized .wait _) => y
  | .holding, _, some (.size .wait) => { y with mtx := none, wait := .blocked }
  | .holding, _, _ => { y with wait := .leave }
  | _, _, some (.size .wait) => { y with wait := .announce }
  | _, _, some (.executing _) => { y with status := .working }
  | _, some (.executing _), _ => { y with status := .idle }
  | _, _, _ => y

end WorkerSync

/-- **A pool with what it synchronises on**: `wake` is where `add_task_to` is
while it wakes a worker, `spin` where `spin_once` is. -/
structure WaitingPool (τ : Type) where
  pool : ThreadBindPool τ
  sync : ℕ → WorkerSync
  wake : WakePc
  spin : PoolSpinPc

/-- Who takes a step. -/
inductive WaitingStep (τ : Type) where
  | addTask (task : τ) (index : ℕ)
  | addCallable (task : τ) (index : ℕ)
  | adder
  /-- `spin_once` gets the lock. -/
  | spinOnce
  | spin
  | worker (slot : ℕ)
  /-- A thread wakes up for no reason. -/
  | wake (slot : ℕ)
deriving DecidableEq, Repr

namespace WaitingPool

variable {τ : Type}

/-- The constructor. -/
def new (reserve : ℕ) : WaitingPool τ where
  pool := .new reserve
  sync _ := .new
  wake := .lock
  spin := .idle

/-- Change what one worker synchronises on. -/
def setSync (s : WaitingPool τ) (slot : ℕ) (y : WorkerSync) : WaitingPool τ :=
  { s with sync := Function.update s.sync slot y }

/-- **The next step of `spin_once`**, which wakes the workers that wait
although there is something in their queues. -/
def spinStep (s : WaitingPool τ) : Option (WaitingPool τ) :=
  match s.spin with
  | .idle => none
  | .status slot =>
    if slot < s.pool.count then
      some { s with
        spin := if (s.sync slot).status = .waiting then .size slot else .status (slot + 1) }
    else some { s with spin := .idle }
  | .size slot => some { s with spin := .sized slot (s.pool.workers slot).tasks.tail }
  | .sized slot currentTail =>
    let tasks := (s.pool.workers slot).tasks
    some { s with
      spin :=
        if LockFreeQueue.sizeOf tasks.capacity currentTail tasks.head = some 0 then
          .status (slot + 1)
        else .wake slot .lock }
  | .wake slot pc =>
    ((s.sync slot).wakeStep pc).map fun (y, pc) =>
      { s.setSync slot y with
        spin :=
          match pc with
          | some pc => .wake slot pc
          | none => .status (slot + 1) }

variable [DecidableEq τ]

/-- **The next step of `add_task_to`**, which wakes the worker at its end. -/
def adderStep (callable : τ → Bool) (s : WaitingPool τ) : Option (WaitingPool τ) :=
  match s.pool.adder with
  | .notify slot =>
    ((s.sync slot).wakeStep s.wake).bind fun (y, pc) =>
      match pc with
      | some pc => some { s.setSync slot y with wake := pc }
      | none =>
        (s.pool.next callable .adder).map fun pool =>
          { s.setSync slot y with pool := pool, wake := .lock }
  | _ => (s.pool.next callable .adder).map fun pool => { s with pool := pool }

/-- **The next step of a worker's thread.** -/
def workerStep (callable : τ → Bool) (s : WaitingPool τ) (slot : ℕ) : Option (WaitingPool τ) :=
  let y := s.sync slot
  match y.wait with
  | .announce => some (s.setSync slot { y with status := .waiting, wait := .lock })
  | .lock =>
    if y.mtx = none then some (s.setSync slot { y with mtx := some .worker, wait := .holding })
    else none
  | .blocked => none
  | .leave => some (s.setSync slot { y with status := .idle, wait := .unlock })
  | .unlock => some (s.setSync slot { y with mtx := none, wait := .away })
  | .away | .holding =>
    (s.pool.next callable (.worker slot)).map fun pool =>
      { s.setSync slot (y.follow (s.pool.workers slot).thread (pool.workers slot).thread) with
        pool := pool }

/-- Take a step, if it is possible. `add_task_to` and `spin_once` need
`worker_lock_`. -/
def next (callable : τ → Bool) (s : WaitingPool τ) (l : WaitingStep τ) :
    Option (WaitingPool τ) :=
  if s.pool.terminated then none
  else
    match l with
    | .addTask task index =>
      if s.spin = .idle then
        (s.pool.next callable (.addTask task index)).map fun pool => { s with pool := pool }
      else none
    | .addCallable task index =>
      if s.spin = .idle then
        (s.pool.next callable (.addCallable task index)).map fun pool => { s with pool := pool }
      else none
    | .adder => s.adderStep callable
    | .spinOnce =>
      if s.pool.adder = .idle ∧ s.spin = .idle then some { s with spin := .status 0 } else none
    | .spin => s.spinStep
    | .worker slot => s.workerStep callable slot
    | .wake slot =>
      if (s.sync slot).wait = .blocked then some (s.setSync slot (s.sync slot).notifyOne)
      else none

end WaitingPool

/-- **The system of a pool and what it synchronises on.** -/
def waitingSystem {τ : Type} [DecidableEq τ] (callable : τ → Bool) (reserve : ℕ) :
    TransitionSystem (WaitingPool τ) (WaitingStep τ) where
  init s := s = WaitingPool.new reserve
  step s l s' := s.next callable l = some s'

namespace WaitingPool

variable {τ : Type}

/-- **A worker is blocked** in `cv.wait`. -/
def Blocked (s : WaitingPool τ) (slot : ℕ) : Prop := (s.sync slot).wait = .blocked

/-- **A call of `add_task_to` on the worker is between its `push_back` and its
`notify_one`.** -/
def Between (s : WaitingPool τ) (slot : ℕ) : Prop :=
  match s.pool.adder with
  | .setIdx _ slot' | .start slot' | .join slot' => slot' = slot
  | .notify slot' => slot' = slot ∧ s.wake ≠ .unlock
  | _ => False

end WaitingPool

/-! ## The indices of the queues -/

/-- The tail that `push_back` is going to store. -/
def ProducerPc.nextTail {α : Type} : ProducerPc α → Option ℕ
  | .idle | .loadedTail _ _ => none
  | .room _ _ nextTail | .written _ nextTail => some nextTail

namespace LockFreeQueue

variable {α : Type} {queue queue' : LockFreeQueue α} {p p' : ProducerPc α}
  {c c' : ConsumerPc α} {e : Option (BoundedFifo.Event α)}

/-- **The indices are those of slots**, and so is the one that a producer at
`p` is going to store. -/
structure InRange (queue : LockFreeQueue α) (p : ProducerPc α) : Prop where
  head_lt : queue.head < queue.capacity
  tail_lt : queue.tail < queue.capacity
  next_lt : ∀ n ∈ p.nextTail, n < queue.capacity

theorem InRange.nextIndex_lt (h : queue.InRange p) (i : ℕ) :
    queue.nextIndex i < queue.capacity := Nat.mod_lt _ (Nat.zero_lt_of_lt h.head_lt)

theorem InRange.producerStep (h : queue.InRange p)
    (hstep : queue.producerStep p = some (queue', p', e)) : queue'.InRange p' := by
  cases move_of_producerStep hstep with
  | full _ => exact ⟨h.head_lt, h.tail_lt, nofun⟩
  | @room value currentTail _ =>
    exact ⟨h.head_lt, h.tail_lt, fun n hn => Option.some.inj hn ▸ h.nextIndex_lt currentTail⟩
  | write value currentTail nextTail => exact ⟨h.head_lt, h.tail_lt, h.next_lt⟩
  | store value nextTail => exact ⟨h.head_lt, h.next_lt nextTail rfl, nofun⟩

theorem InRange.consumerStep (h : queue.InRange p)
    (hstep : queue.consumerStep c = some (queue', c', e)) : queue'.InRange p := by
  cases move_of_consumerStep hstep with
  | store value currentHead => exact ⟨h.nextIndex_lt currentHead, h.tail_lt, h.next_lt⟩
  | _ => exact h

/-- A step of `push_back` stores nothing but the tail, and this at its end. -/
theorem producerStep_indices (hstep : queue.producerStep p = some (queue', p', e)) :
    queue'.head = queue.head ∧ (e = none → queue'.tail = queue.tail) := by
  cases move_of_producerStep hstep with
  | store value nextTail => exact ⟨rfl, nofun⟩
  | _ => exact ⟨rfl, fun _ => rfl⟩

/-- The distance of the indices is zero exactly if they are the same. -/
theorem distance_eq_zero {capacity head tail : ℕ} (htail : tail < capacity)
    (hhead : head < capacity) : (tail + capacity - head) % capacity = 0 ↔ head = tail := by
  constructor
  · intro hmod
    obtain ⟨k, hk⟩ := Nat.dvd_of_mod_eq_zero hmod
    have hk1 : k = 1 := by
      by_contra hne
      rcases Nat.lt_or_ge k 1 with hlt | hge
      · obtain rfl : k = 0 := by omega
        omega
      · have hle := Nat.mul_le_mul_left capacity (show 2 ≤ k by omega)
        omega
    rw [hk1, Nat.mul_one] at hk
    omega
  · rintro rfl
    simp

/-- **`size` returns zero exactly if it has loaded the same index twice.** -/
theorem sizeOf_eq_zero {capacity currentTail currentHead : ℕ} (htail : currentTail < capacity)
    (hhead : currentHead < capacity) (hcap : 2 * capacity < 2 ^ 31) :
    sizeOf capacity currentTail currentHead = some 0 ↔ currentHead = currentTail := by
  have hsum : (currentTail : ℤ) - currentHead + capacity
      = ((currentTail + capacity - currentHead : ℕ) : ℤ) := by omega
  unfold sizeOf
  simp only [hsum]
  rw [if_pos (by omega), Option.some_inj, ← Int.ofNat_tmod, ← distance_eq_zero htail hhead]
  exact Int.ofNat_eq_zero

/-- **There is nothing in a queue** exactly if the indices are the same. -/
theorem InRange.content_eq_nil (h : queue.InRange p) :
    queue.content = [] ↔ queue.head = queue.tail := by
  unfold content
  rw [List.map_eq_nil_iff, List.range_eq_nil]
  exact distance_eq_zero h.tail_lt h.head_lt

end LockFreeQueue

/-- **The thread waits**: it evaluates what it waits for, or is about to. -/
def RunPc.Waits {τ : Type} : RunPc τ → Prop
  | .size .wait | .sized .wait _ => True
  | _ => False

namespace Worker

variable {τ : Type} {w w' : Worker τ} {pc : RunPc τ} {callable : τ → Bool} {n : ℕ}

/-- **A thread goes on** from a place of `run_`: it calls its task, which may
throw, or takes another step. -/
def GoesOn (w : Worker τ) (callable : τ → Bool) (n : ℕ) (pc : RunPc τ) (w' : Worker τ) : Prop :=
  (∃ task, pc = .invoke task
      ∧ (w' = w ∨ w' = { w with thread := some (.executing task) }))
    ∨ w.runStep callable n pc = some w'

/-- It does to the queue what `pop_front` does. -/
theorem GoesOn.tasks (h : w.GoesOn callable n pc w') :
    w'.tasks = w.tasks ∨ ∃ c c' e, w.tasks.consumerStep c = some (w'.tasks, c', e) := by
  rcases h with ⟨task, rfl, rfl | rfl⟩ | hstep
  · exact .inl rfl
  · exact .inl rfl
  cases pc with
  | popFront c =>
    by_cases hc : c = .idle
    · subst hc
      cases hstep
      exact .inl rfl
    · rw [runStep_popFront hc] at hstep
      obtain ⟨⟨tasks, c', e⟩, hpop, rfl⟩ := Option.map_eq_some_iff.mp hstep
      refine .inr ⟨c, c', e, ?_⟩
      cases e with
      | none => exact hpop
      | some e => cases e <;> exact hpop
  | check =>
    unfold Worker.runStep at hstep
    dsimp only at hstep
    split at hstep <;> cases hstep <;> exact .inl rfl
  | invoke task => cases hstep
  | _ =>
    cases hstep
    exact .inl rfl

/-- A thread that does not wait is not in the middle of `size` afterwards, as
one that waits is. -/
theorem GoesOn.thread (hthread : w.thread = some pc) (hpc : ¬ pc.Waits)
    (h : w.GoesOn callable n pc w') :
    ∃ pc', w'.thread = some pc' ∧ (pc' = .size .wait ∨ ¬ pc'.Waits) := by
  rcases h with ⟨task, rfl, rfl | rfl⟩ | hstep
  · exact ⟨_, hthread, .inr hpc⟩
  · exact ⟨_, rfl, .inr id⟩
  cases pc with
  | top =>
    cases hstep
    refine ⟨_, rfl, .inr ?_⟩
    split <;> exact id
  | size call =>
    cases hstep
    exact ⟨_, rfl, .inr (by cases call <;> exact hpc)⟩
  | sized call currentTail =>
    cases hstep
    refine ⟨_, rfl, ?_⟩
    cases call with
    | wait => exact absurd trivial hpc
    | inner =>
      refine .inr ?_
      dsimp only
      split <;> exact id
    | outer =>
      dsimp only
      split
      · exact .inl rfl
      · exact .inr id
  | popFront c =>
    by_cases hc : c = .idle
    · subst hc
      cases hstep
      exact ⟨_, rfl, .inr id⟩
    · rw [runStep_popFront hc] at hstep
      obtain ⟨⟨tasks, c', e⟩, hpop, rfl⟩ := Option.map_eq_some_iff.mp hstep
      cases e with
      | none => exact ⟨_, rfl, .inr id⟩
      | some e => cases e <;> exact ⟨_, rfl, .inr id⟩
  | check =>
    unfold Worker.runStep at hstep
    dsimp only at hstep
    split at hstep
    · cases hstep
      exact ⟨_, rfl, .inr id⟩
    · cases hstep
      refine ⟨_, rfl, .inr ?_⟩
      split <;> exact id
  | invoke task => cases hstep
  | executing task =>
    cases hstep
    exact ⟨_, rfl, .inr id⟩

end Worker

namespace ThreadBindPool

variable {τ : Type} {s s' : ThreadBindPool τ} {slot : ℕ}

/-! ## What the pool's steps do to a queue -/

/-- **What a step of `add_task_to` does to the queues**: nothing, or a step of
`push_back` to one of them, at whose end the call is at `setIdx`. -/
theorem adderStep_tasks (hstep : s.adderStep = some s') :
    (∀ i, (s'.workers i).tasks = (s.workers i).tasks
        ∧ (s'.producer i).nextTail = (s.producer i).nextTail)
      ∨ ∃ task index slot pc pc' e, s.adder = .pushing task index slot pc
        ∧ (s.workers slot).tasks.producerStep pc = some ((s'.workers slot).tasks, pc', e)
        ∧ (∀ i ≠ slot, s'.workers i = s.workers i)
        ∧ (s'.adder = .pushing task index slot pc' ∧ e = none
          ∨ s'.adder = .setIdx index slot ∧ pc' = .idle) := by
  cases move_of_adderStep hstep with
  | @call task index slot hadder =>
    refine .inl fun i => ⟨rfl, ?_⟩
    rw [producer_of_pushing rfl i]
    by_cases hi : slot = i <;> simp [producer, hadder, hi, ProducerPc.nextTail,
      LockFreeQueue.pushBack]
  | @push task index slot pc pc' tasks hadder hpush =>
    refine .inr ⟨task, index, slot, pc, pc', none, hadder, ?_,
      fun i hi => Function.update_of_ne hi _ _, .inl ⟨rfl, rfl⟩⟩
    simpa [ThreadBindPool.modify] using hpush
  | @pushed task index slot pc pc' tasks e hadder hpush =>
    refine .inr ⟨task, index, slot, pc, pc', some e, hadder, ?_,
      fun i hi => Function.update_of_ne hi _ _,
      .inr ⟨rfl, (LockFreeQueue.producerStep_event hpush).1⟩⟩
    simpa [ThreadBindPool.modify] using hpush
  | grow hadder => exact .inl fun i => ⟨rfl, by simp [producer, hadder]⟩
  | running hadder _ => exact .inl fun i => ⟨rfl, by simp [producer, hadder]⟩
  | notify hadder => exact .inl fun i => ⟨rfl, by simp [producer, hadder]⟩
  | @setIdx index slot hadder =>
    refine .inl fun i => ⟨?_, by simp [producer, hadder]⟩
    by_cases hi : i = slot <;> simp [ThreadBindPool.modify, hi]
  | @restart slot pc hadder _ =>
    refine .inl fun i => ⟨?_, by simp [producer, hadder]⟩
    by_cases hi : i = slot <;> simp [ThreadBindPool.modify, hi]
  | @start slot hadder _ =>
    refine .inl fun i => ⟨?_, by simp [producer, hadder]⟩
    by_cases hi : i = slot <;> simp [ThreadBindPool.modify, hi]

/-- **What it does to the threads**: it starts one, if there is none. -/
theorem adderStep_thread (hstep : s.adderStep = some s') (i : ℕ) :
    (s'.workers i).thread = (s.workers i).thread
      ∨ (s.workers i).thread = none ∧ (s'.workers i).thread = some .top := by
  cases move_of_adderStep hstep with
  | grow _ => exact .inl rfl
  | call _ => exact .inl rfl
  | running _ _ => exact .inl rfl
  | notify _ => exact .inl rfl
  | @push task index slot pc pc' tasks _ _ =>
    by_cases hi : i = slot <;> simp [ThreadBindPool.modify, hi]
  | @pushed task index slot pc pc' tasks e _ _ =>
    by_cases hi : i = slot <;> simp [ThreadBindPool.modify, hi]
  | @setIdx index slot _ => by_cases hi : i = slot <;> simp [ThreadBindPool.modify, hi]
  | @restart slot pc _ _ => by_cases hi : i = slot <;> simp [ThreadBindPool.modify, hi]
  | @start slot _ hnone => by_cases hi : i = slot <;> simp [ThreadBindPool.modify, hi, hnone]

/-- **What a step of a thread does**: it changes its own worker, by a step of
`run_` or the call of its task. -/
theorem workerStep_cases [DecidableEq τ] {callable : τ → Bool}
    (hstep : s.workerStep callable slot = some s') : s'.adder = s.adder
      ∧ (∀ i ≠ slot, s'.workers i = s.workers i)
      ∧ ∃ pc, (s.workers slot).thread = some pc
        ∧ (s.workers slot).GoesOn callable s.size pc (s'.workers slot) := by
  unfold ThreadBindPool.workerStep at hstep
  split at hstep
  · cases hstep
  · next task hpc =>
    split at hstep
    · cases hstep
      exact ⟨rfl, fun _ _ => rfl, _, hpc, .inl ⟨task, rfl, .inl rfl⟩⟩
    · cases hstep
      refine ⟨rfl, fun i hi => Function.update_of_ne hi _ _, _, hpc, .inl ⟨task, rfl, .inr ?_⟩⟩
      simp [ThreadBindPool.modify]
  · next pc _ hpc =>
    obtain ⟨w', hrun, rfl⟩ := Option.map_eq_some_iff.mp hstep
    refine ⟨rfl, fun i hi => Function.update_of_ne hi _ _, pc, hpc, .inr ?_⟩
    simpa [ThreadBindPool.modify] using hrun

/-- **The indices of all queues are those of slots.** -/
def InRange (s : ThreadBindPool τ) : Prop :=
  ∀ slot, (s.workers slot).tasks.capacity = 10
    ∧ (s.workers slot).tasks.InRange (s.producer slot)

theorem InRange.new (reserve : ℕ) : (new reserve : ThreadBindPool τ).InRange :=
  fun _ => ⟨rfl, Nat.zero_lt_succ 9, Nat.zero_lt_succ 9, nofun⟩

theorem InRange.adderStep (h : s.InRange) (hstep : s.adderStep = some s') : s'.InRange := by
  intro i
  obtain ⟨hcap, hrange⟩ := h i
  obtain hsame | ⟨task, index, slot, pc, pc', e, hadder, hpush, hother, hadder'⟩ :=
    adderStep_tasks hstep
  · obtain ⟨htasks, hnext⟩ := hsame i
    rw [htasks]
    exact ⟨hcap, hrange.head_lt, hrange.tail_lt, hnext ▸ hrange.next_lt⟩
  · rw [producer_of_pushing hadder] at hrange
    by_cases hi : slot = i
    · subst hi
      rw [if_pos rfl] at hrange
      have hproducer : s'.producer slot = pc' := by
        rcases hadder' with ⟨hadder', _⟩ | ⟨hadder', rfl⟩
        · rw [producer_of_pushing hadder', if_pos rfl]
        · simp [producer, hadder']
      rw [hproducer]
      exact ⟨(LockFreeQueue.producerStep_capacity hpush).trans hcap, hrange.producerStep hpush⟩
    · rw [if_neg hi] at hrange
      have hproducer : s'.producer i = .idle := by
        rcases hadder' with ⟨hadder', _⟩ | ⟨hadder', _⟩
        · rw [producer_of_pushing hadder', if_neg hi]
        · simp [producer, hadder']
      rw [hproducer, hother i (Ne.symm hi)]
      exact ⟨hcap, hrange⟩

theorem InRange.workerStep [DecidableEq τ] {callable : τ → Bool} (h : s.InRange)
    (hstep : s.workerStep callable slot = some s') : s'.InRange := by
  intro i
  obtain ⟨hcap, hrange⟩ := h i
  obtain ⟨hadder, hother, pc, _, hgoes⟩ := workerStep_cases hstep
  have hproducer : s'.producer i = s.producer i := by
    unfold producer
    rw [hadder]
  rw [hproducer]
  by_cases hi : i = slot
  · subst hi
    rcases hgoes.tasks with htasks | ⟨c, c', e, hpop⟩
    · rw [htasks]
      exact ⟨hcap, hrange⟩
    · exact ⟨(LockFreeQueue.consumerStep_capacity hpop).trans hcap, hrange.consumerStep hpop⟩
  · rw [hother i hi]
    exact ⟨hcap, hrange⟩

/-- A call which gets the lock has done nothing to the queues. -/
theorem InRange.grow (h : s.InRange) {task : τ} {index : ℕ} (hadder : s.adder = .idle) :
    ({ s with adder := .grow task index slot } : ThreadBindPool τ).InRange := by
  intro i
  obtain ⟨hcap, hrange⟩ := h i
  refine ⟨hcap, ?_⟩
  simpa [producer, hadder] using hrange

/-- **The calls that get the lock.** -/
theorem next_call [DecidableEq τ] {callable : τ → Bool} {l : PoolStep τ}
    {task : τ} {index : ℕ} (hl : l = .addTask task index ∨ l = .addCallable task index)
    (hstep : s.next callable l = some s') : s.adder = .idle
      ∧ (s' = s ∨ ∃ task index slot, s' = { s with adder := .grow task index slot }) := by
  rcases hl with rfl | rfl
  · simp only [ThreadBindPool.next] at hstep
    split at hstep
    · cases hstep
    · next hfree =>
      have hadder : s.adder = .idle := by
        by_contra hne
        exact hfree (.inr hne)
      split at hstep
      · exact ⟨hadder, .inl (Option.some.inj hstep).symm⟩
      · exact ⟨hadder, .inr ⟨_, _, _, (Option.some.inj hstep).symm⟩⟩
  · simp only [ThreadBindPool.next] at hstep
    split at hstep
    · cases hstep
    · next hfree =>
      have hadder : s.adder = .idle := by
        by_contra hne
        exact hfree (.inr (.inl hne))
      exact ⟨hadder, .inr ⟨_, _, _, (Option.some.inj hstep).symm⟩⟩

/-- A call that gets the lock keeps the indices in range. -/
theorem InRange.call [DecidableEq τ] {callable : τ → Bool} {l : PoolStep τ} (h : s.InRange)
    {task : τ} {index : ℕ} (hl : l = .addTask task index ∨ l = .addCallable task index)
    (hstep : s.next callable l = some s') : s'.InRange := by
  obtain ⟨hadder, rfl | ⟨task, index, slot, rfl⟩⟩ := next_call hl hstep
  · exact h
  · exact h.grow hadder

theorem InRange.next [DecidableEq τ] {callable : τ → Bool} {l : PoolStep τ} (h : s.InRange)
    (hstep : s.next callable l = some s') : s'.InRange := by
  cases l with
  | adder =>
    obtain ⟨_, hstep⟩ := Option.ite_none_left_eq_some.mp hstep
    exact h.adderStep hstep
  | worker slot =>
    obtain ⟨_, hstep⟩ := Option.ite_none_left_eq_some.mp hstep
    exact h.workerStep hstep
  | addTask task index => exact h.call (.inl rfl) hstep
  | addCallable task index => exact h.call (.inr rfl) hstep

end ThreadBindPool

/-- **Invariant:** the indices are in range, whatever the pool does. -/
theorem inRange_of_reachable {τ : Type} [DecidableEq τ] {callable : τ → Bool} {reserve : ℕ}
    {s : ThreadBindPool τ} (hs : (poolSystem callable reserve).Reachable s) : s.InRange := by
  refine TransitionSystem.Reachable.invariant ?_ (fun _ _ _ _ h hstep => h.next hstep) hs
  rintro _ rfl
  exact .new reserve

/-! ## The pool below -/

namespace WaitingPool

variable {τ : Type} [DecidableEq τ] {callable : τ → Bool} {s s' : WaitingPool τ}
  {l : WaitingStep τ} {slot : ℕ}

/-- **A step is one of the pool's**, or leaves it as it is. -/
theorem next_pool (hstep : s.next callable l = some s') :
    s'.pool = s.pool ∨ ∃ l', s.pool.next callable l' = some s'.pool := by
  obtain ⟨_, hstep⟩ := Option.ite_none_left_eq_some.mp hstep
  cases l with
  | addTask task index | addCallable task index =>
    obtain ⟨_, hstep⟩ := Option.ite_none_right_eq_some.mp hstep
    obtain ⟨pool, hpool, rfl⟩ := Option.map_eq_some_iff.mp hstep
    exact .inr ⟨_, hpool⟩
  | adder =>
    dsimp only [adderStep] at hstep
    split at hstep
    · obtain ⟨⟨y, pc⟩, _, hstep⟩ := Option.bind_eq_some_iff.mp hstep
      cases pc with
      | some pc =>
        cases hstep
        exact .inl rfl
      | none =>
        obtain ⟨pool, hpool, rfl⟩ := Option.map_eq_some_iff.mp hstep
        exact .inr ⟨_, hpool⟩
    · obtain ⟨pool, hpool, rfl⟩ := Option.map_eq_some_iff.mp hstep
      exact .inr ⟨_, hpool⟩
  | spinOnce | wake slot =>
    obtain ⟨_, hstep⟩ := Option.ite_none_right_eq_some.mp hstep
    cases hstep
    exact .inl rfl
  | spin =>
    dsimp only [spinStep] at hstep
    split at hstep
    · cases hstep
    · split at hstep <;> cases hstep <;> exact .inl rfl
    · cases hstep
      exact .inl rfl
    · cases hstep
      exact .inl rfl
    · obtain ⟨⟨y, pc⟩, _, rfl⟩ := Option.map_eq_some_iff.mp hstep
      exact .inl rfl
  | worker slot =>
    dsimp only [workerStep] at hstep
    split at hstep
    · cases hstep
      exact .inl rfl
    · obtain ⟨_, hstep⟩ := Option.ite_none_right_eq_some.mp hstep
      cases hstep
      exact .inl rfl
    · cases hstep
    · cases hstep
      exact .inl rfl
    · cases hstep
      exact .inl rfl
    · obtain ⟨pool, hpool, rfl⟩ := Option.map_eq_some_iff.mp hstep
      exact .inr ⟨_, hpool⟩
    · obtain ⟨pool, hpool, rfl⟩ := Option.map_eq_some_iff.mp hstep
      exact .inr ⟨_, hpool⟩

/-- **The pool with what it synchronises on refines the pool.** -/
theorem reachable_pool {reserve : ℕ} (hs : (waitingSystem callable reserve).Reachable s) :
    (poolSystem callable reserve).Reachable s.pool := by
  induction hs with
  | init hi =>
    cases hi
    exact .init rfl
  | step _ hstep ih =>
    rcases next_pool hstep with heq | ⟨l', hpool⟩
    · rw [heq]
      exact ih
    · exact .step ih hpool

end WaitingPool

/-! ## What holds of a worker that waits -/

/-- Where the thread is in `run_`, when it is so far in the block that
waits. -/
def WaitPc.At {τ : Type} : WaitPc → Option (RunPc τ) → Prop
  | .away, thread => ∀ pc, thread = some pc → ¬ pc.Waits
  | .announce, thread | .lock, thread | .blocked, thread => thread = some (.size .wait)
  | .holding, thread => ∃ pc, thread = some pc ∧ pc.Waits
  | .leave, thread | .unlock, thread => thread = some .top

/-- The thread of the worker has the mutex. -/
def WaitPc.Holds : WaitPc → Prop
  | .holding | .leave | .unlock => True
  | _ => False

namespace WorkerSync

variable {τ : Type} {y y' : WorkerSync} {w w' : Worker τ} {between between' : Prop}

/-- **What holds of a worker**: who is blocked has nothing in its queue, and a
tail which has been loaded with the mutex locked is the tail that there is,
unless something was put in and the worker is still to be notified. -/
structure Inv (y : WorkerSync) (w : Worker τ) (between : Prop) : Prop where
  place : y.wait.At w.thread
  mtx : y.mtx = some .worker ↔ y.wait.Holds
  blocked : y.wait = .blocked → w.tasks.head = w.tasks.tail ∨ between
  sized : ∀ t, w.thread = some (.sized .wait t) → t = w.tasks.tail ∨ between

theorem Inv.new : new.Inv (.new : Worker τ) between where
  place := nofun
  mtx := iff_of_false nofun id
  blocked := nofun
  sized := nofun

theorem Inv.imp (h : y.Inv w between) (himp : between → between') : y.Inv w between' where
  place := h.place
  mtx := h.mtx
  blocked hb := (h.blocked hb).imp_right himp
  sized t ht := (h.sized t ht).imp_right himp

/-- Another place with the thread at the same one of `run_`, where it is not
blocked. -/
theorem Inv.move (h : y.Inv w between) (hplace : y'.wait.At w.thread)
    (hmtx : y'.mtx = some .worker ↔ y'.wait.Holds) (hblocked : y'.wait ≠ .blocked) :
    y'.Inv w between where
  place := hplace
  mtx := hmtx
  blocked hb := absurd hb hblocked
  sized := h.sized

theorem Inv.notifyOne (h : y.Inv w between) : y.notifyOne.Inv w between := by
  unfold WorkerSync.notifyOne
  obtain ⟨hplace, hmtx, hblocked, hsized⟩ := h
  split
  · next hwait =>
    rw [hwait] at hplace hmtx
    exact ⟨hplace, hmtx, nofun, hsized⟩
  · exact ⟨hplace, hmtx, hblocked, hsized⟩

/-- **A notification**, with the mutex locked: the worker is not blocked
afterwards, and has not looked at its queue meanwhile. -/
theorem Inv.notified (h : y.Inv w between) (hmtx : y.mtx = some .caller) :
    y.notifyOne.Inv w between' := by
  have hnot : ¬ y.wait.Holds := fun hholds => by
    rw [h.mtx.mpr hholds] at hmtx
    cases hmtx
  have hsized : ∀ t, w.thread ≠ some (.sized .wait t) := by
    intro t ht
    have hplace := h.place
    rw [ht] at hplace
    cases hwait : y.wait with
    | away =>
      rw [hwait] at hplace
      exact hplace _ rfl trivial
    | holding =>
      rw [hwait] at hnot
      exact hnot trivial
    | _ =>
      rw [hwait] at hplace
      cases hplace
  obtain ⟨hplace, hholder, _, _⟩ := h.notifyOne
  refine ⟨hplace, hholder, fun hb => ?_, fun t ht => absurd ht (hsized t)⟩
  unfold WorkerSync.notifyOne at hb
  split at hb
  · cases hb
  · next hne => exact absurd hb hne

/-- **A step of somebody who wakes the worker**, who has the mutex from when
it is locked to when it is unlocked. -/
theorem Inv.wakeStep (h : y.Inv w between) {pc : WakePc} {pc' : Option WakePc}
    (hholds : pc ≠ .lock → y.mtx = some .caller) (hstep : y.wakeStep pc = some (y', pc')) :
    y'.Inv w between ∧ (pc = .notify → y'.Inv w False)
      ∧ (∀ p ∈ pc', p ≠ .lock ∧ y'.mtx = some .caller)
      ∧ (pc' = some .unlock ↔ pc = .notify) := by
  cases pc with
  | lock =>
    obtain ⟨hfree, heq⟩ := Option.ite_none_right_eq_some.mp hstep
    cases heq
    refine ⟨⟨h.place, ?_, h.blocked, h.sized⟩, nofun, ?_, by simp⟩
    · rw [← h.mtx, hfree]
      simp
    · rintro _ ⟨⟩
      exact ⟨nofun, rfl⟩
  | notify =>
    cases hstep
    have hmtx := hholds nofun
    refine ⟨h.notifyOne, fun _ => h.notified hmtx, ?_, by simp⟩
    rintro _ ⟨⟩
    refine ⟨nofun, ?_⟩
    unfold WorkerSync.notifyOne
    split <;> exact hmtx
  | unlock =>
    cases hstep
    refine ⟨⟨h.place, ?_, h.blocked, h.sized⟩, nofun, nofun, by simp⟩
    rw [← h.mtx, hholds nofun]
    simp

/-- A thread that goes on elsewhere in `run_` has nothing to do with the
mutex. -/
theorem follow_away (hwait : y.wait = .away) (thread : Option (RunPc τ)) {pc' : RunPc τ}
    (hpc' : ¬ pc'.Waits) : (y.follow thread (some pc')).wait = .away
      ∧ (y.follow thread (some pc')).mtx = y.mtx := by
  unfold follow
  split <;> simp_all [RunPc.Waits]

/-- **What a thread that goes on in `run_` keeps**: it is not about to block
unless its queue is empty, or it is to be notified. -/
theorem Inv.follow (h : y.Inv w between) (hwait : y.wait = .away ∨ y.wait = .holding)
    (hcap : w.tasks.capacity = 10) {p : ProducerPc (Option τ)} (hrange : w.tasks.InRange p)
    {callable : τ → Bool} {n : ℕ} {pc : RunPc τ} (hpc : w.thread = some pc)
    (hstep : w.GoesOn callable n pc w') : (y.follow w.thread w'.thread).Inv w' between := by
  have hplace := h.place
  rcases hwait with hwait | hwait
  · rw [hwait] at hplace
    have hmtx : y.mtx ≠ some .worker := by
      rw [ne_eq, h.mtx, hwait]
      exact id
    obtain ⟨pc', hpc', rfl | hnot⟩ := hstep.thread hpc (hplace pc hpc)
    · have hfollow : y.follow w.thread w'.thread = { y with wait := .announce } := by
        rw [hpc']
        unfold WorkerSync.follow
        rw [hwait]
      rw [hfollow]
      refine ⟨hpc', iff_of_false hmtx id, nofun, fun t ht => ?_⟩
      rw [hpc'] at ht
      cases ht
    · rw [hpc']
      obtain ⟨hwait', hmtx'⟩ := follow_away hwait w.thread hnot
      refine ⟨?_, ?_, fun hb => ?_, fun t ht => ?_⟩
      · rw [hwait', hpc']
        rintro _ ⟨⟩
        exact hnot
      · rw [hwait', hmtx']
        exact iff_of_false hmtx id
      · rw [hwait'] at hb
        cases hb
      · rw [hpc'] at ht
        cases ht
        exact absurd trivial hnot
  · rw [hwait] at hplace
    obtain ⟨_, hpc', hwaits⟩ := hplace
    cases hpc.symm.trans hpc'
    have hmtx : y.mtx = some .worker := h.mtx.mpr (by rw [hwait]; trivial)
    obtain ⟨task, rfl, _⟩ | hstep := hstep
    · exact absurd hwaits id
    cases pc with
    | size call =>
      cases call with
      | wait =>
        cases hstep
        have hfollow : y.follow w.thread (some (.sized .wait w.tasks.tail)) = y := by
          unfold WorkerSync.follow
          rw [hwait]
        rw [hfollow]
        refine ⟨?_, h.mtx, fun hb => ?_, ?_⟩
        · rw [hwait]
          exact ⟨_, rfl, trivial⟩
        · rw [hwait] at hb
          cases hb
        · rintro t ⟨⟩
          exact .inl rfl
      | _ => exact absurd hwaits id
    | sized call t =>
      cases call with
      | wait =>
        cases hstep
        by_cases hempty : LockFreeQueue.sizeOf w.tasks.capacity t w.tasks.head = some 0
        · -- it blocks
          have hfollow : y.follow w.thread (some (.size .wait))
              = { y with mtx := none, wait := .blocked } := by
            unfold WorkerSync.follow
            rw [hwait]
          simp only [if_pos hempty]
          rw [hfollow]
          refine ⟨rfl, iff_of_false nofun id, fun _ => ?_, nofun⟩
          rcases h.sized t hpc with rfl | hbetween
          · refine .inl ((LockFreeQueue.sizeOf_eq_zero hrange.tail_lt hrange.head_lt ?_).mp hempty)
            rw [hcap]
            decide
          · exact .inr hbetween
        · have hfollow : y.follow w.thread (some .top) = { y with wait := .leave } := by
            unfold WorkerSync.follow
            rw [hwait]
          simp only [if_neg hempty]
          rw [hfollow]
          exact ⟨rfl, iff_of_true hmtx trivial, nofun, nofun⟩
      | _ => exact absurd hwaits id
    | _ => exact absurd hwaits id

theorem follow_mtx (hwait : y.wait = .away) (thread thread' : Option (RunPc τ)) :
    (y.follow thread thread').mtx = y.mtx := by
  unfold follow
  split <;> simp_all

/-- **What is put in the queue** makes the worker one that is to be
notified. -/
theorem Inv.fill (h : y.Inv w between)
    (hthread : w'.thread = w.thread ∨ w.thread = none ∧ w'.thread = some .top)
    (hhead : w'.tasks.head = w.tasks.head) (htail : w'.tasks.tail = w.tasks.tail ∨ between')
    (himp : between → between') : y.Inv w' between' := by
  obtain ⟨hplace, hmtx, hblocked, hsized⟩ := h.imp himp
  refine ⟨?_, hmtx, fun hb => ?_, fun t ht => ?_⟩
  · rcases hthread with hthread | ⟨hnone, hthread⟩
    · rw [hthread]
      exact hplace
    · rw [hthread]
      rw [hnone] at hplace
      cases hwait : y.wait with
      | away =>
        rintro _ ⟨⟩
        exact id
      | holding =>
        rw [hwait] at hplace
        obtain ⟨_, hpc, _⟩ := hplace
        cases hpc
      | _ =>
        rw [hwait] at hplace
        cases hplace
  · rcases htail with htail | hbetween
    · rw [hhead, htail]
      exact hblocked hb
    · exact .inr hbetween
  · rcases htail with htail | hbetween
    · rw [htail]
      rcases hthread with hthread | ⟨_, hthread⟩
      · exact hsized t (hthread ▸ ht)
      · rw [hthread] at ht
        cases ht
    · exact .inr hbetween

end WorkerSync

namespace ThreadBindPool

variable {τ : Type} {s s' : ThreadBindPool τ}

/-- **A step of `add_task_to` puts something in** a queue only when it goes on
to `setIdx`. -/
theorem adderStep_queue (hstep : s.adderStep = some s') (i : ℕ) :
    (s'.workers i).tasks.head = (s.workers i).tasks.head
      ∧ ((s'.workers i).tasks.tail = (s.workers i).tasks.tail
        ∨ ∃ index, s'.adder = .setIdx index i) := by
  obtain hsame | ⟨task, index, slot, pc, pc', e, hadder, hpush, hother, hadder'⟩ :=
    adderStep_tasks hstep
  · rw [(hsame i).1]
    exact ⟨rfl, .inl rfl⟩
  · by_cases hi : i = slot
    · subst hi
      obtain ⟨hhead, htail⟩ := LockFreeQueue.producerStep_indices hpush
      refine ⟨hhead, ?_⟩
      rcases hadder' with ⟨_, rfl⟩ | ⟨hadder', _⟩
      · exact .inl (htail rfl)
      · exact .inr ⟨index, hadder'⟩
    · rw [hother i hi]
      exact ⟨rfl, .inl rfl⟩

end ThreadBindPool

namespace WaitingPool

variable {τ : Type} {s s' : WaitingPool τ} {slot : ℕ}

/-! ## The invariant -/

/-- Who wakes the worker has its mutex. -/
def Wakes (s : WaitingPool τ) (slot : ℕ) : Prop :=
  s.pool.adder = .notify slot ∧ s.wake ≠ .lock
    ∨ ∃ pc, s.spin = .wake slot pc ∧ pc ≠ .lock

/-- **The invariant**: what holds of each worker, that who wakes one has its
mutex, and that `add_task_to` and `spin_once` are not called at once. -/
structure Inv (s : WaitingPool τ) : Prop where
  worker : ∀ slot, (s.sync slot).Inv (s.pool.workers slot) (s.Between slot)
  caller : ∀ slot, s.Wakes slot → (s.sync slot).mtx = some .caller
  spin : s.spin ≠ .idle → s.pool.adder = .idle
  wake : (∀ slot, s.pool.adder ≠ .notify slot) → s.wake = .lock

theorem Inv.new (reserve : ℕ) : (new reserve : WaitingPool τ).Inv where
  worker _ := .new
  caller := by
    rintro slot (⟨hadder, _⟩ | ⟨pc, hspin, _⟩)
    · cases hadder
    · cases hspin
  spin h := absurd rfl h
  wake _ := rfl

theorem Inv.spin_idle (h : s.Inv) (hadder : s.pool.adder ≠ .idle) : s.spin = .idle := by
  by_contra hne
  exact hadder (h.spin hne)

/-- One worker synchronises on something else. -/
theorem Inv.setSync (h : s.Inv) {y : WorkerSync}
    (hy : y.Inv (s.pool.workers slot) (s.Between slot))
    (hmtx : (s.sync slot).mtx = some .caller → y.mtx = some .caller) : (s.setSync slot y).Inv := by
  refine ⟨fun i => ?_, fun i hi => ?_, h.spin, h.wake⟩
  · show (Function.update s.sync slot y i).Inv (s.pool.workers i) (s.Between i)
    by_cases heq : i = slot
    · subst heq
      rw [Function.update_self]
      exact hy
    · rw [Function.update_of_ne heq]
      exact h.worker i
  · have hcaller := h.caller i hi
    show (Function.update s.sync slot y i).mtx = _
    by_cases heq : i = slot
    · subst heq
      rw [Function.update_self]
      exact hmtx hcaller
    · rw [Function.update_of_ne heq]
      exact hcaller

/-! ## `add_task_to` -/

/-- A call goes on to where the worker is still to be notified. -/
theorem Between.adderStep (h : s.Between slot) (hwake : s.wake = .lock)
    {pool : ThreadBindPool τ} (hnot : ∀ slot, s.pool.adder ≠ .notify slot)
    (hstep : s.pool.adderStep = some pool) : ({ s with pool := pool }).Between slot := by
  unfold Between at h
  cases ThreadBindPool.move_of_adderStep hstep with
  | setIdx hadder =>
    rw [hadder] at h
    exact h
  | running hadder _ =>
    rw [hadder] at h
    exact ⟨h, by rw [hwake]; exact nofun⟩
  | restart hadder _ =>
    rw [hadder] at h
    exact h
  | start hadder _ =>
    rw [hadder] at h
    exact ⟨h, by rw [hwake]; exact nofun⟩
  | notify hadder => exact absurd hadder (hnot _)
  | grow hadder | call hadder | push hadder _ | pushed hadder _ =>
    rw [hadder] at h
    exact absurd h id

/-- **A step of `add_task_to`** before it wakes the worker. -/
theorem Inv.add (h : s.Inv) {pool : ThreadBindPool τ} (hnot : ∀ slot, s.pool.adder ≠ .notify slot)
    (hstep : s.pool.adderStep = some pool) : ({ s with pool := pool }).Inv := by
  have hwake := h.wake hnot
  have hspin : s.spin = .idle := by
    refine h.spin_idle fun hidle => ?_
    unfold ThreadBindPool.adderStep at hstep
    rw [hidle] at hstep
    cases hstep
  refine ⟨fun i => ?_, ?_, fun hne => absurd hspin hne, fun _ => hwake⟩
  · obtain ⟨hhead, htail⟩ := ThreadBindPool.adderStep_queue hstep i
    refine (h.worker i).fill (ThreadBindPool.adderStep_thread hstep i) hhead ?_
      fun hbetween => hbetween.adderStep hwake hnot hstep
    refine htail.imp_right fun ⟨index, hadder⟩ => ?_
    unfold Between
    dsimp only
    rw [hadder]
  · rintro i (⟨_, hne⟩ | ⟨pc, hpc, _⟩)
    · exact absurd hwake hne
    · cases hspin.symm.trans hpc

/-- **`add_task_to` wakes the worker.** -/
theorem Inv.wakeStep (h : s.Inv) (hadder : s.pool.adder = .notify slot) {y : WorkerSync}
    {pc : WakePc} (hstep : (s.sync slot).wakeStep s.wake = some (y, some pc)) :
    ({ s.setSync slot y with wake := pc }).Inv := by
  have hspin := h.spin_idle (by rw [hadder]; exact nofun)
  obtain ⟨hy, hnotified, hholds, hunlock⟩ :=
    (h.worker slot).wakeStep (fun hne => h.caller slot (.inl ⟨hadder, hne⟩)) hstep
  have hbetween : ∀ i, ({ s.setSync slot y with wake := pc }).Between i
      ↔ slot = i ∧ pc ≠ .unlock := by
    intro i
    simp [Between, WaitingPool.setSync, hadder]
  refine ⟨fun i => ?_, ?_, fun hne => absurd hspin hne, fun hnot => absurd hadder (hnot slot)⟩
  · show (Function.update s.sync slot y i).Inv (s.pool.workers i) _
    rw [hbetween i]
    by_cases heq : i = slot
    · subst heq
      rw [Function.update_self]
      by_cases hpc : pc = .unlock
      · exact (hnotified (hunlock.mp (congrArg some hpc))).imp False.elim
      · exact hy.imp fun _ => ⟨rfl, hpc⟩
    · rw [Function.update_of_ne heq]
      refine (h.worker i).imp fun hb => ?_
      unfold Between at hb
      rw [hadder] at hb
      exact absurd hb.1.symm heq
  · rintro i (⟨hadder', _⟩ | ⟨pc', hpc', _⟩)
    · cases hadder.symm.trans hadder'
      show (Function.update s.sync slot y slot).mtx = _
      rw [Function.update_self]
      exact (hholds pc rfl).2
    · cases hspin.symm.trans hpc'

/-- **It unlocks the mutex, and releases the lock.** -/
theorem Inv.woken (h : s.Inv) (hadder : s.pool.adder = .notify slot) {y : WorkerSync}
    (hstep : (s.sync slot).wakeStep s.wake = some (y, none)) {pool : ThreadBindPool τ}
    (hpool : s.pool.adderStep = some pool) :
    ({ s.setSync slot y with pool := pool, wake := .lock }).Inv := by
  have hspin := h.spin_idle (by rw [hadder]; exact nofun)
  have hunlock : s.wake = .unlock := by
    cases hwake : s.wake with
    | lock =>
      rw [hwake] at hstep
      obtain ⟨_, heq⟩ := Option.ite_none_right_eq_some.mp hstep
      cases heq
    | notify =>
      rw [hwake] at hstep
      cases hstep
    | unlock => rfl
  obtain ⟨hy, _⟩ :=
    (h.worker slot).wakeStep (fun hne => h.caller slot (.inl ⟨hadder, hne⟩)) hstep
  have hnot : ∀ i, ¬ s.Between i := by
    intro i hb
    unfold Between at hb
    rw [hadder] at hb
    exact hb.2 hunlock
  unfold ThreadBindPool.adderStep at hpool
  rw [hadder] at hpool
  cases hpool
  refine ⟨fun i => ?_, ?_, fun _ => rfl, fun _ => rfl⟩
  · show (Function.update s.sync slot y i).Inv (s.pool.workers i) _
    by_cases heq : i = slot
    · subst heq
      rw [Function.update_self]
      exact hy.imp fun hb => absurd hb (hnot i)
    · rw [Function.update_of_ne heq]
      exact (h.worker i).imp fun hb => absurd hb (hnot i)
  · rintro i (⟨_, hne⟩ | ⟨pc, hpc, _⟩)
    · exact absurd rfl hne
    · cases hspin.symm.trans hpc

theorem Inv.adderStep [DecidableEq τ] {callable : τ → Bool} (h : s.Inv)
    (hstep : s.adderStep callable = some s') : s'.Inv := by
  unfold WaitingPool.adderStep at hstep
  split at hstep
  · next slot hadder =>
    obtain ⟨⟨y, pc⟩, hwake, hstep⟩ := Option.bind_eq_some_iff.mp hstep
    cases pc with
    | some pc =>
      cases hstep
      exact h.wakeStep hadder hwake
    | none =>
      obtain ⟨pool, hpool, rfl⟩ := Option.map_eq_some_iff.mp hstep
      exact h.woken hadder hwake (Option.ite_none_left_eq_some.mp hpool).2
  · next hnot =>
    obtain ⟨pool, hpool, rfl⟩ := Option.map_eq_some_iff.mp hstep
    exact h.add hnot (Option.ite_none_left_eq_some.mp hpool).2

/-- **A call gets the lock.** -/
theorem Inv.call [DecidableEq τ] {callable : τ → Bool} {l : PoolStep τ} (h : s.Inv)
    {task : τ} {index : ℕ} (hl : l = .addTask task index ∨ l = .addCallable task index)
    (hspin : s.spin = .idle) {pool : ThreadBindPool τ}
    (hstep : s.pool.next callable l = some pool) : ({ s with pool := pool }).Inv := by
  obtain ⟨hadder, rfl | ⟨task, index, slot, rfl⟩⟩ := ThreadBindPool.next_call hl hstep
  · exact h
  · have hwake : s.wake = .lock := h.wake (by rw [hadder]; exact fun _ => nofun)
    refine ⟨fun i => (h.worker i).imp fun hb => ?_, ?_, fun hne => absurd hspin hne,
      fun _ => hwake⟩
    · unfold Between at hb
      rw [hadder] at hb
      exact absurd hb id
    · rintro i (⟨hadder', _⟩ | ⟨pc, hpc, _⟩)
      · cases hadder'
      · cases hspin.symm.trans hpc

/-! ## `spin_once` -/

/-- `spin_once` goes on to where it has no mutex. -/
theorem Inv.spinTo (h : s.Inv) (hadder : s.pool.adder = .idle) {pc : PoolSpinPc}
    (hpc : ∀ slot p, pc = .wake slot p → p = .lock) : ({ s with spin := pc }).Inv := by
  refine ⟨h.worker, ?_, fun _ => hadder, h.wake⟩
  rintro i (⟨hadder', _⟩ | ⟨p, hp, hne⟩)
  · cases hadder.symm.trans hadder'
  · exact absurd (hpc i p hp) hne

theorem Inv.spinStep (h : s.Inv) (hstep : s.spinStep = some s') : s'.Inv := by
  unfold WaitingPool.spinStep at hstep
  split at hstep
  · cases hstep
  · next slot hspin =>
    have hadder := h.spin (by rw [hspin]; exact nofun)
    split at hstep
    · cases hstep
      refine h.spinTo hadder ?_
      split <;> exact nofun
    · cases hstep
      exact h.spinTo hadder nofun
  · next slot hspin =>
    cases hstep
    exact h.spinTo (h.spin (by rw [hspin]; exact nofun)) nofun
  · next slot currentTail hspin =>
    cases hstep
    refine h.spinTo (h.spin (by rw [hspin]; exact nofun)) ?_
    split
    · exact nofun
    · rintro _ _ ⟨⟩
      rfl
  · next slot pc hspin =>
    have hadder := h.spin (by rw [hspin]; exact nofun)
    obtain ⟨⟨y, pc'⟩, hwake, rfl⟩ := Option.map_eq_some_iff.mp hstep
    obtain ⟨hy, _, hholds, _⟩ :=
      (h.worker slot).wakeStep (fun hne => h.caller slot (.inr ⟨pc, hspin, hne⟩)) hwake
    refine ⟨fun i => ?_, ?_, fun _ => hadder, h.wake⟩
    · show (Function.update s.sync slot y i).Inv (s.pool.workers i) (s.Between i)
      by_cases heq : i = slot
      · subst heq
        rw [Function.update_self]
        exact hy
      · rw [Function.update_of_ne heq]
        exact h.worker i
    · rintro i (⟨hadder', _⟩ | ⟨p, hp, _⟩)
      · cases hadder.symm.trans hadder'
      · cases pc' with
        | none => cases hp
        | some pc' =>
          obtain ⟨rfl, rfl⟩ : slot = i ∧ pc' = p := PoolSpinPc.wake.inj hp
          show (Function.update s.sync slot y slot).mtx = _
          rw [Function.update_self]
          exact (hholds pc' rfl).2

/-! ## The threads -/

/-- A thread that goes on in `run_`. -/
theorem Inv.goOn [DecidableEq τ] {callable : τ → Bool} (h : s.Inv) (hrange : s.pool.InRange)
    (hwait : (s.sync slot).wait = .away ∨ (s.sync slot).wait = .holding)
    {pool : ThreadBindPool τ} (hstep : s.pool.workerStep callable slot = some pool) :
    ({ s.setSync slot ((s.sync slot).follow (s.pool.workers slot).thread
      (pool.workers slot).thread) with pool := pool }).Inv := by
  obtain ⟨hadder, hother, pc, hpc, hgoes⟩ := ThreadBindPool.workerStep_cases hstep
  have hbetween : ∀ sync i, ({ s with sync := sync, pool := pool } : WaitingPool τ).Between i
      ↔ s.Between i := by
    intro sync i
    unfold Between
    dsimp only
    rw [hadder]
  refine ⟨fun i => ?_, fun i hi => ?_, fun hne => hadder.trans (h.spin hne), fun hnot => ?_⟩
  · show (Function.update s.sync slot _ i).Inv (pool.workers i) _
    refine WorkerSync.Inv.imp ?_ (hbetween _ i).mpr
    by_cases heq : i = slot
    · subst heq
      rw [Function.update_self]
      exact (h.worker i).follow hwait (hrange i).1 (hrange i).2 hpc hgoes
    · rw [Function.update_of_ne heq, hother i heq]
      exact h.worker i
  · have hi' : s.Wakes i := by
      unfold Wakes at hi ⊢
      dsimp only at hi
      rwa [hadder] at hi
    have hcaller := h.caller i hi'
    show (Function.update s.sync slot _ i).mtx = _
    by_cases heq : i = slot
    · subst heq
      rw [Function.update_self]
      rcases hwait with hwait | hwait
      · rw [WorkerSync.follow_mtx hwait]
        exact hcaller
      · have hworker := (h.worker i).mtx.mpr (by rw [hwait]; trivial)
        cases hcaller.symm.trans hworker
    · rw [Function.update_of_ne heq]
      exact hcaller
  · exact h.wake (hadder ▸ hnot)

theorem Inv.workerStep [DecidableEq τ] {callable : τ → Bool} (h : s.Inv) (hrange : s.pool.InRange)
    (hstep : s.workerStep callable slot = some s') : s'.Inv := by
  have hw := h.worker slot
  have hplace := hw.place
  have hmtx := hw.mtx
  unfold WaitingPool.workerStep at hstep
  dsimp only at hstep
  split at hstep
  · next hwait =>
    cases hstep
    rw [hwait] at hplace hmtx
    exact h.setSync (hw.move hplace hmtx nofun) id
  · next hwait =>
    obtain ⟨hfree, hstep⟩ := Option.ite_none_right_eq_some.mp hstep
    cases hstep
    rw [hwait] at hplace
    refine h.setSync (hw.move ⟨_, hplace, trivial⟩ (iff_of_true rfl trivial) nofun) ?_
    rw [hfree]
    exact nofun
  · cases hstep
  · next hwait =>
    cases hstep
    rw [hwait] at hplace hmtx
    exact h.setSync (hw.move hplace hmtx nofun) id
  · next hwait =>
    cases hstep
    rw [hwait] at hplace hmtx
    refine h.setSync (hw.move ?_ (iff_of_false nofun id) nofun) ?_
    · intro pc hpc
      cases hplace.symm.trans hpc
      exact id
    · rw [hmtx.mpr trivial]
      exact nofun
  · next hwait =>
    obtain ⟨pool, hpool, rfl⟩ := Option.map_eq_some_iff.mp hstep
    exact h.goOn hrange (.inl hwait) (Option.ite_none_left_eq_some.mp hpool).2
  · next hwait =>
    obtain ⟨pool, hpool, rfl⟩ := Option.map_eq_some_iff.mp hstep
    exact h.goOn hrange (.inr hwait) (Option.ite_none_left_eq_some.mp hpool).2

theorem Inv.next [DecidableEq τ] {callable : τ → Bool} {l : WaitingStep τ} (h : s.Inv)
    (hrange : s.pool.InRange) (hstep : s.next callable l = some s') : s'.Inv := by
  obtain ⟨_, hstep⟩ := Option.ite_none_left_eq_some.mp hstep
  cases l with
  | addTask task index =>
    obtain ⟨hspin, hstep⟩ := Option.ite_none_right_eq_some.mp hstep
    obtain ⟨pool, hpool, rfl⟩ := Option.map_eq_some_iff.mp hstep
    exact h.call (.inl rfl) hspin hpool
  | addCallable task index =>
    obtain ⟨hspin, hstep⟩ := Option.ite_none_right_eq_some.mp hstep
    obtain ⟨pool, hpool, rfl⟩ := Option.map_eq_some_iff.mp hstep
    exact h.call (.inr rfl) hspin hpool
  | adder => exact h.adderStep hstep
  | spinOnce =>
    obtain ⟨⟨hadder, _⟩, hstep⟩ := Option.ite_none_right_eq_some.mp hstep
    cases hstep
    exact h.spinTo hadder nofun
  | spin => exact h.spinStep hstep
  | worker slot => exact h.workerStep hrange hstep
  | wake slot =>
    obtain ⟨hwait, hstep⟩ := Option.ite_none_right_eq_some.mp hstep
    cases hstep
    refine h.setSync (h.worker slot).notifyOne fun hcaller => ?_
    unfold WorkerSync.notifyOne
    split <;> exact hcaller

end WaitingPool

open WaitingPool

section Runs

variable {τ : Type} [DecidableEq τ] {callable : τ → Bool} {reserve : ℕ} {s : WaitingPool τ}

/-- **Invariant:** it holds in every state that can be reached. -/
theorem WaitingPool.inv_of_reachable (hs : (waitingSystem callable reserve).Reachable s) :
    s.Inv := by
  refine TransitionSystem.Reachable.invariant ?_ (fun s l s' hr h hstep => ?_) hs
  · rintro _ rfl
    exact .new reserve
  · exact h.next (inRange_of_reachable (reachable_pool hr)) hstep

/-- **No wake-up is lost**: a worker that is blocked has nothing in its queue,
unless a call of `add_task_to` has put something in, and has not notified the
worker yet. -/
theorem WaitingPool.not_lost (hs : (waitingSystem callable reserve).Reachable s) (slot : ℕ) :
    ¬ (s.Blocked slot ∧ (s.pool.workers slot).tasks.content ≠ [] ∧ ¬ s.Between slot) := by
  rintro ⟨hblocked, hne, hnot⟩
  obtain ⟨_, hrange⟩ := inRange_of_reachable (reachable_pool hs) slot
  rcases ((inv_of_reachable hs).worker slot).blocked hblocked with heq | hbetween
  · exact hne (hrange.content_eq_nil.mpr heq)
  · exact hnot hbetween

/-- A worker has executed its first task and is blocked when a second one is put
in: its queue is not empty, and it is about to be notified. -/
theorem WaitingPool.not_lost_two : ∃ s : WaitingPool ℕ,
    (waitingSystem (fun _ => true) 1).Reachable s ∧ s.Blocked 0
      ∧ (s.pool.workers 0).tasks.content = [some 8] ∧ s.Between 0 := by
  have htrace : (TransitionSystem.trace (fun s => WaitingPool.next (fun _ => true) s) []
      (.new 1 : WaitingPool ℕ) (.addTask 7 0 :: List.replicate 10 .adder
        ++ List.replicate 18 (.worker 0) ++ .addTask 8 0 :: List.replicate 5 .adder)).map
        (fun e => ((e.2.sync 0).wait, (e.2.pool.workers 0).tasks.content))
      = some (.blocked, [some 8]) := by decide +kernel
  obtain ⟨tr, s, hr, heq⟩ := TransitionSystem.Run.exists_of_trace
    (S := waitingSystem (fun _ => true) 1) (fun _ _ _ h => h) rfl htrace
  obtain ⟨hblocked, hcontent⟩ := Prod.mk.inj heq
  refine ⟨s, hr.reachable, hblocked, hcontent, ?_⟩
  by_contra hnot
  refine not_lost hr.reachable 0 ⟨hblocked, ?_, hnot⟩
  rw [show (s.pool.workers 0).tasks.content = [some 8] from hcontent]
  exact List.cons_ne_nil _ _

end Runs
