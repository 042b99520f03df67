import CoinData.LockFreeQueue
import CoinData.Runs
import Mathlib.Data.List.ReduceOption

/-!
# A pool with a queue per worker

`ThreadBindPool::add_task_to` puts a task in the queue of the worker with
the given index, which is created if there is none yet, and starts the
worker's thread. It holds `worker_lock_` meanwhile, so that there is one
producer for a queue; the thread is the one consumer. Each step of
`push_back`, `pop_front` and `size` is one of the queue's
(`LockFreeQueue.producerStep`, `LockFreeQueue.consumerStep`), and the
threads take theirs in any order. A thread runs as long as the pool is
there, so that none ends here.

The queue of a worker has ten slots. What `push_back` returns is not looked
at, and neither is a task without a callable reported: `Accounted`, which
says where the tasks that were submitted are, holds as long as neither
occurs, and no longer.

The condition variable a thread waits on may wake it at any time, so being
notified is no step of its own. What is measured for the log (the time a
worker has been at work) is left out.
-/

/-- Which call of `size` a worker's thread is in. -/
inductive SizeCall where
  /-- The condition of the inner loop. -/
  | inner
  /-- The one after the loop. -/
  | outer
  /-- The predicate that is waited for. -/
  | wait
deriving DecidableEq, Repr

/-- Where the thread of a worker is in `run_`. -/
inductive RunPc (τ : Type) where
  /-- Next, `size_` is read. -/
  | top
  /-- Next, `size` loads the tail. -/
  | size (call : SizeCall)
  /-- Next, `size` loads the head. -/
  | sized (call : SizeCall) (currentTail : ℕ)
  | popFront (pc : ConsumerPc (Option τ))
  /-- `if(task && task->task)`. -/
  | check
  /-- Next, the callable is called. -/
  | invoke (task : τ)
  | executing (task : τ)
deriving DecidableEq, Repr

/-- **A worker**: its queue of pointers to tasks, its index, its thread and
this thread's `task`. What was submitted to it, and what it has executed, is
recorded in order. -/
structure Worker (τ : Type) where
  tasks : LockFreeQueue (Option τ)
  idx : Option ℕ
  isRunning : Bool
  thread : Option (RunPc τ)
  task : Option τ
  submitted : List τ
  executed : List τ

namespace Worker

variable {τ : Type}

/-- `Worker()`. -/
def new : Worker τ where
  tasks := .ofCapacity 10
  idx := none
  isRunning := true
  thread := none
  task := none
  submitted := []
  executed := []

/-- **A step of `run_`**, short of calling a task. -/
def runStep (callable : τ → Bool) (size_ : ℕ) (w : Worker τ) : RunPc τ → Option (Worker τ)
  | .top => some { w with thread := some (if size_ ≠ 0 then .size .inner else .size .outer) }
  | .size call => some { w with thread := some (.sized call w.tasks.tail) }
  | .sized call currentTail =>
    let empty := LockFreeQueue.sizeOf w.tasks.capacity currentTail w.tasks.head = some 0
    some { w with
      thread := some
        (match call with
        | .inner => if empty then .size .outer else .popFront .idle
        | .outer => if empty then .size .wait else .top
        | .wait => if empty then .size .wait else .top) }
  | .popFront .idle => some { w with thread := some (.popFront w.tasks.popFront) }
  | .popFront pc =>
    (w.tasks.consumerStep pc).map fun (tasks, pc, e) =>
      match e with
      | none => { w with tasks := tasks, thread := some (.popFront pc) }
      | some (.popped task) => { w with tasks := tasks, task := task, thread := some .check }
      | some _ => { w with tasks := tasks, thread := some .check }
  | .check =>
    match w.task with
    | none => some { w with thread := some (.size .inner) }
    | some task =>
      some { w with thread := some (if callable task then .invoke task else .size .inner) }
  | .executing task =>
    some { w with task := none, executed := w.executed ++ [task], thread := some (.size .inner) }
  | .invoke _ => none

/-- The pointers in the queue. -/
def waiting (w : Worker τ) : List τ := w.tasks.content.reduceOption

/-- What the thread has taken and not finished. -/
def current (w : Worker τ) : List τ :=
  match w.thread with
  | some .check => w.task.toList
  | some (.invoke task) | some (.executing task) => [task]
  | _ => []

end Worker

/-- Where the thread that holds `worker_lock_` is in `add_task_to`. -/
inductive AdderPc (τ : Type) where
  /-- Nobody holds the lock. -/
  | idle
  /-- The workers up to `slot` are made. -/
  | grow (task : τ) (index slot : ℕ)
  /-- `push_back` is called. -/
  | push (task : τ) (index slot : ℕ)
  | pushing (task : τ) (index slot : ℕ) (pc : ProducerPc (Option τ))
  /-- Next, the worker's index is set. -/
  | setIdx (index slot : ℕ)
  /-- Next, the thread is looked at. -/
  | start (slot : ℕ)
  /-- A thread that is not running is waited for, and made anew. -/
  | join (slot : ℕ)
  /-- The worker is woken, and the lock released. -/
  | notify (slot : ℕ)
deriving DecidableEq, Repr

/-- **The pool**: `reserve_`, `size_`, the workers, of which there are
`count`, and who adds a task. `invoked` are the callables that have been
called, `terminated` says that an exception has left a thread. -/
structure ThreadBindPool (τ : Type) where
  reserve : ℕ
  size : ℕ
  count : ℕ
  workers : ℕ → Worker τ
  adder : AdderPc τ
  invoked : List τ
  terminated : Bool

/-- Who takes a step. -/
inductive PoolStep (τ : Type) where
  /-- `add_task_to(task, index)` gets the lock. -/
  | addTask (task : τ) (index : ℕ)
  /-- `add_task_to(index, f, args...)` gets the lock; the task is the one made
  for the callable. -/
  | addCallable (task : τ) (index : ℕ)
  | adder
  | worker (slot : ℕ)
deriving DecidableEq, Repr

namespace ThreadBindPool

open BoundedFifo

variable {τ : Type}

/-- The constructor. -/
def new (reserve : ℕ) : ThreadBindPool τ where
  reserve := reserve
  size := 0
  count := 0
  workers _ := .new
  adder := .idle
  invoked := []
  terminated := false

/-- Change one worker. -/
def modify (s : ThreadBindPool τ) (slot : ℕ) (w : Worker τ) : ThreadBindPool τ :=
  { s with workers := Function.update s.workers slot w }

/-- The next step of `add_task_to`. What is pushed is submitted as soon as
`push_back` returns, whatever it returns. -/
def adderStep (s : ThreadBindPool τ) : Option (ThreadBindPool τ) :=
  match s.adder with
  | .idle => none
  | .grow task index slot =>
    let count := max s.count (slot + 1)
    some { s with count := count, size := count, adder := .push task index slot }
  | .push task index slot =>
    some { s with
      adder := .pushing task index slot ((s.workers slot).tasks.pushBack (some task)) }
  | .pushing task index slot pc =>
    let w := s.workers slot
    (w.tasks.producerStep pc).map fun (tasks, pc, e) =>
      match e with
      | none => { s.modify slot { w with tasks := tasks } with adder := .pushing task index slot pc }
      | some _ =>
        { s.modify slot { w with tasks := tasks, submitted := w.submitted ++ [task] } with
          adder := .setIdx index slot }
  | .setIdx index slot =>
    some { s.modify slot { s.workers slot with idx := some index } with adder := .start slot }
  | .start slot =>
    let w := s.workers slot
    match w.thread with
    | some _ =>
      if w.isRunning then some { s with adder := .notify slot }
      else some { s.modify slot { w with isRunning := true } with adder := .join slot }
    | none =>
      some { s.modify slot { w with isRunning := true, thread := some .top } with
        adder := .notify slot }
  -- no thread ends before the shutdown
  | .join _ => none
  | .notify _ => some { s with adder := .idle }

/-- The next step of a worker's thread. A callable which was called before
throws an exception that nothing catches. -/
def workerStep [DecidableEq τ] (callable : τ → Bool) (s : ThreadBindPool τ) (slot : ℕ) :
    Option (ThreadBindPool τ) :=
  match (s.workers slot).thread with
  | none => none
  | some (.invoke task) =>
    if task ∈ s.invoked then some { s with terminated := true }
    else some { s.modify slot { s.workers slot with thread := some (.executing task) } with
      invoked := task :: s.invoked }
  | some pc => ((s.workers slot).runStep callable s.size pc).map fun w => s.modify slot w

/-- Take a step, if it is possible. The first overload refuses an index
above `reserve_`; the second takes it modulo `reserve_`. -/
def next [DecidableEq τ] (callable : τ → Bool) (s : ThreadBindPool τ) :
    PoolStep τ → Option (ThreadBindPool τ)
  | .addTask task index =>
    if s.terminated ∨ s.adder ≠ .idle then none
    else if s.reserve < index then some s
    else some { s with adder := .grow task index index }
  | .addCallable task index =>
    if s.terminated ∨ s.adder ≠ .idle ∨ s.reserve = 0 ∨ callable task = false then none
    else some { s with adder := .grow task index (index % s.reserve) }
  | .adder => if s.terminated then none else s.adderStep
  | .worker slot => if s.terminated then none else s.workerStep callable slot

/-- **Every task submitted is in one place**: the ones of a worker, in the
order in which they were submitted, are those it has executed, the one it is
at, and those in its queue. -/
def Accounted (s : ThreadBindPool τ) : Prop :=
  ∀ slot, (s.workers slot).submitted =
    (s.workers slot).executed ++ (s.workers slot).current ++ (s.workers slot).waiting

/-- **No task is dropped**: there is room in the queue when `push_back` loads
the head, and what a thread has taken can be called. -/
def NotDropped (callable : τ → Bool) (s : ThreadBindPool τ) : PoolStep τ → Prop
  | .adder => ∀ task index slot value currentTail,
      s.adder = .pushing task index slot (.loadedTail value currentTail) →
        (s.workers slot).tasks.nextIndex currentTail ≠ (s.workers slot).tasks.head
  | .worker slot => (s.workers slot).thread = some .check →
      ∀ task, (s.workers slot).task = some task → callable task = true
  | _ => True

end ThreadBindPool

/-- **The system of a pool**: any sequence of calls, the threads of the
workers at any place. -/
def poolSystem {τ : Type} [DecidableEq τ] (callable : τ → Bool) (reserve : ℕ) :
    TransitionSystem (ThreadBindPool τ) (PoolStep τ) where
  init s := s = ThreadBindPool.new reserve
  step s l s' := s.next callable l = some s'

/-! ## What holds of a worker -/

/-- The places of `run_` at which the thread has no task and is in no
call of `pop_front`. -/
def RunPc.Quiet {τ : Type} : RunPc τ → Prop
  | .top | .size _ | .sized _ _ | .popFront .idle => True
  | _ => False

namespace Worker

open BoundedFifo LockFreeQueue

variable {τ : Type} {w w' : Worker τ} {p : ProducerPc (Option τ)} {pc pc' : RunPc τ}

/-- Where the worker's thread is as a consumer. -/
def consumer (w : Worker τ) : ConsumerPc (Option τ) :=
  match w.thread with
  | some (.popFront pc) => pc
  | _ => .idle

/-- The thread's `task` is null, except from when it is taken to when it is
finished. -/
def Released (w : Worker τ) : Prop :=
  match w.thread with
  | some .check | some (.invoke _) | some (.executing _) => True
  | _ => w.task = none

/-- **What holds of a worker** whose producer is at `p`: its queue holds what
was submitted and not taken yet. -/
structure Inv (w : Worker τ) (p : ProducerPc (Option τ)) : Prop where
  capacity_eq : w.tasks.capacity = 10
  queue : ∃ ts : List τ, w.tasks.Consistent (ts.map some) p w.consumer ∧
    w.submitted = w.executed ++ w.current ++ ts
  released : w.Released

theorem Inv.new : (new : Worker τ).Inv .idle where
  capacity_eq := rfl
  queue := ⟨[], ⟨⟨0, Holds.ofCapacity (by decide)⟩, trivial, trivial⟩, rfl⟩
  released := rfl

/-- **Where the tasks of a worker are.** -/
theorem Inv.submitted_eq (h : w.Inv p) :
    w.submitted = w.executed ++ w.current ++ w.waiting := by
  obtain ⟨ts, hts, hsubmitted⟩ := h.queue
  obtain ⟨k, hholds⟩ := hts.holds
  have hwaiting : w.waiting = ts := by
    unfold waiting List.reduceOption
    rw [hholds.content_eq, List.filterMap_map]
    exact List.filterMap_some
  rw [hwaiting]
  exact hsubmitted

/-- What the queue holds, once the thread is known. -/
theorem Inv.queue_at (h : w.Inv p) (hpc : w.thread = some pc) (c : ConsumerPc (Option τ))
    (cur : List τ) (hc : ({ w with thread := some pc }).consumer = c)
    (hcur : ({ w with thread := some pc }).current = cur) :
    ∃ ts : List τ, w.tasks.Consistent (ts.map some) p c ∧
      w.submitted = w.executed ++ cur ++ ts := by
  obtain ⟨ts, hts, hsubmitted⟩ := h.queue
  have hw : { w with thread := some pc } = w := by rw [← hpc]
  rw [hw] at hc hcur
  rw [hc] at hts
  rw [hcur] at hsubmitted
  exact ⟨ts, hts, hsubmitted⟩

theorem Inv.task_of_quiet (h : w.Inv p) (hpc : w.thread = some pc) (hq : pc.Quiet) :
    w.task = none := by
  have hreleased := h.released
  unfold Released at hreleased
  rw [hpc] at hreleased
  cases pc with
  | check => cases hq
  | invoke _ => cases hq
  | executing _ => cases hq
  | _ => exact hreleased

/-- From one quiet place to another. -/
theorem Inv.quiet (h : w.Inv p) (hpc : w.thread = some pc) (hq : pc.Quiet) (hq' : pc'.Quiet) :
    ({ w with thread := some pc' }).Inv p := by
  have hidle : ∀ {pc : RunPc τ}, pc.Quiet →
      ({ w with thread := some pc }).consumer = .idle ∧
        ({ w with thread := some pc }).current = [] := by
    intro pc hq
    cases pc with
    | popFront c => cases c <;> first | exact ⟨rfl, rfl⟩ | cases hq
    | check => cases hq
    | invoke _ => cases hq
    | executing _ => cases hq
    | _ => exact ⟨rfl, rfl⟩
  refine ⟨h.capacity_eq, ?_, ?_⟩
  · rw [(hidle hq').1, (hidle hq').2]
    exact h.queue_at hpc _ _ (hidle hq).1 (hidle hq).2
  · have htask := h.task_of_quiet hpc hq
    unfold Released
    cases pc' with
    | check => trivial
    | invoke _ => trivial
    | executing _ => trivial
    | _ => exact htask

/-- The worker after a step within `pop_front`. -/
def popped (w : Worker τ) :
    LockFreeQueue (Option τ) × ConsumerPc (Option τ) × Option (Event (Option τ)) → Worker τ
  | (tasks, pc, none) => { w with tasks := tasks, thread := some (.popFront pc) }
  | (tasks, _, some (.popped task)) =>
    { w with tasks := tasks, task := task, thread := some .check }
  | (tasks, _, some _) => { w with tasks := tasks, thread := some .check }

theorem runStep_popFront {c : ConsumerPc (Option τ)} (hc : c ≠ .idle) {callable : τ → Bool}
    {n : ℕ} : w.runStep callable n (.popFront c) = (w.tasks.consumerStep c).map w.popped := by
  have hpopped : w.runStep callable n (.popFront c) = (w.tasks.consumerStep c).map
      fun (tasks, pc, e) =>
        match e with
        | none => { w with tasks := tasks, thread := some (.popFront pc) }
        | some (.popped task) => { w with tasks := tasks, task := task, thread := some .check }
        | some _ => { w with tasks := tasks, thread := some .check } := by
    cases c with
    | idle => exact absurd rfl hc
    | loadedHead _ => rfl
    | occupied _ => rfl
    | read _ _ => rfl
  rw [hpopped]
  refine congrArg (fun f => (w.tasks.consumerStep c).map f) (funext fun ⟨tasks, pc, e⟩ => ?_)
  cases e with
  | none => rfl
  | some e => cases e <;> rfl

/-- A step within `pop_front`. -/
theorem Inv.popFront (h : w.Inv p) {c : ConsumerPc (Option τ)}
    (hpc : w.thread = some (.popFront c)) (hc : c ≠ .idle) {callable : τ → Bool} {n : ℕ}
    (hstep : w.runStep callable n (.popFront c) = some w') : w'.Inv p := by
  obtain ⟨ts, hts, hsubmitted⟩ := h.queue_at hpc c [] rfl rfl
  have hreleased : w.task = none := by
    have hreleased := h.released
    unfold Released at hreleased
    rw [hpc] at hreleased
    exact hreleased
  rw [runStep_popFront hc] at hstep
  obtain ⟨⟨tasks, c', e⟩, hconsumer, rfl⟩ := Option.map_eq_some_iff.mp hstep
  have hcap := (consumerStep_capacity hconsumer).trans h.capacity_eq
  obtain ⟨q, hmoves, hq⟩ := hts.consumerStep hconsumer
  cases e with
  | none =>
    cases hmoves
    exact ⟨hcap, ⟨ts, hq, hsubmitted⟩, hreleased⟩
  | some e =>
    obtain ⟨rfl, rfl | ⟨v, rfl⟩⟩ := consumerStep_event hconsumer
    · generalize hm : ts.map some = m at hmoves
      cases hmoves
      cases List.map_eq_nil_iff.mp hm
      refine ⟨hcap, ⟨[], hq, ?_⟩, trivial⟩
      show w.submitted = w.executed ++ w.task.toList ++ []
      rw [hreleased]
      exact hsubmitted
    · -- what was taken is the first of the queue, and a task
      generalize hm : ts.map some = m at hmoves
      cases hmoves
      obtain ⟨t, ts', rfl, rfl, rfl⟩ := List.map_eq_cons_iff.mp hm
      refine ⟨hcap, ⟨ts', hq, ?_⟩, trivial⟩
      show w.submitted = w.executed ++ [t] ++ ts'
      rw [hsubmitted, List.append_nil, List.append_assoc]
      rfl

/-- **A step of the thread keeps the tasks of its worker**, if what it has
taken can be called. -/
theorem Inv.runStep (h : w.Inv p) (hpc : w.thread = some pc) {callable : τ → Bool} {n : ℕ}
    (hcall : pc = .check → ∀ task, w.task = some task → callable task = true)
    (hstep : w.runStep callable n pc = some w') : w'.Inv p := by
  cases pc with
  | top =>
    cases hstep
    refine h.quiet hpc trivial ?_
    split <;> trivial
  | size call =>
    cases hstep
    exact h.quiet hpc trivial trivial
  | sized call currentTail =>
    cases hstep
    refine h.quiet hpc trivial ?_
    cases call <;> dsimp only <;> split <;> trivial
  | popFront c =>
    by_cases hc : c = .idle
    · subst hc
      cases hstep
      obtain ⟨ts, hts, hsubmitted⟩ := h.queue_at hpc .idle [] rfl rfl
      exact ⟨h.capacity_eq, ⟨ts, hts.popFront, hsubmitted⟩, h.task_of_quiet hpc trivial⟩
    · exact h.popFront hpc hc hstep
  | check =>
    obtain ⟨ts, hts, hsubmitted⟩ := h.queue_at hpc .idle w.task.toList rfl rfl
    unfold Worker.runStep at hstep
    cases htask : w.task with
    | none =>
      rw [htask] at hstep hsubmitted
      cases hstep
      exact ⟨h.capacity_eq, ⟨ts, hts, hsubmitted⟩, rfl⟩
    | some task =>
      rw [htask] at hstep hsubmitted
      dsimp only at hstep
      rw [if_pos (hcall rfl task htask)] at hstep
      cases hstep
      exact ⟨h.capacity_eq, ⟨ts, hts, hsubmitted⟩, trivial⟩
  | invoke task => cases hstep
  | executing task =>
    obtain ⟨ts, hts, hsubmitted⟩ := h.queue_at hpc .idle [task] rfl rfl
    cases hstep
    refine ⟨h.capacity_eq, ⟨ts, hts, ?_⟩, rfl⟩
    show w.submitted = w.executed ++ [task] ++ [] ++ ts
    rw [hsubmitted, List.append_nil]

theorem Inv.pushBack (h : w.Inv .idle) (value : Option τ) :
    w.Inv (w.tasks.pushBack value) := by
  obtain ⟨ts, hts, hsubmitted⟩ := h.queue
  exact ⟨h.capacity_eq, ⟨ts, hts.pushBack value, hsubmitted⟩, h.released⟩

/-- Calling the task is no change of place. -/
theorem Inv.invoke (h : w.Inv p) {task : τ} (hpc : w.thread = some (.invoke task)) :
    ({ w with thread := some (.executing task) }).Inv p :=
  ⟨h.capacity_eq, h.queue_at hpc .idle [task] rfl rfl, trivial⟩

/-- A thread that is started has taken nothing yet. -/
theorem Inv.start (h : w.Inv p) (hpc : w.thread = none) :
    ({ w with isRunning := true, thread := some .top }).Inv p := by
  obtain ⟨ts, hts, hsubmitted⟩ := h.queue
  have hreleased := h.released
  unfold consumer at hts
  unfold current at hsubmitted
  unfold Released at hreleased
  rw [hpc] at hts hsubmitted hreleased
  exact ⟨h.capacity_eq, ⟨ts, hts, hsubmitted⟩, hreleased⟩

/-- **A step of `push_back`**: what is submitted is put in, if there is
room. -/
theorem Inv.push (h : w.Inv p) {p' : ProducerPc (Option τ)} {task : τ}
    {tasks : LockFreeQueue (Option τ)} {e : Option (Event (Option τ))}
    (hvalue : p.value = some (some task))
    (hroom : ∀ v t, p = .loadedTail v t → w.tasks.nextIndex t ≠ w.tasks.head)
    (hstep : w.tasks.producerStep p = some (tasks, p', e)) :
    e = none ∧ ({ w with tasks := tasks }).Inv p' ∨
      e = some (.pushed (some task)) ∧
        ({ w with tasks := tasks, submitted := w.submitted ++ [task] }).Inv .idle := by
  obtain ⟨ts, hts, hsubmitted⟩ := h.queue
  have hcap := (producerStep_capacity hstep).trans h.capacity_eq
  obtain ⟨q, hmoves, hq⟩ := hts.producerStep hstep
  cases move_of_producerStep hstep with
  -- refused is only who finds no room
  | full hfull => exact absurd hfull (hroom _ _ rfl)
  | room _ =>
    cases hmoves
    exact .inl ⟨rfl, hcap, ⟨ts, hq, hsubmitted⟩, h.released⟩
  | write _ _ _ =>
    cases hmoves
    exact .inl ⟨rfl, hcap, ⟨ts, hq, hsubmitted⟩, h.released⟩
  | store _ _ =>
    cases hvalue
    generalize hm : ts.map some = m at hmoves
    cases hmoves
    refine .inr ⟨rfl, hcap, ⟨ts ++ [task], ?_, ?_⟩, h.released⟩
    · rw [List.map_append, hm]
      exact hq
    · show w.submitted ++ [task] = w.executed ++ w.current ++ (ts ++ [task])
      rw [hsubmitted, List.append_assoc _ ts]

end Worker

namespace ThreadBindPool

open BoundedFifo LockFreeQueue

variable {τ : Type} {s s' : ThreadBindPool τ} {slot : ℕ} {w : Worker τ}

/-! ## What holds of the pool -/

/-- Where the producer of a worker's queue is. -/
def producer (s : ThreadBindPool τ) (slot : ℕ) : ProducerPc (Option τ) :=
  match s.adder with
  | .pushing _ _ slot' pc => if slot' = slot then pc else .idle
  | _ => .idle

/-- **The invariant**: what holds of each worker, and that what is pushed is
the task. -/
structure Inv (s : ThreadBindPool τ) : Prop where
  worker : ∀ slot, (s.workers slot).Inv (s.producer slot)
  value : ∀ task index slot pc, s.adder = .pushing task index slot pc →
    pc.value = some (some task)

theorem Inv.new (reserve : ℕ) : (new reserve : ThreadBindPool τ).Inv where
  worker _ := Worker.Inv.new
  value _ _ _ _ h := by cases h

theorem Inv.accounted (h : s.Inv) : s.Accounted := fun slot => (h.worker slot).submitted_eq

/-- Nobody pushes, before and after, and the workers stay. -/
theorem Inv.of_workers_eq (h : s.Inv) (hworkers : s'.workers = s.workers)
    (hp : ∀ slot, s.producer slot = .idle) (hp' : ∀ slot, s'.producer slot = .idle)
    (hvalue : ∀ task index slot pc, s'.adder ≠ .pushing task index slot pc) : s'.Inv := by
  refine ⟨fun slot => ?_, fun task index slot pc hpc => absurd hpc (hvalue task index slot pc)⟩
  rw [hworkers, hp', ← hp slot]
  exact h.worker slot

/-- One worker is changed. -/
theorem Inv.modify (h : s.Inv) (slot : ℕ)
    (hworkers : s'.workers = Function.update s.workers slot w)
    (hw : w.Inv (s'.producer slot)) (hother : ∀ i ≠ slot, s'.producer i = s.producer i)
    (hvalue : ∀ task index i pc, s'.adder = .pushing task index i pc →
      pc.value = some (some task)) : s'.Inv := by
  refine ⟨fun i => ?_, hvalue⟩
  rw [hworkers]
  by_cases hi : i = slot
  · subst hi
    rw [Function.update_self]
    exact hw
  · rw [Function.update_of_ne hi, hother i hi]
    exact h.worker i

theorem producer_idle (h : ∀ task index slot pc, s.adder ≠ .pushing task index slot pc)
    (slot : ℕ) : s.producer slot = .idle := by
  unfold producer
  split
  · rename_i heq
    exact absurd heq (h _ _ _ _)
  · rfl

/-- **What a step of `add_task_to` does.** -/
inductive AdderMove (s : ThreadBindPool τ) : ThreadBindPool τ → Prop
  | grow {task : τ} {index slot : ℕ} : s.adder = .grow task index slot →
      AdderMove s { s with
        count := max s.count (slot + 1)
        size := max s.count (slot + 1)
        adder := .push task index slot }
  | call {task : τ} {index slot : ℕ} : s.adder = .push task index slot →
      AdderMove s { s with
        adder := .pushing task index slot ((s.workers slot).tasks.pushBack (some task)) }
  /-- `push_back` goes on. -/
  | push {task : τ} {index slot : ℕ} {pc pc' : ProducerPc (Option τ)}
      {tasks : LockFreeQueue (Option τ)} : s.adder = .pushing task index slot pc →
      (s.workers slot).tasks.producerStep pc = some (tasks, pc', none) →
      AdderMove s { s.modify slot { s.workers slot with tasks := tasks } with
        adder := .pushing task index slot pc' }
  /-- `push_back` returns. -/
  | pushed {task : τ} {index slot : ℕ} {pc pc' : ProducerPc (Option τ)}
      {tasks : LockFreeQueue (Option τ)} {e : Event (Option τ)} :
      s.adder = .pushing task index slot pc →
      (s.workers slot).tasks.producerStep pc = some (tasks, pc', some e) →
      AdderMove s { s.modify slot { s.workers slot with
        tasks := tasks
        submitted := (s.workers slot).submitted ++ [task] } with
          adder := .setIdx index slot }
  | setIdx {index slot : ℕ} : s.adder = .setIdx index slot →
      AdderMove s { s.modify slot { s.workers slot with idx := some index } with
        adder := .start slot }
  | running {slot : ℕ} {pc : RunPc τ} : s.adder = .start slot →
      (s.workers slot).thread = some pc → AdderMove s { s with adder := .notify slot }
  | restart {slot : ℕ} {pc : RunPc τ} : s.adder = .start slot →
      (s.workers slot).thread = some pc →
      AdderMove s { s.modify slot { s.workers slot with isRunning := true } with
        adder := .join slot }
  | start {slot : ℕ} : s.adder = .start slot → (s.workers slot).thread = none →
      AdderMove s { s.modify slot { s.workers slot with
        isRunning := true
        thread := some .top } with adder := .notify slot }
  | notify {slot : ℕ} : s.adder = .notify slot → AdderMove s { s with adder := .idle }

theorem move_of_adderStep (hstep : s.adderStep = some s') : s.AdderMove s' := by
  unfold ThreadBindPool.adderStep at hstep
  cases hadder : s.adder with
  | idle =>
    rw [hadder] at hstep
    cases hstep
  | grow task index slot =>
    rw [hadder] at hstep
    cases hstep
    exact .grow hadder
  | push task index slot =>
    rw [hadder] at hstep
    cases hstep
    exact .call hadder
  | pushing task index slot pc =>
    rw [hadder] at hstep
    obtain ⟨⟨tasks, pc', e⟩, hpush, rfl⟩ := Option.map_eq_some_iff.mp hstep
    cases e with
    | none => exact .push hadder hpush
    | some e => exact .pushed hadder hpush
  | setIdx index slot =>
    rw [hadder] at hstep
    cases hstep
    exact .setIdx hadder
  | start slot =>
    rw [hadder] at hstep
    dsimp only at hstep
    split at hstep
    · next pc hthread =>
      split at hstep <;> cases hstep
      · exact .running hadder hthread
      · exact .restart hadder hthread
    · next hthread =>
      cases hstep
      exact .start hadder hthread
  | join slot =>
    rw [hadder] at hstep
    cases hstep
  | notify slot =>
    rw [hadder] at hstep
    cases hstep
    exact .notify hadder

theorem producer_of_pushing {task : τ} {index : ℕ} {pc : ProducerPc (Option τ)}
    (h : s.adder = .pushing task index slot pc) (i : ℕ) :
    s.producer i = if slot = i then pc else .idle := by
  unfold producer
  rw [h]

/-- One worker is changed, and nobody pushes. -/
theorem Inv.modify_idle (h : s.Inv) (slot : ℕ)
    (hadder : ∀ task index slot pc, s.adder ≠ .pushing task index slot pc)
    (hworkers : s'.workers = Function.update s.workers slot w)
    (hw : (s.workers slot).Inv .idle → w.Inv .idle)
    (hadder' : ∀ task index slot pc, s'.adder ≠ .pushing task index slot pc) : s'.Inv := by
  have hidle := producer_idle hadder
  have hidle' := producer_idle hadder'
  refine h.modify slot hworkers ?_ (fun i _ => (hidle' i).trans (hidle i).symm)
    fun task index i pc hpc => absurd hpc (hadder' task index i pc)
  rw [hidle']
  exact hw (hidle slot ▸ h.worker slot)

/-- **A step of `add_task_to` keeps the tasks**, if there is room for the
one that is pushed. -/
theorem Inv.adderStep (h : s.Inv)
    (hroom : ∀ task index slot value currentTail,
      s.adder = .pushing task index slot (.loadedTail value currentTail) →
        (s.workers slot).tasks.nextIndex currentTail ≠ (s.workers slot).tasks.head)
    (hstep : s.adderStep = some s') : s'.Inv := by
  -- what a step of `push_back` makes of the worker
  have hpushed : ∀ {task index slot pc tasks pc' e}, s.adder = .pushing task index slot pc →
      (s.workers slot).tasks.producerStep pc = some (tasks, pc', e) →
      e = none ∧ ({ s.workers slot with tasks := tasks }).Inv pc' ∨
        e = some (.pushed (some task)) ∧ ({ s.workers slot with
          tasks := tasks, submitted := (s.workers slot).submitted ++ [task] }).Inv .idle := by
    intro task index slot pc tasks pc' e hadder hpush
    have hw := h.worker slot
    rw [producer_of_pushing hadder, if_pos rfl] at hw
    exact hw.push (h.value _ _ _ _ hadder)
      (fun v t hp => hroom task index slot v t (by rw [hadder, hp])) hpush
  cases move_of_adderStep hstep with
  | grow hadder =>
    exact h.of_workers_eq rfl (producer_idle (by simp [hadder])) (producer_idle (by simp))
      (by simp)
  | @call task index slot hadder =>
    have hidle := producer_idle (s := s) (by simp [hadder])
    refine h.modify slot (w := s.workers slot) (Function.update_eq_self _ _).symm ?_ ?_ ?_
    · have hw := h.worker slot
      rw [hidle slot] at hw
      rw [producer_of_pushing rfl, if_pos rfl]
      exact hw.pushBack (some task)
    · intro i hi
      rw [producer_of_pushing rfl, if_neg (Ne.symm hi), hidle i]
    · intro _ _ _ _ hpc
      cases hpc
      rfl
  | @push task index slot pc pc' tasks hadder hpush =>
    obtain ⟨_, hw⟩ | ⟨hnone, _⟩ := hpushed hadder hpush
    · refine h.modify slot (w := { s.workers slot with tasks := tasks }) rfl ?_ ?_ ?_
      · rw [producer_of_pushing rfl, if_pos rfl]
        exact hw
      · intro i hi
        rw [producer_of_pushing rfl, producer_of_pushing hadder, if_neg (Ne.symm hi),
          if_neg (Ne.symm hi)]
      · intro _ _ _ _ hpc
        cases hpc
        rw [producerStep_value hpush]
        exact h.value _ _ _ _ hadder
    · cases hnone
  | @pushed task index slot pc pc' tasks e hadder hpush =>
    obtain ⟨hsome, _⟩ | ⟨_, hw⟩ := hpushed hadder hpush
    · cases hsome
    · refine h.modify slot rfl hw (fun i hi => ?_) (by simp)
      rw [producer_of_pushing hadder, if_neg (Ne.symm hi)]
      exact producer_idle (by simp) i
  | setIdx hadder =>
    exact h.modify_idle _ (by simp [hadder]) rfl
      (fun hw => ⟨hw.capacity_eq, hw.queue, hw.released⟩) (by simp)
  | running hadder _ =>
    exact h.of_workers_eq rfl (producer_idle (by simp [hadder])) (producer_idle (by simp))
      (by simp)
  | restart hadder _ =>
    exact h.modify_idle _ (by simp [hadder]) rfl
      (fun hw => ⟨hw.capacity_eq, hw.queue, hw.released⟩) (by simp)
  | start hadder hthread =>
    exact h.modify_idle _ (by simp [hadder]) rfl (fun hw => hw.start hthread) (by simp)
  | notify hadder =>
    exact h.of_workers_eq rfl (producer_idle (by simp [hadder])) (producer_idle (by simp))
      (by simp)

variable [DecidableEq τ] {callable : τ → Bool} {l : PoolStep τ}

/-- **A step of a worker's thread keeps the tasks**, if what it has taken
can be called. -/
theorem Inv.workerStep (h : s.Inv)
    (hcall : (s.workers slot).thread = some .check →
      ∀ task, (s.workers slot).task = some task → callable task = true)
    (hstep : s.workerStep callable slot = some s') : s'.Inv := by
  have hw := h.worker slot
  unfold ThreadBindPool.workerStep at hstep
  split at hstep
  · cases hstep
  · rename_i task hpc
    split at hstep <;> cases hstep
    · exact ⟨h.worker, h.value⟩
    · exact h.modify slot rfl (hw.invoke hpc) (fun _ _ => rfl) h.value
  · rename_i pc _ hpc
    obtain ⟨w', hrun, rfl⟩ := Option.map_eq_some_iff.mp hstep
    refine h.modify slot rfl ?_ (fun _ _ => rfl) h.value
    exact hw.runStep hpc (fun hcheck => hcall (by rw [hpc, hcheck])) hrun

theorem Inv.next (h : s.Inv) (hl : s.NotDropped callable l)
    (hstep : s.next callable l = some s') : s'.Inv := by
  cases l with
  | addTask task index =>
    simp only [ThreadBindPool.next] at hstep
    split at hstep
    · cases hstep
    · rename_i hfree
      have hadder : s.adder = .idle := by
        by_contra hne
        exact hfree (.inr hne)
      split at hstep <;> cases hstep
      · exact h
      · exact h.of_workers_eq rfl (producer_idle (by simp [hadder])) (producer_idle (by simp))
          (by simp)
  | addCallable task index =>
    simp only [ThreadBindPool.next] at hstep
    split at hstep
    · cases hstep
    · rename_i hfree
      have hadder : s.adder = .idle := by
        by_contra hne
        exact hfree (.inr (.inl hne))
      cases hstep
      exact h.of_workers_eq rfl (producer_idle (by simp [hadder])) (producer_idle (by simp))
        (by simp)
  | adder =>
    simp only [ThreadBindPool.next] at hstep
    split at hstep
    · cases hstep
    · exact h.adderStep hl hstep
  | worker slot =>
    simp only [ThreadBindPool.next] at hstep
    split at hstep
    · cases hstep
    · exact h.workerStep hl hstep

/-- **A task that is dropped is nowhere.** -/
theorem not_accounted_of_dropped (h : s.Accounted) (hstep : s.next callable l = some s')
    (hl : ¬ s.NotDropped callable l) : ¬ s'.Accounted := by
  cases l with
  | addTask task index => exact absurd trivial hl
  | addCallable task index => exact absurd trivial hl
  | adder =>
    simp only [NotDropped, not_forall, not_not] at hl
    obtain ⟨task, index, slot, value, currentTail, hadder, hfull⟩ := hl
    simp only [ThreadBindPool.next, ThreadBindPool.adderStep, hadder] at hstep
    split at hstep
    · cases hstep
    · simp only [producerStep, if_pos hfull, Option.map_some, Option.some.injEq] at hstep
      subst hstep
      intro h'
      have hslot := h slot
      have hslot' := h' slot
      simp only [ThreadBindPool.modify, Function.update_self] at hslot'
      have hsame : (s.workers slot).submitted ++ [task] = (s.workers slot).submitted :=
        hslot'.trans hslot.symm
      exact List.cons_ne_nil task [] (List.append_right_eq_self.mp hsame)
  | worker slot =>
    simp only [NotDropped, Classical.not_imp, not_forall] at hl
    obtain ⟨hpc, task, htask, hcall⟩ := hl
    simp only [ThreadBindPool.next, ThreadBindPool.workerStep, hpc, Worker.runStep, htask,
      if_neg hcall, Option.map_some] at hstep
    split at hstep
    · cases hstep
    · cases hstep
      intro h'
      have hslot := h slot
      have hslot' := h' slot
      simp only [ThreadBindPool.modify, Function.update_self] at hslot'
      have hcurrent : (s.workers slot).current = [task] := by
        unfold Worker.current
        rw [hpc]
        show (s.workers slot).task.toList = [task]
        rw [htask]
        rfl
      have hsame : (s.workers slot).executed ++ [task] ++ (s.workers slot).waiting =
          (s.workers slot).executed ++ [] ++ (s.workers slot).waiting := by
        rw [← hcurrent, ← hslot]
        exact hslot'
      have hlen := congrArg List.length (List.append_cancel_right hsame)
      simp at hlen

end ThreadBindPool

open ThreadBindPool

/-- **Every submitted task is waiting, being executed, or executed, each
once and in order, throughout a run, exactly if none is dropped.** -/
theorem poolSystem_accounted_iff {τ : Type} [DecidableEq τ] {callable : τ → Bool} {reserve : ℕ}
    {tr : List (ThreadBindPool τ × PoolStep τ)} {s : ThreadBindPool τ}
    (hr : (poolSystem callable reserve).Run tr s) :
    TransitionSystem.Throughout Accounted tr s ↔
      TransitionSystem.Met (NotDropped callable) tr := by
  refine hr.forall_iff (J := Inv) ?_ ?_ ?_
  · rintro s rfl
    exact ⟨(Inv.new reserve).accounted, .new reserve⟩
  · intro s l s' _ hJ hstep hl
    have hJ' := hJ.next hl hstep
    exact ⟨hJ'.accounted, hJ'⟩
  · intro s l s' hP _ hstep hl
    exact not_accounted_of_dropped hP hstep hl

/-- Two tasks are added, by one overload each, and the first is executed
meanwhile. -/
theorem poolSystem_accounted_iff_two :
    ∃ tr s, (poolSystem (fun _ : ℕ => true) 6).Run tr s ∧
      (s.workers 0).submitted = [1, 2] ∧ (s.workers 0).executed = [1] ∧
      (TransitionSystem.Throughout Accounted tr s ↔
        TransitionSystem.Met (NotDropped fun _ => true) tr) := by
  have hrun : (TransitionSystem.trace (next fun _ => true) []
      (ThreadBindPool.new 6 : ThreadBindPool ℕ)
      (List.flatten [[.addTask 1 0], List.replicate 8 .adder, [.addCallable 2 12],
        List.replicate 11 (.worker 0), List.replicate 8 .adder])).map
        (fun r => ((r.2.workers 0).submitted, (r.2.workers 0).executed)) = some ([1, 2], [1]) := by
    decide +kernel
  obtain ⟨tr, s, hr, hs⟩ :=
    TransitionSystem.Run.exists_of_trace (S := poolSystem (fun _ : ℕ => true) 6) (fun _ _ _ h => h) rfl hrun
  obtain ⟨hsubmitted, hexecuted⟩ := Prod.mk.inj hs
  exact ⟨tr, s, hr, hsubmitted, hexecuted, poolSystem_accounted_iff hr⟩

/-- **The tenth task that waits is lost**: nine fill the queue before the
thread of the worker takes a step. -/
theorem poolSystem_not_accounted :
    ¬ ∀ (callable : ℕ → Bool) (reserve : ℕ) (tr : List (ThreadBindPool ℕ × PoolStep ℕ))
      (s : ThreadBindPool ℕ), (poolSystem callable reserve).Run tr s →
        TransitionSystem.Throughout Accounted tr s := by
  intro h
  have hrun : (TransitionSystem.trace (next fun _ => true) []
      (ThreadBindPool.new 6 : ThreadBindPool ℕ)
      (List.flatten [(List.range 9).flatMap fun task => .addTask task 0 :: List.replicate 8 .adder,
        [.addTask 9 0, .adder, .adder, .adder]])).map
        (fun r => ((r.2.workers 0).submitted,
          (r.2.workers 0).executed ++ (r.2.workers 0).current ++ (r.2.workers 0).waiting)) =
      some (List.range 10, List.range 9) := by
    decide +kernel
  obtain ⟨tr, s, hr, hs⟩ :=
    TransitionSystem.Run.exists_of_trace (S := poolSystem (fun _ : ℕ => true) 6) (fun _ _ _ h => h) rfl hrun
  obtain ⟨hsubmitted, hplaces⟩ := Prod.mk.inj hs
  have haccounted := (h _ _ tr s hr).1 0
  rw [hsubmitted, hplaces] at haccounted
  cases haccounted
