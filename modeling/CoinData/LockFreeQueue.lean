import CoinData.BoundedFifo
import CoinData.Runs
import Mathlib.Data.Nat.ModEq
import Mathlib.Logic.Function.Basic
import Mathlib.Tactic.Linarith

/-!
# The lock-free queue

`LockFreeQueue` is a circle of `capacity` slots with two indices: the
producer stores the tail, the consumer the head, and each loads the index
of the other. One slot always stays free, for otherwise a full queue would
have the indices of an empty one.

An index may be stored by its owner between the two loads of the other
side, so each load, slot access and store is a step here. What the calls
have done is recorded as a log of events, and what the queue promises is
that a queue of `capacity - 1` places can have produced this log.

`size` computes the distance of the indices in `int`, where the capacity
is added before the remainder is taken.
-/

/-- `LockFreeQueue<T>`. -/
structure LockFreeQueue (α : Type) where
  buffer : ℕ → α
  capacity : ℕ
  head : ℕ
  tail : ℕ

/-- Where the producer is in `push_back`. -/
inductive ProducerPc (α : Type) where
  | idle
  /-- Next, the head is loaded. -/
  | loadedTail (value : α) (currentTail : ℕ)
  /-- There is room: next, the slot is written. -/
  | room (value : α) (currentTail nextTail : ℕ)
  /-- Next, the tail is stored. -/
  | written (value : α) (nextTail : ℕ)
deriving DecidableEq, Repr

/-- The value that a producer is pushing. -/
def ProducerPc.value {α : Type} : ProducerPc α → Option α
  | .idle => none
  | .loadedTail value _ | .room value _ _ | .written value _ => some value

/-- Where the consumer is in `pop_front`. -/
inductive ConsumerPc (α : Type) where
  | idle
  /-- Next, the tail is loaded. -/
  | loadedHead (currentHead : ℕ)
  /-- There is an element: next, the slot is read. -/
  | occupied (currentHead : ℕ)
  /-- Next, the head is stored. -/
  | read (value : α) (currentHead : ℕ)
deriving DecidableEq, Repr

namespace LockFreeQueue

open BoundedFifo

variable {α ι : Type}

/-- The constructor: every slot has the default value. -/
def ofCapacity [Inhabited α] (capacity : ℕ) : LockFreeQueue α :=
  ⟨fun _ => default, capacity, 0, 0⟩

/-- The index after `i`. -/
def nextIndex (queue : LockFreeQueue α) (i : ℕ) : ℕ := (i + 1) % queue.capacity

/-- `push_back` up to the load of the tail. -/
def pushBack (queue : LockFreeQueue α) (value : α) : ProducerPc α :=
  .loadedTail value queue.tail

/-- **A step of `push_back`**, and what it shows. -/
def producerStep (queue : LockFreeQueue α) :
    ProducerPc α → Option (LockFreeQueue α × ProducerPc α × Option (Event α))
  | .idle => none
  | .loadedTail value currentTail =>
    let nextTail := queue.nextIndex currentTail
    if nextTail = queue.head then some (queue, .idle, some .refused)
    else some (queue, .room value currentTail nextTail, none)
  | .room value currentTail nextTail =>
    some ({ queue with buffer := Function.update queue.buffer currentTail value },
      .written value nextTail, none)
  | .written value nextTail => some ({ queue with tail := nextTail }, .idle, some (.pushed value))

/-- `pop_front` up to the load of the head. -/
def popFront (queue : LockFreeQueue α) : ConsumerPc α := .loadedHead queue.head

/-- **A step of `pop_front`**, and what it shows. -/
def consumerStep (queue : LockFreeQueue α) :
    ConsumerPc α → Option (LockFreeQueue α × ConsumerPc α × Option (Event α))
  | .idle => none
  | .loadedHead currentHead =>
    if currentHead = queue.tail then some (queue, .idle, some .empty)
    else some (queue, .occupied currentHead, none)
  | .occupied currentHead => some (queue, .read (queue.buffer currentHead) currentHead, none)
  | .read value currentHead =>
    some ({ queue with head := queue.nextIndex currentHead }, .idle, some (.popped value))

/-- What the slots from the head to the tail hold. -/
def content (queue : LockFreeQueue α) : List α :=
  (List.range ((queue.tail + queue.capacity - queue.head) % queue.capacity)).map fun i =>
    queue.buffer ((queue.head + i) % queue.capacity)

/-- What `size` returns, once it has loaded both indices. A sum which is no
`int` has no value. -/
def sizeOf (capacity currentTail currentHead : ℕ) : Option ℤ :=
  let sum : ℤ := currentTail - currentHead + capacity
  if sum < 2 ^ 31 then some (sum.tmod capacity) else none

end LockFreeQueue

/-- **A queue and its users**: the producer, the consumer, and any number
of threads in `size`, each with the tail it has loaded. The log and the
returned sizes are recorded, latest first. -/
structure QueueState (α ι : Type) where
  queue : LockFreeQueue α
  producer : ProducerPc α
  consumer : ConsumerPc α
  callers : ι → Option ℕ
  log : List (BoundedFifo.Event α)
  sizes : List (Option ℤ)

/-- Who takes a step. -/
inductive QueueStep (α ι : Type) where
  /-- The producer calls `push_back`, and loads the tail. -/
  | pushBack (value : α)
  | producer
  /-- The consumer calls `pop_front`, and loads the head. -/
  | popFront
  | consumer
  /-- A thread calls `size`, and loads the tail. -/
  | size (caller : ι)
  /-- It loads the head, and `size` returns. -/
  | caller (caller : ι)
deriving DecidableEq, Repr

namespace QueueState

open BoundedFifo LockFreeQueue

variable {α ι : Type}

/-- Take a step, if it is possible. -/
def next [DecidableEq ι] (s : QueueState α ι) : QueueStep α ι → Option (QueueState α ι)
  | .pushBack value =>
    match s.producer with
    | .idle => some { s with producer := s.queue.pushBack value }
    | _ => none
  | .producer =>
    (s.queue.producerStep s.producer).map fun (queue, producer, e) =>
      { s with queue := queue, producer := producer, log := e.toList ++ s.log }
  | .popFront =>
    match s.consumer with
    | .idle => some { s with consumer := s.queue.popFront }
    | _ => none
  | .consumer =>
    (s.queue.consumerStep s.consumer).map fun (queue, consumer, e) =>
      { s with queue := queue, consumer := consumer, log := e.toList ++ s.log }
  | .size c =>
    match s.callers c with
    | none => some { s with callers := Function.update s.callers c (some s.queue.tail) }
    | some _ => none
  | .caller c =>
    (s.callers c).map fun currentTail =>
      { s with
        callers := Function.update s.callers c none
        sizes := LockFreeQueue.sizeOf s.queue.capacity currentTail s.queue.head :: s.sizes }

/-- A new queue, which nobody uses. -/
def new [Inhabited α] (capacity : ℕ) : QueueState α ι where
  queue := .ofCapacity capacity
  producer := .idle
  consumer := .idle
  callers _ := none
  log := []
  sizes := []

/-- **A bounded queue of `capacity - 1` elements**: its log is one of such
a queue, so that a push is refused only if the queue was full when the head
was loaded, and a pop finds nothing only if there was nothing when the tail
was loaded; what came out is the first of what went in; and no size is out
of range. -/
structure Correct (capacity : ℕ) (s : QueueState α ι) : Prop where
  fifo : ∃ q, Accepts (capacity - 1) s.log q
  inOrder : popped s.log <+: pushed s.log
  size : ∀ r ∈ s.sizes, ∃ k : ℕ, r = some (k : ℤ) ∧ k ≤ capacity - 1

/-- **`size` does not overflow** when it returns. -/
def NoOverflow (s : QueueState α ι) : QueueStep α ι → Prop
  | .caller c => ∀ currentTail, s.callers c = some currentTail →
      currentTail + s.queue.capacity < 2 ^ 31 + s.queue.head
  | _ => True

end QueueState

/-- **The system of a queue**: the steps of the producer, the consumer and
the callers of `size` in any order. -/
def queueSystem (α ι : Type) [Inhabited α] [DecidableEq ι] (capacity : ℕ) :
    TransitionSystem (QueueState α ι) (QueueStep α ι) where
  init s := s = QueueState.new capacity
  step s l s' := s.next l = some s'

namespace LockFreeQueue

open BoundedFifo

variable {α : Type} {queue queue' : LockFreeQueue α} {q : List α} {k : ℕ} {v : α}

/-! ## What the slots hold -/

/-- **The queue holds `q`**, and `k` elements were there before. -/
structure Holds (queue : LockFreeQueue α) (k : ℕ) (q : List α) : Prop where
  head_eq : queue.head = k % queue.capacity
  tail_eq : queue.tail = (k + q.length) % queue.capacity
  length_lt : q.length < queue.capacity
  element : ∀ i v, q[i]? = some v → queue.buffer ((k + i) % queue.capacity) = v

namespace Holds

theorem ofCapacity [Inhabited α] {capacity : ℕ} (hcap : 1 ≤ capacity) :
    (LockFreeQueue.ofCapacity capacity : LockFreeQueue α).Holds 0 [] where
  head_eq := (Nat.zero_mod capacity).symm
  tail_eq := (Nat.zero_mod capacity).symm
  length_lt := hcap
  element i v hv := by
    rw [List.getElem?_nil] at hv
    cases hv

theorem tail_lt (h : queue.Holds k q) : queue.tail < queue.capacity := by
  rw [h.tail_eq]
  exact Nat.mod_lt _ (Nat.zero_lt_of_lt h.length_lt)

theorem head_lt (h : queue.Holds k q) : queue.head < queue.capacity := by
  rw [h.head_eq]
  exact Nat.mod_lt _ (Nat.zero_lt_of_lt h.length_lt)

theorem nextIndex_tail (h : queue.Holds k q) :
    queue.nextIndex queue.tail = (k + (q.length + 1)) % queue.capacity := by
  unfold nextIndex
  rw [h.tail_eq, Nat.mod_add_mod, Nat.add_assoc]

/-- **The index after the tail is the head exactly if all slots but one are
in use.** -/
theorem full_iff (h : queue.Holds k q) :
    queue.nextIndex queue.tail = queue.head ↔ q.length + 1 = queue.capacity := by
  rw [h.nextIndex_tail, h.head_eq]
  have hlt := h.length_lt
  refine ⟨fun hmod => ?_, fun hlen => by rw [hlen, Nat.add_mod_right]⟩
  by_contra hne
  exact Nat.mod_ne_of_lt_add (n := queue.capacity) (i := k) (j := k + (q.length + 1)) (by omega)
    (by omega) hmod.symm

/-- **The indices are the same exactly if there is nothing.** -/
theorem empty_iff (h : queue.Holds k q) : queue.head = queue.tail ↔ q = [] := by
  have hlt := h.length_lt
  rw [h.head_eq, h.tail_eq, Nat.mod_eq_iff_of_lt_add (by omega) (by omega),
    ← List.length_eq_zero_iff]
  omega

/-- **What is held is what the slots between the indices hold.** -/
theorem content_eq (h : queue.Holds k q) : queue.content = q := by
  have hlt := h.length_lt
  have hhead := h.head_lt
  have hdiff : (queue.tail + queue.capacity - queue.head) % queue.capacity = q.length := by
    have hcongr : queue.tail + queue.capacity - queue.head ≡ q.length [MOD queue.capacity] := by
      refine Nat.ModEq.add_right_cancel' queue.head ?_
      rw [Nat.sub_add_cancel (by omega)]
      unfold Nat.ModEq
      rw [Nat.add_mod_right, h.tail_eq, h.head_eq, Nat.mod_mod, Nat.add_mod_mod, Nat.add_comm]
    rw [hcongr, Nat.mod_eq_of_lt hlt]
  unfold content
  rw [hdiff]
  refine List.ext_getElem? fun i => ?_
  by_cases hi : i < q.length
  · have hv : q[i]? = some q[i] := List.getElem?_eq_getElem hi
    rw [List.getElem?_map, List.getElem?_range hi, hv, ← h.element i _ hv, h.head_eq]
    show some (queue.buffer ((k % queue.capacity + i) % queue.capacity)) = _
    rw [Nat.mod_add_mod]
  · rw [List.getElem?_eq_none (not_lt.mp hi), List.getElem?_eq_none]
    rw [List.length_map, List.length_range]
    exact not_lt.mp hi

/-- Writing the slot at the tail touches no element. -/
theorem write_tail (h : queue.Holds k q) (v : α) :
    ({ queue with buffer := Function.update queue.buffer queue.tail v }).Holds k q := by
  refine ⟨h.head_eq, h.tail_eq, h.length_lt, fun i w hw => ?_⟩
  have hi : i < q.length := (List.getElem?_eq_some_iff.mp hw).1
  have hlt := h.length_lt
  have hne : (k + i) % queue.capacity ≠ queue.tail := by
    rw [h.tail_eq]
    exact Nat.mod_ne_of_lt_add (by omega) (by omega)
  show Function.update queue.buffer queue.tail v ((k + i) % queue.capacity) = w
  rw [Function.update_of_ne hne]
  exact h.element i w hw

/-- **Storing the tail puts the element at the tail in.** -/
theorem store_tail (h : queue.Holds k q) (hroom : q.length + 1 < queue.capacity)
    (hv : queue.buffer queue.tail = v) :
    ({ queue with tail := queue.nextIndex queue.tail }).Holds k (q ++ [v]) := by
  refine ⟨h.head_eq, ?_, ?_, fun i w hw => ?_⟩
  · rw [List.length_append]
    exact h.nextIndex_tail
  · rw [List.length_append]
    exact hroom
  · rw [List.getElem?_append] at hw
    split at hw
    · exact h.element i w hw
    · rename_i hi
      obtain ⟨hlt, hvw⟩ := List.getElem?_eq_some_iff.mp hw
      have hi' : i = q.length := by
        rw [List.length_singleton] at hlt
        omega
      subst hi'
      rw [List.getElem_singleton] at hvw
      show queue.buffer ((k + q.length) % queue.capacity) = w
      rw [← h.tail_eq, hv, hvw]

/-- The slot at the head holds the first element. -/
theorem front (h : queue.Holds k (v :: q)) : queue.buffer queue.head = v := by
  rw [h.head_eq]
  exact h.element 0 v rfl

/-- **Storing the head takes the first element out.** -/
theorem store_head (h : queue.Holds k (v :: q)) :
    ({ queue with head := queue.nextIndex queue.head }).Holds (k + 1) q := by
  have hlt := h.length_lt
  rw [List.length_cons] at hlt
  refine ⟨?_, ?_, Nat.lt_of_succ_lt hlt, fun i w hw => ?_⟩
  · show (queue.head + 1) % queue.capacity = (k + 1) % queue.capacity
    rw [h.head_eq, Nat.mod_add_mod]
  · have htail := h.tail_eq
    rw [List.length_cons] at htail
    show queue.tail = (k + 1 + q.length) % queue.capacity
    rw [htail, Nat.add_right_comm, Nat.add_assoc]
  · have helement := h.element (i + 1) w hw
    show queue.buffer ((k + 1 + i) % queue.capacity) = w
    rw [Nat.add_right_comm, Nat.add_assoc]
    exact helement

end Holds

/-! ## The steps -/

/-- **What a step of `push_back` does.** -/
inductive ProducerMove (queue : LockFreeQueue α) : ProducerPc α → LockFreeQueue α →
    ProducerPc α → Option (Event α) → Prop
  | full {value : α} {currentTail : ℕ} : queue.nextIndex currentTail = queue.head →
      ProducerMove queue (.loadedTail value currentTail) queue .idle (some .refused)
  | room {value : α} {currentTail : ℕ} : queue.nextIndex currentTail ≠ queue.head →
      ProducerMove queue (.loadedTail value currentTail) queue
        (.room value currentTail (queue.nextIndex currentTail)) none
  | write (value : α) (currentTail nextTail : ℕ) :
      ProducerMove queue (.room value currentTail nextTail)
        { queue with buffer := Function.update queue.buffer currentTail value }
        (.written value nextTail) none
  | store (value : α) (nextTail : ℕ) :
      ProducerMove queue (.written value nextTail) { queue with tail := nextTail } .idle
        (some (.pushed value))

/-- **What a step of `pop_front` does.** -/
inductive ConsumerMove (queue : LockFreeQueue α) : ConsumerPc α → LockFreeQueue α →
    ConsumerPc α → Option (Event α) → Prop
  | empty {currentHead : ℕ} : currentHead = queue.tail →
      ConsumerMove queue (.loadedHead currentHead) queue .idle (some .empty)
  | occupied {currentHead : ℕ} : currentHead ≠ queue.tail →
      ConsumerMove queue (.loadedHead currentHead) queue (.occupied currentHead) none
  | read (currentHead : ℕ) : ConsumerMove queue (.occupied currentHead) queue
      (.read (queue.buffer currentHead) currentHead) none
  | store (value : α) (currentHead : ℕ) : ConsumerMove queue (.read value currentHead)
      { queue with head := queue.nextIndex currentHead } .idle (some (.popped value))

/-- What the producer knows of a queue that holds `q`. -/
def ProducerAt (queue : LockFreeQueue α) (q : List α) : ProducerPc α → Prop
  | .idle => True
  | .loadedTail _ currentTail => currentTail = queue.tail
  | .room _ currentTail nextTail =>
    currentTail = queue.tail ∧ nextTail = queue.nextIndex queue.tail ∧
      q.length + 1 < queue.capacity
  | .written value nextTail =>
    queue.buffer queue.tail = value ∧ nextTail = queue.nextIndex queue.tail ∧
      q.length + 1 < queue.capacity

/-- What the consumer knows of a queue that holds `q`. -/
def ConsumerAt (queue : LockFreeQueue α) (q : List α) : ConsumerPc α → Prop
  | .idle => True
  | .loadedHead currentHead => currentHead = queue.head
  | .occupied currentHead => currentHead = queue.head ∧ q ≠ []
  | .read value currentHead => currentHead = queue.head ∧ ∃ q', q = value :: q'

/-- **The queue holds `q`, and both sides know what they rely on.** -/
structure Consistent (queue : LockFreeQueue α) (q : List α) (p : ProducerPc α)
    (c : ConsumerPc α) : Prop where
  holds : ∃ k, queue.Holds k q
  producer : queue.ProducerAt q p
  consumer : queue.ConsumerAt q c

variable {p p' : ProducerPc α} {c c' : ConsumerPc α} {e : Option (Event α)}

theorem move_of_producerStep (hstep : queue.producerStep p = some (queue', p', e)) :
    queue.ProducerMove p queue' p' e := by
  cases p with
  | idle => cases hstep
  | loadedTail value currentTail =>
    unfold producerStep at hstep
    dsimp only at hstep
    split at hstep
    · next hfull =>
      cases hstep
      exact .full hfull
    · next hroom =>
      cases hstep
      exact .room hroom
  | room value currentTail nextTail =>
    cases hstep
    exact .write value currentTail nextTail
  | written value nextTail =>
    cases hstep
    exact .store value nextTail

theorem move_of_consumerStep (hstep : queue.consumerStep c = some (queue', c', e)) :
    queue.ConsumerMove c queue' c' e := by
  cases c with
  | idle => cases hstep
  | loadedHead currentHead =>
    unfold consumerStep at hstep
    dsimp only at hstep
    split at hstep
    · next hempty =>
      cases hstep
      exact .empty hempty
    · next hsome =>
      cases hstep
      exact .occupied hsome
  | occupied currentHead =>
    cases hstep
    exact .read currentHead
  | read value currentHead =>
    cases hstep
    exact .store value currentHead

/-- The producer loses nothing if an element is taken out. -/
theorem ProducerAt.pop {i : ℕ} (h : queue.ProducerAt (v :: q) p) :
    ({ queue with head := i }).ProducerAt q p := by
  cases p with
  | idle => trivial
  | loadedTail _ _ => exact h
  | room _ _ _ => exact ⟨h.1, h.2.1, Nat.lt_of_succ_lt h.2.2⟩
  | written _ _ => exact ⟨h.1, h.2.1, Nat.lt_of_succ_lt h.2.2⟩

/-- The consumer loses nothing if an element is put in. -/
theorem ConsumerAt.push {i : ℕ} (h : queue.ConsumerAt q c) :
    ({ queue with tail := i }).ConsumerAt (q ++ [v]) c := by
  cases c with
  | idle => trivial
  | loadedHead _ => exact h
  | occupied _ => exact ⟨h.1, List.append_ne_nil_of_left_ne_nil h.2 [v]⟩
  | read _ _ =>
    obtain ⟨hhead, q', hq⟩ := h
    exact ⟨hhead, q' ++ [v], by rw [hq]; rfl⟩

/-- What the consumer knows is not about the slots. -/
theorem ConsumerAt.write {buffer : ℕ → α} (h : queue.ConsumerAt q c) :
    ({ queue with buffer := buffer }).ConsumerAt q c := by
  cases c <;> exact h

theorem Consistent.pushBack (h : queue.Consistent q .idle c) (value : α) :
    queue.Consistent q (queue.pushBack value) c :=
  ⟨h.holds, rfl, h.consumer⟩

theorem Consistent.popFront (h : queue.Consistent q p .idle) :
    queue.Consistent q p queue.popFront :=
  ⟨h.holds, h.producer, rfl⟩

/-- **A step of the producer** is one of a queue of `capacity - 1` places,
or does not show. -/
theorem Consistent.producerStep (h : queue.Consistent q p c)
    (hstep : queue.producerStep p = some (queue', p', e)) :
    ∃ q', Moves (queue.capacity - 1) q e q' ∧ queue'.Consistent q' p' c := by
  obtain ⟨k, hholds⟩ := h.holds
  have hp := h.producer
  cases move_of_producerStep hstep with
  | full hfull =>
    rw [show _ = queue.tail from hp] at hfull
    have hlen := hholds.full_iff.mp hfull
    refine ⟨q, .refused ?_, ⟨⟨k, hholds⟩, trivial, h.consumer⟩⟩
    omega
  | @room value currentTail hroom =>
    obtain rfl : currentTail = queue.tail := hp
    refine ⟨q, rfl, ⟨⟨k, hholds⟩, ⟨rfl, rfl, ?_⟩, h.consumer⟩⟩
    exact Nat.lt_of_le_of_ne hholds.length_lt fun hlen => hroom (hholds.full_iff.mpr hlen)
  | write value currentTail nextTail =>
    obtain ⟨rfl, hnext, hroom⟩ := hp
    refine ⟨q, rfl, ⟨⟨k, hholds.write_tail value⟩, ⟨?_, hnext, hroom⟩, h.consumer.write⟩⟩
    exact Function.update_self _ _ _
  | store value nextTail =>
    obtain ⟨hvalue, rfl, hroom⟩ := hp
    refine ⟨q ++ [value], .pushed value ?_,
      ⟨⟨k, hholds.store_tail hroom hvalue⟩, trivial, h.consumer.push⟩⟩
    omega

/-- **A step of the consumer** is one of a queue of `capacity - 1` places,
or does not show. -/
theorem Consistent.consumerStep (h : queue.Consistent q p c)
    (hstep : queue.consumerStep c = some (queue', c', e)) :
    ∃ q', Moves (queue.capacity - 1) q e q' ∧ queue'.Consistent q' p c' := by
  obtain ⟨k, hholds⟩ := h.holds
  have hc := h.consumer
  cases move_of_consumerStep hstep with
  | empty hempty =>
    rw [show _ = queue.head from hc] at hempty
    have hq := hholds.empty_iff.mp hempty
    subst hq
    exact ⟨[], .empty, ⟨⟨k, hholds⟩, h.producer, trivial⟩⟩
  | @occupied currentHead hsome =>
    obtain rfl : currentHead = queue.head := hc
    refine ⟨q, rfl, ⟨⟨k, hholds⟩, h.producer, ⟨rfl, ?_⟩⟩⟩
    exact fun hq => hsome (hholds.empty_iff.mpr hq)
  | read currentHead =>
    obtain ⟨rfl, hne⟩ := hc
    refine ⟨q, rfl, ⟨⟨k, hholds⟩, h.producer, ⟨rfl, ?_⟩⟩⟩
    obtain ⟨v, q', hq⟩ := List.exists_cons_of_ne_nil hne
    rw [hq] at hholds
    exact ⟨q', by rw [hholds.front, hq]⟩
  | store value currentHead =>
    obtain ⟨rfl, q', rfl⟩ := hc
    exact ⟨q', .popped value, ⟨⟨k + 1, hholds.store_head⟩, h.producer.pop, trivial⟩⟩

theorem producerStep_capacity (hstep : queue.producerStep p = some (queue', p', e)) :
    queue'.capacity = queue.capacity := by
  cases move_of_producerStep hstep <;> rfl

theorem consumerStep_capacity (hstep : queue.consumerStep c = some (queue', c', e)) :
    queue'.capacity = queue.capacity := by
  cases move_of_consumerStep hstep <;> rfl

/-- The value stays the same during a call. -/
theorem producerStep_value (hstep : queue.producerStep p = some (queue', p', none)) :
    p'.value = p.value := by
  cases move_of_producerStep hstep <;> rfl

/-- It is the one that is put in, unless the queue is full. -/
theorem producerStep_event {e : Event α}
    (hstep : queue.producerStep p = some (queue', p', some e)) :
    p' = .idle ∧ (e = .refused ∨ ∃ v, p.value = some v ∧ e = .pushed v) := by
  cases move_of_producerStep hstep with
  | full _ => exact ⟨rfl, .inl rfl⟩
  | store value _ => exact ⟨rfl, .inr ⟨value, rfl, rfl⟩⟩

/-- The ways a call of the consumer ends. -/
theorem consumerStep_event {e : Event α}
    (hstep : queue.consumerStep c = some (queue', c', some e)) :
    c' = .idle ∧ (e = .empty ∨ ∃ v, e = .popped v) := by
  cases move_of_consumerStep hstep with
  | empty _ => exact ⟨rfl, .inl rfl⟩
  | store value _ => exact ⟨rfl, .inr ⟨value, rfl⟩⟩

/-! ## The size -/

/-- **`size` is in range unless it overflows**, whatever has happened
between its two loads. -/
theorem sizeOf_of_lt {capacity t h : ℕ} (ht : t < capacity)
    (hlt : t + capacity < 2 ^ 31 + h) (hh : h < capacity) :
    ∃ n : ℕ, sizeOf capacity t h = some (n : ℤ) ∧ n ≤ capacity - 1 := by
  have hsum : (t : ℤ) - h + capacity = ((t + capacity - h : ℕ) : ℤ) := by omega
  refine ⟨(t + capacity - h) % capacity, ?_, ?_⟩
  · unfold sizeOf
    dsimp only
    rw [if_pos (by omega), hsum, ← Int.ofNat_tmod]
  · have hmod := Nat.mod_lt (t + capacity - h) (Nat.zero_lt_of_lt ht)
    omega

theorem sizeOf_of_le {capacity t h : ℕ} (hle : 2 ^ 31 + h ≤ t + capacity) :
    sizeOf capacity t h = none := by
  unfold sizeOf
  dsimp only
  rw [if_neg (by omega)]

end LockFreeQueue

namespace QueueState

open BoundedFifo LockFreeQueue

variable {α ι : Type} {capacity : ℕ} {s s' : QueueState α ι}

/-! ## The invariant -/

/-- **What every step keeps**: the log is one of a bounded queue, and what
this queue then holds is what the slots hold. -/
structure Inv (capacity : ℕ) (s : QueueState α ι) : Prop where
  capacity_eq : s.queue.capacity = capacity
  content : ∃ q, Accepts (capacity - 1) s.log q ∧ s.queue.Consistent q s.producer s.consumer
  callers : ∀ c t, s.callers c = some t → t < capacity

theorem Inv.new [Inhabited α] (hcap : 1 ≤ capacity) :
    (QueueState.new capacity : QueueState α ι).Inv capacity where
  capacity_eq := rfl
  content := ⟨[], .nil, ⟨⟨0, Holds.ofCapacity hcap⟩, trivial, trivial⟩⟩
  callers _ _ ht := by cases ht

/-- The queue is a bounded one in every state; only the sizes depend on the
run. -/
theorem Inv.correct (h : s.Inv capacity)
    (hsize : ∀ r ∈ s.sizes, ∃ k : ℕ, r = some (k : ℤ) ∧ k ≤ capacity - 1) :
    s.Correct capacity := by
  obtain ⟨q, hlog, _⟩ := h.content
  exact ⟨⟨q, hlog⟩, hlog.popped_prefix, hsize⟩

variable [DecidableEq ι] {l : QueueStep α ι}

/-! ## What a call starts with -/

theorem next_pushBack {value : α} (hstep : s.next (.pushBack value) = some s') :
    s.producer = .idle ∧ s' = { s with producer := s.queue.pushBack value } := by
  simp only [QueueState.next] at hstep
  split at hstep
  · rename_i hidle
    cases hstep
    exact ⟨hidle, rfl⟩
  · cases hstep

theorem next_popFront (hstep : s.next .popFront = some s') :
    s.consumer = .idle ∧ s' = { s with consumer := s.queue.popFront } := by
  simp only [QueueState.next] at hstep
  split at hstep
  · rename_i hidle
    cases hstep
    exact ⟨hidle, rfl⟩
  · cases hstep

theorem next_size {c : ι} (hstep : s.next (.size c) = some s') :
    s' = { s with callers := Function.update s.callers c (some s.queue.tail) } := by
  simp only [QueueState.next] at hstep
  split at hstep
  · cases hstep
    rfl
  · cases hstep

/-! ## Every step keeps it -/

theorem Inv.next (h : s.Inv capacity) (hstep : s.next l = some s') : s'.Inv capacity := by
  obtain ⟨q, hlog, hq⟩ := h.content
  have hcap := h.capacity_eq
  obtain ⟨k, hholds⟩ := hq.holds
  cases l with
  | pushBack value =>
    obtain ⟨hp, rfl⟩ := next_pushBack hstep
    rw [hp] at hq
    exact ⟨hcap, ⟨q, hlog, hq.pushBack value⟩, h.callers⟩
  | producer =>
    obtain ⟨⟨queue', p', e⟩, hp, rfl⟩ := Option.map_eq_some_iff.mp hstep
    obtain ⟨q', hmoves, hq'⟩ := hq.producerStep hp
    rw [hcap] at hmoves
    exact ⟨(producerStep_capacity hp).trans hcap, ⟨q', hlog.append hmoves, hq'⟩, h.callers⟩
  | popFront =>
    obtain ⟨hc, rfl⟩ := next_popFront hstep
    rw [hc] at hq
    exact ⟨hcap, ⟨q, hlog, hq.popFront⟩, h.callers⟩
  | consumer =>
    obtain ⟨⟨queue', c', e⟩, hc, rfl⟩ := Option.map_eq_some_iff.mp hstep
    obtain ⟨q', hmoves, hq'⟩ := hq.consumerStep hc
    rw [hcap] at hmoves
    exact ⟨(consumerStep_capacity hc).trans hcap, ⟨q', hlog.append hmoves, hq'⟩, h.callers⟩
  | size c =>
    rw [next_size hstep]
    refine ⟨hcap, h.content, fun d t ht => ?_⟩
    by_cases hd : d = c
    · subst hd
      cases (Function.update_self d (some s.queue.tail) s.callers).symm.trans ht
      exact hholds.tail_lt.trans_eq hcap
    · exact h.callers d t ((Function.update_of_ne hd _ _).symm.trans ht)
  | caller c =>
    obtain ⟨t, _, rfl⟩ := Option.map_eq_some_iff.mp hstep
    refine ⟨hcap, h.content, fun d t ht => ?_⟩
    by_cases hd : d = c
    · subst hd
      cases (Function.update_self d none s.callers).symm.trans ht
    · exact h.callers d t ((Function.update_of_ne hd _ _).symm.trans ht)

/-- **What a step adds to the sizes returned.** -/
theorem sizes_next (hstep : s.next l = some s') :
    s'.sizes = s.sizes ∧ (∀ c, l ≠ .caller c) ∨
      ∃ c t, l = .caller c ∧ s.callers c = some t ∧
        s'.sizes = LockFreeQueue.sizeOf s.queue.capacity t s.queue.head :: s.sizes := by
  cases l with
  | pushBack value =>
    obtain ⟨_, rfl⟩ := next_pushBack hstep
    exact .inl ⟨rfl, nofun⟩
  | producer =>
    obtain ⟨_, _, rfl⟩ := Option.map_eq_some_iff.mp hstep
    exact .inl ⟨rfl, nofun⟩
  | popFront =>
    obtain ⟨_, rfl⟩ := next_popFront hstep
    exact .inl ⟨rfl, nofun⟩
  | consumer =>
    obtain ⟨_, _, rfl⟩ := Option.map_eq_some_iff.mp hstep
    exact .inl ⟨rfl, nofun⟩
  | size c =>
    rw [next_size hstep]
    exact .inl ⟨rfl, nofun⟩
  | caller c =>
    obtain ⟨t, ht, rfl⟩ := Option.map_eq_some_iff.mp hstep
    exact .inr ⟨c, t, rfl, ht, rfl⟩

theorem Correct.next (h : s.Correct capacity) (hinv : s.Inv capacity)
    (hstep : s.next l = some s') (hl : s.NoOverflow l) : s'.Correct capacity := by
  refine (hinv.next hstep).correct fun r hr => ?_
  obtain ⟨hsizes, _⟩ | ⟨c, t, rfl, ht, hsizes⟩ := sizes_next hstep
  · rw [hsizes] at hr
    exact h.size r hr
  · rw [hsizes, List.mem_cons] at hr
    rcases hr with rfl | hr
    · obtain ⟨q, _, hq⟩ := hinv.content
      obtain ⟨k, hholds⟩ := hq.holds
      have hlt := sizeOf_of_lt ((hinv.callers c t ht).trans_eq hinv.capacity_eq.symm) (hl t ht)
        hholds.head_lt
      rw [hinv.capacity_eq] at hlt ⊢
      exact hlt
    · exact h.size r hr

/-- A size that overflows has no value. -/
theorem not_correct_of_overflow (hstep : s.next l = some s') (hl : ¬ s.NoOverflow l) :
    ¬ s'.Correct capacity := by
  intro h
  obtain ⟨_, hne⟩ | ⟨c, t, rfl, ht, hsizes⟩ := sizes_next hstep
  · refine hl ?_
    cases l with
    | caller c => exact absurd rfl (hne c)
    | _ => trivial
  · have hle : 2 ^ 31 + s.queue.head ≤ t + s.queue.capacity := by
      by_contra hlt
      refine hl fun t' ht' => ?_
      cases ht.symm.trans ht'
      exact not_le.mp hlt
    rw [sizeOf_of_le hle] at hsizes
    obtain ⟨k, hk, _⟩ := h.size none (by rw [hsizes]; exact List.mem_cons_self)
    cases hk

end QueueState

section Queue

open QueueState

variable {α ι : Type} [Inhabited α] [DecidableEq ι] {capacity : ℕ}
variable {tr : List (QueueState α ι × QueueStep α ι)} {s : QueueState α ι}

/-- **The queue is a bounded first-in first-out queue of `capacity - 1`
elements throughout a run, whatever the interleaving, exactly if no `size`
overflows.** -/
theorem queueSystem_correct_iff (hcap : 1 ≤ capacity)
    (hr : (queueSystem α ι capacity).Run tr s) :
    TransitionSystem.Throughout (Correct capacity) tr s ↔
      TransitionSystem.Met NoOverflow tr := by
  refine hr.forall_iff (J := Inv capacity) ?_ ?_ ?_
  · rintro s rfl
    have hinv := Inv.new (α := α) (ι := ι) hcap
    refine ⟨hinv.correct fun r hr => ?_, hinv⟩
    cases hr
  · intro s l s' hP hJ hstep hl
    exact ⟨hP.next hJ hstep hl, hJ.next hstep⟩
  · intro s l s' _ _ hstep hl
    exact not_correct_of_overflow hstep hl

/-- A queue of three slots, in which one element was pushed, popped and
counted. -/
theorem queueSystem_correct_iff_three :
    ∃ tr s, (queueSystem ℕ Unit 3).Run tr s ∧ s.log = [.popped 7, .pushed 7] ∧
      s.sizes = [some 2] ∧
      (TransitionSystem.Throughout (Correct 3) tr s ↔ TransitionSystem.Met NoOverflow tr) := by
  have hrun : (TransitionSystem.trace next [] (QueueState.new 3 : QueueState ℕ Unit)
      [.pushBack 7, .producer, .producer, .size (), .producer, .popFront, .consumer, .consumer,
        .consumer, .caller ()]).map (fun r => (r.2.log, r.2.sizes)) =
      some ([.popped 7, .pushed 7], [some 2]) := by
    decide +kernel
  obtain ⟨tr, s, hr, hs⟩ :=
    TransitionSystem.Run.exists_of_trace (S := queueSystem ℕ Unit 3) (fun _ _ _ h => h) rfl hrun
  obtain ⟨hlog, hsizes⟩ := Prod.mk.inj hs
  exact ⟨tr, s, hr, hlog, hsizes, queueSystem_correct_iff (by decide) hr⟩

/-- **With `INT_MAX` slots, the first size that is asked for overflows**: one
element is there, and the distance plus the capacity is no `int`. -/
theorem queueSystem_not_correct :
    ¬ ∀ (capacity : ℕ), 1 ≤ capacity → capacity < 2 ^ 31 →
      ∀ tr s, (queueSystem ℕ Unit capacity).Run tr s →
        TransitionSystem.Throughout (Correct capacity) tr s := by
  intro h
  have hrun : (TransitionSystem.trace next [] (QueueState.new (2 ^ 31 - 1) : QueueState ℕ Unit)
      [.pushBack 7, .producer, .producer, .producer, .size (), .caller ()]).map
        (fun r => r.2.sizes) = some [none] := by
    decide +kernel
  obtain ⟨tr, s, hr, hs⟩ :=
    TransitionSystem.Run.exists_of_trace (S := queueSystem ℕ Unit (2 ^ 31 - 1)) (fun _ _ _ h => h) rfl hrun
  obtain ⟨k, hk, _⟩ := (h _ (by decide) (by decide) tr s hr).1.size none (by rw [hs]; simp)
  cases hk

/-- A queue of at most `2 ^ 30` slots is always correct. -/
theorem queueSystem_correct_of_le (hcap : 1 ≤ capacity) (hle : capacity ≤ 2 ^ 30)
    (hs : (queueSystem α ι capacity).Reachable s) : s.Correct capacity := by
  refine (hs.invariant (I := fun s => s.Correct capacity ∧ s.Inv capacity) ?_ ?_).1
  · rintro s rfl
    have hinv := Inv.new (α := α) (ι := ι) hcap
    refine ⟨hinv.correct fun r hr => ?_, hinv⟩
    cases hr
  · rintro s l s' _ ⟨hP, hJ⟩ hstep
    refine ⟨hP.next hJ hstep ?_, hJ.next hstep⟩
    cases l with
    | caller c =>
      intro t ht
      have hlt := hJ.callers c t ht
      have hcapacity := hJ.capacity_eq
      omega
    | _ => trivial

end Queue
