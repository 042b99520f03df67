import CoinData.Service
import CoinData.Subscriber

/-!
# Whether there is something to take

`is_update` compares the index of a subscriber, or of a service, with a
counter which the shared item has beside its buffer. A publisher increases
the counter after each message it has pushed. A client pushes its request
and does not. So the counter is behind the tail by the messages that are
not counted yet, which is none between operations, and by the requests, and
for a service it stays at zero.

Subscribers and services are **consumers** of the buffer here: an index
which is not beyond the tail is all that has to be known of them.
-/

/-- **What takes from a buffer**, as far as its users see: the buffer it
shares with them, the step of a spin, and its index. -/
structure Consumer (σ : Type) where
  ring : σ → SharedCircularBuffer (Option ℕ)
  /-- The others have written to the buffer. -/
  setRing : σ → SharedCircularBuffer (Option ℕ) → σ
  /-- A new consumer of the buffer. -/
  connect : SharedCircularBuffer (Option ℕ) → σ
  spin : σ → Option σ
  idx : σ → ℕ
  /-- It is between spins. -/
  idle : σ → Bool

/-- **A `CommunicatorItem`** and a consumer of its buffer: the counter, how
many publishers have pushed and not counted yet, and how many requests
clients have pushed. -/
structure CommunicatorItem (σ : Type) where
  consumer : σ
  index : ℕ
  publishing : ℕ
  requests : ℕ

/-- Who takes a step. -/
inductive ItemStep where
  /-- `publish` pushes a message, or a null pointer. -/
  | publish (null : Bool)
  /-- `publish` increases the counter. -/
  | count
  /-- `call` pushes a request. -/
  | call
  /-- The consumer is connected, or constructed, anew. -/
  | connect
  | spin
deriving DecidableEq, Repr

namespace CommunicatorItem

variable {σ : Type}

/-- Take a step, if it is possible. The pointer which `call` pushes is not
null. -/
def next (c : Consumer σ) (s : CommunicatorItem σ) : ItemStep → Option (CommunicatorItem σ)
  | .publish null => (LocalPublisher.publish (c.ring s.consumer) null).map fun ring =>
    { s with consumer := c.setRing s.consumer ring, publishing := s.publishing + 1 }
  | .count =>
    if s.publishing = 0 then none
    else some { s with index := s.index + 1, publishing := s.publishing - 1 }
  | .call => (LocalPublisher.publish (c.ring s.consumer) false).map fun ring =>
    { s with consumer := c.setRing s.consumer ring, requests := s.requests + 1 }
  | .connect =>
    if c.idle s.consumer then some { s with consumer := c.connect (c.ring s.consumer) } else none
  | .spin => (c.spin s.consumer).map fun x => { s with consumer := x }

/-- A new item, with a buffer of `n` elements. -/
def fresh (c : Consumer σ) (n : ℕ) : CommunicatorItem σ := ⟨c.connect (.ofSize n), 0, 0, 0⟩

end CommunicatorItem

/-- **The system of an item** and its consumer. -/
def itemSystem {σ : Type} (c : Consumer σ) (n : ℕ) :
    TransitionSystem (CommunicatorItem σ) ItemStep where
  init s := s = .fresh c n
  step s l s' := s.next c l = some s'

/-- A subscriber, whose own queue has room for `k` elements. -/
def LocalSubscriber.consumer (k : ℕ) : Consumer SubscriberState where
  ring s := s.ring
  setRing s ring := { s with ring := ring }
  connect ring := .connect ring k
  spin s := s.subscriberStep
  idx s := s.idx
  idle s := s.pc = .idle

/-- `LocalSubscriber::is_update`, once connected. -/
def LocalSubscriber.isUpdate (s : CommunicatorItem SubscriberState) : Bool :=
  s.consumer.idx ≠ s.index

/-- A service. What its clients do after they have pushed leaves the buffer
alone. -/
def LocalService.consumer : Consumer (ServiceState Empty) where
  ring s := s.ring
  setRing s ring := { s with ring := ring }
  connect ring := { ServiceState.fresh Empty 0 0 with ring := ring, idx := ring.tail }
  spin s := s.serviceStep
  idx s := s.idx
  idle s := s.pc = .idle

/-- `LocalService::is_update`. -/
def LocalService.isUpdate (s : CommunicatorItem (ServiceState Empty)) : Bool :=
  s.consumer.idx ≠ s.index

/-! ## The counters -/

namespace Consumer

variable {σ : Type} {c : Consumer σ} {I : σ → Prop}

/-- **A consumer which keeps behind the tail**: its invariant `I` says so,
and is kept by what the others do to the buffer and by its own steps, which
leave the buffer's counters alone. -/
structure Behind (c : Consumer σ) (I : σ → Prop) : Prop where
  le : ∀ {x}, I x → (c.ring x).head ≤ (c.ring x).tail ∧ c.idx x ≤ (c.ring x).tail
  connect : ∀ {ring}, ring.head ≤ ring.tail → I (c.connect ring) ∧ c.ring (c.connect ring) = ring
  push : ∀ {x null ring}, I x → LocalPublisher.publish (c.ring x) null = some ring →
    I (c.setRing x ring) ∧ c.ring (c.setRing x ring) = ring
  spin : ∀ {x x'}, I x → c.spin x = some x' → I x' ∧ (c.ring x').tail = (c.ring x).tail

end Consumer

/-- The tail after a push, and the head. -/
theorem LocalPublisher.publish_counters {ring ring' : SharedCircularBuffer (Option ℕ)}
    {null : Bool} (h : LocalPublisher.publish ring null = some ring')
    (hle : ring.head ≤ ring.tail) :
    ring'.tail = ring.tail + 1 ∧ ring.head ≤ ring'.head ∧ ring'.head ≤ ring'.tail := by
  unfold LocalPublisher.publish at h
  split at h
  · cases h
  · cases h
    refine ⟨rfl, ?_⟩
    dsimp only [SharedCircularBuffer.pushBack]
    split <;> omega

namespace CommunicatorItem

variable {σ : Type} {c : Consumer σ} {I : σ → Prop} {n : ℕ} {s s' : CommunicatorItem σ}

/-- **The counters of an item**: what is in the buffer has been counted, is
yet to be counted, or is a request. -/
structure Counted (c : Consumer σ) (I : σ → Prop) (s : CommunicatorItem σ) : Prop where
  behind : I s.consumer
  tail_eq : (c.ring s.consumer).tail = s.index + s.publishing + s.requests

theorem Counted.step (hc : c.Behind I) (h : s.Counted c I) {l : ItemStep}
    (hs : s.next c l = some s') : s'.Counted c I := by
  have htail := h.tail_eq
  cases l with
  | publish null =>
    obtain ⟨ring, hp, rfl⟩ := Option.map_eq_some_iff.mp hs
    obtain ⟨hI, hring⟩ := hc.push h.behind hp
    refine ⟨hI, ?_⟩
    have hpush := (LocalPublisher.publish_counters hp (hc.le h.behind).1).1
    show (c.ring (c.setRing s.consumer ring)).tail = s.index + (s.publishing + 1) + s.requests
    rw [hring]
    omega
  | count =>
    unfold next at hs
    dsimp only at hs
    split at hs
    · cases hs
    · cases hs
      refine ⟨h.behind, ?_⟩
      dsimp only
      omega
  | call =>
    obtain ⟨ring, hp, rfl⟩ := Option.map_eq_some_iff.mp hs
    obtain ⟨hI, hring⟩ := hc.push h.behind hp
    refine ⟨hI, ?_⟩
    have hpush := (LocalPublisher.publish_counters hp (hc.le h.behind).1).1
    show (c.ring (c.setRing s.consumer ring)).tail = s.index + s.publishing + (s.requests + 1)
    rw [hring]
    omega
  | connect =>
    unfold next at hs
    dsimp only at hs
    split at hs
    · cases hs
      obtain ⟨hI, hring⟩ := hc.connect (hc.le h.behind).1
      refine ⟨hI, ?_⟩
      dsimp only
      rw [hring]
      exact htail
    · cases hs
  | spin =>
    obtain ⟨x, hx, rfl⟩ := Option.map_eq_some_iff.mp hs
    obtain ⟨hI, hring⟩ := hc.spin h.behind hx
    exact ⟨hI, hring.trans htail⟩

theorem counted_of_reachable (hc : c.Behind I) (hs : (itemSystem c n).Reachable s) :
    s.Counted c I := by
  refine hs.invariant (I := fun s => s.Counted c I) ?_ fun s l s' _ h hstep => h.step hc hstep
  rintro s rfl
  have hle : (SharedCircularBuffer.ofSize n : SharedCircularBuffer (Option ℕ)).head
      ≤ (SharedCircularBuffer.ofSize n : SharedCircularBuffer (Option ℕ)).tail := le_rfl
  obtain ⟨hI, hring⟩ := hc.connect hle
  refine ⟨hI, ?_⟩
  show (c.ring (c.connect (.ofSize n))).tail = 0
  rw [hring]
  rfl

/-- **When the comparison with the counter is right**, between operations. -/
theorem idx_ne_index_iff (hc : c.Behind I) (hs : (itemSystem c n).Reachable s)
    (hpub : s.publishing = 0) :
    ((c.idx s.consumer ≠ s.index ↔ c.idx s.consumer < (c.ring s.consumer).tail) ↔
      s.requests = 0 ∨ (c.ring s.consumer).tail - c.idx s.consumer ≠ 0
        ∧ (c.ring s.consumer).tail - c.idx s.consumer ≠ s.requests) := by
  have h := counted_of_reachable hc hs
  have htail := h.tail_eq
  have hle := (hc.le h.behind).2
  omega

end CommunicatorItem

/-! ## Subscribers and services -/

namespace SubscriberState

variable {s s' : SubscriberState}

/-- The subscriber has found that there is something to copy. -/
def Found (s : SubscriberState) : Prop :=
  s.pc = .copy ∨ (∃ it, s.pc = .store it) ∨ s.pc = .advance

/-- The index is not beyond the tail. -/
def Behind (s : SubscriberState) : Prop :=
  s.ring.head ≤ s.ring.tail ∧ s.idx ≤ s.ring.tail ∧ (s.Found → s.idx < s.ring.tail)

theorem Behind.spin (h : s.Behind) (hs : s.subscriberStep = some s') : s'.Behind := by
  obtain ⟨hhead, hidx, hfound⟩ := h
  unfold subscriberStep at hs
  cases hpc : s.pc with
  | idle =>
    rw [hpc] at hs
    cases hs
    refine ⟨hhead, hidx, ?_⟩
    unfold Found
    split <;> simp
  | catchUp =>
    rw [hpc] at hs
    cases hs
    exact ⟨hhead, hhead, by simp [Found]⟩
  | checkTail =>
    rw [hpc] at hs
    cases hs
    refine ⟨hhead, hidx, ?_⟩
    unfold Found
    split
    · exact fun _ => ‹_›
    · simp
  | copy =>
    rw [hpc] at hs
    dsimp only at hs
    have hlt := hfound (.inl hpc)
    split at hs
    · cases hs
      exact ⟨hhead, hidx, fun _ => hlt⟩
    · cases hs
      exact ⟨hhead, hidx, fun _ => hlt⟩
  | store it =>
    rw [hpc] at hs
    cases hs
    exact ⟨hhead, hidx, fun _ => hfound (.inr (.inl ⟨it, hpc⟩))⟩
  | advance =>
    rw [hpc] at hs
    cases hs
    exact ⟨hhead, hfound (.inr (.inr hpc)), by simp [Found]⟩
  | spin =>
    rw [hpc] at hs
    dsimp only at hs
    split at hs
    · cases hs
      exact ⟨hhead, hidx, by simp [Found]⟩
    · cases hs
      exact ⟨hhead, hidx, by simp [Found]⟩
  | aborted =>
    rw [hpc] at hs
    cases hs

end SubscriberState

theorem LocalSubscriber.consumer_behind (k : ℕ) :
    (LocalSubscriber.consumer k).Behind SubscriberState.Behind where
  le h := ⟨h.1, h.2.1⟩
  connect hle := ⟨⟨hle, le_rfl, by simp [SubscriberState.Found, consumer, SubscriberState.connect]⟩,
    rfl⟩
  push := by
    intro x null ring h hp
    obtain ⟨htail, -, hle⟩ := LocalPublisher.publish_counters hp h.1
    have hidx := h.2.1
    change ring.tail = x.ring.tail + 1 at htail
    refine ⟨⟨hle, ?_, fun hfound => ?_⟩, rfl⟩
    · show x.idx ≤ ring.tail
      omega
    · have hlt : x.idx < x.ring.tail := h.2.2 hfound
      show x.idx < ring.tail
      omega
  spin h hs := ⟨h.spin hs, congrArg _ (SubscriberState.subscriberStep_ring hs).1⟩

namespace ServiceState

variable {s s' : ServiceState Empty}

/-- The service has found that there is something to serve. -/
def Found (s : ServiceState Empty) : Prop :=
  s.pc = .element ∨ (∃ slot, s.pc = .callback slot) ∨ (∃ slot, s.pc = .setReady slot)
    ∨ s.pc = .advance

/-- The index is not beyond the tail. -/
def Behind (s : ServiceState Empty) : Prop :=
  s.ring.head ≤ s.ring.tail ∧ s.idx ≤ s.ring.tail ∧ (s.Found → s.idx < s.ring.tail)
    ∧ ¬ s.pc.Ended

theorem Behind.spin (h : s.Behind) (hs : s.serviceStep = some s') :
    s'.Behind ∧ s'.ring = s.ring := by
  obtain ⟨hhead, hidx, hfound, hend⟩ := h
  unfold serviceStep at hs
  cases hpc : s.pc with
  | idle =>
    rw [hpc] at hs
    cases hs
    refine ⟨⟨hhead, hidx, ?_, ?_⟩, rfl⟩
    · unfold Found
      split <;> simp
    · split <;> simp [ServicePc.Ended]
  | catchUp =>
    rw [hpc] at hs
    cases hs
    exact ⟨⟨hhead, hhead, by simp [Found], by simp [ServicePc.Ended]⟩, rfl⟩
  | checkTail =>
    rw [hpc] at hs
    cases hs
    refine ⟨⟨hhead, hidx, ?_, ?_⟩, rfl⟩
    · unfold Found
      split
      · exact fun _ => ‹_›
      · simp
    · split <;> simp [ServicePc.Ended]
  | element =>
    rw [hpc] at hs
    cases hs
    exact ⟨⟨hhead, hidx, fun _ => hfound (.inl hpc), by simp [ServicePc.Ended]⟩, rfl⟩
  | callback slot =>
    rw [hpc] at hs
    obtain ⟨r, -, rfl⟩ := Option.map_eq_some_iff.mp hs
    exact ⟨⟨hhead, hidx, fun _ => hfound (.inr (.inl ⟨slot, hpc⟩)), by simp [ServicePc.Ended]⟩, rfl⟩
  | setReady slot =>
    rw [hpc] at hs
    obtain ⟨r, -, rfl⟩ := Option.map_eq_some_iff.mp hs
    exact ⟨⟨hhead, hidx, fun _ => hfound (.inr (.inr (.inl ⟨slot, hpc⟩))),
      by simp [ServicePc.Ended]⟩, rfl⟩
  | advance =>
    rw [hpc] at hs
    cases hs
    exact ⟨⟨hhead, hfound (.inr (.inr (.inr hpc))), by simp [Found], by simp [ServicePc.Ended]⟩, rfl⟩
  | cleanHead => exact absurd (by rw [hpc]; trivial) hend
  | cleanTail i => exact absurd (by rw [hpc]; trivial) hend
  | cleanElement i => exact absurd (by rw [hpc]; trivial) hend
  | reset slot i => exact absurd (by rw [hpc]; trivial) hend
  | gone => exact absurd (by rw [hpc]; trivial) hend

end ServiceState

theorem LocalService.consumer_behind : LocalService.consumer.Behind ServiceState.Behind where
  le h := ⟨h.1, h.2.1⟩
  connect hle := ⟨⟨hle, le_rfl, by simp [ServiceState.Found, consumer, ServiceState.fresh],
    by simp [ServicePc.Ended, consumer, ServiceState.fresh]⟩, rfl⟩
  push := by
    intro x null ring h hp
    obtain ⟨htail, -, hle⟩ := LocalPublisher.publish_counters hp h.1
    have hidx := h.2.1
    change ring.tail = x.ring.tail + 1 at htail
    refine ⟨⟨hle, ?_, fun hfound => ?_, h.2.2.2⟩, rfl⟩
    · show x.idx ≤ ring.tail
      omega
    · have hlt : x.idx < x.ring.tail := h.2.2.1 hfound
      show x.idx < ring.tail
      omega
  spin h hs := ⟨(h.spin hs).1, congrArg _ (h.spin hs).2⟩

/-- **When `is_update` is right**: between operations, a subscriber has a
message to take, and a service a request to serve, exactly if `is_update`
says so, if and only if no client has pushed a request to the buffer, or
what is left from the index to the tail is neither nothing nor as much as
there were requests. -/
theorem isUpdate_iff (n : ℕ) :
    (∀ k s, (itemSystem (LocalSubscriber.consumer k) n).Reachable s →
      s.publishing = 0 → s.consumer.pc = .idle →
      ((LocalSubscriber.isUpdate s = true ↔ s.consumer.idx < s.consumer.ring.tail) ↔
        s.requests = 0 ∨ s.consumer.ring.tail - s.consumer.idx ≠ 0
          ∧ s.consumer.ring.tail - s.consumer.idx ≠ s.requests)) ∧
    ∀ s, (itemSystem LocalService.consumer n).Reachable s →
      s.publishing = 0 → s.consumer.pc = .idle →
      ((LocalService.isUpdate s = true ↔ s.consumer.idx < s.consumer.ring.tail) ↔
        s.requests = 0 ∨ s.consumer.ring.tail - s.consumer.idx ≠ 0
          ∧ s.consumer.ring.tail - s.consumer.idx ≠ s.requests) := by
  refine ⟨fun k s hs hpub _ => ?_, fun s hs hpub _ => ?_⟩
  · unfold LocalSubscriber.isUpdate
    rw [decide_eq_true_iff]
    exact CommunicatorItem.idx_ne_index_iff (LocalSubscriber.consumer_behind k) hs hpub
  · unfold LocalService.isUpdate
    rw [decide_eq_true_iff]
    exact CommunicatorItem.idx_ne_index_iff LocalService.consumer_behind hs hpub

open TransitionSystem

/-- A subscriber with a message to take, and a service which has served one
of two requests. -/
theorem isUpdate_iff_pending :
    (∃ s, (itemSystem (LocalSubscriber.consumer 1) 4).Reachable s ∧ s.requests = 0
      ∧ (LocalSubscriber.isUpdate s = true ↔ s.consumer.idx < s.consumer.ring.tail)) ∧
    ∃ s, (itemSystem LocalService.consumer 4).Reachable s ∧ s.requests = 2
      ∧ (LocalService.isUpdate s = true ↔ s.consumer.idx < s.consumer.ring.tail) := by
  constructor
  · have htrace : (trace (CommunicatorItem.next (LocalSubscriber.consumer 1)) []
        (.fresh (LocalSubscriber.consumer 1) 4) [.publish false, .count]).map
          (fun e => (e.2.publishing, e.2.consumer.pc, e.2.requests))
        = some (0, .idle, 0) := by decide +kernel
    obtain ⟨tr, s, hr, heq⟩ := Run.exists_of_trace
      (S := itemSystem (LocalSubscriber.consumer 1) 4) (fun _ _ _ h => h) rfl htrace
    simp only [Prod.mk.injEq] at heq
    obtain ⟨hpub, hpc, hreq⟩ := heq
    exact ⟨s, hr.reachable, hreq,
      ((isUpdate_iff 4).1 1 s hr.reachable hpub hpc).mpr (.inl hreq)⟩
  · have htrace : (trace (CommunicatorItem.next LocalService.consumer) []
        (.fresh LocalService.consumer 4)
        [.call, .call, .spin, .spin, .spin, .spin, .spin, .spin]).map
          (fun e => ((e.2.publishing, e.2.consumer.pc), e.2.requests,
            e.2.consumer.ring.tail - e.2.consumer.idx))
        = some ((0, .idle), 2, 1) := by decide +kernel
    obtain ⟨tr, s, hr, heq⟩ := Run.exists_of_trace
      (S := itemSystem LocalService.consumer 4) (fun _ _ _ h => h) rfl htrace
    simp only [Prod.mk.injEq] at heq
    obtain ⟨⟨hpub, hpc⟩, hreq, hleft⟩ := heq
    refine ⟨s, hr.reachable, hreq, ((isUpdate_iff 4).2 s hr.reachable hpub hpc).mpr (.inr ?_)⟩
    rw [hleft, hreq]
    decide

/-- **A service that is not told of its request**, and is told of one when
it has served it. -/
theorem isUpdate_wrong :
    (∃ s, (itemSystem LocalService.consumer 4).Reachable s ∧ s.publishing = 0
      ∧ s.consumer.pc = .idle ∧ s.consumer.idx < s.consumer.ring.tail
      ∧ LocalService.isUpdate s = false) ∧
    ∃ s, (itemSystem LocalService.consumer 4).Reachable s ∧ s.publishing = 0
      ∧ s.consumer.pc = .idle ∧ s.consumer.idx = s.consumer.ring.tail
      ∧ LocalService.isUpdate s = true := by
  constructor
  · have htrace : (trace (CommunicatorItem.next LocalService.consumer) []
        (.fresh LocalService.consumer 4) [.call]).map
          (fun e => (e.2.publishing, e.2.consumer.pc,
            decide (e.2.consumer.idx < e.2.consumer.ring.tail), LocalService.isUpdate e.2))
        = some (0, .idle, true, false) := by decide +kernel
    obtain ⟨tr, s, hr, heq⟩ := Run.exists_of_trace
      (S := itemSystem LocalService.consumer 4) (fun _ _ _ h => h) rfl htrace
    simp only [Prod.mk.injEq, decide_eq_true_eq] at heq
    exact ⟨s, hr.reachable, heq⟩
  · have htrace : (trace (CommunicatorItem.next LocalService.consumer) []
        (.fresh LocalService.consumer 4) [.call, .spin, .spin, .spin, .spin, .spin, .spin]).map
          (fun e => (e.2.publishing, e.2.consumer.pc,
            decide (e.2.consumer.idx = e.2.consumer.ring.tail), LocalService.isUpdate e.2))
        = some (0, .idle, true, true) := by decide +kernel
    obtain ⟨tr, s, hr, heq⟩ := Run.exists_of_trace
      (S := itemSystem LocalService.consumer 4) (fun _ _ _ h => h) rfl htrace
    simp only [Prod.mk.injEq, decide_eq_true_eq] at heq
    exact ⟨s, hr.reachable, heq⟩
