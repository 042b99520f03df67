import CoinData.CircularBuffer
import CoinData.Runs
import Mathlib.Data.List.Basic

/-!
# A publisher and its subscriber

A publication is pushed to the circular buffer that publisher and
subscriber share. The subscriber, once connected, keeps an index of its
own, `idx_`, which it compares with the head and the tail of the buffer
(`is_ready_`), and then asks the buffer for a copy of (`invoke_`); what it
has taken goes through a queue of its own, from whose front the callback is
served (`spin_`).

Publications are named by their number in the buffer. `publish` takes a
pointer, which may be null: assigning a null pointer to an element of the
buffer leaves the element as it was, while the tail moves on. Each read or
write of the buffer is a step, and the publisher may take steps in between
those of the subscriber.
-/

/-- Where the subscriber is in `spin_once`. -/
inductive SubscriberPc where
  /-- Next, `is_ready_` reads the head. -/
  | idle
  /-- `idx_` is behind the head, which is read again for it. -/
  | catchUp
  /-- `is_ready_` reads the tail. -/
  | checkTail
  /-- `invoke_` asks for a copy. -/
  | copy
  /-- What was copied goes to the queue. -/
  | store (it : ℕ)
  /-- `idx_` is increased. -/
  | advance
  /-- `spin_`. -/
  | spin
  /-- The copy was null. -/
  | aborted
deriving DecidableEq, Repr

/-- **A connected subscriber**: the shared buffer, its index, its queue,
which holds at most `bufferSize` elements, and the tail it has found when
it was connected. `taken` and `delivered` record, latest first, what was
copied from the buffer and what the callback was called on. -/
structure SubscriberState where
  ring : SharedCircularBuffer (Option ℕ)
  idx : ℕ
  pc : SubscriberPc
  buffer : List ℕ
  bufferSize : ℕ
  connected : ℕ
  taken : List ℕ
  delivered : List ℕ

/-- Who takes a step. -/
inductive SubscriberStep where
  /-- The publisher publishes a message, or a null pointer. -/
  | publish (null : Bool)
  | subscriber
deriving DecidableEq, Repr

/-- `LocalPublisher::publish`: the assignment of `push_back` leaves the
element if the pointer is null. A buffer without elements is divided by. -/
def LocalPublisher.publish (ring : SharedCircularBuffer (Option ℕ)) (null : Bool) :
    Option (SharedCircularBuffer (Option ℕ)) :=
  if ring.totalSize = 0 then none
  else some (ring.pushBack
    (if null then ring.buffer (ring.tail % ring.totalSize) else some ring.tail))

namespace SubscriberState

/-- The next step of `spin_once`. -/
def subscriberStep (s : SubscriberState) : Option SubscriberState :=
  match s.pc with
  | .idle => some { s with pc := if s.idx < s.ring.head then .catchUp else .checkTail }
  | .catchUp => some { s with idx := s.ring.head, pc := .checkTail }
  | .checkTail => some { s with pc := if s.idx < s.ring.tail then .copy else .spin }
  | .copy =>
    match s.ring.copy s.idx with
    | none => some { s with pc := .aborted }
    | some it => some { s with taken := it :: s.taken, pc := .store it }
  | .store it =>
    let buffer := s.buffer ++ [it]
    some { s with
      buffer := if s.bufferSize < buffer.length then buffer.tail else buffer
      pc := .advance }
  | .advance => some { s with idx := s.idx + 1, pc := .spin }
  | .spin =>
    match s.buffer with
    | [] => some { s with pc := .idle }
    | it :: buffer => some { s with buffer := buffer, delivered := it :: s.delivered, pc := .idle }
  | .aborted => none

/-- Take a step, if it is possible. -/
def next (s : SubscriberState) : SubscriberStep → Option SubscriberState
  | .publish null => (LocalPublisher.publish s.ring null).map fun ring => { s with ring := ring }
  | .subscriber => s.subscriberStep

/-- A subscriber just connected to a buffer, with a queue for `k`
elements. -/
def connect (ring : SharedCircularBuffer (Option ℕ)) (k : ℕ) : SubscriberState where
  ring := ring
  idx := ring.tail
  pc := .idle
  buffer := []
  bufferSize := k
  connected := ring.tail
  taken := []
  delivered := []

variable {s s' : SubscriberState}

/-- **What a step of the subscriber does.** -/
inductive Move (s : SubscriberState) : SubscriberState → Prop
  | behind : s.pc = .idle → s.idx < s.ring.head → Move s { s with pc := .catchUp }
  | level : s.pc = .idle → s.ring.head ≤ s.idx → Move s { s with pc := .checkTail }
  | catchUp : s.pc = .catchUp → Move s { s with idx := s.ring.head, pc := .checkTail }
  | ready : s.pc = .checkTail → s.idx < s.ring.tail → Move s { s with pc := .copy }
  | noMore : s.pc = .checkTail → Move s { s with pc := .spin }
  | abort : s.pc = .copy → s.ring.copy s.idx = none → Move s { s with pc := .aborted }
  | take {it : ℕ} : s.pc = .copy → s.ring.copy s.idx = some it →
      Move s { s with taken := it :: s.taken, pc := .store it }
  | store {it : ℕ} : s.pc = .store it →
      Move s { s with
        buffer := if s.bufferSize < (s.buffer ++ [it]).length then (s.buffer ++ [it]).tail
          else s.buffer ++ [it]
        pc := .advance }
  | advance : s.pc = .advance → Move s { s with idx := s.idx + 1, pc := .spin }
  | rest : s.pc = .spin → Move s { s with pc := .idle }
  | deliver {it : ℕ} {buffer : List ℕ} : s.pc = .spin → s.buffer = it :: buffer →
      Move s { s with buffer := buffer, delivered := it :: s.delivered, pc := .idle }

theorem move_of_subscriberStep (hs : s.subscriberStep = some s') : s.Move s' := by
  unfold subscriberStep at hs
  cases hpc : s.pc with
  | idle =>
    rw [hpc] at hs
    cases hs
    by_cases hlt : s.idx < s.ring.head
    · rw [if_pos hlt]
      exact .behind hpc hlt
    · rw [if_neg hlt]
      exact .level hpc (not_lt.mp hlt)
  | catchUp =>
    rw [hpc] at hs
    cases hs
    exact .catchUp hpc
  | checkTail =>
    rw [hpc] at hs
    cases hs
    by_cases hlt : s.idx < s.ring.tail
    · rw [if_pos hlt]
      exact .ready hpc hlt
    · rw [if_neg hlt]
      exact .noMore hpc
  | copy =>
    rw [hpc] at hs
    dsimp only at hs
    cases hcopy : s.ring.copy s.idx with
    | none =>
      rw [hcopy] at hs
      cases hs
      exact .abort hpc hcopy
    | some it =>
      rw [hcopy] at hs
      cases hs
      exact .take hpc hcopy
  | store it =>
    rw [hpc] at hs
    cases hs
    exact .store hpc
  | advance =>
    rw [hpc] at hs
    cases hs
    exact .advance hpc
  | spin =>
    rw [hpc] at hs
    dsimp only at hs
    split at hs
    · cases hs
      exact .rest hpc
    · next hbuffer =>
      cases hs
      exact .deliver hpc hbuffer
  | aborted =>
    rw [hpc] at hs
    cases hs

/-- The subscriber only reads the buffer. -/
theorem subscriberStep_ring (hs : s.subscriberStep = some s') :
    s'.ring = s.ring ∧ s'.connected = s.connected := by
  cases move_of_subscriberStep hs <;> exact ⟨rfl, rfl⟩

/-- What becomes of a copy. -/
theorem subscriberStep_of_copy (hpc : s.pc = .copy) (hs : s.subscriberStep = some s') :
    (s.ring.copy s.idx = none ∧ s'.pc = .aborted)
      ∨ ∃ it, s.ring.copy s.idx = some it ∧ s'.pc = .store it ∧ s'.taken = it :: s.taken := by
  cases move_of_subscriberStep hs with
  | abort _ hcopy => exact Or.inl ⟨hcopy, rfl⟩
  | @take it _ hcopy => exact Or.inr ⟨it, hcopy, rfl, rfl⟩
  | behind hpc' _ | level hpc' _ | catchUp hpc' | ready hpc' _ | noMore hpc' | store hpc'
    | advance hpc' | rest hpc' | deliver hpc' _ => cases hpc.symm.trans hpc'

/-- Only a copy may fail, and take something. -/
theorem subscriberStep_of_ne_copy (hpc : s.pc ≠ .copy) (hs : s.subscriberStep = some s') :
    s'.pc ≠ .aborted ∧ s'.taken = s.taken := by
  cases move_of_subscriberStep hs with
  | abort hpc' _ | take hpc' _ => exact absurd hpc' hpc
  | _ => exact ⟨nofun, rfl⟩

end SubscriberState

/-- What a buffer of `n` elements may be after publications. -/
inductive Published (n : ℕ) : SharedCircularBuffer (Option ℕ) → Prop
  | ofSize : Published n (.ofSize n)
  | publish {ring ring' : SharedCircularBuffer (Option ℕ)} {null : Bool} :
      Published n ring → LocalPublisher.publish ring null = some ring' → Published n ring'

/-- **The system of a publisher and a subscriber** which share a buffer of
size `n`, to which any number of messages have been published before. -/
def subscriberSystem (n k : ℕ) : TransitionSystem SubscriberState SubscriberStep where
  init s := ∃ ring, Published n ring ∧ s = SubscriberState.connect ring k
  step s l s' := s.next l = some s'

/-! ## What a buffer of publications holds -/

/-- **The elements of the buffer**: each holds a number which belongs there,
and is smaller than the tail. A buffer of size zero is never pushed to. -/
structure Elements (ring : SharedCircularBuffer (Option ℕ)) (n : ℕ) : Prop where
  window : 0 < n → ring.Window n
  pushed : 0 < ring.tail → 0 < n
  size : ring.totalSize = n
  element : ∀ slot r, ring.buffer slot = some r → r < ring.tail ∧ r % n = slot

variable {n k : ℕ} {ring ring' : SharedCircularBuffer (Option ℕ)}

theorem Elements.ofSize : Elements (.ofSize n) n where
  window hn := (SharedCircularBuffer.Keeps.ofSize hn fun _ => (none : Option ℕ)).toWindow
  pushed h := absurd h (lt_irrefl 0)
  size := rfl
  element slot r h := by cases h

/-- **Publishing** keeps the elements where they belong, and moves the head
and the tail up. -/
theorem Elements.publish (h : Elements ring n) {null : Bool}
    (hp : LocalPublisher.publish ring null = some ring') :
    Elements ring' n ∧ ring'.tail = ring.tail + 1 ∧ ring.head ≤ ring'.head := by
  unfold LocalPublisher.publish at hp
  split at hp
  · cases hp
  · next hsize =>
    have hn : 0 < n := Nat.pos_of_ne_zero (h.size ▸ hsize)
    cases hp
    refine ⟨⟨fun _ => (h.window hn).pushBack _, fun _ => hn, h.size, fun slot r hr => ?_⟩, rfl,
      (h.window hn).head_le_pushBack _⟩
    change Function.update ring.buffer (ring.tail % ring.totalSize) _ slot = some r at hr
    show r < ring.tail + 1 ∧ _
    by_cases hslot : slot = ring.tail % ring.totalSize
    · rw [hslot, Function.update_self] at hr
      split at hr
      · obtain ⟨hlt, hmod⟩ := h.element _ r hr
        exact ⟨Nat.lt_succ_of_lt hlt, hslot ▸ hmod⟩
      · cases hr
        exact ⟨Nat.lt_succ_self _, by rw [hslot, h.size]⟩
    · rw [Function.update_of_ne hslot] at hr
      obtain ⟨hlt, hmod⟩ := h.element slot r hr
      exact ⟨Nat.lt_succ_of_lt hlt, hmod⟩

theorem Published.elements (h : Published n ring) : Elements ring n := by
  induction h with
  | ofSize => exact Elements.ofSize
  | publish _ hp ih => exact (ih.publish hp).1

/-! ## The invariant -/

namespace SubscriberPc

/-- The index has been compared with the head, and nothing was copied
since. -/
def Checked : SubscriberPc → Prop
  | .checkTail | .copy => True
  | _ => False

/-- What is on its way from the buffer to the queue. -/
def pending : SubscriberPc → List ℕ
  | .store it => [it]
  | _ => []

/-- Something was copied for the index. -/
def Copied : SubscriberPc → Prop
  | .store _ | .advance => True
  | _ => False

end SubscriberPc

namespace SubscriberState

variable {s s' : SubscriberState}

/-- What holds of the subscriber whatever the publisher does: the index is
not behind what was there when it connected, a copy is only asked for if
something was published since, and what is delivered was taken, in the same
order. -/
structure Inv (s : SubscriberState) (n : ℕ) : Prop where
  elements : Elements s.ring n
  connected : s.connected ≤ s.idx
  behind : s.pc = .catchUp → s.idx ≤ s.ring.head
  ready : s.pc = .copy → s.idx < s.ring.tail
  queue : (s.pc.pending ++ s.buffer.reverse ++ s.delivered).Sublist s.taken

theorem Inv.publish (h : s.Inv n) {null : Bool} (hs : s.next (.publish null) = some s') :
    s'.Inv n := by
  obtain ⟨ring, hp, rfl⟩ := Option.map_eq_some_iff.mp hs
  obtain ⟨helem, htail, hhead⟩ := h.elements.publish hp
  refine ⟨helem, h.connected, fun hpc => (h.behind hpc).trans hhead, fun hpc => ?_, h.queue⟩
  have hlt := h.ready hpc
  show s.idx < ring.tail
  omega

theorem Inv.subscriber (h : s.Inv n) (hs : s.subscriberStep = some s') : s'.Inv n := by
  have hqueue := h.queue
  cases move_of_subscriberStep hs with
  | behind hpc hlt =>
    rw [hpc] at hqueue
    exact ⟨h.elements, h.connected, fun _ => hlt.le, nofun, hqueue⟩
  | level hpc _ =>
    rw [hpc] at hqueue
    exact ⟨h.elements, h.connected, nofun, nofun, hqueue⟩
  | catchUp hpc =>
    rw [hpc] at hqueue
    exact ⟨h.elements, h.connected.trans (h.behind hpc), nofun, nofun, hqueue⟩
  | ready hpc hlt =>
    rw [hpc] at hqueue
    exact ⟨h.elements, h.connected, nofun, fun _ => hlt, hqueue⟩
  | noMore hpc =>
    rw [hpc] at hqueue
    exact ⟨h.elements, h.connected, nofun, nofun, hqueue⟩
  | abort hpc _ =>
    rw [hpc] at hqueue
    exact ⟨h.elements, h.connected, nofun, nofun, hqueue⟩
  | @take it hpc _ =>
    rw [hpc] at hqueue
    exact ⟨h.elements, h.connected, nofun, nofun, hqueue.cons_cons it⟩
  | @store it hpc =>
    rw [hpc] at hqueue
    refine ⟨h.elements, h.connected, nofun, nofun, ?_⟩
    dsimp only
    split
    · -- the front of the queue is dropped
      refine List.Sublist.trans ?_ hqueue
      refine List.Sublist.append_right ?_ s.delivered
      have hdrop : (s.buffer ++ [it]).tail.Sublist (s.buffer ++ [it]) := List.tail_sublist _
      show (s.buffer ++ [it]).tail.reverse.Sublist (it :: s.buffer.reverse)
      simpa using hdrop.reverse
    · simpa [SubscriberPc.pending] using hqueue
  | advance hpc =>
    rw [hpc] at hqueue
    exact ⟨h.elements, Nat.le_succ_of_le h.connected, nofun, nofun, hqueue⟩
  | rest hpc =>
    rw [hpc] at hqueue
    exact ⟨h.elements, h.connected, nofun, nofun, hqueue⟩
  | deliver hpc hbuffer =>
    rw [hpc, hbuffer] at hqueue
    refine ⟨h.elements, h.connected, nofun, nofun, ?_⟩
    simpa [SubscriberPc.pending] using hqueue

theorem Inv.step (h : s.Inv n) {l : SubscriberStep} (hs : s.next l = some s') : s'.Inv n := by
  cases l with
  | publish null => exact h.publish hs
  | subscriber => exact h.subscriber hs

theorem connect_inv (h : Published n ring) (k : ℕ) : (connect ring k).Inv n :=
  ⟨h.elements, le_rfl, nofun, nofun, List.Sublist.refl _⟩

/-! ## Order -/

/-- **A copy is of the index or newer**: `idx_` has not fallen behind the
head since it was compared with it, unless the buffer has one element only,
and no null pointer has left the element as it was before. -/
def CopiesIdx (s : SubscriberState) (l : SubscriberStep) : Prop :=
  match l, s.pc with
  | .subscriber, .copy =>
    (s.idx < s.ring.head → s.ring.totalSize = 1) ∧ ∀ r ∈ s.ring.copy s.idx, s.idx ≤ r
  | _, _ => True

instance (s : SubscriberState) (l : SubscriberStep) : Decidable (s.CopiesIdx l) := by
  unfold CopiesIdx
  split <;> infer_instance

/-- **What was taken** is in the order of the publications, and published
since the subscriber was connected; and so is what the callback was called
on. -/
structure InOrder (s : SubscriberState) : Prop where
  taken : s.taken.Pairwise (· > ·)
  delivered : s.delivered.Pairwise (· > ·)
  connected : ∀ r ∈ s.taken, s.connected ≤ r
  delivered_subset : s.delivered ⊆ s.taken

/-- Where the subscriber is bounds what it has taken: after the comparison
with the head by its index, otherwise by its index or the head. -/
structure Bounded (s : SubscriberState) : Prop where
  order : s.taken.Pairwise (· > ·)
  connected : ∀ r ∈ s.taken, s.connected ≤ r
  before : ∀ r ∈ s.taken, r < s.idx ∨ ¬ s.pc.Checked ∧ r < s.ring.head
    ∨ s.pc.Copied ∧ r = s.idx

/-- The copy is of a message at the index, or in front of the head. -/
theorem Inv.copied (h : s.Inv n) (hpc : s.pc = .copy) (hc : s.CopiesIdx .subscriber) {r : ℕ}
    (hr : s.ring.copy s.idx = some r) : s.idx ≤ r ∧ (r = s.idx ∨ r < s.ring.head) := by
  unfold CopiesIdx at hc
  rw [hpc] at hc
  obtain ⟨hhead, hnew⟩ := hc
  have hle := hnew r hr
  have hready := h.ready hpc
  have hwin := h.elements.window (h.elements.pushed (Nat.zero_lt_of_lt hready))
  have heq := hwin.head_eq
  have hpos := hwin.pos
  obtain ⟨hlt, hmod⟩ := h.elements.element _ r hr
  refine ⟨hle, ?_⟩
  by_cases hone : n = 1
  · right
    omega
  · left
    have hidx : s.ring.head ≤ s.idx := by
      by_contra hcon
      exact hone (h.elements.size.symm.trans (hhead (not_le.mp hcon)))
    rw [hwin.element_eq hidx hready] at hmod
    -- two numbers of one element are `n` apart
    have hdvd : n ∣ r - s.idx := Nat.dvd_of_mod_eq_zero (Nat.sub_mod_eq_zero_of_mod_eq hmod)
    by_contra hne
    have := Nat.le_of_dvd (by omega) hdvd
    omega

/-- What was taken is before the index, once this has been compared with the
head and nothing was copied since. -/
theorem Bounded.lt_idx (h : s.Bounded) (hchecked : s.pc.Checked) (hcopied : ¬ s.pc.Copied) :
    ∀ r ∈ s.taken, r < s.idx := by
  intro r hr
  rcases h.before r hr with hlt | ⟨hnot, _⟩ | ⟨hcop, _⟩
  · exact hlt
  · exact absurd hchecked hnot
  · exact absurd hcop hcopied

theorem Bounded.subscriber (h : s.Bounded) (hi : s.Inv n) (hs : s.subscriberStep = some s')
    (hc : s.CopiesIdx .subscriber) : s'.Bounded := by
  have hbefore := h.before
  cases move_of_subscriberStep hs with
  | behind hpc _ =>
    rw [hpc] at hbefore
    exact ⟨h.order, h.connected, hbefore⟩
  | level hpc hhead =>
    rw [hpc] at hbefore
    refine ⟨h.order, h.connected, fun r hr => Or.inl ?_⟩
    rcases hbefore r hr with hlt | ⟨_, hlt⟩ | ⟨hcop, _⟩
    · exact hlt
    · exact lt_of_lt_of_le hlt hhead
    · exact hcop.elim
  | catchUp hpc =>
    rw [hpc] at hbefore
    refine ⟨h.order, h.connected, fun r hr => Or.inl ?_⟩
    rcases hbefore r hr with hlt | ⟨_, hlt⟩ | ⟨hcop, _⟩
    · exact lt_of_lt_of_le hlt (hi.behind hpc)
    · exact hlt
    · exact hcop.elim
  | ready hpc _ =>
    have hlt := h.lt_idx (by rw [hpc]; trivial) (by rw [hpc]; exact id)
    exact ⟨h.order, h.connected, fun r hr => Or.inl (hlt r hr)⟩
  | noMore hpc =>
    have hlt := h.lt_idx (by rw [hpc]; trivial) (by rw [hpc]; exact id)
    exact ⟨h.order, h.connected, fun r hr => Or.inl (hlt r hr)⟩
  | abort hpc _ =>
    have hlt := h.lt_idx (by rw [hpc]; trivial) (by rw [hpc]; exact id)
    exact ⟨h.order, h.connected, fun r hr => Or.inl (hlt r hr)⟩
  | take hpc hcopy =>
    have hlt := h.lt_idx (by rw [hpc]; trivial) (by rw [hpc]; exact id)
    obtain ⟨hle, hit⟩ := hi.copied hpc hc hcopy
    refine ⟨List.pairwise_cons.mpr ⟨fun r hr => lt_of_lt_of_le (hlt r hr) hle, h.order⟩,
      List.forall_mem_cons.mpr ⟨hi.connected.trans hle, h.connected⟩,
      List.forall_mem_cons.mpr ⟨?_, fun r hr => Or.inl (hlt r hr)⟩⟩
    rcases hit with heq | hhead
    · exact Or.inr (Or.inr ⟨trivial, heq⟩)
    · exact Or.inr (Or.inl ⟨id, hhead⟩)
  | store hpc =>
    rw [hpc] at hbefore
    exact ⟨h.order, h.connected, hbefore⟩
  | advance hpc =>
    rw [hpc] at hbefore
    refine ⟨h.order, h.connected, fun r hr => ?_⟩
    rcases hbefore r hr with hlt | ⟨_, hlt⟩ | ⟨_, heq⟩
    · exact Or.inl (Nat.lt_succ_of_lt hlt)
    · exact Or.inr (Or.inl ⟨id, hlt⟩)
    · exact Or.inl (heq ▸ Nat.lt_succ_self _)
  | rest hpc =>
    rw [hpc] at hbefore
    exact ⟨h.order, h.connected, hbefore⟩
  | deliver hpc _ =>
    rw [hpc] at hbefore
    exact ⟨h.order, h.connected, hbefore⟩

theorem Bounded.publish (h : s.Bounded) (hi : s.Inv n) {null : Bool}
    (hs : s.next (.publish null) = some s') : s'.Bounded := by
  obtain ⟨ring, hp, rfl⟩ := Option.map_eq_some_iff.mp hs
  obtain ⟨_, _, hhead⟩ := hi.elements.publish hp
  refine ⟨h.order, h.connected, fun r hr => ?_⟩
  exact (h.before r hr).imp_right (Or.imp_left fun ⟨hpc, hlt⟩ => ⟨hpc, lt_of_lt_of_le hlt hhead⟩)

theorem Bounded.step (h : s.Bounded) (hi : s.Inv n) {l : SubscriberStep}
    (hs : s.next l = some s') (hc : s.CopiesIdx l) : s'.Bounded := by
  cases l with
  | publish null => exact h.publish hi hs
  | subscriber => exact h.subscriber hi hs hc

/-- What is delivered was taken. -/
theorem Inv.inOrder (hi : s.Inv n) (h : s.Bounded) : s.InOrder := by
  have hsub : s.delivered.Sublist s.taken :=
    (List.sublist_append_right _ _).trans hi.queue
  exact ⟨h.order, h.order.sublist hsub, h.connected, hsub.subset⟩

end SubscriberState

open TransitionSystem

variable {tr : List (SubscriberState × SubscriberStep)} {s : SubscriberState}

/-- **When messages are delivered in order**, each at most once, and none
from before the subscriber was connected: as long as each copy is of the
index or newer. -/
theorem subscriber_in_order (hr : (subscriberSystem n k).Run tr s)
    (hc : Met SubscriberState.CopiesIdx tr) : Throughout SubscriberState.InOrder tr s := by
  have hinv : Throughout (fun s => s.Inv n ∧ s.Bounded) tr s := by
    refine hr.throughout_of_met ?_ (fun s l s' _ h hstep hl => ?_) hc
    · rintro s ⟨ring, hring, rfl⟩
      exact ⟨SubscriberState.connect_inv hring k, .nil, nofun, nofun⟩
    · exact ⟨h.1.step hstep, h.2.step h.1 hstep hl⟩
  exact ⟨hinv.1.1.inOrder hinv.1.2, fun e he => (hinv.2 e he).1.inOrder (hinv.2 e he).2⟩

/-- The turns of the subscriber in one `spin_once` with a message. -/
def spinTurns : List SubscriberStep := List.replicate 6 .subscriber

/-- A subscriber which misses a message, with a buffer of two: the two it
takes are delivered in order. -/
theorem subscriber_in_order_missed : ∃ tr s, (subscriberSystem 2 10).Run tr s
    ∧ s.delivered = [2, 0] ∧ Throughout SubscriberState.InOrder tr s := by
  have htrace : (trace SubscriberState.next [] (SubscriberState.connect (.ofSize 2) 10)
      (List.flatten [[.publish false], spinTurns, [.publish false, .publish false], spinTurns,
        [.subscriber]])).map
        (fun e => (e.2.delivered, decide (Met SubscriberState.CopiesIdx e.1)))
      = some ([2, 0], true) := by decide +kernel
  obtain ⟨tr, s, hr, heq⟩ :=
    Run.exists_of_trace (S := subscriberSystem 2 10) (fun _ _ _ h => h) ⟨_, .ofSize, rfl⟩ htrace
  obtain ⟨hdel, hmet⟩ := Prod.mk.inj heq
  exact ⟨tr, s, hr, hdel, subscriber_in_order hr (of_decide_eq_true hmet)⟩

/-- **A message delivered twice**: with a buffer of two, the second message
is published between the check for the first and the copy of it. The copy
is moved to the second, and `idx_`, which is only increased, comes to it
once more. And a null pointer published leaves an old message in the
element, which is delivered again, after a newer one. -/
theorem subscriber_not_in_order :
    (∃ s, (subscriberSystem 2 10).Reachable s ∧ s.delivered = [1, 1] ∧ ¬ s.InOrder)
    ∧ ∃ s, (subscriberSystem 2 10).Reachable s ∧ s.delivered = [0, 1, 0] ∧ ¬ s.InOrder := by
  constructor
  · have htrace : (trace SubscriberState.next [] (SubscriberState.connect (.ofSize 2) 10)
        (List.flatten [[.publish false, .subscriber, .subscriber, .publish false],
          List.replicate 11 .subscriber])).map (fun e => e.2.delivered)
        = some [1, 1] := by decide +kernel
    obtain ⟨tr, s, hr, hdel⟩ :=
      Run.exists_of_trace (S := subscriberSystem 2 10) (fun _ _ _ h => h) ⟨_, .ofSize, rfl⟩ htrace
    dsimp only at hdel
    refine ⟨s, hr.reachable, hdel, fun h => absurd h.delivered ?_⟩
    rw [hdel]
    decide
  · have htrace : (trace SubscriberState.next [] (SubscriberState.connect (.ofSize 2) 10)
        (List.flatten [[.publish false], spinTurns, [.publish false], spinTurns,
          [.publish true], spinTurns])).map (fun e => e.2.delivered)
        = some [0, 1, 0] := by decide +kernel
    obtain ⟨tr, s, hr, hdel⟩ :=
      Run.exists_of_trace (S := subscriberSystem 2 10) (fun _ _ _ h => h) ⟨_, .ofSize, rfl⟩ htrace
    dsimp only at hdel
    refine ⟨s, hr.reachable, hdel, fun h => absurd h.delivered ?_⟩
    rw [hdel]
    decide
