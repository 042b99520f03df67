import CoinData.Subscriber

/-!
# A publisher which goes away

The destructor of the publisher first clears `is_online`, and then resets
the elements of the buffer from the head to the tail; the head and the tail
it leaves as they are. A subscriber is not told. It is the task
`check_connect_status_` of the timer that looks at `is_online`, and the
timer starts it in `spin_once` if more than 100 ms have passed since it did
so last. Until then the subscriber goes by the head and the tail, and what
it has not read by the time its element is reset is a null pointer, on
which `invoke_` aborts.

The steps of the subscriber are those of the module before. Here they are
taken within `spin_once`, all publications are of messages, and the
publisher may be destroyed.
-/

/-- Where the publisher is in its life. -/
inductive PublisherPc where
  | online
  /-- In the destructor, `is_online` is cleared, and next the head is read. -/
  | offline
  /-- Next, `idx` is compared with the tail and its element is reset. -/
  | resetting (idx : ℕ)
  | destroyed
deriving DecidableEq, Repr

/-- Where `spin_once` is, as far as one subscriber is concerned. -/
inductive SpinPc where
  /-- The subscriber is in `wait_connect_list_`. -/
  | waiting
  /-- It is in `connected_list_`, and `spin_once` has not been called. -/
  | between
  /-- The timer, at the time `now`, has started `check_connect_status_`. -/
  | checking (now : UInt64)
  /-- `is_ready_`, `invoke_` and `spin_`. -/
  | serving
deriving DecidableEq, Repr

/-- **A subscriber and a publisher which may go away**: `isOnline` is in the
shared memory, `lastInvoke` is the `last_invoke_time` of the task
`check_connect_status_`. -/
structure OfflineState where
  subscriber : SubscriberState
  publisher : PublisherPc
  isOnline : Bool
  lastInvoke : UInt64
  spin : SpinPc

/-- Who takes a step. -/
inductive OfflineStep where
  /-- The publisher publishes a message. -/
  | publish
  /-- The destructor of the publisher is called. -/
  | destroy
  /-- The destructor goes on. -/
  | publisher
  /-- The subscriber is connected, the task having last been run at `lastInvoke`. -/
  | connect (lastInvoke : UInt64)
  /-- `spin_once` is called at the time `now`. -/
  | spinOnce (now : UInt64)
  /-- `spin_once` goes on. -/
  | channal
deriving DecidableEq, Repr

namespace SubscriberState

/-- `connecte_to_`: the subscriber begins at the tail. -/
def connecteTo (s : SubscriberState) : SubscriberState :=
  { s with idx := s.ring.tail, connected := s.ring.tail, pc := .idle }

end SubscriberState

namespace OfflineState

/-- The next step of `~LocalPublisher`. -/
def publisherStep (s : OfflineState) : Option OfflineState :=
  match s.publisher with
  | .offline => some { s with publisher := .resetting s.subscriber.ring.head }
  | .resetting idx =>
    let ring := s.subscriber.ring
    if idx < ring.tail then
      some { s with
        subscriber := { s.subscriber with ring := ring.assign (ring.element idx) none }
        publisher := .resetting (idx + 1) }
    else some { s with publisher := .destroyed }
  | _ => none

/-- The next step of `spin_once`: `is_online` is looked at, or the
subscriber takes its turn, which ends with `spin_`. -/
def channalStep (s : OfflineState) : Option OfflineState :=
  match s.spin with
  | .checking now =>
    some { s with lastInvoke := now, spin := if s.isOnline then .serving else .waiting }
  | .serving =>
    s.subscriber.subscriberStep.map fun subscriber =>
      { s with
        subscriber := subscriber
        spin := if s.subscriber.pc = .spin then .between else .serving }
  | _ => none

/-- Take a step, if it is possible. -/
def next (s : OfflineState) : OfflineStep → Option OfflineState
  | .publish =>
    if s.publisher = .online then
      (LocalPublisher.publish s.subscriber.ring false).map fun ring =>
        { s with subscriber := { s.subscriber with ring := ring } }
    else none
  | .destroy =>
    if s.publisher = .online then some { s with publisher := .offline, isOnline := false }
    else none
  | .publisher => s.publisherStep
  | .connect lastInvoke =>
    if s.spin = .waiting then
      some { s with
        subscriber := s.subscriber.connecteTo, lastInvoke := lastInvoke, spin := .between }
    else none
  | .spinOnce now =>
    if s.spin = .between then
      -- the subtraction wraps around
      some { s with spin := if 100 < now - s.lastInvoke then .checking now else .serving }
    else none
  | .channal => s.channalStep

/-- A publisher with a buffer of size `n`, and a subscriber with a queue for
`k` elements which waits for it. -/
def start (n k : ℕ) : OfflineState where
  subscriber := .connect (.ofSize n) k
  publisher := .online
  isOnline := true
  lastInvoke := 0
  spin := .waiting

end OfflineState

/-- **The system of a subscriber and a publisher which may go away.** -/
def offlineSystem (n k : ℕ) : TransitionSystem OfflineState OfflineStep where
  init s := s = OfflineState.start n k
  step s l s' := s.next l = some s'

/-! ## What the destructor has reset -/

/-- The numbers below have been reset, as far as they are in the window. -/
def PublisherPc.cleared (tail : ℕ) : PublisherPc → ℕ
  | .online | .offline => 0
  | .resetting idx => idx
  | .destroyed => tail

variable {n k : ℕ} {ring : SharedCircularBuffer (Option ℕ)}

/-- A reset leaves the other elements where they belong. -/
theorem Elements.reset (h : Elements ring n) (slot : ℕ) :
    Elements (ring.assign slot none) n := by
  refine ⟨fun hn => ⟨(h.window hn).size, hn, (h.window hn).head_eq⟩, h.pushed, h.size,
    fun i r hr => ?_⟩
  change Function.update ring.buffer slot none i = some r at hr
  by_cases hi : i = slot
  · rw [hi, Function.update_self] at hr
    cases hr
  · rw [Function.update_of_ne hi] at hr
    exact h.element i r hr

namespace SubscriberState

variable {s s' : SubscriberState}

theorem Inv.connecteTo (h : s.Inv n) : s.connecteTo.Inv n := by
  refine ⟨h.elements, le_rfl, nofun, nofun, List.Sublist.trans ?_ h.queue⟩
  show ([] ++ s.buffer.reverse ++ s.delivered).Sublist _
  rw [List.nil_append, List.append_assoc]
  exact List.sublist_append_right _ _

theorem Inv.reset (h : s.Inv n) (slot : ℕ) : ({ s with ring := s.ring.assign slot none } :
    SubscriberState).Inv n :=
  ⟨h.elements.reset slot, h.connected, h.behind, h.ready, h.queue⟩

/-- What the subscriber may still ask for, when the destructor has come to
`cleared`: a number in the window which it has passed is null, any other
message since the subscriber was connected is in its element. -/
structure Holds (s : SubscriberState) (n cleared : ℕ) : Prop where
  message : ∀ i, s.connected ≤ i → i < s.ring.tail → s.ring.tail ≤ i + n →
    (s.ring.head ≤ i → cleared ≤ i) → s.ring.buffer (i % n) = some i
  null : ∀ i, s.ring.head ≤ i → i < cleared → i < s.ring.tail → s.ring.buffer (i % n) = none

variable {cleared : ℕ}

theorem Holds.publish (h : s.Holds n 0) (he : Elements s.ring n) {ring' : SharedCircularBuffer
    (Option ℕ)} (hp : LocalPublisher.publish s.ring false = some ring') :
    ({ s with ring := ring' } : SubscriberState).Holds n 0 := by
  unfold LocalPublisher.publish at hp
  split at hp
  · cases hp
  · cases hp
    refine ⟨fun i hconn hi htail _ => ?_, nofun⟩
    change i < s.ring.tail + 1 at hi
    change s.ring.tail + 1 ≤ i + n at htail
    show Function.update s.ring.buffer (s.ring.tail % s.ring.totalSize) (some s.ring.tail) (i % n)
      = some i
    rw [he.size]
    rcases Nat.lt_succ_iff_lt_or_eq.mp hi with hlt | heq
    · have hne : i % n ≠ s.ring.tail % n := Nat.mod_ne_of_lt_add hlt (by omega)
      rw [Function.update_of_ne hne]
      exact h.message i hconn hlt (by omega) fun _ => Nat.zero_le i
    · rw [heq, Function.update_self]

/-- **One turn of the loop of the destructor** makes one more number null. -/
theorem Holds.reset {idx : ℕ} (h : s.Holds n idx) (hw : s.ring.Window n)
    (hhead : s.ring.head ≤ idx) (htail : idx < s.ring.tail) :
    ({ s with ring := s.ring.assign (s.ring.element idx) none } : SubscriberState).Holds n
      (idx + 1) := by
  have heq := hw.head_eq
  have hbuf : ∀ i, (s.ring.assign (s.ring.element idx) none).buffer i
      = Function.update s.ring.buffer (idx % n) none i := by
    intro i
    rw [← hw.element_eq hhead htail]
    rfl
  refine ⟨fun i hconn hi hwin hclear => ?_, fun i hi hclear hitail => ?_⟩
  · change i < s.ring.tail at hi
    change s.ring.tail ≤ i + n at hwin
    change s.ring.head ≤ i → idx + 1 ≤ i at hclear
    have hne : i % n ≠ idx % n := by
      rcases lt_or_ge i s.ring.head with hlt | hle
      · -- the number in the element which is written next
        exact Nat.mod_ne_of_lt_add (lt_of_lt_of_le hlt hhead) (by omega)
      · exact (Nat.mod_ne_of_lt_add (hclear hle) (by omega)).symm
    rw [hbuf, Function.update_of_ne hne]
    exact h.message i hconn hi hwin fun hle => Nat.le_of_succ_le (hclear hle)
  · rw [hbuf]
    by_cases hslot : i % n = idx % n
    · rw [hslot, Function.update_self]
    · rw [Function.update_of_ne hslot]
      refine h.null i hi (lt_of_le_of_ne (Nat.le_of_lt_succ hclear) ?_) hitail
      rintro rfl
      exact hslot rfl

theorem Holds.connecteTo (h : s.Holds n cleared) : s.connecteTo.Holds n cleared :=
  ⟨fun _ hconn hi => absurd (lt_of_le_of_lt hconn hi) (lt_irrefl _), h.null⟩

/-- **A copy of what the destructor has not passed** is of a message. -/
theorem Holds.copy_eq_some (h : s.Holds n cleared) (hw : s.ring.Window n)
    (hconn : s.connected ≤ s.idx) (hready : s.idx < s.ring.tail)
    (hspare : cleared ≤ max s.idx s.ring.head) : ∃ i, s.ring.copy s.idx = some i := by
  have heq := hw.head_eq
  have hpos := hw.pos
  rcases lt_or_ge s.ring.head s.ring.tail with hhead | htail
  · refine ⟨max s.idx s.ring.head, ?_⟩
    show s.ring.buffer (s.ring.element s.idx) = _
    rw [hw.element_eq_max hready]
    exact h.message _ (hconn.trans (le_max_left _ _)) (max_lt hready hhead) (by omega)
      fun _ => hspare
  · -- a buffer of one element
    have hone : n = 1 := by omega
    refine ⟨s.ring.tail - 1, ?_⟩
    show s.ring.buffer (s.ring.element s.idx) = _
    rw [hw.element_of_lt (lt_of_lt_of_le hready htail), hone, Nat.mod_one,
      ← Nat.mod_one (s.ring.tail - 1), ← hone]
    exact h.message _ (by omega) (by omega) (by omega) (by omega)

/-- **A copy of what the destructor has passed** is null. -/
theorem Holds.copy_eq_none (h : s.Holds n cleared) (hw : s.ring.Window n)
    (hready : s.idx < s.ring.tail) (hle : cleared ≤ s.ring.tail)
    (hpassed : max s.idx s.ring.head < cleared) : s.ring.copy s.idx = none := by
  have htail : max s.idx s.ring.head < s.ring.tail := lt_of_lt_of_le hpassed hle
  show s.ring.buffer (s.ring.element s.idx) = none
  rw [hw.element_eq_max hready]
  exact h.null _ (le_max_right _ _) hpassed htail

end SubscriberState

namespace OfflineState

variable {s s' : OfflineState}

/-- How far the destructor has come. -/
def cleared (s : OfflineState) : ℕ := s.publisher.cleared s.subscriber.ring.tail

/-- **The destructor has not passed what is copied**: the number asked for,
which is the head if `idx_` has fallen behind it. -/
def Spared (s : OfflineState) (l : OfflineStep) : Prop :=
  l = .channal → s.spin = .serving → s.subscriber.pc = .copy →
    s.cleared ≤ max s.subscriber.idx s.subscriber.ring.head

instance (s : OfflineState) (l : OfflineStep) : Decidable (s.Spared l) := by
  unfold Spared
  infer_instance

/-- **The subscriber has not aborted**, and all it has copied are messages
that were published. -/
structure Safe (s : OfflineState) : Prop where
  running : s.subscriber.pc ≠ .aborted
  published : ∀ r ∈ s.subscriber.taken, r < s.subscriber.ring.tail

/-- What holds of subscriber and publisher in every state. -/
structure Inv (s : OfflineState) (n : ℕ) : Prop where
  subscriber : s.subscriber.Inv n
  head_le : s.subscriber.ring.head ≤ s.subscriber.ring.tail
  resetting : ∀ idx, s.publisher = .resetting idx →
    s.subscriber.ring.head ≤ idx ∧ idx ≤ s.subscriber.ring.tail
  holds : s.subscriber.Holds n s.cleared

theorem Inv.cleared_le (h : s.Inv n) : s.cleared ≤ s.subscriber.ring.tail := by
  unfold cleared
  cases hpub : s.publisher with
  | online => exact Nat.zero_le _
  | offline => exact Nat.zero_le _
  | resetting idx => exact (h.resetting idx hpub).2
  | destroyed => exact le_rfl

theorem start_inv (n k : ℕ) : (start n k).Inv n :=
  ⟨SubscriberState.connect_inv .ofSize k, le_rfl, nofun, fun _ _ hi => absurd hi (Nat.not_lt_zero _),
    nofun⟩

theorem Inv.publish (h : s.Inv n) (hs : s.next .publish = some s') :
    s'.Inv n ∧ (s.Safe → s'.Safe) := by
  simp only [next] at hs
  split at hs
  · next hpub =>
    obtain ⟨ring, hp, rfl⟩ := Option.map_eq_some_iff.mp hs
    obtain ⟨helem, htail, _⟩ := h.subscriber.elements.publish hp
    have hw := helem.window (helem.pushed (by omega))
    have hholds := h.holds
    unfold cleared at hholds
    rw [hpub] at hholds
    have hsub : s.subscriber.next (.publish false) = some { s.subscriber with ring := ring } := by
      show (LocalPublisher.publish s.subscriber.ring false).map _ = _
      rw [hp]
      rfl
    refine ⟨⟨h.subscriber.publish hsub, ?_, fun idx hidx => ?_, ?_⟩,
      fun hsafe => ⟨hsafe.running, fun r hr => ?_⟩⟩
    · have hhead := hw.head_eq
      have hpos := hw.pos
      show ring.head ≤ ring.tail
      omega
    · cases hpub.symm.trans hidx
    · unfold cleared
      rw [hpub]
      exact hholds.publish h.subscriber.elements hp
    · have hlt := hsafe.published r hr
      show r < ring.tail
      omega
  · cases hs

theorem Inv.destroy (h : s.Inv n) (hs : s.next .destroy = some s') :
    s'.Inv n ∧ (s.Safe → s'.Safe) := by
  simp only [next] at hs
  split at hs
  · next hpub =>
    cases hs
    have hholds := h.holds
    unfold cleared at hholds
    rw [hpub] at hholds
    exact ⟨⟨h.subscriber, h.head_le, nofun, hholds⟩, fun hsafe => ⟨hsafe.running, hsafe.published⟩⟩
  · cases hs

theorem Inv.publisher (h : s.Inv n) (hs : s.publisherStep = some s') :
    s'.Inv n ∧ (s.Safe → s'.Safe) := by
  have hholds := h.holds
  unfold cleared at hholds
  unfold publisherStep at hs
  cases hpub : s.publisher with
  | online =>
    rw [hpub] at hs
    cases hs
  | offline =>
    rw [hpub] at hs hholds
    cases hs
    refine ⟨⟨h.subscriber, h.head_le, ?_, ⟨fun i hconn hi hwin _ => ?_, fun i hi hlt => ?_⟩⟩,
      fun hsafe => ⟨hsafe.running, hsafe.published⟩⟩
    · rintro idx ⟨⟩
      exact ⟨le_rfl, h.head_le⟩
    · exact hholds.message i hconn hi hwin fun _ => Nat.zero_le i
    · exact absurd (lt_of_le_of_lt hi hlt) (lt_irrefl _)
  | resetting idx =>
    rw [hpub] at hs hholds
    obtain ⟨hhead, hle⟩ := h.resetting idx hpub
    dsimp only at hs
    split at hs
    · next htail =>
      cases hs
      have hw := h.subscriber.elements.window
        (h.subscriber.elements.pushed (Nat.zero_lt_of_lt htail))
      refine ⟨⟨h.subscriber.reset _, h.head_le, ?_, hholds.reset hw hhead htail⟩,
        fun hsafe => ⟨hsafe.running, hsafe.published⟩⟩
      rintro idx' ⟨⟩
      exact ⟨Nat.le_succ_of_le hhead, htail⟩
    · next htail =>
      cases hs
      have heq : idx = s.subscriber.ring.tail := le_antisymm hle (not_lt.mp htail)
      refine ⟨⟨h.subscriber, h.head_le, nofun, ?_⟩, fun hsafe => ⟨hsafe.running, hsafe.published⟩⟩
      show s.subscriber.Holds n s.subscriber.ring.tail
      exact heq ▸ hholds
  | destroyed =>
    rw [hpub] at hs
    cases hs

theorem Inv.connect (h : s.Inv n) {lastInvoke : UInt64}
    (hs : s.next (.connect lastInvoke) = some s') : s'.Inv n ∧ (s.Safe → s'.Safe) := by
  simp only [next] at hs
  split at hs
  · cases hs
    exact ⟨⟨h.subscriber.connecteTo, h.head_le, h.resetting, h.holds.connecteTo⟩,
      fun hsafe => ⟨nofun, hsafe.published⟩⟩
  · cases hs

theorem Inv.spinOnce (h : s.Inv n) {now : UInt64} (hs : s.next (.spinOnce now) = some s') :
    s'.Inv n ∧ (s.Safe → s'.Safe) := by
  simp only [next] at hs
  split at hs
  · cases hs
    exact ⟨⟨h.subscriber, h.head_le, h.resetting, h.holds⟩,
      fun hsafe => ⟨hsafe.running, hsafe.published⟩⟩
  · cases hs

/-- A turn of the subscriber changes nothing that is shared. -/
theorem Inv.turn (h : s.Inv n) {subscriber : SubscriberState} {spin : SpinPc}
    (hs : s.subscriber.subscriberStep = some subscriber) :
    ({ s with subscriber := subscriber, spin := spin } : OfflineState).Inv n := by
  obtain ⟨hring, hconn⟩ := SubscriberState.subscriberStep_ring hs
  have hholds := h.holds
  refine ⟨h.subscriber.subscriber hs, ?_, fun idx hidx => ?_, ⟨fun i => ?_, fun i => ?_⟩⟩
  · show subscriber.ring.head ≤ subscriber.ring.tail
    rw [hring]
    exact h.head_le
  · show subscriber.ring.head ≤ idx ∧ idx ≤ subscriber.ring.tail
    rw [hring]
    exact h.resetting idx hidx
  · unfold cleared
    show subscriber.connected ≤ i → _
    rw [hring, hconn]
    exact hholds.message i
  · unfold cleared
    dsimp only
    rw [hring]
    exact hholds.null i

theorem Inv.channal (h : s.Inv n) (hs : s.channalStep = some s') : s'.Inv n := by
  unfold channalStep at hs
  cases hspin : s.spin with
  | checking now =>
    rw [hspin] at hs
    cases hs
    exact ⟨h.subscriber, h.head_le, h.resetting, h.holds⟩
  | serving =>
    rw [hspin] at hs
    obtain ⟨subscriber, hsub, rfl⟩ := Option.map_eq_some_iff.mp hs
    exact h.turn hsub
  | waiting =>
    rw [hspin] at hs
    cases hs
  | between =>
    rw [hspin] at hs
    cases hs

/-- **A turn of the subscriber is safe** exactly if it does not copy what
the destructor has passed. -/
theorem Inv.safe_iff (h : s.Inv n) (hsafe : s.Safe) (hs : s.channalStep = some s') :
    s'.Safe ↔ s.Spared .channal := by
  unfold channalStep at hs
  cases hspin : s.spin with
  | checking now =>
    rw [hspin] at hs
    cases hs
    exact iff_of_true ⟨hsafe.running, hsafe.published⟩ fun _ hserving => by
      cases hspin.symm.trans hserving
  | serving =>
    rw [hspin] at hs
    obtain ⟨subscriber, hsub, rfl⟩ := Option.map_eq_some_iff.mp hs
    obtain ⟨hring, _⟩ := SubscriberState.subscriberStep_ring hsub
    by_cases hpc : s.subscriber.pc = .copy
    · have hready := h.subscriber.ready hpc
      have helem := h.subscriber.elements
      have hw := helem.window (helem.pushed (Nat.zero_lt_of_lt hready))
      have hcopy := SubscriberState.subscriberStep_of_copy hpc hsub
      constructor
      · intro hsafe' _ _ _
        by_contra hpassed
        have hnone := h.holds.copy_eq_none hw hready h.cleared_le (not_le.mp hpassed)
        rcases hcopy with ⟨_, habort⟩ | ⟨it, hsome, _⟩
        · exact hsafe'.running habort
        · cases hnone.symm.trans hsome
      · intro hspared
        obtain ⟨i, hi⟩ := h.holds.copy_eq_some hw h.subscriber.connected hready
          (hspared rfl hspin hpc)
        rcases hcopy with ⟨hnone, _⟩ | ⟨it, hsome, hstore, htaken⟩
        · cases hnone.symm.trans hi
        · refine ⟨?_, ?_⟩
          · show subscriber.pc ≠ .aborted
            rw [hstore]
            nofun
          · show ∀ r ∈ subscriber.taken, r < subscriber.ring.tail
            rw [htaken, hring]
            exact List.forall_mem_cons.mpr ⟨(helem.element _ it hsome).1, hsafe.published⟩
    · obtain ⟨hrun, htaken⟩ := SubscriberState.subscriberStep_of_ne_copy hpc hsub
      refine iff_of_true ⟨hrun, ?_⟩ fun _ _ hcopy => absurd hcopy hpc
      show ∀ r ∈ subscriber.taken, r < subscriber.ring.tail
      rw [htaken, hring]
      exact hsafe.published
  | waiting =>
    rw [hspin] at hs
    cases hs
  | between =>
    rw [hspin] at hs
    cases hs

/-- Only the subscriber itself can go wrong. -/
theorem Inv.step (h : s.Inv n) {l : OfflineStep} (hs : s.next l = some s') :
    s'.Inv n ∧ (s.Safe → (s'.Safe ↔ s.Spared l)) := by
  have hother : l ≠ .channal → s'.Inv n ∧ (s.Safe → s'.Safe) := by
    intro hl
    cases l with
    | publish => exact h.publish hs
    | destroy => exact h.destroy hs
    | publisher => exact h.publisher hs
    | connect lastInvoke => exact h.connect hs
    | spinOnce now => exact h.spinOnce hs
    | channal => exact absurd rfl hl
  by_cases hl : l = .channal
  · rw [hl] at hs ⊢
    exact ⟨h.channal hs, fun hsafe => h.safe_iff hsafe hs⟩
  · obtain ⟨hinv, hsafe'⟩ := hother hl
    exact ⟨hinv, fun hsafe => iff_of_true (hsafe' hsafe) fun heq => absurd heq hl⟩

end OfflineState

open TransitionSystem

variable {tr : List (OfflineState × OfflineStep)} {s : OfflineState}

/-- **When the subscriber never aborts**: as long as it does not copy what
the destructor of the publisher has passed. -/
theorem offlineSystem_safe_iff (hr : (offlineSystem n k).Run tr s) :
    Throughout OfflineState.Safe tr s ↔ Met OfflineState.Spared tr := by
  refine hr.forall_iff (J := fun s => s.Inv n) ?_ (fun s l s' hP hJ hstep hc => ?_)
    fun s l s' hP hJ hstep hc hP' => ?_
  · rintro s rfl
    exact ⟨⟨nofun, nofun⟩, OfflineState.start_inv n k⟩
  · obtain ⟨hinv, hsafe⟩ := hJ.step hstep
    exact ⟨(hsafe hP).mpr hc, hinv⟩
  · exact hc (((hJ.step hstep).2 hP).mp hP')

/-- The subscriber reads one of two messages before the publisher is
destroyed, and the check comes before it asks for the other one. -/
theorem offlineSystem_safe_iff_checked : ∃ tr s, (offlineSystem 10 10).Run tr s
    ∧ s.spin = .waiting ∧ s.subscriber.delivered = [0] ∧ s.publisher = .destroyed
    ∧ Throughout OfflineState.Safe tr s := by
  have htrace : (trace OfflineState.next [] (OfflineState.start 10 10)
      (List.flatten [[.connect 1000, .publish, .publish, .spinOnce 1050], List.replicate 6 .channal,
        [.destroy], List.replicate 4 .publisher, [.spinOnce 1101, .channal]])).map
        (fun e => (e.2.spin, e.2.subscriber.delivered, e.2.publisher,
          decide (Met OfflineState.Spared e.1)))
      = some (.waiting, [0], .destroyed, true) := by decide +kernel
  obtain ⟨tr, s, hr, heq⟩ :=
    Run.exists_of_trace (S := offlineSystem 10 10) (fun _ _ _ h => h) rfl htrace
  obtain ⟨hspin, heq⟩ := Prod.mk.inj heq
  obtain ⟨hdel, heq⟩ := Prod.mk.inj heq
  obtain ⟨hpub, hmet⟩ := Prod.mk.inj heq
  exact ⟨tr, s, hr, hspin, hdel, hpub,
    (offlineSystem_safe_iff hr).mpr (of_decide_eq_true hmet)⟩

/-- **A subscriber which aborts**: a message is published, the publisher is
destroyed, and `spin_once` is called 50 ms after the last check. -/
theorem offlineSystem_not_safe : ∃ s, (offlineSystem 10 10).Reachable s
    ∧ s.subscriber.pc = .aborted ∧ ¬ s.Safe := by
  have htrace : (trace OfflineState.next [] (OfflineState.start 10 10)
      (List.flatten [[.connect 1000, .publish, .destroy], List.replicate 3 .publisher,
        [.spinOnce 1050], List.replicate 3 .channal])).map (fun e => e.2.subscriber.pc)
      = some .aborted := by decide +kernel
  obtain ⟨tr, s, hr, hpc⟩ :=
    Run.exists_of_trace (S := offlineSystem 10 10) (fun _ _ _ h => h) rfl htrace
  dsimp only at hpc
  exact ⟨s, hr.reachable, hpc, fun h => h.running hpc⟩
