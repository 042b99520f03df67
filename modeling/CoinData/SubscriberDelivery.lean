import CoinData.Inevitability
import CoinData.Subscriber
import Mathlib.Data.List.Basic

/-!
# What a subscriber misses

The buffer between a publisher and a subscriber has no room for everything:
a push that finds it full moves the head on, whether the subscriber has been
there or not. A publisher **keeps pace** if none of its publications moves
the head past the one that the subscriber takes next. Then the callback is
called on every publication since the subscriber was connected, one after
the other; and it is called on all of them only then, since a publication
that has left the window is not found again.

The queue of the subscriber does not lose anything by itself. An element is
put in by `invoke_` and served by the `spin_` right after it, so there is
never more than one.
-/

namespace SubscriberPc

/-- One, if the publication of the index has been taken already. -/
def ahead : SubscriberPc → ℕ
  | .store _ | .advance => 1
  | _ => 0

/-- How many elements the queue may have. -/
def queued : SubscriberPc → ℕ
  | .advance | .spin => 1
  | _ => 0

/-- How many turns there are at most before the next copy. -/
def rank : SubscriberPc → ℕ
  | .catchUp | .aborted => 0
  | .copy => 1
  | .checkTail => 2
  | .idle => 3
  | .spin => 4
  | .advance => 5
  | .store _ => 6

end SubscriberPc

namespace SubscriberState

/-- The publication that the subscriber takes next. -/
def due (s : SubscriberState) : ℕ := s.idx + s.pc.ahead

/-- A message is published, and not a null pointer. -/
def NotNull (_ : SubscriberState) (l : SubscriberStep) : Prop := l ≠ .publish true

/-- **The publisher keeps pace**: the publication does not move the head past
the one that the subscriber takes next. -/
def KeepsPace (s : SubscriberState) : SubscriberStep → Prop
  | .publish _ => s.ring.tail + 2 ≤ s.due + s.ring.totalSize
  | .subscriber => True

instance (s : SubscriberState) (l : SubscriberStep) : Decidable (s.NotNull l) :=
  inferInstanceAs (Decidable (_ ≠ _))

instance (s : SubscriberState) : (l : SubscriberStep) → Decidable (s.KeepsPace l)
  | .publish _ => inferInstanceAs (Decidable (_ ≤ _))
  | .subscriber => inferInstanceAs (Decidable True)

/-- The callback has been called on all publications up to `tail`, from the
first one since the subscriber was connected, one after the other. -/
def HasAll (s : SubscriberState) (tail : ℕ) : Prop :=
  s.delivered.reverse = List.range' s.connected (tail - s.connected)

end SubscriberState

/-- **The subscriber by itself**, while nothing is published. -/
def quietSystem : TransitionSystem SubscriberState Unit where
  init _ := True
  step s _ s' := s.subscriberStep = some s'

/-! ## The numbers in the buffer -/

namespace SubscriberState

variable {s s' : SubscriberState} {n k m : ℕ} {l : SubscriberStep}

/-- **The elements from the connection on hold their own numbers.** -/
def Numbered (s : SubscriberState) (n : ℕ) : Prop :=
  ∃ f, s.ring.Keeps n f ∧ ∀ j, s.connected ≤ j → f j = some j

/-- What is not overwritten before a subscriber is connected does not
matter. -/
theorem numbered_connect {ring : SharedCircularBuffer (Option ℕ)} (h : Published n ring)
    (hn : 0 < n) : (connect ring k).Numbered n := by
  refine ⟨fun j => if ring.tail ≤ j then some j else ring.buffer (j % n),
    ⟨h.elements.window hn, fun i hi _ => ?_⟩, fun j hj => if_pos hj⟩
  exact (if_neg (not_le.mpr hi)).symm

/-- A message that is published. -/
theorem next_publish (hs : s.next (.publish false) = some s') :
    s' = { s with ring := s.ring.pushBack (some s.ring.tail) } := by
  obtain ⟨ring, hp, rfl⟩ := Option.map_eq_some_iff.mp hs
  unfold LocalPublisher.publish at hp
  split at hp
  · cases hp
  · cases hp
    rfl

theorem Numbered.publish (h : s.Numbered n) (hconn : s.connected ≤ s.ring.tail)
    (hs : s.next (.publish false) = some s') : s'.Numbered n := by
  obtain ⟨f, hkeeps, hf⟩ := h
  rw [next_publish hs]
  refine ⟨f, ?_, hf⟩
  have hpush := hkeeps.pushBack
  rwa [hf s.ring.tail hconn] at hpush

theorem Numbered.subscriber (h : s.Numbered n) (hs : s.subscriberStep = some s') :
    s'.Numbered n := by
  obtain ⟨hring, hconn⟩ := subscriberStep_ring hs
  obtain ⟨f, hkeeps, hf⟩ := h
  exact ⟨f, hring ▸ hkeeps, hconn ▸ hf⟩

/-- **A copy is of the index**, or of the head if this has gone past it. -/
theorem Numbered.copy_eq (h : s.Numbered n) (hn : 1 < n) (hconn : s.connected ≤ s.idx)
    (htail : s.idx < s.ring.tail) : s.ring.copy s.idx = some (max s.idx s.ring.head) := by
  obtain ⟨f, hkeeps, hf⟩ := h
  have hhead := hkeeps.head_eq
  have hcopy : s.ring.copy s.idx = s.ring.buffer (max s.idx s.ring.head % n) :=
    congrArg s.ring.buffer (hkeeps.element_eq_max htail)
  rw [hcopy, hkeeps.get _ (max_lt htail (by omega)) (by omega)]
  exact hf _ (le_max_of_le_left hconn)

/-! ## Keeping pace -/

/-- Nothing is served if the queue is empty. -/
theorem rest_buffer (hpc : s.pc = .spin) (hs : s.subscriberStep = some { s with pc := .idle }) :
    s.buffer = [] := by
  unfold subscriberStep at hs
  rw [hpc] at hs
  dsimp only at hs
  split at hs
  · next hbuffer => exact hbuffer
  · next it buffer hbuffer =>
    have hsame : buffer = s.buffer := congrArg SubscriberState.buffer (Option.some.inj hs)
    rw [hbuffer] at hsame
    exact absurd hsame.symm (List.cons_ne_self it buffer)

/-- **What holds as long as the publisher keeps pace.** -/
structure Lossless (s : SubscriberState) (n : ℕ) : Prop where
  numbered : s.Numbered n
  room : 0 < s.bufferSize
  connected : s.connected ≤ s.idx
  head_le : s.ring.head ≤ s.due
  due_le : s.due ≤ s.ring.tail
  ready : s.pc = .copy → s.idx < s.ring.tail
  steady : s.pc ≠ .catchUp ∧ s.pc ≠ .aborted
  taken : s.taken.reverse = List.range' s.connected (s.due - s.connected)
  queue : s.delivered.reverse ++ s.buffer ++ s.pc.pending = s.taken.reverse
  short : s.buffer.length ≤ s.pc.queued

theorem lossless_connect {ring : SharedCircularBuffer (Option ℕ)} (h : Published n ring)
    (hn : 0 < n) (hk : 0 < k) : (connect ring k).Lossless n where
  numbered := numbered_connect h hn
  room := hk
  connected := le_rfl
  head_le := by
    have hhead := (h.elements.window hn).head_eq
    show ring.head ≤ ring.tail
    omega
  due_le := le_rfl
  ready hpc := by cases hpc
  steady := ⟨SubscriberPc.noConfusion, SubscriberPc.noConfusion⟩
  taken := by
    show [] = List.range' ring.tail (ring.tail - ring.tail)
    rw [Nat.sub_self]
    rfl
  queue := rfl
  short := le_rfl

/-- Nothing is left to be taken if there is no copy. -/
theorem noMore_tail (hpc : s.pc = .checkTail)
    (hs : s.subscriberStep = some { s with pc := .spin }) : s.ring.tail ≤ s.idx := by
  unfold subscriberStep at hs
  rw [hpc] at hs
  by_contra hlt
  rw [if_pos (Nat.not_le.mp hlt)] at hs
  cases congrArg SubscriberState.pc (Option.some.inj hs)

theorem Lossless.publish (h : s.Lossless n) (hpace : s.KeepsPace (.publish false))
    (hs : s.next (.publish false) = some s') : s'.Lossless n := by
  have hconn : s.connected ≤ s.ring.tail :=
    h.connected.trans ((Nat.le_add_right _ _).trans h.due_le)
  have hnum := h.numbered.publish hconn hs
  obtain ⟨f, hkeeps, _⟩ := h.numbered
  have hpace : s.ring.tail + 2 ≤ s.due + n := hkeeps.size ▸ hpace
  have hhead : (s.ring.pushBack (some s.ring.tail)).head ≤ s.due := by
    rw [hkeeps.toWindow.head_pushBack]
    omega
  rw [next_publish hs] at hnum ⊢
  exact ⟨hnum, h.room, h.connected, hhead, Nat.le_succ_of_le h.due_le,
    fun hpc => Nat.lt_succ_of_lt (h.ready hpc), h.steady, h.taken, h.queue, h.short⟩

/-- **A step of the subscriber loses nothing.** -/
theorem Lossless.subscriber (h : s.Lossless n) (hn : 1 < n) (hs : s.subscriberStep = some s') :
    s'.Lossless n := by
  obtain ⟨hnumbered, hroom, hconn, hhead, hdue, hready, hsteady, htaken, hqueue, hshort⟩ := h
  have hnum := hnumbered.subscriber hs
  unfold due at hhead hdue htaken
  cases move_of_subscriberStep hs with
  | behind hpc hlt =>
    rw [hpc] at hhead
    exact absurd hhead (Nat.not_le.mpr hlt)
  | catchUp hpc => exact absurd hpc hsteady.1
  | level hpc _ =>
    rw [hpc] at hhead hdue htaken hqueue hshort
    exact ⟨hnum, hroom, hconn, hhead, hdue, by simp,
      by simp, htaken, hqueue, hshort⟩
  | ready hpc hlt =>
    rw [hpc] at hhead hdue htaken hqueue hshort
    exact ⟨hnum, hroom, hconn, hhead, hdue, fun _ => hlt,
      by simp, htaken, hqueue, hshort⟩
  | noMore hpc =>
    rw [hpc] at hhead hdue htaken hqueue hshort
    exact ⟨hnum, hroom, hconn, hhead, hdue, by simp,
      by simp, htaken, hqueue, hshort.trans (Nat.zero_le 1)⟩
  | abort hpc hcopy =>
    rw [hnumbered.copy_eq hn hconn (hready hpc)] at hcopy
    cases hcopy
  | @take it hpc hcopy =>
    have hlt := hready hpc
    rw [hpc] at hhead htaken hqueue hshort
    have hhead : s.ring.head ≤ s.idx := hhead
    rw [hnumbered.copy_eq hn hconn hlt, max_eq_left hhead] at hcopy
    obtain rfl : s.idx = it := Option.some.inj hcopy
    refine ⟨hnum, hroom, hconn, Nat.le_succ_of_le hhead, hlt, by simp,
      by simp, ?_, ?_, hshort⟩
    · show (s.idx :: s.taken).reverse = List.range' s.connected (s.idx + 1 - s.connected)
      have htaken : s.taken.reverse = List.range' s.connected (s.idx - s.connected) := htaken
      rw [List.reverse_cons, htaken, Nat.succ_sub hconn, List.range'_1_concat,
        Nat.add_sub_cancel' hconn]
    · show s.delivered.reverse ++ s.buffer ++ [s.idx] = (s.idx :: s.taken).reverse
      rw [List.reverse_cons, ← hqueue]
      exact congrArg (· ++ [s.idx]) (List.append_nil _).symm
  | @store it hpc =>
    rw [hpc] at hhead hdue htaken hqueue hshort
    have hempty : s.buffer = [] := List.eq_nil_of_length_eq_zero (Nat.le_zero.mp hshort)
    rw [hempty] at hqueue ⊢
    -- one element always fits
    have hfits : ¬ s.bufferSize < ([] ++ [it]).length := Nat.not_lt.mpr hroom
    rw [if_neg hfits]
    exact ⟨hnum, hroom, hconn, hhead, hdue, by simp,
      by simp, htaken,
      by simpa [SubscriberPc.pending] using hqueue, le_rfl⟩
  | advance hpc =>
    rw [hpc] at hhead hdue htaken hqueue hshort
    exact ⟨hnum, hroom, Nat.le_succ_of_le hconn, hhead, hdue, by simp,
      by simp, htaken, hqueue, hshort⟩
  | rest hpc =>
    rw [hpc] at hhead hdue htaken hqueue
    refine ⟨hnum, hroom, hconn, hhead, hdue, by simp,
      by simp, htaken, hqueue, ?_⟩
    exact (congrArg List.length (rest_buffer hpc hs)).le
  | @deliver it buffer hpc hbuffer =>
    rw [hpc, hbuffer] at hqueue hshort
    rw [hpc] at hhead hdue htaken
    obtain rfl : buffer = [] := List.eq_nil_of_length_eq_zero (Nat.le_zero.mp
      (Nat.le_of_succ_le_succ hshort))
    refine ⟨hnum, hroom, hconn, hhead, hdue, by simp,
      by simp, htaken, ?_, le_rfl⟩
    simpa [SubscriberPc.pending] using hqueue

/-- Nothing is on its way when nothing is left to be taken. -/
theorem Lossless.hasAll (h : s.Lossless n) (hpc : s.pc = .idle ∨ s.pc = .checkTail)
    (htail : s.ring.tail ≤ s.idx) : s.HasAll s.ring.tail := by
  obtain ⟨_, _, _, _, hdue, _, _, htaken, hqueue, hshort⟩ := h
  unfold due at hdue htaken
  have hempty : s.pc.ahead = 0 ∧ s.pc.pending = [] ∧ s.pc.queued = 0 := by
    rcases hpc with hpc | hpc <;> rw [hpc] <;> exact ⟨rfl, rfl, rfl⟩
  obtain ⟨hahead, hpending, hqueued⟩ := hempty
  rw [hahead] at hdue htaken
  rw [hqueued] at hshort
  rw [hpending, List.eq_nil_of_length_eq_zero (Nat.le_zero.mp hshort), List.append_nil,
    List.append_nil] at hqueue
  rw [HasAll, hqueue, htaken, le_antisymm htail hdue]
  rfl

/-- How many turns there are at most until nothing is left. -/
def turns (s : SubscriberState) : ℕ := 6 * (s.ring.tail - s.due) + s.pc.rank

/-- The subscriber can take a step. -/
theorem Lossless.exists_step (h : s.Lossless n) : ∃ s', s.subscriberStep = some s' := by
  unfold subscriberStep
  cases hpc : s.pc with
  | aborted => exact absurd hpc h.steady.2
  | copy =>
    dsimp only
    split <;> exact ⟨_, rfl⟩
  | spin =>
    dsimp only
    split <;> exact ⟨_, rfl⟩
  | _ => exact ⟨_, rfl⟩

/-- **A step of the subscriber takes it nearer to the next copy.** -/
theorem Lossless.turns_lt (h : s.Lossless n) (hnot : ¬ s.HasAll s.ring.tail)
    (hs : s.subscriberStep = some s') : s'.turns < s.turns := by
  cases move_of_subscriberStep hs with
  | behind hpc _ | level hpc _ | ready hpc _ | store hpc | advance hpc | rest hpc
    | deliver hpc _ | abort hpc _ =>
    simp only [turns, due, hpc, SubscriberPc.ahead, SubscriberPc.rank]
    omega
  | catchUp hpc => exact absurd hpc h.steady.1
  | noMore hpc => exact absurd (h.hasAll (.inr hpc) (noMore_tail hpc hs)) hnot
  | take hpc _ =>
    have hlt := h.ready hpc
    simp only [turns, due, hpc, SubscriberPc.ahead, SubscriberPc.rank]
    omega

/-- **A subscriber that goes on comes to the end of what is published.** -/
theorem Lossless.inevitably (h : s.Lossless n) (hn : 1 < n) :
    quietSystem.Inevitably (fun s' => s'.HasAll s'.ring.tail) s := by
  refine .of_rank (I := fun s => s.Lossless n) turns ?_ ?_ h
  · exact fun s h _ => ⟨(), h.exists_step⟩
  · exact fun s _ s' h hnot hs => ⟨h.subscriber hn hs, h.turns_lt hnot hs⟩

/-! ## What is overtaken -/

/-- **A publication that the head has gone past** before it was taken. -/
structure Overtaken (s : SubscriberState) (n m : ℕ) : Prop where
  numbered : s.Numbered n
  connected : s.connected ≤ m
  lt_head : m < s.ring.head
  not_taken : m ∉ s.taken

theorem Overtaken.subscriber (h : s.Overtaken n m) (hi : s.Inv n) (hn : 1 < n)
    (hs : s.subscriberStep = some s') : s'.Overtaken n m := by
  obtain ⟨hring, hconn⟩ := subscriberStep_ring hs
  refine ⟨h.numbered.subscriber hs, hconn ▸ h.connected, hring ▸ h.lt_head, ?_⟩
  by_cases hpc : s.pc = .copy
  · rcases subscriberStep_of_copy hpc hs with ⟨hcopy, _⟩ | ⟨it, hcopy, _, htaken⟩
    · rw [h.numbered.copy_eq hn hi.connected (hi.ready hpc)] at hcopy
      cases hcopy
    · rw [h.numbered.copy_eq hn hi.connected (hi.ready hpc)] at hcopy
      have hlt := h.lt_head
      have hit : m < it := lt_of_lt_of_le hlt (Option.some.inj hcopy ▸ le_max_right _ _)
      rw [htaken]
      exact List.not_mem_cons_of_ne_of_not_mem hit.ne h.not_taken
  · rw [(subscriberStep_of_ne_copy hpc hs).2]
    exact h.not_taken

theorem Overtaken.publish (h : s.Overtaken n m) (hs : s.next (.publish false) = some s') :
    s'.Overtaken n m := by
  obtain ⟨f, hkeeps, _⟩ := h.numbered
  have hhead := hkeeps.head_eq
  have hpos := hkeeps.pos
  have hlt := h.lt_head
  have hconn : s.connected ≤ s.ring.tail := by
    have := h.connected
    omega
  have hnum := h.numbered.publish hconn hs
  rw [next_publish hs] at hnum ⊢
  exact ⟨hnum, h.connected, hlt.trans_le (hkeeps.toWindow.head_le_pushBack _), h.not_taken⟩

/-- What is overtaken is not among what has been delivered. -/
theorem Overtaken.not_hasAll (h : s.Overtaken n m) (hi : s.Inv n) : ¬ s.HasAll s.ring.tail := by
  intro hall
  obtain ⟨f, hkeeps, _⟩ := h.numbered
  have hhead := hkeeps.head_eq
  have hpos := hkeeps.pos
  have hlt := h.lt_head
  have hconn := h.connected
  have hmem : m ∈ s.delivered := by
    rw [← List.mem_reverse, hall, List.mem_range'_1]
    omega
  have hsub : s.delivered.Sublist s.taken := (List.sublist_append_right _ _).trans hi.queue
  exact h.not_taken (hsub.subset hmem)

/-- **What is overtaken is not delivered any more.** -/
theorem Overtaken.not_inevitably (h : s.Overtaken n m) (hi : s.Inv n) (hn : 1 < n) :
    ¬ quietSystem.Inevitably (fun s' => s'.HasAll s'.ring.tail) s := by
  intro hall
  induction hall with
  | now hall => exact h.not_hasAll hi hall
  | later hgo _ ih =>
    obtain ⟨_, s', hs⟩ := hgo
    exact ih () s' hs (h.subscriber hi hn hs) (hi.subscriber hs)

/-- A publication that does not keep pace overtakes the one that is due. -/
theorem Lossless.overtaken (h : s.Lossless n) (hpace : ¬ s.KeepsPace (.publish false))
    (hs : s.next (.publish false) = some s') : s'.Overtaken n s.due := by
  have hconn : s.connected ≤ s.due := h.connected.trans (Nat.le_add_right _ _)
  have hnum := h.numbered.publish (hconn.trans h.due_le) hs
  obtain ⟨f, hkeeps, _⟩ := h.numbered
  have hpace : ¬ s.ring.tail + 2 ≤ s.due + n := hkeeps.size ▸ hpace
  have hhead := hkeeps.toWindow.head_pushBack (some s.ring.tail)
  rw [next_publish hs] at hnum ⊢
  refine ⟨hnum, hconn, ?_, fun hmem => ?_⟩
  · show s.due < (s.ring.pushBack (some s.ring.tail)).head
    omega
  · have hmem : s.due ∈ s.taken := hmem
    rw [← List.mem_reverse, h.taken, List.mem_range'_1] at hmem
    omega

end SubscriberState

open TransitionSystem SubscriberState

variable {n k : ℕ} {tr : List (SubscriberState × SubscriberStep)} {s : SubscriberState}

/-- A run has kept pace so far, or it has lost something. -/
theorem lossless_or_overtaken (hn : 1 < n) (hk : 0 < k) (hr : (subscriberSystem n k).Run tr s)
    (hnull : Met NotNull tr) :
    s.Inv n ∧ (Met KeepsPace tr ∧ s.Lossless n ∨ ¬ Met KeepsPace tr ∧ ∃ m, s.Overtaken n m) := by
  induction hr with
  | start hi =>
    obtain ⟨ring, hring, rfl⟩ := hi
    exact ⟨connect_inv hring k, .inl ⟨met_nil _, lossless_connect hring (by omega) hk⟩⟩
  | @snoc tr s s' l hr hstep ih =>
    obtain ⟨hl, hnull⟩ := (met_cons NotNull s l tr).mp hnull
    obtain ⟨hi, hcases⟩ := ih hnull
    have hi' : s'.Inv n := hi.step hstep
    refine ⟨hi', ?_⟩
    rw [met_cons KeepsPace s l tr]
    cases l with
    | subscriber =>
      rcases hcases with ⟨hmet, hloss⟩ | ⟨hnot, m, hover⟩
      · exact .inl ⟨⟨trivial, hmet⟩, hloss.subscriber hn hstep⟩
      · exact .inr ⟨fun h => hnot h.2, m, hover.subscriber hi hn hstep⟩
    | publish null =>
      obtain rfl : null = false := Bool.eq_false_iff.mpr fun h => hl (h ▸ rfl)
      rcases hcases with ⟨hmet, hloss⟩ | ⟨hnot, m, hover⟩
      · by_cases hpace : s.KeepsPace (.publish false)
        · exact .inl ⟨⟨hpace, hmet⟩, hloss.publish hpace hstep⟩
        · exact .inr ⟨fun h => hpace h.1, _, hloss.overtaken hpace hstep⟩
      · exact .inr ⟨fun h => hnot h.2, m, hover.publish hstep⟩

/-- **When nothing is lost.** After a run in which no null pointer was published
to a buffer of at least two elements, a subscriber that goes on while nothing
more is published comes to have delivered every publication since it was
connected, each once and in order, exactly if the publisher has kept pace all
along. -/
theorem subscriber_delivers_all_iff (hn : 1 < n) (hk : 0 < k)
    (hr : (subscriberSystem n k).Run tr s) (hnull : Met NotNull tr) :
    quietSystem.Inevitably (fun s' => s'.HasAll s'.ring.tail) s ↔ Met KeepsPace tr := by
  obtain ⟨hi, ⟨hmet, hloss⟩ | ⟨hnot, m, hover⟩⟩ := lossless_or_overtaken hn hk hr hnull
  · exact iff_of_true (hloss.inevitably hn) hmet
  · exact iff_of_false (hover.not_inevitably hi hn) hnot

/-- With a buffer of three elements, two publications can wait, and a third one
overtakes the first. -/
theorem subscriber_delivers_all_iff_three :
    (∃ tr s, (subscriberSystem 3 10).Run tr s ∧ s.ring.tail = 2
      ∧ quietSystem.Inevitably (fun s' => s'.HasAll s'.ring.tail) s)
    ∧ ∃ tr s, (subscriberSystem 3 10).Run tr s ∧ s.ring.tail = 3
      ∧ ¬ quietSystem.Inevitably (fun s' => s'.HasAll s'.ring.tail) s := by
  constructor
  · have htrace : (trace SubscriberState.next [] (SubscriberState.connect (.ofSize 3) 10)
        (List.replicate 2 (.publish false))).map
          (fun e => (e.2.ring.tail, decide (Met NotNull e.1), decide (Met KeepsPace e.1)))
        = some (2, true, true) := by decide +kernel
    obtain ⟨tr, s, hr, heq⟩ :=
      Run.exists_of_trace (S := subscriberSystem 3 10) (fun _ _ _ h => h) ⟨_, .ofSize, rfl⟩ htrace
    obtain ⟨htail, heq⟩ := Prod.mk.inj heq
    obtain ⟨hnull, hpace⟩ := Prod.mk.inj heq
    exact ⟨tr, s, hr, htail, (subscriber_delivers_all_iff (by decide) (by decide) hr
      (of_decide_eq_true hnull)).mpr (of_decide_eq_true hpace)⟩
  · have htrace : (trace SubscriberState.next [] (SubscriberState.connect (.ofSize 3) 10)
        (List.replicate 3 (.publish false))).map
          (fun e => (e.2.ring.tail, decide (Met NotNull e.1), decide (Met KeepsPace e.1)))
        = some (3, true, false) := by decide +kernel
    obtain ⟨tr, s, hr, heq⟩ :=
      Run.exists_of_trace (S := subscriberSystem 3 10) (fun _ _ _ h => h) ⟨_, .ofSize, rfl⟩ htrace
    obtain ⟨htail, heq⟩ := Prod.mk.inj heq
    obtain ⟨hnull, hpace⟩ := Prod.mk.inj heq
    exact ⟨tr, s, hr, htail, fun h => of_decide_eq_false hpace ((subscriber_delivers_all_iff
      (by decide) (by decide) hr (of_decide_eq_true hnull)).mp h)⟩
