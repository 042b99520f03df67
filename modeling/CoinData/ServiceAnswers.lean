import CoinData.ServiceRequests

/-!
# When a request is answered

A client waits as long as the service is online. If no push drops a request that
is waited for, and none writes the element in which `is_ready` is about to be set,
then how long a request can still take is a number (`left`): each step of the
service lowers it, and a push does not raise it, although it may move the head past
`idx_`, which costs the service a spin. It is at most seven times the size of the
buffer. So whatever the clients do in between, after that many steps of the service
the request is answered.
-/

namespace ServiceState

open TransitionSystem

variable {K : Type} {n : ℕ} {s s' : ServiceState K} {k : K} {r : ℕ}

/-- What it costs that `idx_` is behind the head: this spin, after which the service
catches up. -/
def lag (s : ServiceState K) : ℕ := if s.idx < s.ring.head then 7 else 0

/-- **How many steps of the service a request can still take.** -/
def left (s : ServiceState K) (r : ℕ) : ℕ :=
  if r ∈ s.served then 1 else
    7 * (r - max s.idx s.ring.head)
      + match s.pc with
        | .idle => 7
        | .catchUp => 6
        | .checkTail => 5 + s.lag
        | .element => 4 + s.lag
        | .callback _ => 3 + s.lag
        | .setReady _ => 2 + s.lag
        | _ => 1 + s.lag

theorem lag_eq (s : ServiceState K) :
    s.lag = 7 ∧ s.idx < s.ring.head ∨ s.lag = 0 ∧ s.ring.head ≤ s.idx := by
  unfold lag
  split
  · next h => exact .inl ⟨rfl, h⟩
  · next h => exact .inr ⟨rfl, not_lt.mp h⟩

theorem left_pos (s : ServiceState K) (r : ℕ) : 0 < s.left r := by
  unfold left
  split
  · exact Nat.one_pos
  · split <;> omega

/-- **What is known as long as no request is lost.** -/
structure Serving (s : ServiceState K) (n : ℕ) : Prop where
  inv : s.Inv n
  nothingLost : s.NothingLost
  idxDone : s.IdxDone
  flags : s.Flags

/-- **A client waits, and is not answered.** -/
structure Unanswered (s : ServiceState K) (k : K) (r : ℕ) : Prop where
  online : s.isOnline = true
  waits : s.Waits k r
  notReady : s.isReady r = false

/-- What the callback has been called on, and is not ready, is about to be set. -/
theorem Serving.setReady_of_served (h : s.Serving n) (hr : s.Unanswered k r)
    (hs : r ∈ s.served) : ∃ slot, s.pc = .setReady slot ∧ s.ring.buffer slot = some r := by
  rcases h.flags.served r hs with hready | hset
  · exact absurd hready (by rw [hr.notReady]; exact Bool.false_ne_true)
  · exact hset

theorem Serving.window (h : s.Serving n) (hr : s.Unanswered k r) (hs : r ∉ s.served) :
    max s.idx s.ring.head ≤ r ∧ r < s.ring.tail :=
  h.nothingLost hr.online r ⟨⟨k, hr.waits⟩, hs⟩

/-- **It is never more than seven times the size.** -/
theorem Serving.left_le (h : s.Serving n) (hr : s.Unanswered k r) : s.left r ≤ 7 * n := by
  have hpos := h.inv.window.pos
  have hhead := h.inv.window.head_eq
  unfold left
  split
  · omega
  · next hs =>
    obtain ⟨hle, hlt⟩ := h.window hr hs
    have hlag := s.lag_eq
    split <;> omega

/-! ## Steps -/

/-- **A step of the service lowers it**, unless the request is answered. -/
theorem Serving.left_service (h : s.Serving n) (hr : s.Unanswered k r)
    (hs : s.serviceStep = some s') (hr' : s'.isReady r = false) : s'.left r < s.left r := by
  have hend : ¬ s.pc.Ended := h.inv.online.mp hr.online
  by_cases hserved : r ∈ s.served
  · obtain ⟨slot, hpc, hslot⟩ := h.setReady_of_served hr hserved
    unfold serviceStep at hs
    rw [hpc] at hs
    dsimp only at hs
    rw [hslot] at hs
    cases hs
    simp at hr'
  · obtain ⟨hle, hlt⟩ := h.window hr hserved
    unfold serviceStep at hs
    cases hpc : s.pc with
    | idle =>
      rw [hpc] at hs
      cases hs
      by_cases hbehind : s.idx < s.ring.head
      · simp only [left, if_neg hserved, hpc, if_pos hbehind]
        omega
      · simp only [left, lag, if_neg hserved, hpc, if_neg hbehind]
        omega
    | checkTail =>
      rw [hpc] at hs
      cases hs
      have htail : s.idx < s.ring.tail := ((le_max_left _ _).trans hle).trans_lt hlt
      simp only [left, lag, if_neg hserved, hpc, if_pos htail]
      split_ifs <;> omega
    | element =>
      rw [hpc] at hs
      cases hs
      simp only [left, lag, if_neg hserved, hpc]
      split_ifs <;> omega
    | catchUp =>
      rw [hpc] at hs
      cases hs
      have hbehind := h.inv.at_pc.idx_le_head hpc
      simp only [left, lag, if_neg hserved, hpc]
      split_ifs <;> omega
    | callback slot =>
      rw [hpc] at hs
      obtain ⟨r', hslot, rfl⟩ := Option.map_eq_some_iff.mp hs
      simp only [left, lag, if_neg hserved, hpc, List.mem_cons]
      split_ifs <;> omega
    | setReady slot =>
      rw [hpc] at hs
      obtain ⟨r', hslot, rfl⟩ := Option.map_eq_some_iff.mp hs
      simp only [left, lag, if_neg hserved, hpc]
      split_ifs <;> omega
    | advance =>
      rw [hpc] at hs
      cases hs
      -- the request `idx_` is served, or the head has gone past it
      have hidx : r ≠ s.idx ∨ s.idx < s.ring.head := by
        refine (h.idxDone hr.online (by rw [hpc]; trivial)).imp_left fun hmem heq => ?_
        exact hserved (heq ▸ hmem)
      simp only [left, lag, if_neg hserved, hpc]
      split_ifs <;> omega
    | cleanHead | cleanTail i | cleanElement i | reset slot i | gone =>
      rw [hpc] at hend
      exact absurd trivial hend

/-- A step of the service leaves the clients, and what is online. -/
theorem Move.same (h : Move s s') : s'.client = s.client ∧ s'.isOnline = s.isOnline := by
  cases h <;> exact ⟨rfl, rfl⟩

/-- What is answered stays so. -/
theorem Move.isReady (h : Move s s') (hr : s.isReady r = true) : s'.isReady r = true := by
  cases h with
  | @setReady _ r' _ _ =>
    by_cases hr' : r = r'
    · rw [hr']
      exact Function.update_self _ _ _
    · exact (Function.update_of_ne hr' _ _).trans hr
  | _ => exact hr

variable [DecidableEq K]

/-- **A push does not raise it**: if the head goes past `idx_`, there is a request less
to serve. -/
theorem Serving.left_push (h : s.Serving n) (h' : s'.Serving n) (hr : s.Unanswered k r)
    (hr' : s'.Unanswered k r) {k' : K} (hs : s.next (.push k') = some s') :
    s'.left r ≤ s.left r := by
  by_cases hserved : r ∈ s.served
  · obtain ⟨_, rfl⟩ := push_eq hs
    rw [left, left, if_pos hserved, if_pos hserved]
  · obtain ⟨hle, _⟩ := h.window hr hserved
    have hlag := s.lag_eq
    have hlag' := s'.lag_eq
    have hserved' : r ∉ s'.served := by
      obtain ⟨_, rfl⟩ := push_eq hs
      exact hserved
    obtain ⟨hle', _⟩ := h'.window hr' hserved'
    have hstep : s'.idx = s.idx ∧ s'.pc = s.pc
        ∧ (s'.ring.head = s.ring.head ∨ s'.ring.head = s.ring.head + 1) := by
      obtain ⟨_, rfl⟩ := push_eq hs
      refine ⟨rfl, rfl, ?_⟩
      dsimp only [SharedCircularBuffer.pushBack]
      split
      · exact .inr rfl
      · exact .inl rfl
    obtain ⟨hidx, hpc, hhead⟩ := hstep
    rw [left, left, if_neg hserved, if_neg hserved', hpc, hidx]
    rw [hidx] at hlag' hle'
    split <;> omega

/-- **Who waits goes on waiting** until the answer is there. -/
theorem Unanswered.step (h : s.Unanswered k r) {l : ServiceStep K} (hs : s.next l = some s')
    (hon : s'.isOnline = true) (hr' : s'.isReady r = false) : s'.Unanswered k r := by
  refine ⟨hon, ?_, hr'⟩
  have hw := h.waits
  cases l with
  | service =>
    unfold Waits
    rw [(move_of_serviceStep hs).same.1]
    exact hw
  | destroy =>
    obtain ⟨_, rfl⟩ := destroy_eq hs
    exact hw
  | push k' =>
    obtain ⟨hidle, rfl⟩ := push_eq hs
    have hne : k ≠ k' := by
      rintro rfl
      rcases hw with hw | hw <;> cases hidle.symm.trans hw
    unfold Waits
    dsimp only
    rwa [Function.update_of_ne hne]
  | client k' =>
    by_cases hk : k' = k
    · subst hk
      cases reply_of_clientStep hs with
      | @ready r' hpc hready =>
        have hrr : r = r' := by
          rcases hw with hw | hw <;> cases hpc.symm.trans hw
          rfl
        rw [hrr] at hr'
        cases hready.symm.trans hr'
      | @wait r' hpc _ =>
        rcases hw with hw | hw <;> cases hpc.symm.trans hw
        exact .inr (Function.update_self _ _ _)
      | @again r' hpc _ =>
        rcases hw with hw | hw <;> cases hpc.symm.trans hw
        exact .inl (Function.update_self _ _ _)
      | offline _ hoff => cases hon.symm.trans hoff
      | result hpc => rcases hw with hw | hw <;> cases hpc.symm.trans hw
    · have hother : s'.client k = s.client k := by
        cases reply_of_clientStep hs <;> exact Function.update_of_ne (Ne.symm hk) _ _
      unfold Waits
      rw [hother]
      exact hw

/-- What was online before, and what is answered. -/
theorem online_of_next {l : ServiceStep K} (hs : s.next l = some s') (hon : s'.isOnline = true) :
    s.isOnline = true ∧ (s.isReady r = true → s'.isReady r = true) := by
  cases l with
  | service =>
    have hm := move_of_serviceStep hs
    exact ⟨hm.same.2.symm.trans hon, hm.isReady⟩
  | destroy =>
    obtain ⟨_, rfl⟩ := destroy_eq hs
    cases hon
  | push k' =>
    obtain ⟨_, rfl⟩ := push_eq hs
    exact ⟨hon, id⟩
  | client k' =>
    obtain ⟨_, honline, _, _, hready, _⟩ := (reply_of_clientStep hs).same
    exact ⟨honline.symm.trans hon, fun h => hready ▸ h⟩

/-- **No request is lost, and no answer.** -/
def KeepsRequests (s : ServiceState K) (l : ServiceStep K) : Prop :=
  s.DropsNothing l ∧ s.FlagsAgree l

instance [Fintype K] (s : ServiceState K) (l : ServiceStep K) : Decidable (s.KeepsRequests l) :=
  inferInstanceAs (Decidable (s.DropsNothing l ∧ s.FlagsAgree l))

theorem Serving.step (h : s.Serving n) {l : ServiceStep K} (hs : s.next l = some s')
    (hc : s.KeepsRequests l) : s'.Serving n := by
  obtain ⟨hlost, hdone⟩ := h.nothingLost.step h.idxDone h.inv hs hc.1
  exact ⟨h.inv.step hs, hlost, hdone, h.flags.step h.inv hs hc.2⟩

omit [DecidableEq K] in
theorem fresh_serving (hn : 0 < n) (m : ℕ) : (fresh K n m).Serving n where
  inv := fresh_inv hn m
  nothingLost _ r hp := by
    obtain ⟨⟨k, hk | hk⟩, _⟩ := hp <;> cases hk
  idxDone _ hcalled := absurd hcalled id
  flags :=
    { ready := fun _ h => by cases h
      served := fun _ h => by cases h
      current := fun _ _ h => by cases h
      result := fun _ _ h => by cases h
      asleep := fun h => by cases h
      refused := fun _ h => by cases h
      answered := fun _ h => by cases h }

/-- **How long a request can take, along a step.** -/
theorem Serving.left_step (h : s.Serving n) (hr : s.Unanswered k r) {l : ServiceStep K}
    (hs : s.next l = some s') (hc : s.KeepsRequests l) (hr' : s'.Unanswered k r) :
    s'.left r + (if l = .service then 1 else 0) ≤ s.left r := by
  cases l with
  | service =>
    rw [if_pos rfl]
    exact h.left_service hr hs hr'.notReady
  | destroy =>
    obtain ⟨_, rfl⟩ := destroy_eq hs
    cases hr'.online
  | push k' =>
    rw [if_neg (fun heq => by cases heq)]
    exact h.left_push (h.step hs hc) hr hr' hs
  | client k' =>
    obtain ⟨hring, _, hidx, hpc, _, hserved⟩ := (reply_of_clientStep hs).same
    rw [if_neg (fun heq => by cases heq), left, left, lag, lag, hring, hidx, hpc, hserved]
    exact le_rfl

end ServiceState

open TransitionSystem ServiceState

variable {K : Type} [DecidableEq K] {n : ℕ} {tr tr' : List (ServiceState K × ServiceStep K)}
  {s s' : ServiceState K}

/-- What is known as long as no request is lost is known throughout. -/
theorem serving_throughout (hn : 0 < n) (hr : (serviceSystem K n).Run tr s)
    (hc : Met KeepsRequests tr) : Throughout (Serving · n) tr s := by
  refine hr.throughout_of_met ?_ (fun s l s' _ h hstep hl => h.step hstep hl) hc
  rintro s ⟨m, rfl⟩
  exact fresh_serving hn m

/-- From when a client waits, until the answer is there: each step of the service is
paid for. -/
theorem answered_or_paid (hn : 0 < n) {k : K} {r : ℕ} {l : ServiceStep K}
    (hr : (serviceSystem K n).Run (tr' ++ (s, l) :: tr) s')
    (hc : Met KeepsRequests (tr' ++ (s, l) :: tr)) (hw : s.Waits k r)
    (hon : s'.isOnline = true) :
    s'.isReady r = true ∨ s'.Unanswered k r
      ∧ s'.left r + tr'.countP (fun e => e.2 = .service) ≤ 7 * n := by
  cases hready : s'.isReady r with
  | true => exact .inl rfl
  | false =>
    refine .inr ?_
    induction tr' generalizing s' with
    | nil =>
      cases hr with
      | snoc hr hstep =>
        obtain ⟨hon₀, hready₀⟩ := online_of_next (r := r) hstep hon
        have hwaits : s.Unanswered k r :=
          ⟨hon₀, hw, Bool.eq_false_iff.mpr fun h => by cases hready.symm.trans (hready₀ h)⟩
        have hwaits' := hwaits.step hstep hon hready
        refine ⟨hwaits', ?_⟩
        exact ((serving_throughout hn (.snoc hr hstep) hc).1).left_le hwaits'
    | cons e tr' ih =>
      cases hr with
      | @snoc _ s₁ _ l₁ hr hstep =>
        obtain ⟨hl, hc⟩ := (met_cons _ _ _ _).mp hc
        obtain ⟨hon₁, hready₁⟩ := online_of_next (r := r) hstep hon
        obtain ⟨hwaits, hle⟩ := ih hr hc hon₁
          (Bool.eq_false_iff.mpr fun h => by cases hready.symm.trans (hready₁ h))
        have hwaits' := hwaits.step hstep hon hready
        have hstep := ((serving_throughout hn hr hc).1).left_step hwaits hstep hl hwaits'
        refine ⟨hwaits', ?_⟩
        rw [List.countP_cons]
        simp only [decide_eq_true_eq]
        omega

/-- **A request is answered in time**: as long as no push drops a request that is waited
for, nor writes the element in which `is_ready` is about to be set, who waits is
answered when the service has taken seven times as many steps as the buffer has
elements, whatever the clients do meanwhile. The counters of the buffer are unbounded
here. -/
theorem answered_within (hn : 0 < n) {k : K} {r : ℕ} {l : ServiceStep K}
    (hr : (serviceSystem K n).Run (tr' ++ (s, l) :: tr) s')
    (hc : Met KeepsRequests (tr' ++ (s, l) :: tr)) (hw : s.Waits k r)
    (hon : s'.isOnline = true) (hcount : 7 * n ≤ tr'.countP fun e => e.2 = .service) :
    s'.isReady r = true := by
  rcases answered_or_paid hn hr hc hw hon with hready | ⟨_, hle⟩
  · exact hready
  · have hpos := s'.left_pos r
    omega

/-- The second of two requests, in a buffer of three. -/
theorem answered_within_two : ∃ s, (serviceSystem (Fin 2) 3).Reachable s ∧ s.served = [1, 0]
    ∧ s.isReady 1 = true := by
  have htrace : (trace ServiceState.next [] (ServiceState.fresh (Fin 2) 3 0)
      ([.push 0, .push 1, .client 1] ++ List.replicate 21 .service)).map
        (fun e => ((e.1[21]?.map fun y => decide (y.1.client 1 = .checkReady 1)), e.2.served,
          decide (Met KeepsRequests e.1 ∧ e.2.isOnline = true
            ∧ 21 ≤ (e.1.take 21).countP fun y => y.2 = .service)))
      = some (some true, [1, 0], true) := by
    decide +kernel
  obtain ⟨tr, s, hr, heq⟩ :=
    Run.exists_of_trace (S := serviceSystem (Fin 2) 3) (fun _ _ _ h => h) ⟨0, rfl⟩ htrace
  simp only [Prod.mk.injEq, decide_eq_true_eq, Option.map_eq_some_iff] at heq
  obtain ⟨⟨⟨s₁, l₁⟩, hget, hwaits⟩, hserved, hmet, hon, hcount⟩ := heq
  obtain ⟨hlt, hget⟩ := List.getElem?_eq_some_iff.mp hget
  have hsplit : tr.take 21 ++ (s₁, l₁) :: tr.drop 22 = tr := by
    rw [← hget, ← List.drop_eq_getElem_cons hlt]
    exact List.take_append_drop 21 tr
  have hr' : (serviceSystem (Fin 2) 3).Run (tr.take 21 ++ (s₁, l₁) :: tr.drop 22) s :=
    hsplit.symm ▸ hr
  have hmet' : Met KeepsRequests (tr.take 21 ++ (s₁, l₁) :: tr.drop 22) := hsplit.symm ▸ hmet
  exact ⟨s, hr.reachable, hserved,
    answered_within (by decide) hr' hmet' (.inl hwaits) hon hcount⟩
