import CoinData.Service
import Mathlib.Data.Fintype.Basic

/-!
# What becomes of a request

Three questions about a service: is the callback called at most once for a
request, and in the order of the pushes; is a request whose client waits
ever lost; and is what a client is told true? Each has an answer only as
long as certain steps do not fall together, because the check for a
request, the access to it and the flags are separate steps, and because a
push drops the oldest request without asking whether it has been served.
-/

namespace ServiceState

open TransitionSystem

variable {K : Type} {n : ℕ} {s s' : ServiceState K}

/-! ## Order -/

/-- **The callback is called on the request `idx_`**: the element is the one
of `idx_`, and not yet written again. Otherwise the head has gone past
`idx_` since `is_ready_` has looked, or pushes have come round the buffer
since. -/
def ServesIdx (s : ServiceState K) (l : ServiceStep K) : Prop :=
  match l, s.pc with
  | .service, .callback slot =>
    slot = s.idx % s.ring.totalSize ∧ s.ring.tail ≤ s.idx + s.ring.totalSize
  | _, _ => True

instance (s : ServiceState K) (l : ServiceStep K) : Decidable (s.ServesIdx l) := by
  unfold ServesIdx
  split <;> infer_instance

/-- What was served lies before `idx_`, or is the request of this spin, in
the order of the pushes. -/
structure Ordered (s : ServiceState K) : Prop where
  order : s.served.Pairwise (· > ·)
  before : ∀ r ∈ s.served, r < s.idx ∨ r = s.idx ∧ s.pc.Called

/-- The condition makes the callback be called on the request `idx_`. -/
theorem Inv.request_of_servesIdx (h : s.Inv n) {slot r : ℕ} (hpc : s.pc = .callback slot)
    (hr : s.ring.buffer slot = some r) (hc : s.ServesIdx .service) : r = s.idx := by
  unfold ServesIdx at hc
  rw [hpc] at hc
  obtain ⟨hslot, htail⟩ := hc
  obtain ⟨i, _, hidx, hi, _⟩ := h.at_pc.slot slot (Or.inl hpc)
  have hend : ¬ s.pc.Ended := by rw [hpc]; exact id
  rw [h.window.size] at hslot htail
  rw [hslot, (h.keeps hend).get s.idx (lt_of_le_of_lt hidx hi) htail] at hr
  exact (Option.some.inj hr).symm

/-- Before the callback, what was served lies before `idx_`. -/
theorem Ordered.lt_idx (h : s.Ordered) (hpc : ¬ s.pc.Called) : ∀ r ∈ s.served, r < s.idx := by
  intro r hr
  rcases h.before r hr with hlt | ⟨_, hcalled⟩
  · exact hlt
  · exact absurd hcalled hpc

/-- **A step of the service keeps the order**, if the callback is called on
the request `idx_`. -/
theorem Ordered.service (h : s.Ordered) (hi : s.Inv n) (hm : Move s s')
    (hc : s.ServesIdx .service) : s'.Ordered := by
  cases hm with
  | goto hcalled _ _ =>
    exact ⟨h.order, fun r hr => Or.inl (h.lt_idx hcalled r hr)⟩
  | catchUp hpc =>
    have hle := hi.at_pc.idx_le_head hpc
    have hcalled : ¬ s.pc.Called := by rw [hpc]; exact id
    exact ⟨h.order, fun r hr => Or.inl (lt_of_lt_of_le (h.lt_idx hcalled r hr) hle)⟩
  | callback hpc hr =>
    have hcalled : ¬ s.pc.Called := by rw [hpc]; exact id
    have heq := hi.request_of_servesIdx hpc hr hc
    have hlt := h.lt_idx hcalled
    refine ⟨List.pairwise_cons.mpr ⟨fun r' hr' => heq ▸ hlt r' hr', h.order⟩, ?_⟩
    exact List.forall_mem_cons.mpr ⟨Or.inr ⟨heq, trivial⟩, fun r' hr' => Or.inl (hlt r' hr')⟩
  | setReady _ _ =>
    exact ⟨h.order, fun r hr => (h.before r hr).imp_right fun he => ⟨he.1, trivial⟩⟩
  | advance _ =>
    refine ⟨h.order, fun r hr => Or.inl ?_⟩
    rcases h.before r hr with hlt | ⟨heq, _⟩
    · exact Nat.lt_succ_of_lt hlt
    · exact heq ▸ Nat.lt_succ_self _
  | reset hpc =>
    have hcalled : ¬ s.pc.Called := by rw [hpc]; exact id
    exact ⟨h.order, fun r hr => Or.inl (h.lt_idx hcalled r hr)⟩

variable [DecidableEq K]

/-- A push, where there is one. -/
theorem push_eq {k : K} (hs : s.next (.push k) = some s') : s.client k = .idle
    ∧ s' = { s with
        ring := s.ring.pushBack (some s.ring.tail)
        client := Function.update s.client k (.checkReady s.ring.tail) } := by
  dsimp only [next] at hs
  split at hs
  · next hidle => exact ⟨hidle, (Option.some.inj hs).symm⟩
  · cases hs

/-- The start of the destructor. -/
theorem destroy_eq (hs : s.next .destroy = some s') :
    s.pc = .idle ∧ s' = { s with isOnline := false, pc := .cleanHead } := by
  dsimp only [next] at hs
  split at hs
  · next hidle => exact ⟨hidle, (Option.some.inj hs).symm⟩
  · cases hs

theorem Ordered.step (h : s.Ordered) (hi : s.Inv n) {l : ServiceStep K}
    (hs : s.next l = some s') (hc : s.ServesIdx l) : s'.Ordered := by
  cases l with
  | service => exact h.service hi (move_of_serviceStep hs) hc
  | destroy =>
    obtain ⟨hpc, rfl⟩ := destroy_eq hs
    have hcalled : ¬ s.pc.Called := by rw [hpc]; exact id
    exact ⟨h.order, fun r hr => Or.inl (h.lt_idx hcalled r hr)⟩
  | push k =>
    obtain ⟨_, rfl⟩ := push_eq hs
    exact ⟨h.order, h.before⟩
  | client k =>
    obtain ⟨_, _, hidx, hpc, _, hserved⟩ := (reply_of_clientStep hs).same
    refine ⟨?_, ?_⟩
    · rw [hserved]
      exact h.order
    · rw [hserved, hidx, hpc]
      exact h.before

/-! ## Pending requests -/

/-- **A pending request**: a client waits for it, and the callback has not
been called on it. -/
def Pending (s : ServiceState K) (r : ℕ) : Prop := (∃ k, s.Waits k r) ∧ r ∉ s.served

/-- **No pending request is lost**: while the service is online, each lies
where the service still gets to it. -/
def NothingLost (s : ServiceState K) : Prop :=
  s.isOnline = true → ∀ r, s.Pending r → max s.idx s.ring.head ≤ r ∧ r < s.ring.tail

/-- **A push drops no pending request**: the buffer has room for one more, or
what leaves the window is neither pending nor, as in a buffer of one element,
the new request itself. -/
def DropsNothing (s : ServiceState K) : ServiceStep K → Prop
  | .push _ => s.isOnline = true →
    s.ring.tail + 1 < s.ring.head + s.ring.totalSize
      ∨ 2 ≤ s.ring.totalSize ∧ ¬ s.Pending s.ring.head
  | _ => True

instance [Fintype K] (s : ServiceState K) (r : ℕ) : Decidable (s.Pending r) :=
  inferInstanceAs (Decidable ((∃ k, s.client k = .checkReady r ∨ s.client k = .checkOnline r)
    ∧ r ∉ s.served))

instance [Fintype K] (s : ServiceState K) : (l : ServiceStep K) → Decidable (s.DropsNothing l)
  | .push _ => inferInstanceAs (Decidable (s.isOnline = true →
      s.ring.tail + 1 < s.ring.head + s.ring.totalSize
        ∨ 2 ≤ s.ring.totalSize ∧ ¬ s.Pending s.ring.head))
  | .service | .destroy | .client _ => inferInstanceAs (Decidable True)

/-- After the callback, the request `idx_` is not pending: it has been
served, or has left the window. -/
def IdxDone (s : ServiceState K) : Prop :=
  s.isOnline = true → s.pc.Called → s.idx ∈ s.served ∨ s.idx < s.ring.head

omit [DecidableEq K] in
/-- **A step of the service loses nothing.** -/
theorem NothingLost.service (h : s.NothingLost) (hd : s.IdxDone) (hi : s.Inv n)
    (hm : Move s s') : s'.NothingLost ∧ s'.IdxDone := by
  cases hm with
  | goto _ hcalled _ => exact ⟨h, fun _ hc => absurd hc hcalled⟩
  | catchUp hpc =>
    refine ⟨fun hon r hr => ?_, fun _ hc => absurd hc id⟩
    obtain ⟨hle, hlt⟩ := h hon r hr
    exact ⟨by rw [max_self]; exact (le_max_right _ _).trans hle, hlt⟩
  | callback hpc hr =>
    refine ⟨fun hon r' hr' => ?_, fun _ _ => ?_⟩
    · exact h hon r' ⟨hr'.1, fun hmem => hr'.2 (List.mem_cons_of_mem _ hmem)⟩
    · rcases Nat.lt_or_ge s.idx s.ring.head with hlt | hge
      · exact Or.inr hlt
      · rw [hi.request_eq hpc hr hge]
        exact Or.inl List.mem_cons_self
  | setReady hpc _ =>
    exact ⟨h, fun hon _ => hd hon (by rw [hpc]; trivial)⟩
  | advance hpc =>
    refine ⟨fun hon r hr => ?_, fun _ hc => absurd hc id⟩
    obtain ⟨hle, hlt⟩ := h hon r hr
    have hne : s.idx ≠ r := by
      rintro rfl
      rcases hd hon (by rw [hpc]; trivial) with hserved | hhead
      · exact hr.2 hserved
      · exact absurd ((le_max_right _ _).trans hle) (not_le.mpr hhead)
    refine ⟨max_le ?_ ((le_max_right _ _).trans hle), hlt⟩
    exact lt_of_le_of_ne ((le_max_left _ _).trans hle) hne
  | reset hpc =>
    have hend : s.pc.Ended := by rw [hpc]; trivial
    exact ⟨fun hon => absurd hend (hi.online.mp hon), fun _ hc => absurd hc id⟩

/-- Who waits after a push has waited before, or has pushed. -/
theorem waits_push {k k' : K} {ring : SharedCircularBuffer (Option ℕ)} {r : ℕ} :
    ({ s with
        ring := ring
        client := Function.update s.client k (.checkReady s.ring.tail) } :
      ServiceState K).Waits k' r ↔ if k' = k then r = s.ring.tail else s.Waits k' r := by
  unfold Waits
  by_cases hk : k' = k
  · rw [hk, if_pos rfl]
    simp [eq_comm]
  · rw [if_neg hk]
    simp [Function.update_of_ne hk]

/-- **A push which drops no pending request loses nothing.** -/
theorem NothingLost.push (h : s.NothingLost) (hd : s.IdxDone) (hi : s.Inv n) {k : K}
    (hs : s.next (.push k) = some s') (hc : s.DropsNothing (.push k)) :
    s'.NothingLost ∧ s'.IdxDone := by
  obtain ⟨_, rfl⟩ := push_eq hs
  have hwin := hi.window.head_eq
  have hpos := hi.window.pos
  have hhead := hi.window.head_pushBack (some s.ring.tail)
  have hstays := hi.window.head_pushBack_eq_iff (some s.ring.tail)
  have hidx := hi.at_pc.idx_le
  refine ⟨fun hon r hr => ?_, fun hon hcalled => ?_⟩
  · obtain ⟨⟨k', hk'⟩, hserved⟩ := hr
    rw [waits_push] at hk'
    have hroom := hc hon
    rw [hi.window.size] at hroom
    show max s.idx (s.ring.pushBack (some s.ring.tail)).head ≤ r ∧ r < s.ring.tail + 1
    split at hk'
    · -- the request just pushed
      refine ⟨max_le ?_ ?_, ?_⟩ <;> omega
    · obtain ⟨hle, hlt⟩ := h hon r ⟨⟨k', hk'⟩, hserved⟩
      have hle₁ := (le_max_left _ _).trans hle
      have hle₂ := (le_max_right _ _).trans hle
      refine ⟨max_le hle₁ ?_, Nat.lt_succ_of_lt hlt⟩
      rcases hroom with hroom | ⟨_, hnot⟩
      · rw [hstays.mpr hroom]
        exact hle₂
      · have hne : s.ring.head ≠ r := by
          rintro rfl
          exact hnot ⟨⟨k', hk'⟩, hserved⟩
        omega
  · exact (hd hon hcalled).imp_right fun hlt =>
      lt_of_lt_of_le hlt (hi.window.head_le_pushBack _)

theorem NothingLost.step (h : s.NothingLost) (hd : s.IdxDone) (hi : s.Inv n)
    {l : ServiceStep K} (hs : s.next l = some s') (hc : s.DropsNothing l) :
    s'.NothingLost ∧ s'.IdxDone := by
  cases l with
  | service => exact h.service hd hi (move_of_serviceStep hs)
  | destroy =>
    obtain ⟨_, rfl⟩ := destroy_eq hs
    exact ⟨nofun, nofun⟩
  | push k => exact h.push hd hi hs hc
  | client k =>
    have hr := reply_of_clientStep hs
    obtain ⟨hring, honline, hidx, hpc, _, hserved⟩ := hr.same
    unfold NothingLost IdxDone Pending
    rw [hring, honline, hidx, hpc, hserved]
    refine ⟨fun hon r hp => ?_, hd⟩
    obtain ⟨⟨k', hk'⟩, hnot⟩ := hp
    exact h hon r ⟨⟨k', hr.waits hk'⟩, hnot⟩

/-- **A push which drops a pending request**, the new one included, loses
it. -/
theorem not_nothingLost_push (hi : s.Inv n) {l : ServiceStep K} (hs : s.next l = some s')
    (hc : ¬ s.DropsNothing l) : ¬ s'.NothingLost := by
  cases l with
  | service => exact absurd trivial hc
  | destroy => exact absurd trivial hc
  | client k => exact absurd trivial hc
  | push k =>
    obtain ⟨hon, hroom⟩ := Classical.not_imp.mp hc
    obtain ⟨hidle, rfl⟩ := push_eq hs
    rw [hi.window.size, not_or] at hroom
    obtain ⟨hfull, hdrop⟩ := hroom
    have hwin := hi.window.head_eq
    have hpos := hi.window.pos
    have hhead := hi.window.head_pushBack (some s.ring.tail)
    intro h
    by_cases hsize : 2 ≤ n
    · obtain ⟨⟨k', hk'⟩, hserved⟩ : s.Pending s.ring.head :=
        not_not.mp fun hnot => hdrop ⟨hsize, hnot⟩
      have hne : k' ≠ k := by
        rintro rfl
        rcases hk' with hk' | hk' <;> rw [hidle] at hk' <;> cases hk'
      have hlost := (h hon s.ring.head ⟨⟨k', ?_⟩, hserved⟩).1
      · have := (le_max_right _ _).trans hlost
        change (s.ring.pushBack (some s.ring.tail)).head ≤ s.ring.head at this
        omega
      · rw [waits_push, if_neg hne]
        exact hk'
    · have hlost := (h hon s.ring.tail ⟨⟨k, ?_⟩, ?_⟩).1
      · have := (le_max_right _ _).trans hlost
        change (s.ring.pushBack (some s.ring.tail)).head ≤ s.ring.tail at this
        omega
      · rw [waits_push, if_pos rfl]
      · exact fun hmem => absurd (hi.known.served _ hmem) (lt_irrefl _)

/-! ## Answers -/

/-- **What clients are told is true**: a call which returned `true` was
served, one which returned `false` was not. -/
def Answered (s : ServiceState K) : Prop :=
  ∀ e ∈ s.returned, (e.2 = true → e.1 ∈ s.served) ∧ (e.2 = false → e.1 ∉ s.served)

/-- The request of a client which has found `is_ready` unset and has not
looked at `is_online` since. -/
def asleep (s : ServiceState K) (k : K) : Option ℕ :=
  match s.client k with
  | .checkOnline r => some r
  | _ => none

/-- **What the flags need**: the service is not destroyed while a client is
about to look at `is_online` whose request has been answered in between;
and no push writes the element in which `is_ready` is about to be set. -/
def FlagsAgree (s : ServiceState K) (l : ServiceStep K) : Prop :=
  match l, s.pc with
  | .destroy, _ => ∀ k, ∀ r ∈ s.asleep k, s.isReady r = false
  | .push _, .setReady slot => s.ring.tail % s.ring.totalSize ≠ slot
  | _, _ => True

instance [Fintype K] (s : ServiceState K) (l : ServiceStep K) : Decidable (s.FlagsAgree l) := by
  unfold FlagsAgree
  split <;> infer_instance

/-- **What the flags say** of a request: `is_ready` is set once it is
served, but for the moment between the callback and the write; and once
the service is offline, who is about to find this out has not been
served. -/
structure Flags (s : ServiceState K) : Prop where
  ready : ∀ r, s.isReady r = true → r ∈ s.served
  served : ∀ r ∈ s.served, s.isReady r = true
    ∨ ∃ slot, s.pc = .setReady slot ∧ s.ring.buffer slot = some r
  current : ∀ slot r, s.pc = .setReady slot → s.ring.buffer slot = some r → r ∈ s.served
  result : ∀ k r, s.client k = .result r → s.isReady r = true
  asleep : s.isOnline = false → ∀ k r, s.client k = .checkOnline r → s.isReady r = false
  refused : ∀ r, (r, false) ∈ s.returned → s.isOnline = false
  answered : s.Answered

omit [DecidableEq K] in
/-- Unless `is_ready` is about to be set, it says what is served. -/
theorem Flags.isReady_iff (h : s.Flags) (hpc : ∀ slot, s.pc ≠ .setReady slot) (r : ℕ) :
    s.isReady r = true ↔ r ∈ s.served := by
  refine ⟨h.ready r, fun hr => ?_⟩
  rcases h.served r hr with hready | ⟨slot, hslot, _⟩
  · exact hready
  · exact absurd hslot (hpc slot)

omit [DecidableEq K] in
/-- A step of the service which neither serves nor sets a flag. -/
theorem Flags.move (h : s.Flags) (hready : s'.isReady = s.isReady)
    (hserved : s'.served = s.served) (hclient : s'.client = s.client)
    (honline : s'.isOnline = s.isOnline) (hreturned : s'.returned = s.returned)
    (hpc : ∀ slot, s.pc ≠ .setReady slot) (hpc' : ∀ slot, s'.pc ≠ .setReady slot) :
    s'.Flags := by
  refine ⟨?_, ?_, fun slot r hslot => absurd hslot (hpc' slot), ?_, ?_, ?_, ?_⟩
  · rw [hready, hserved]
    exact h.ready
  · rw [hready, hserved]
    exact fun r hr => Or.inl ((h.isReady_iff hpc r).mpr hr)
  · rw [hready, hclient]
    exact h.result
  · rw [hready, hclient, honline]
    exact h.asleep
  · rw [hreturned, honline]
    exact h.refused
  · unfold Answered
    rw [hreturned, hserved]
    exact h.answered

omit [DecidableEq K] in
/-- **A step of the service keeps the flags true.** -/
theorem Flags.service (h : s.Flags) (hi : s.Inv n) (hm : Move s s') : s'.Flags := by
  cases hm with
  | goto hcalled hcalled' _ =>
    exact h.move rfl rfl rfl rfl rfl (ServicePc.ne_setReady hcalled)
      (ServicePc.ne_setReady hcalled')
  | catchUp hpc =>
    exact h.move rfl rfl rfl rfl rfl (by simp [hpc]) (by simp)
  | @callback slot r hpc hr =>
    have hon : s.isOnline = true := hi.online.mpr (by rw [hpc]; exact id)
    have hnot : ∀ slot, s.pc ≠ .setReady slot := by simp [hpc]
    refine ⟨fun q hq => List.mem_cons_of_mem _ (h.ready q hq), ?_, ?_, h.result, h.asleep,
      h.refused,
      fun e he => ⟨fun ht => List.mem_cons_of_mem _ ((h.answered e he).1 ht), fun hf => ?_⟩⟩
    · exact List.forall_mem_cons.mpr ⟨Or.inr ⟨slot, rfl, hr⟩,
        fun q hq => Or.inl ((h.isReady_iff hnot q).mpr hq)⟩
    · intro slot' q hslot hq
      cases hslot
      rw [hr] at hq
      cases hq
      exact List.mem_cons_self
    · -- nobody is refused while the service is online
      obtain ⟨q, b⟩ := e
      cases hf
      rw [h.refused q he] at hon
      cases hon
  | @setReady slot r hpc hr =>
    have hon : s.isOnline = true := hi.online.mpr (by rw [hpc]; exact id)
    have hself : Function.update s.isReady r true r = true := Function.update_self ..
    have hmono : ∀ q, s.isReady q = true → Function.update s.isReady r true q = true := by
      intro q hq
      by_cases hqr : q = r
      · rw [hqr, hself]
      · rw [Function.update_of_ne hqr, hq]
    refine ⟨fun q hq => ?_, fun q hq => Or.inl ?_, nofun, fun k q hq => hmono q (h.result k q hq),
      fun hoff => ?_, h.refused, h.answered⟩
    · by_cases hqr : q = r
      · rw [hqr]
        exact h.current slot r hpc hr
      · exact h.ready q (by rwa [← Function.update_of_ne hqr true s.isReady])
    · rcases h.served q hq with hready | ⟨slot', hslot, hbuf⟩
      · exact hmono q hready
      · rw [hpc] at hslot
        cases hslot
        rw [hr] at hbuf
        cases hbuf
        exact hself
    · exact absurd hon (by rw [show s.isOnline = false from hoff]; exact Bool.false_ne_true)
  | advance hpc =>
    exact h.move rfl rfl rfl rfl rfl (by simp [hpc]) (by simp)
  | reset hpc =>
    exact h.move rfl rfl rfl rfl rfl (by simp [hpc]) (by simp)

/-- **The destructor starts**, and nobody is about to be told that the
service is offline whose request has been served. -/
theorem Flags.destroy (h : s.Flags) (hs : s.next .destroy = some s')
    (hc : s.FlagsAgree .destroy) : s'.Flags := by
  obtain ⟨hpc, rfl⟩ := destroy_eq hs
  refine ⟨h.ready, fun r hr => Or.inl ?_, nofun, h.result, fun _ k r hk => ?_, fun _ _ => rfl,
    h.answered⟩
  · exact (h.isReady_iff (by simp [hpc]) r).mpr hr
  · refine hc k r ?_
    unfold ServiceState.asleep
    rw [show s.client k = .checkOnline r from hk]
    rfl

/-- **A push keeps the flags true** which does not write the element in
which a flag is about to be set. -/
theorem Flags.push (h : s.Flags) {k : K} (hs : s.next (.push k) = some s')
    (hc : s.FlagsAgree (.push k)) : s'.Flags := by
  obtain ⟨_, rfl⟩ := push_eq hs
  have hbuf : ∀ slot, s.pc = .setReady slot →
      (s.ring.pushBack (some s.ring.tail)).buffer slot = s.ring.buffer slot := by
    intro slot hpc
    unfold FlagsAgree at hc
    rw [hpc] at hc
    exact Function.update_of_ne (Ne.symm hc) _ _
  -- the request just pushed is neither ready nor served, and its client is in the loop
  have hclient : ∀ k' r, Function.update s.client k (.checkReady s.ring.tail) k' = .result r
      ∨ Function.update s.client k (.checkReady s.ring.tail) k' = .checkOnline r →
      Function.update s.client k (.checkReady s.ring.tail) k' = s.client k' := by
    intro k' r hr
    refine Function.update_of_ne ?_ _ _
    rintro rfl
    rw [Function.update_self] at hr
    rcases hr with hr | hr <;> cases hr
  refine ⟨h.ready, fun r hr => ?_, fun slot r hpc hr => ?_, fun k' r hr => ?_,
    fun hoff k' r hr => ?_, h.refused, h.answered⟩
  · refine (h.served r hr).imp_right ?_
    rintro ⟨slot, hpc, hr⟩
    exact ⟨slot, hpc, (hbuf slot hpc).trans hr⟩
  · exact h.current slot r hpc ((hbuf slot hpc).symm.trans hr)
  · exact h.result k' r ((hclient k' r (Or.inl hr)).symm.trans hr)
  · exact h.asleep hoff k' r ((hclient k' r (Or.inr hr)).symm.trans hr)

/-- **A step of a client keeps the flags true.** -/
theorem Flags.client (h : s.Flags) (hi : s.Inv n) {k : K} (hs : Reply s k s') : s'.Flags := by
  -- what is left to show, for the new place of the client and the new results
  have key : ∀ (pc : ClientPc) (returned : List (ℕ × Bool)),
      (∀ r, pc = .result r → s.isReady r = true) →
      (∀ r, pc = .checkOnline r → s.isReady r = false) →
      (∀ r, (r, false) ∈ returned → s.isOnline = false) →
      (∀ e ∈ returned, (e.2 = true → e.1 ∈ s.served) ∧ (e.2 = false → e.1 ∉ s.served)) →
      ({ s with client := Function.update s.client k pc, returned := returned } :
        ServiceState K).Flags := by
    intro pc returned hresult hasleep hrefused hanswered
    refine ⟨h.ready, h.served, h.current, fun k' r hk' => ?_, fun hoff k' r hk' => ?_, hrefused,
      hanswered⟩
    · dsimp only at hk'
      by_cases hk : k' = k
      · rw [hk, Function.update_self] at hk'
        exact hresult r hk'
      · rw [Function.update_of_ne hk] at hk'
        exact h.result k' r hk'
    · dsimp only at hk'
      by_cases hk : k' = k
      · rw [hk, Function.update_self] at hk'
        exact hasleep r hk'
      · rw [Function.update_of_ne hk] at hk'
        exact h.asleep hoff k' r hk'
  cases hs with
  | ready _ hr =>
    exact key _ _ (fun q hq => by cases hq; exact hr) nofun h.refused h.answered
  | wait _ hr =>
    exact key _ _ nofun (fun q hq => by cases hq; exact hr) h.refused h.answered
  | again _ _ => exact key _ _ nofun nofun h.refused h.answered
  | @offline r hk hoff =>
    refine key _ _ nofun nofun (fun q hq => ?_) (List.forall_mem_cons.mpr ⟨⟨nofun, fun _ => ?_⟩,
      h.answered⟩)
    · exact hoff
    · -- once the service is offline, no flag is about to be set
      have hend : s.pc.Ended := by
        by_contra hend
        rw [hi.online.mpr hend] at hoff
        cases hoff
      intro hserved
      have hready := (h.isReady_iff (fun slot hpc => by rw [hpc] at hend; exact hend) r).mpr hserved
      rw [h.asleep hoff k r hk] at hready
      cases hready
  | @result r hk =>
    have hr := h.result k r hk
    refine key _ _ nofun nofun (fun q hq => ?_) (List.forall_mem_cons.mpr ⟨⟨fun _ => h.ready r hr,
      fun hf => ?_⟩, h.answered⟩)
    · rw [hr] at hq
      rcases List.mem_cons.mp hq with heq | hq
      · cases heq
      · exact h.refused q hq
    · rw [hr] at hf
      cases hf

theorem Flags.step (h : s.Flags) (hi : s.Inv n) {l : ServiceStep K} (hs : s.next l = some s')
    (hc : s.FlagsAgree l) : s'.Flags := by
  cases l with
  | service => exact h.service hi (move_of_serviceStep hs)
  | destroy => exact h.destroy hs hc
  | push k => exact h.push hs hc
  | client k => exact h.client hi (reply_of_clientStep hs)

end ServiceState

open TransitionSystem

variable {K : Type} [DecidableEq K] {n : ℕ} {tr : List (ServiceState K × ServiceStep K)}
  {s : ServiceState K}

/-- **When the callback is called at most once for a request, in the order
of the pushes**: as long as each time it is called on the request `idx_`. -/
theorem service_in_order (hn : 0 < n) (hr : (serviceSystem K n).Run tr s)
    (hc : Met ServiceState.ServesIdx tr) :
    Throughout (fun s => s.served.Pairwise (· > ·)) tr s := by
  have hinv : Throughout ServiceState.Ordered tr s := by
    refine hr.throughout_of_met ?_ (fun s l s' hs h hstep hl => ?_) hc
    · rintro s ⟨m, rfl⟩
      exact ⟨.nil, nofun⟩
    · exact h.step (ServiceState.inv_of_reachable hn hs) hstep hl
  exact ⟨hinv.1.order, fun e he => (hinv.2 e he).order⟩

/-- Two requests, the second pushed while the service is between its check
and the access to the first. -/
theorem service_in_order_two : ∃ tr s, (serviceSystem (Fin 2) 3).Run tr s ∧ s.served = [1, 0]
    ∧ Throughout (fun s => s.served.Pairwise (· > ·)) tr s := by
  have htrace : (trace ServiceState.next [] (ServiceState.fresh (Fin 2) 3 0)
      [.push 0, .service, .service, .push 1, .service, .service, .service, .service,
        .service, .service, .service, .service]).map
        (fun e => (e.2.served, decide (Met ServiceState.ServesIdx e.1)))
      = some ([1, 0], true) := by decide +kernel
  obtain ⟨tr, s, hr, heq⟩ :=
    Run.exists_of_trace (S := serviceSystem (Fin 2) 3) (fun _ _ _ h => h) ⟨0, rfl⟩ htrace
  obtain ⟨hserved, hmet⟩ := Prod.mk.inj heq
  exact ⟨tr, s, hr, hserved, service_in_order (by decide) hr (of_decide_eq_true hmet)⟩

/-- **A request served twice**: with a buffer of two, the second request is
pushed between the check for the first and the access to it. The head goes
past `idx_`, the access is moved to the second request, and `idx_`, which
is only increased, comes to it once more. -/
theorem service_not_in_order : ∃ s, (serviceSystem (Fin 2) 2).Reachable s ∧ s.served = [1, 1]
    ∧ ¬ s.served.Pairwise (· > ·) := by
  have htrace : (trace ServiceState.next [] (ServiceState.fresh (Fin 2) 2 0)
      [.push 0, .service, .service, .push 1, .service, .service, .service, .service,
        .service, .service, .service, .service]).map (fun e => e.2.served)
      = some [1, 1] := by decide +kernel
  obtain ⟨tr, s, hr, hserved⟩ :=
    Run.exists_of_trace (S := serviceSystem (Fin 2) 2) (fun _ _ _ h => h) ⟨0, rfl⟩ htrace
  dsimp only at hserved
  exact ⟨s, hr.reachable, hserved, by rw [hserved]; decide⟩

/-- **When no pending request is lost.** In every state a run passes, each
request a client waits for and which is not served lies where the service
still gets to it, exactly if no push drops a request in this state, its own
included. -/
theorem request_not_lost_iff (hn : 0 < n) (hr : (serviceSystem K n).Run tr s) :
    Throughout ServiceState.NothingLost tr s ↔ Met ServiceState.DropsNothing tr := by
  refine hr.forall_iff (J := fun s => s.Inv n ∧ s.IdxDone) ?_ ?_ ?_
  · rintro s ⟨m, rfl⟩
    refine ⟨fun _ r hp => ?_, ServiceState.fresh_inv hn m, fun _ hcalled => absurd hcalled id⟩
    obtain ⟨⟨k, hk | hk⟩, _⟩ := hp <;> cases hk
  · intro s l s' h hJ hstep hl
    obtain ⟨h', hd'⟩ := h.step hJ.2 hJ.1 hstep hl
    exact ⟨h', hJ.1.step hstep, hd'⟩
  · intro s l s' _ hJ hstep hl
    exact ServiceState.not_nothingLost_push hJ.1 hstep hl

/-- A request pushed into a full buffer after the one it drops was served. -/
theorem request_not_lost_iff_served : ∃ tr s, (serviceSystem (Fin 2) 2).Run tr s ∧ s.Pending 6
    ∧ Throughout ServiceState.NothingLost tr s := by
  have htrace : (trace ServiceState.next [] (ServiceState.fresh (Fin 2) 2 5)
      [.push 0, .service, .service, .service, .service, .service, .service, .client 0, .push 1,
        .service, .service]).map
        (fun e => (decide (e.2.Pending 6), decide (Met ServiceState.DropsNothing e.1)))
      = some (true, true) := by decide +kernel
  obtain ⟨tr, s, hr, heq⟩ :=
    Run.exists_of_trace (S := serviceSystem (Fin 2) 2) (fun _ _ _ h => h) ⟨5, rfl⟩ htrace
  obtain ⟨hpending, hmet⟩ := Prod.mk.inj heq
  exact ⟨tr, s, hr, of_decide_eq_true hpending,
    (request_not_lost_iff (by decide) hr).mpr (of_decide_eq_true hmet)⟩

/-- **A request lost**: with a buffer of two, a second client pushes before
the service has come to the first; with a buffer of one, a push already
drops its own request. -/
theorem request_lost :
    (∃ s, (serviceSystem (Fin 2) 2).Reachable s ∧ s.isOnline = true ∧ s.Pending 0
      ∧ s.ring.head = 1)
    ∧ ∃ s, (serviceSystem (Fin 1) 1).Reachable s ∧ s.isOnline = true ∧ s.Pending 0
      ∧ s.ring.head = 1 := by
  constructor
  · have htrace : (trace ServiceState.next [] (ServiceState.fresh (Fin 2) 2 0)
        [.push 0, .push 1]).map
          (fun e => (e.2.isOnline, decide (e.2.Pending 0), e.2.ring.head))
        = some (true, true, 1) := by decide +kernel
    obtain ⟨tr, s, hr, heq⟩ :=
      Run.exists_of_trace (S := serviceSystem (Fin 2) 2) (fun _ _ _ h => h) ⟨0, rfl⟩ htrace
    simp only [Prod.mk.injEq, decide_eq_true_eq] at heq
    exact ⟨s, hr.reachable, heq⟩
  · have htrace : (trace ServiceState.next [] (ServiceState.fresh (Fin 1) 1 0)
        [.push 0]).map
          (fun e => (e.2.isOnline, decide (e.2.Pending 0), e.2.ring.head))
        = some (true, true, 1) := by decide +kernel
    obtain ⟨tr, s, hr, heq⟩ :=
      Run.exists_of_trace (S := serviceSystem (Fin 1) 1) (fun _ _ _ h => h) ⟨0, rfl⟩ htrace
    simp only [Prod.mk.injEq, decide_eq_true_eq] at heq
    exact ⟨s, hr.reachable, heq⟩

/-- **When clients are told the truth**: as long as the service is not
destroyed while a client is about to find it offline whose request has been
answered, and no push writes the element in which `is_ready` is about to be
set, a call returns `true` only for a request which has been served, and
`false` only for one which has not been, and is not served later. -/
theorem call_result (hn : 0 < n) (hr : (serviceSystem K n).Run tr s)
    (hc : Met ServiceState.FlagsAgree tr) : Throughout ServiceState.Answered tr s := by
  have hinv : Throughout ServiceState.Flags tr s := by
    refine hr.throughout_of_met ?_ (fun s l s' hs h hstep hl => ?_) hc
    · rintro s ⟨m, rfl⟩
      exact ⟨nofun, nofun, nofun, nofun, nofun, nofun, nofun⟩
    · exact h.step (ServiceState.inv_of_reachable hn hs) hstep hl
  exact ⟨hinv.1.answered, fun e he => (hinv.2 e he).answered⟩

/-- One call is served, the next one finds the service destroyed. -/
theorem call_result_destroyed : ∃ tr s, (serviceSystem (Fin 1) 2).Run tr s
    ∧ s.returned = [(1, false), (0, true)] ∧ s.served = [0]
    ∧ Throughout ServiceState.Answered tr s := by
  have htrace : (trace ServiceState.next [] (ServiceState.fresh (Fin 1) 2 0)
      [.push 0, .client 0, .service, .service, .service, .service, .service, .service,
        .client 0, .client 0, .client 0, .push 0, .client 0, .destroy, .client 0]).map
        (fun e => (e.2.returned, e.2.served, decide (Met ServiceState.FlagsAgree e.1)))
      = some ([(1, false), (0, true)], [0], true) := by decide +kernel
  obtain ⟨tr, s, hr, heq⟩ :=
    Run.exists_of_trace (S := serviceSystem (Fin 1) 2) (fun _ _ _ h => h) ⟨0, rfl⟩ htrace
  simp only [Prod.mk.injEq, decide_eq_true_eq] at heq
  obtain ⟨hreturned, hserved, hmet⟩ := heq
  exact ⟨tr, s, hr, hreturned, hserved, call_result (by decide) hr hmet⟩

/-- **A call which is told the wrong thing**: the service answers the
request after the client has found `is_ready` unset, and is destroyed
before the client looks at `is_online`; the call returns `false`. And with
more clients, the pushes of two others come round the buffer between the
callback and the write of `is_ready`; the last of them is told `true`. -/
theorem call_result_wrong :
    (∃ s, (serviceSystem (Fin 1) 2).Reachable s ∧ s.served = [0] ∧ s.returned = [(0, false)])
    ∧ ∃ s, (serviceSystem (Fin 3) 2).Reachable s ∧ s.served = [0] ∧ s.returned = [(2, true)] := by
  constructor
  · have htrace : (trace ServiceState.next [] (ServiceState.fresh (Fin 1) 2 0)
        [.push 0, .client 0, .service, .service, .service, .service, .service, .service,
          .destroy, .client 0]).map (fun e => (e.2.served, e.2.returned))
        = some ([0], [(0, false)]) := by decide +kernel
    obtain ⟨tr, s, hr, heq⟩ :=
      Run.exists_of_trace (S := serviceSystem (Fin 1) 2) (fun _ _ _ h => h) ⟨0, rfl⟩ htrace
    exact ⟨s, hr.reachable, Prod.mk.inj heq⟩
  · have htrace : (trace ServiceState.next [] (ServiceState.fresh (Fin 3) 2 0)
        [.push 0, .service, .service, .service, .service, .push 1, .push 2, .service,
          .client 2, .client 2]).map (fun e => (e.2.served, e.2.returned))
        = some ([0], [(2, true)]) := by decide +kernel
    obtain ⟨tr, s, hr, heq⟩ :=
      Run.exists_of_trace (S := serviceSystem (Fin 3) 2) (fun _ _ _ h => h) ⟨0, rfl⟩ htrace
    exact ⟨s, hr.reachable, Prod.mk.inj heq⟩
