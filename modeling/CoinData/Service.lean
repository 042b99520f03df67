import CoinData.CircularBuffer
import CoinData.Runs
import Mathlib.Data.List.Basic

/-!
# A service and its clients

A client pushes a request to the circular buffer it shares with the
service, and polls two flags until one ends its call: `is_ready` of its
request, which the service sets after the callback, and `is_online` of the
buffer, which the service clears when it is destroyed. The service keeps an
index of its own, `idx_`, which it compares with the head and the tail of
the buffer and then asks the buffer for.

Each read or write of what is shared is a step, and clients and service
take steps in any order. A request is named by its number in the buffer;
the elements of the buffer are pointers, null before the first push to
them, and after the service has reset them. The service is destroyed
between spins only: who spins it holds it.
-/

/-- Where the service is. -/
inductive ServicePc where
  /-- Between spins; next, `is_ready_` reads the head. -/
  | idle
  /-- `idx_` is behind the head, which is read again for it. -/
  | catchUp
  /-- `is_ready_` reads the tail. -/
  | checkTail
  /-- `operator[]` is asked for the element. -/
  | element
  /-- The callback is called on what the element points to. -/
  | callback (slot : ℕ)
  /-- `is_ready` is set in what the element points to. -/
  | setReady (slot : ℕ)
  /-- `idx_` is increased. -/
  | advance
  /-- The destructor reads the head. -/
  | cleanHead
  /-- The destructor compares its index with the tail. -/
  | cleanTail (i : ℕ)
  /-- The destructor asks for an element. -/
  | cleanElement (i : ℕ)
  /-- The destructor resets the element. -/
  | reset (slot i : ℕ)
  /-- The service is gone. -/
  | gone
deriving DecidableEq, Repr

/-- The service is being destroyed, or gone. -/
def ServicePc.Ended : ServicePc → Prop
  | .cleanHead | .cleanTail _ | .cleanElement _ | .reset .. | .gone => True
  | _ => False

/-- Where a client is, with the request of its call. -/
inductive ClientPc where
  | idle
  /-- The loop of `call` reads `is_ready`. -/
  | checkReady (request : ℕ)
  /-- After the sleep, `is_online` is read. -/
  | checkOnline (request : ℕ)
  /-- After the loop, `is_ready` is read for the result. -/
  | result (request : ℕ)
deriving DecidableEq, Repr

/-- **A service with its clients** `K`: the shared buffer with its flag, the
state of the service, `is_ready` of each request, and the state of each
client. `served` and `returned` record, latest first, the requests the
callback has completed on, and the results of calls. -/
structure ServiceState (K : Type) where
  ring : SharedCircularBuffer (Option ℕ)
  isOnline : Bool
  idx : ℕ
  pc : ServicePc
  isReady : ℕ → Bool
  client : K → ClientPc
  served : List ℕ
  returned : List (ℕ × Bool)

/-- Who takes a step. -/
inductive ServiceStep (K : Type) where
  /-- The service. -/
  | service
  /-- The destructor of the service starts. -/
  | destroy
  /-- A client calls: it pushes a request. -/
  | push (k : K)
  /-- A client goes on with its call. -/
  | client (k : K)
deriving DecidableEq, Repr

namespace ServiceState

variable {K : Type}

/-- The next step of `spin_`, or of the destructor. A null pointer in an
element is dereferenced without a next state. -/
def serviceStep (s : ServiceState K) : Option (ServiceState K) :=
  match s.pc with
  | .idle => some { s with pc := if s.idx < s.ring.head then .catchUp else .checkTail }
  | .catchUp => some { s with idx := s.ring.head, pc := .checkTail }
  | .checkTail => some { s with pc := if s.idx < s.ring.tail then .element else .idle }
  | .element => some { s with pc := .callback (s.ring.element s.idx) }
  | .callback slot =>
    (s.ring.buffer slot).map fun r => { s with served := r :: s.served, pc := .setReady slot }
  | .setReady slot =>
    (s.ring.buffer slot).map fun r =>
      { s with isReady := Function.update s.isReady r true, pc := .advance }
  | .advance => some { s with idx := s.idx + 1, pc := .idle }
  | .cleanHead => some { s with pc := .cleanTail s.ring.head }
  | .cleanTail i => some { s with pc := if i < s.ring.tail then .cleanElement i else .gone }
  | .cleanElement i => some { s with pc := .reset (s.ring.element i) i }
  | .reset slot i => some { s with ring := s.ring.assign slot none, pc := .cleanTail (i + 1) }
  | .gone => none

variable [DecidableEq K]

/-- The next step of `call`. -/
def clientStep (s : ServiceState K) (k : K) : Option (ServiceState K) :=
  match s.client k with
  | .idle => none
  | .checkReady r => some { s with
      client := Function.update s.client k (if s.isReady r then .result r else .checkOnline r) }
  | .checkOnline r =>
    if s.isOnline then some { s with client := Function.update s.client k (.checkReady r) }
    else some { s with
      client := Function.update s.client k .idle
      returned := (r, false) :: s.returned }
  | .result r => some { s with
      client := Function.update s.client k .idle
      returned := (r, s.isReady r) :: s.returned }

/-- Take a step, if it is possible. -/
def next (s : ServiceState K) : ServiceStep K → Option (ServiceState K)
  | .service => s.serviceStep
  | .destroy =>
    if s.pc = .idle then some { s with isOnline := false, pc := .cleanHead } else none
  | .push k =>
    if s.client k = .idle then some { s with
      ring := s.ring.pushBack (some s.ring.tail)
      client := Function.update s.client k (.checkReady s.ring.tail) }
    else none
  | .client k => s.clientStep k

/-- A service just constructed over a buffer of `n` elements, to which `m`
requests have been pushed whose callers are gone. -/
def fresh (K : Type) (n m : ℕ) : ServiceState K :=
  { ring := (List.range m).foldl (fun ring r => ring.pushBack (some r)) (.ofSize n)
    isOnline := true
    idx := m
    pc := .idle
    isReady := fun _ => false
    client := fun _ => .idle
    served := []
    returned := [] }

end ServiceState

/-- **The system of a service and its clients**, with a buffer of size
`n`. -/
def serviceSystem (K : Type) [DecidableEq K] (n : ℕ) :
    TransitionSystem (ServiceState K) (ServiceStep K) where
  init s := ∃ m, s = ServiceState.fresh K n m
  step s l s' := s.next l = some s'

/-! ## What a step does -/

namespace ServicePc

/-- In this spin, the callback has been called. -/
def Called : ServicePc → Prop
  | .setReady _ | .advance => True
  | _ => False

/-- Where the callback has not been called, no flag is about to be set. -/
theorem ne_setReady {pc : ServicePc} (h : ¬ pc.Called) (slot : ℕ) : pc ≠ .setReady slot := by
  rintro rfl
  exact h trivial

end ServicePc

namespace ServiceState

variable {K : Type} {n : ℕ} {s s' : ServiceState K}

/-- **What a step of the service does**, besides going on. -/
inductive Move (s : ServiceState K) : ServiceState K → Prop
  /-- Nothing. -/
  | goto {pc : ServicePc} : ¬ s.pc.Called → ¬ pc.Called → (pc.Ended ↔ s.pc.Ended) →
      Move s { s with pc := pc }
  | catchUp : s.pc = .catchUp → Move s { s with idx := s.ring.head, pc := .checkTail }
  | callback {slot r : ℕ} : s.pc = .callback slot → s.ring.buffer slot = some r →
      Move s { s with served := r :: s.served, pc := .setReady slot }
  | setReady {slot r : ℕ} : s.pc = .setReady slot → s.ring.buffer slot = some r →
      Move s { s with isReady := Function.update s.isReady r true, pc := .advance }
  | advance : s.pc = .advance → Move s { s with idx := s.idx + 1, pc := .idle }
  | reset {slot i : ℕ} : s.pc = .reset slot i →
      Move s { s with ring := s.ring.assign slot none, pc := .cleanTail (i + 1) }

theorem move_of_serviceStep (h : s.serviceStep = some s') : Move s s' := by
  unfold serviceStep at h
  cases hpc : s.pc with
  | idle | checkTail | cleanTail i =>
    rw [hpc] at h
    cases h
    refine .goto (by simp [hpc, ServicePc.Called]) ?_ ?_ <;> split <;>
      simp [hpc, ServicePc.Called, ServicePc.Ended]
  | catchUp =>
    rw [hpc] at h
    cases h
    exact .catchUp hpc
  | element | cleanHead | cleanElement i =>
    rw [hpc] at h
    cases h
    refine .goto ?_ ?_ ?_ <;> simp [hpc, ServicePc.Called, ServicePc.Ended]
  | callback slot =>
    rw [hpc] at h
    obtain ⟨r, hr, rfl⟩ := Option.map_eq_some_iff.mp h
    exact .callback hpc hr
  | setReady slot =>
    rw [hpc] at h
    obtain ⟨r, hr, rfl⟩ := Option.map_eq_some_iff.mp h
    exact .setReady hpc hr
  | advance =>
    rw [hpc] at h
    cases h
    exact .advance hpc
  | reset slot i =>
    rw [hpc] at h
    cases h
    exact .reset hpc
  | gone =>
    rw [hpc] at h
    cases h

/-! ## The invariant -/

/-- A client is in the loop of its call, waiting for a request. -/
def Waits (s : ServiceState K) (k : K) (r : ℕ) : Prop :=
  s.client k = .checkReady r ∨ s.client k = .checkOnline r

/-- **Where the service is** decides what is known of `idx_`: it is behind
the head when it is to catch up, and below the tail once the spin has found
a request; and the element asked for is the one of `idx_`, unless the head
has gone past it. -/
structure At (s : ServiceState K) (n : ℕ) : Prop where
  idx_le : s.idx ≤ s.ring.tail
  idx_le_head : s.pc = .catchUp → s.idx ≤ s.ring.head
  idx_lt : s.pc = .element ∨ s.pc.Called → s.idx < s.ring.tail
  slot : ∀ slot, s.pc = .callback slot ∨ s.pc = .setReady slot →
    ∃ i, slot = i % n ∧ s.idx ≤ i ∧ i < s.ring.tail ∧ (s.ring.head ≤ s.idx → i = s.idx)

/-- Nothing is known of requests which have not been pushed. -/
structure Known (s : ServiceState K) : Prop where
  served : ∀ r ∈ s.served, r < s.ring.tail
  isReady : ∀ r, s.isReady r = true → r < s.ring.tail
  waits : ∀ k r, s.Waits k r → r < s.ring.tail

/-- **The invariant of a service.** -/
structure Inv (s : ServiceState K) (n : ℕ) : Prop where
  window : s.ring.Window n
  keeps : ¬ s.pc.Ended → s.ring.Keeps n some
  online : s.isOnline = true ↔ ¬ s.pc.Ended
  at_pc : s.At n
  known : s.Known

/-- An element the service is at points to a request. -/
theorem Inv.exists_request (h : s.Inv n) {slot : ℕ}
    (hpc : s.pc = .callback slot ∨ s.pc = .setReady slot) :
    ∃ r, s.ring.buffer slot = some r ∧ s.idx ≤ r ∧ r < s.ring.tail := by
  obtain ⟨i, hslot, hidx, hi, _⟩ := h.at_pc.slot slot hpc
  have hend : ¬ s.pc.Ended := by
    rcases hpc with hpc | hpc <;> rw [hpc] <;> exact id
  obtain ⟨j, hij, hj, _, hget⟩ := (h.keeps hend).exists_get hi
  exact ⟨j, by rw [hslot, hget], hidx.trans hij, hj⟩

/-- As long as the head is not past `idx_`, the element the service is at
points to the request `idx_`. -/
theorem Inv.request_eq (h : s.Inv n) {slot r : ℕ} (hpc : s.pc = .callback slot)
    (hr : s.ring.buffer slot = some r) (hhead : s.ring.head ≤ s.idx) : r = s.idx := by
  obtain ⟨i, hslot, _, hi, heq⟩ := h.at_pc.slot slot (Or.inl hpc)
  have hend : ¬ s.pc.Ended := by rw [hpc]; exact id
  have hwin := h.window.head_eq
  have hpos := h.window.pos
  rw [heq hhead] at hslot hi
  rw [hslot, (h.keeps hend).get s.idx hi (by omega)] at hr
  exact (Option.some.inj hr).symm

theorem At.service (h : s.At n) (hw : s.ring.Window n) (hs : s.serviceStep = some s') :
    s'.At n := by
  have hwin := hw.head_eq
  have hpos := hw.pos
  have hle := h.idx_le
  unfold serviceStep at hs
  cases hpc : s.pc with
  | idle =>
    rw [hpc] at hs
    cases hs
    by_cases hlt : s.idx < s.ring.head
    · simp only [if_pos hlt]
      exact ⟨hle, fun _ => hlt.le, by simp [ServicePc.Called], by simp⟩
    · simp only [if_neg hlt]
      exact ⟨hle, nofun, by simp [ServicePc.Called], by simp⟩
  | catchUp =>
    rw [hpc] at hs
    cases hs
    refine ⟨?_, nofun, by simp [ServicePc.Called], by simp⟩
    show s.ring.head ≤ s.ring.tail
    omega
  | checkTail =>
    rw [hpc] at hs
    cases hs
    by_cases hlt : s.idx < s.ring.tail
    · simp only [if_pos hlt]
      exact ⟨hle, nofun, fun _ => hlt, by simp⟩
    · simp only [if_neg hlt]
      exact ⟨hle, nofun, by simp [ServicePc.Called], by simp⟩
  | element =>
    rw [hpc] at hs
    cases hs
    refine ⟨hle, nofun, by simp [ServicePc.Called], fun slot hslot => ?_⟩
    obtain ⟨i, hi, hidx⟩ := hw.exists_element (h.idx_lt (Or.inl hpc))
    rcases hslot with hslot | hslot
    · cases hslot
      exact ⟨i, hi, hidx⟩
    · cases hslot
  | callback slot =>
    rw [hpc] at hs
    obtain ⟨r, _, rfl⟩ := Option.map_eq_some_iff.mp hs
    obtain ⟨i, hi, hidx, hlt, heq⟩ := h.slot slot (Or.inl hpc)
    refine ⟨hle, nofun, fun _ => lt_of_le_of_lt hidx hlt, fun slot' hslot => ?_⟩
    rcases hslot with hslot | hslot
    · cases hslot
    · cases hslot
      exact ⟨i, hi, hidx, hlt, heq⟩
  | setReady slot =>
    rw [hpc] at hs
    obtain ⟨r, _, rfl⟩ := Option.map_eq_some_iff.mp hs
    have hlt := h.idx_lt (Or.inr (by rw [hpc]; trivial))
    exact ⟨hle, nofun, fun _ => hlt, by simp⟩
  | advance =>
    rw [hpc] at hs
    cases hs
    exact ⟨h.idx_lt (Or.inr (by rw [hpc]; trivial)), nofun, by simp [ServicePc.Called], by simp⟩
  | cleanHead | cleanElement i | reset slot i =>
    rw [hpc] at hs
    cases hs
    exact ⟨hle, nofun, by simp [ServicePc.Called], by simp⟩
  | cleanTail i =>
    rw [hpc] at hs
    cases hs
    refine ⟨hle, ?_, ?_, ?_⟩ <;> dsimp only <;> split <;> simp [ServicePc.Called]
  | gone =>
    rw [hpc] at hs
    cases hs

/-- **A step of the service keeps the invariant.** -/
theorem Inv.service (h : s.Inv n) (hs : s.serviceStep = some s') : s'.Inv n := by
  have hat := h.at_pc.service h.window hs
  have hknown := h.known
  cases move_of_serviceStep hs with
  | goto _ _ hend =>
    exact ⟨h.window, fun he => h.keeps fun he' => he (hend.mpr he'),
      h.online.trans (not_congr hend.symm), hat, hknown.1, hknown.2, hknown.3⟩
  | catchUp hpc | advance hpc =>
    have hend : ¬ s.pc.Ended := by rw [hpc]; exact id
    exact ⟨h.window, fun _ => h.keeps hend, h.online.trans (iff_of_true hend id), hat,
      hknown.1, hknown.2, hknown.3⟩
  | callback hpc hr =>
    have hend : ¬ s.pc.Ended := by rw [hpc]; exact id
    obtain ⟨r', hr', _, hlt⟩ := h.exists_request (Or.inl hpc)
    rw [hr] at hr'
    cases hr'
    exact ⟨h.window, fun _ => h.keeps hend, h.online.trans (iff_of_true hend id), hat,
      List.forall_mem_cons.mpr ⟨hlt, hknown.1⟩, hknown.2, hknown.3⟩
  | @setReady slot r hpc hr =>
    have hend : ¬ s.pc.Ended := by rw [hpc]; exact id
    obtain ⟨r', hr', _, hlt⟩ := h.exists_request (Or.inr hpc)
    rw [hr] at hr'
    cases hr'
    refine ⟨h.window, fun _ => h.keeps hend, h.online.trans (iff_of_true hend id), hat,
      hknown.1, fun q hq => ?_, hknown.3⟩
    by_cases hqr : q = r
    · rw [hqr]
      exact hlt
    · dsimp only at hq
      rw [Function.update_of_ne hqr] at hq
      exact hknown.2 q hq
  | reset hpc =>
    have hend : s.pc.Ended := by rw [hpc]; trivial
    exact ⟨⟨h.window.size, h.window.pos, h.window.head_eq⟩, fun he => absurd trivial he,
      h.online.trans (iff_of_false (not_not.mpr hend) (not_not.mpr trivial)), hat,
      hknown.1, hknown.2, hknown.3⟩

variable [DecidableEq K]

/-- **A push keeps the invariant.** -/
theorem Inv.push (h : s.Inv n) {k : K} (hs : s.next (.push k) = some s') : s'.Inv n := by
  dsimp only [next] at hs
  split at hs
  · cases hs
    have hwin := h.window.head_eq
    have hhead := h.window.head_le_pushBack (some s.ring.tail)
    refine ⟨h.window.pushBack _, fun he => (h.keeps he).pushBack, h.online, ?_, ?_⟩
    · refine ⟨Nat.le_succ_of_le h.at_pc.idx_le, fun hpc => (h.at_pc.idx_le_head hpc).trans hhead,
        fun hpc => Nat.lt_succ_of_lt (h.at_pc.idx_lt hpc), fun slot hslot => ?_⟩
      obtain ⟨i, hi, hidx, hlt, heq⟩ := h.at_pc.slot slot hslot
      exact ⟨i, hi, hidx, Nat.lt_succ_of_lt hlt, fun hle => heq (hhead.trans hle)⟩
    · refine ⟨fun r hr => Nat.lt_succ_of_lt (h.known.served r hr),
        fun r hr => Nat.lt_succ_of_lt (h.known.isReady r hr), fun k' r hr => ?_⟩
      show r < s.ring.tail + 1
      by_cases hk : k' = k
      · rw [Waits, hk] at hr
        dsimp only at hr
        rw [Function.update_self] at hr
        rcases hr with hr | hr <;> cases hr
        exact Nat.lt_succ_self _
      · rw [Waits] at hr
        dsimp only at hr
        rw [Function.update_of_ne hk] at hr
        exact Nat.lt_succ_of_lt (h.known.waits k' r hr)
  · cases hs

/-- **What a step of a client does.** -/
inductive Reply (s : ServiceState K) (k : K) : ServiceState K → Prop
  | ready {r : ℕ} : s.client k = .checkReady r → s.isReady r = true →
      Reply s k { s with client := Function.update s.client k (.result r) }
  | wait {r : ℕ} : s.client k = .checkReady r → s.isReady r = false →
      Reply s k { s with client := Function.update s.client k (.checkOnline r) }
  | again {r : ℕ} : s.client k = .checkOnline r → s.isOnline = true →
      Reply s k { s with client := Function.update s.client k (.checkReady r) }
  | offline {r : ℕ} : s.client k = .checkOnline r → s.isOnline = false →
      Reply s k { s with
        client := Function.update s.client k .idle
        returned := (r, false) :: s.returned }
  | result {r : ℕ} : s.client k = .result r →
      Reply s k { s with
        client := Function.update s.client k .idle
        returned := (r, s.isReady r) :: s.returned }

theorem reply_of_clientStep {k : K} (h : s.clientStep k = some s') : Reply s k s' := by
  unfold clientStep at h
  cases hk : s.client k with
  | idle =>
    rw [hk] at h
    cases h
  | checkReady r =>
    rw [hk] at h
    cases h
    by_cases hr : s.isReady r = true
    · rw [if_pos hr]
      exact .ready hk hr
    · rw [if_neg hr]
      exact .wait hk (Bool.eq_false_iff.mpr hr)
  | checkOnline r =>
    rw [hk] at h
    dsimp only at h
    split at h
    · next hon =>
      cases h
      exact .again hk hon
    · next hoff =>
      cases h
      exact .offline hk (Bool.eq_false_iff.mpr hoff)
  | result r =>
    rw [hk] at h
    cases h
    exact .result hk

/-- What a client waits for, it has waited for before, unless it has just
pushed. -/
theorem Reply.waits {k : K} (h : Reply s k s') {k' : K} {r : ℕ} (hr : s'.Waits k' r) :
    s.Waits k' r := by
  have hother : ∀ pc : ClientPc, k' ≠ k →
      (Function.update s.client k pc) k' = s.client k' := fun pc hk => Function.update_of_ne hk _ _
  unfold Waits at hr ⊢
  cases h with
  | ready hk _ | offline hk _ | result hk =>
    by_cases hkk : k' = k
    · rw [hkk] at hr
      simp at hr
    · simpa only [hother _ hkk] using hr
  | wait hk _ =>
    by_cases hkk : k' = k
    · rw [hkk] at hr ⊢
      simp only [Function.update_self, ClientPc.checkOnline.injEq, reduceCtorEq, false_or] at hr
      exact Or.inl (hr ▸ hk)
    · simpa only [hother _ hkk] using hr
  | again hk _ =>
    by_cases hkk : k' = k
    · rw [hkk] at hr ⊢
      simp only [Function.update_self, ClientPc.checkReady.injEq, reduceCtorEq, or_false] at hr
      exact Or.inr (hr ▸ hk)
    · simpa only [hother _ hkk] using hr

/-- A step of a client leaves what the service does, and the flags. -/
theorem Reply.same {k : K} (h : Reply s k s') : s'.ring = s.ring ∧ s'.isOnline = s.isOnline
    ∧ s'.idx = s.idx ∧ s'.pc = s.pc ∧ s'.isReady = s.isReady ∧ s'.served = s.served := by
  cases h <;> exact ⟨rfl, rfl, rfl, rfl, rfl, rfl⟩

/-- **A step of a client keeps the invariant.** -/
theorem Inv.client (h : s.Inv n) {k : K} (hs : Reply s k s') : s'.Inv n := by
  obtain ⟨hring, honline, hidx, hpc, hready, hserved⟩ := hs.same
  refine ⟨?_, ?_, ?_, ⟨?_, ?_, ?_, ?_⟩, ?_, ?_, fun k' r hr => ?_⟩
  · rw [hring]
    exact h.window
  · rw [hring, hpc]
    exact h.keeps
  · rw [honline, hpc]
    exact h.online
  · rw [hidx, hring]
    exact h.at_pc.idx_le
  · rw [hidx, hring, hpc]
    exact h.at_pc.idx_le_head
  · rw [hidx, hring, hpc]
    exact h.at_pc.idx_lt
  · rw [hidx, hring, hpc]
    exact h.at_pc.slot
  · rw [hserved, hring]
    exact h.known.served
  · rw [hready, hring]
    exact h.known.isReady
  · rw [hring]
    exact h.known.waits k' r (hs.waits hr)

/-- The destructor starts. -/
theorem Inv.destroy (h : s.Inv n) (hs : s.next .destroy = some s') : s'.Inv n := by
  dsimp only [next] at hs
  split at hs
  · cases hs
    exact ⟨h.window, fun he => absurd trivial he,
      iff_of_false Bool.false_ne_true (not_not.mpr trivial),
      ⟨h.at_pc.idx_le, nofun, by simp [ServicePc.Called], by simp⟩,
      h.known.served, h.known.isReady, h.known.waits⟩
  · cases hs

/-- **Every step keeps the invariant.** -/
theorem Inv.step (h : s.Inv n) {l : ServiceStep K} (hs : s.next l = some s') : s'.Inv n := by
  cases l with
  | service => exact h.service hs
  | destroy => exact h.destroy hs
  | push k => exact h.push hs
  | client k => exact h.client (reply_of_clientStep hs)

omit [DecidableEq K] in
theorem fresh_inv (hn : 0 < n) (m : ℕ) : (fresh K n m).Inv n := by
  have hring : ∀ m, ((List.range m).foldl (fun ring r => ring.pushBack (some r))
      (SharedCircularBuffer.ofSize n)).Keeps n some
      ∧ ((List.range m).foldl (fun ring r => ring.pushBack (some r))
        (SharedCircularBuffer.ofSize n)).tail = m := by
    intro m
    induction m with
    | zero => exact ⟨.ofSize hn some, rfl⟩
    | succ m ih =>
      obtain ⟨hkeeps, htail⟩ := ih
      rw [List.range_succ, List.foldl_append]
      refine ⟨?_, congrArg (· + 1) htail⟩
      have := hkeeps.pushBack
      rw [htail] at this
      exact this
  obtain ⟨hkeeps, htail⟩ := hring m
  refine ⟨hkeeps.toWindow, fun _ => hkeeps, iff_of_true rfl id, ⟨htail.ge, nofun, ?_, by simp [fresh]⟩,
    nofun, nofun, ?_⟩
  · simp [fresh, ServicePc.Called]
  · rintro k r (hr | hr) <;> cases hr

end ServiceState

/-- **The invariant holds in every reachable state.** -/
theorem ServiceState.inv_of_reachable {K : Type} [DecidableEq K] {n : ℕ} (hn : 0 < n)
    {s : ServiceState K} (hs : (serviceSystem K n).Reachable s) : s.Inv n := by
  refine hs.invariant (I := fun s => s.Inv n) ?_ (fun s l s' _ h hstep => h.step hstep)
  rintro s ⟨m, rfl⟩
  exact ServiceState.fresh_inv hn m

/-- **The service is never stuck**: no null pointer is dereferenced, and it
can go on until it is gone. -/
theorem service_goes_on {K : Type} [DecidableEq K] {n : ℕ} (hn : 0 < n) {s : ServiceState K}
    (hs : (serviceSystem K n).Reachable s) (hpc : s.pc ≠ .gone) :
    ∃ s', (serviceSystem K n).step s .service s' := by
  have h := ServiceState.inv_of_reachable hn hs
  show ∃ s', s.serviceStep = some s'
  unfold ServiceState.serviceStep
  cases hp : s.pc with
  | callback slot =>
    obtain ⟨r, hr, _⟩ := h.exists_request (Or.inl hp)
    exact ⟨_, by dsimp only; rw [hr]; rfl⟩
  | setReady slot =>
    obtain ⟨r, hr, _⟩ := h.exists_request (Or.inr hp)
    exact ⟨_, by dsimp only; rw [hr]; rfl⟩
  | gone => exact absurd hp hpc
  | idle => exact ⟨_, rfl⟩
  | catchUp => exact ⟨_, rfl⟩
  | checkTail => exact ⟨_, rfl⟩
  | element => exact ⟨_, rfl⟩
  | advance => exact ⟨_, rfl⟩
  | cleanHead => exact ⟨_, rfl⟩
  | cleanTail i => exact ⟨_, rfl⟩
  | cleanElement i => exact ⟨_, rfl⟩
  | reset slot i => exact ⟨_, rfl⟩
