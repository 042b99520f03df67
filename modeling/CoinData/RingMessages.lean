import CoinData.CircularBufferCells
import CoinData.SharedPtrRefinement

/-!
# The messages a ring keeps

The elements of a publisher's buffer, and of a service's, are shared
pointers: to publish a message is to assign a handle to the next element,
and what an element referred to before is given up. The destructor of the
publisher, and of the service, is to give back what is still there. It
walks over the window, so an element outside the window is not reached:
there is one as soon as there have been as many messages as elements.

What else the callers do with their handles is up to them, as long as they
do not store to the elements, no object comes to own itself, and none has as
many handles as its counter has values.
-/

/-! ## A memory by itself -/

namespace SharedRefs

variable {s : SharedRefs} {p q : Place} {x : Option ℕ}

/-- A handle outside the objects is nothing an object owns. -/
theorem acyclic_set_outside (h : s.graph.Acyclic) (hp : p.container = none) (x : Option ℕ) :
    (s.set p x).graph.Acyclic := by
  refine h.mono fun o i hi => ?_
  obtain ⟨k, hk⟩ := hi
  rw [target_set, Function.update_of_ne ?_] at hk
  · exact ⟨k, hk⟩
  · rintro rfl
    cases hp

end SharedRefs

/-- The handles an operation stores to. -/
def PtrOp.Writes : PtrOp → Place → Prop
  | .makeShmShared h _, p | .construct h, p | .copyConstruct h _, p | .destroy h, p =>
    p = .handle h
  | .moveConstruct h rhs, p => p = .handle h ∨ p = rhs
  | .copyAssign lhs _, p => p = lhs
  | .moveAssign lhs rhs, p => p = lhs ∨ p = rhs
  | .reset q, p => p = q

namespace PtrMemory

/-- What the handles of a memory refer to. -/
def refs (m : PtrMemory) : SharedRefs := ⟨m.view, m.next⟩

/-- **A memory in order**: the objects that are there are those which can be
reached from the handles outside. -/
def Owned (m : PtrMemory) : Prop := m.Agrees m.refs

variable {m m' : PtrMemory} {s : SharedRefs} {p q : Place}

theorem target_refs (m : PtrMemory) (p : Place) : m.refs.target p = m.refersTo p :=
  (refersTo_eq_view m p).symm

/-- **A memory which is as it should be** is in order. -/
theorem Agrees.owned (ha : m.Agrees s) : m.Owned := by
  have htarget : ∀ {p}, s.Present p → m.refs.target p = s.target p :=
    fun hp => (target_refs m _).trans (ha.refersTo hp)
  have hpresent : ∀ {p i}, m.refs.target p = some i → s.Present p := by
    intro p i hi
    rw [target_refs] at hi
    obtain ⟨c, hc, -⟩ := handles_of_refersTo hi
    refine ha.present ?_
    rw [hc]
    exact Option.some_ne_none c
  have howns : ∀ {o k i}, m.refs.target (.field o k) = some i → s.target (.field o k) = some i :=
    fun hi => (htarget (hpresent hi)).symm.trans hi
  have hlive : ∀ i, m.refs.Live i ↔ s.Live i := by
    refine fun i => ⟨?_, fun hi => ?_⟩
    · refine Ownership.Reachable.mono (fun j hj => ?_) fun o j _ ho hj => ?_
      · obtain ⟨h, hh⟩ := hj
        exact .of_root ⟨h, (htarget (s.present_handle h)).symm.trans hh⟩
      · obtain ⟨k, hk⟩ := hj
        exact ho.owned ⟨k, howns hk⟩
    · refine Ownership.Reachable.mono (fun j hj => ?_) (fun o j ho ho' hj => ?_) hi
      · obtain ⟨h, hh⟩ := hj
        exact .of_root ⟨h, (htarget (s.present_handle h)).trans hh⟩
      · -- what is in a live object is there
        obtain ⟨k, hk⟩ := hj
        have hin : s.Present (.field o k) := by
          rintro o' ⟨⟩
          exact ho
        exact ho'.owned ⟨k, (htarget hin).trans hk⟩
  exact ⟨ha.counted, rfl, fun i => (ha.live i).trans (hlive i).symm, fun _ _ => rfl,
    ha.acyclic.mono fun o i ⟨k, hk⟩ => ⟨k, howns hk⟩⟩

end PtrMemory

namespace SharedRefs

variable {s : SharedRefs} {p : Place}

theorem points_set_of_ne (s : SharedRefs) {q : Place} (h : p ≠ q) (x : Option ℕ) :
    (s.set q x).points p = s.points p := Function.update_of_ne h ..

/-- **What an operation does not store to** refers to what it did. -/
theorem points_apply {l : PtrOp} (hl : s.Enabled l) (hout : p.container = none)
    (hw : ¬ l.Writes p) : (s.apply l).points p = s.points p := by
  cases l with
  | makeShmShared h width =>
    cases p with
    | handle h' => exact if_neg fun heq => hw (congrArg Place.handle heq)
    | field => cases hout
  | construct h => exact points_set_of_ne s hw _
  | copyConstruct h rhs => exact points_set_of_ne s hw _
  | moveConstruct h rhs =>
    obtain ⟨hne, hne'⟩ := not_or.mp hw
    exact (points_set_of_ne _ hne' _).trans (points_set_of_ne s hne _)
  | copyAssign lhs rhs => exact points_set_of_ne s hw _
  | moveAssign lhs rhs =>
    obtain ⟨hne, hne'⟩ := not_or.mp hw
    show (if lhs = rhs then s else (s.set lhs (s.target rhs)).set rhs none).points p = _
    split
    · rfl
    · exact (points_set_of_ne _ hne' _).trans (points_set_of_ne s hne _)
  | reset q => exact points_set_of_ne s hw _
  | destroy h => exact Function.update_of_ne hw ..

end SharedRefs

namespace PtrMemory

variable {m m' : PtrMemory} {p q : Place}

/-- **An operation that returns** has done what it is to do, or nothing. -/
theorem Owned.agrees_of_run (h : m.Owned) (hfew : m.Few ∅) {l : PtrOp} (hl : m.refs.Enabled l)
    (hacyclic : (m.refs.apply l).graph.Acyclic) (hrun : m.run l = .ok m') :
    m'.Agrees (m.refs.apply l) ∨ m' = m ∧ ¬ PtrPair.Sound ⟨.ok m, m.refs⟩ l := by
  by_cases hsound : PtrPair.Sound ⟨.ok m, m.refs⟩ l
  · obtain ⟨m'', hm'', ha⟩ := Agrees.run h hfew hl hacyclic hsound
    cases hrun.symm.trans hm''
    exact .inl ha
  · refine .inr ⟨?_, hsound⟩
    cases l with
    | copyAssign lhs rhs =>
      obtain ⟨c, hc, -⟩ := h.usable hl.1
      obtain ⟨d, hd, hraw⟩ := h.usable hl.2
      change m.copyAssign lhs rhs = .ok m' at hrun
      obtain ⟨hne, ⟨ht, -⟩ | ⟨i, ht, hgone⟩⟩ := SharedRefs.unsound hsound
      · rw [copyAssign_skip hd (Or.inl (hraw.trans ht))] at hrun
        cases hrun
        rfl
      · obtain ⟨m₁, hdrop, herror, -⟩ := copyAssign_spec h.counted hfew h.ordered hc
          ((h.refersTo hl.2.2).trans ht) hne
        rw [herror (h.handles_of_not_present hdrop hgone)] at hrun
        cases hrun
    | moveAssign lhs rhs =>
      obtain ⟨c, hc, -⟩ := h.usable hl.1
      obtain ⟨d, hd, hraw⟩ := h.usable hl.2
      change m.moveAssign lhs rhs = .ok m' at hrun
      obtain ⟨hne, ⟨ht, -⟩ | ⟨i, ht, hgone⟩⟩ := SharedRefs.unsound hsound
      · rw [moveAssign_skip hd (Or.inl (hraw.trans ht))] at hrun
        cases hrun
        rfl
      · obtain ⟨m₁, hdrop, herror, -⟩ := moveAssign_spec h.counted hfew h.ordered hc
          ((h.refersTo hl.2.2).trans ht) hne
        rw [herror (h.handles_of_not_present hdrop hgone)] at hrun
        cases hrun
    | makeShmShared => exact absurd trivial hsound
    | construct => exact absurd trivial hsound
    | copyConstruct => exact absurd trivial hsound
    | moveConstruct => exact absurd trivial hsound
    | reset => exact absurd trivial hsound
    | destroy => exact absurd trivial hsound

/-- **An operation that returns leaves the memory in order**, and the
handles outside which it does not store to. -/
theorem Owned.run (h : m.Owned) (hfew : m.Few ∅) {l : PtrOp} (hl : m.refs.Enabled l)
    (hacyclic : (m.refs.apply l).graph.Acyclic) (hrun : m.run l = .ok m') :
    m'.Owned ∧ ∀ p, p.container = none → ¬ l.Writes p → m'.view p = m.view p := by
  obtain ha | ⟨rfl, -⟩ := h.agrees_of_run hfew hl hacyclic hrun
  · refine ⟨ha.owned, fun p hout hw => ?_⟩
    have hpresent : (m.refs.apply l).Present p := by
      intro o ho
      rw [hout] at ho
      cases ho
    rw [ha.view p hpresent]
    exact SharedRefs.points_apply hl hout hw
  · exact ⟨h, fun _ _ _ => rfl⟩

/-- **A handle outside is assigned another one**, which does nothing if that
is null. -/
theorem Owned.copyAssign (h : m.Owned) (hfew : m.Few ∅) (hp : m.refs.Usable p)
    (hout : p.container = none) (hq : m.refs.Usable q) (hrun : m.copyAssign p q = .ok m') :
    m'.Owned ∧ m'.view p = some ((m.refersTo q).or (m.refersTo p))
      ∧ ∀ r, r.container = none → r ≠ p → m'.view r = m.view r := by
  have hacyclic := SharedRefs.acyclic_set_outside h.acyclic hout (m.refs.target q)
  have hl : m.refs.Enabled (.copyAssign p q) := ⟨hp, hq⟩
  obtain ⟨howned, hothers⟩ := h.run hfew hl hacyclic hrun
  refine ⟨howned, ?_, hothers⟩
  have hself : m.view p = some (m.refersTo p) := by
    obtain ⟨x, hx⟩ := Option.ne_none_iff_exists'.mp hp.1
    rw [show m.view p = some x from hx, refersTo_eq_view, show m.view p = some x from hx]
    rfl
  have hpresent : (m.refs.apply (.copyAssign p q)).Present p := by
    intro o ho
    rw [hout] at ho
    cases ho
  by_cases hpq : p = q
  · -- a handle assigned to itself
    obtain ⟨c, hc, -⟩ := h.usable hq
    rw [copyAssign_skip hc (Or.inr hpq)] at hrun
    cases hrun
    rw [hself, ← hpq, Option.or_self]
  · cases ht : m.refersTo q with
    | none =>
      obtain ⟨c, hc, hraw⟩ := h.usable hq
      rw [copyAssign_skip hc (Or.inl (hraw.trans ((target_refs m q).trans ht)))] at hrun
      cases hrun
      rw [hself, Option.none_or]
    | some i =>
      have hi : m.refs.target q = some i := (target_refs m q).trans ht
      obtain ha | ⟨rfl, hunsound⟩ := h.agrees_of_run hfew hl hacyclic hrun
      · rw [ha.view p hpresent]
        show Function.update m.view p (some (m.refs.target q)) p = _
        rw [Function.update_self, hi, Option.some_or]
      · -- the right side would be gone
        obtain ⟨-, ⟨hnone, -⟩ | ⟨j, hj, hgone⟩⟩ := SharedRefs.unsound hunsound
        · rw [hi] at hnone
          cases hnone
        · obtain ⟨c, hc, -⟩ := h.usable hp
          obtain ⟨m₁, hdrop, herror, -⟩ := copyAssign_spec h.counted hfew h.ordered hc ht hpq
          change m'.copyAssign p q = .ok m' at hrun
          rw [herror (h.handles_of_not_present hdrop hgone)] at hrun
          cases hrun

/-- Only the left side comes to point to something. -/
theorem Owned.support_copyAssign {S : Finset Place} (h : m.Owned) (hfew : m.Few ∅)
    (hp : m.refs.Usable p) (hout : p.container = none) (hq : m.refs.Usable q)
    (hrun : m.copyAssign p q = .ok m') (hS : ∀ r, m.refersTo r ≠ none → r ∈ S) (r : Place)
    (hr : m'.refersTo r ≠ none) : r ∈ insert p S := by
  by_cases hrp : r = p
  · rw [hrp]
    exact Finset.mem_insert_self ..
  · refine Finset.mem_insert_of_mem (hS r ?_)
    have hacyclic := SharedRefs.acyclic_set_outside h.acyclic hout (m.refs.target q)
    obtain ha | ⟨rfl, -⟩ := h.agrees_of_run hfew (l := .copyAssign p q) ⟨hp, hq⟩ hacyclic hrun
    · have hthere : m'.handles r ≠ none := fun hnone => hr (refersTo_of_none hnone)
      rw [ha.refersTo (ha.present hthere)] at hr
      rw [← target_refs]
      have hpoints : (m.refs.set p (m.refs.target q)).points r = m.refs.points r :=
        SharedRefs.points_set_of_ne m.refs hrp _
      rw [SharedRefs.target, ← hpoints]
      exact hr
    · exact hr

/-- **A handle is reset.** -/
theorem Owned.reset (h : m.Owned) (hfew : m.Few ∅) (hp : m.refs.Usable p) :
    ∃ m', m.reset p = .ok m' ∧ m'.Owned ∧ m'.Few ∅ ∧ m'.view p = some none
      ∧ ∀ r, r.container = none → r ≠ p → m'.view r = m.view r := by
  obtain ⟨c, hc, -⟩ := h.usable hp
  obtain ⟨m', hm', hd⟩ := reset_spec h.counted hfew h.ordered hc
  have hview : m'.view p = some none := by
    rw [(h.dropped hd).view p (hp.2.set_none h.acyclic)]
    exact Function.update_self ..
  refine ⟨m', hm', (h.dropped hd).owned, hfew.dropped hd, hview, ?_⟩
  exact (h.run hfew (l := .reset p) hp (SharedRefs.acyclic_set_none h.acyclic p) hm').2

end PtrMemory

/-! ## The ring -/

/-- What an operation on the ring may break on. -/
inductive RingFault where
  | cells (fault : CellFault)
  | pointers (fault : PtrFault)
deriving DecidableEq, Repr

namespace CircularCells

/-- `push_back`, where the elements are handles: the one it writes to is
assigned `data`. -/
def pushHandle (ring : CircularCells Place) (m : PtrMemory) (data : Place) :
    Except RingFault (PtrMemory × CircularCells Place) := do
  let idx ← ring.writeSlot.mapError .cells
  let slot ← (ring.cell idx).mapError .cells
  let m ← (m.copyAssign slot data).mapError .pointers
  return (m, ring.advance)

/-- `buffer[idx].reset()`. -/
def resetAt (ring : CircularCells Place) (m : PtrMemory) (idx : UInt64) :
    Except RingFault PtrMemory := do
  let i ← (ring.element idx).mapError .cells
  let slot ← (ring.cell i).mapError .cells
  (m.reset slot).mapError .pointers

/-- The loop `for(auto idx = head(); idx < tail(); idx++)`, from `idx` on,
for at most so many times. -/
def resetFrom (ring : CircularCells Place) : ℕ → UInt64 → PtrMemory → Except RingFault PtrMemory
  | 0, _, m => .ok m
  | times + 1, idx, m =>
    if idx < ring.tail then do
      let m ← ring.resetAt m idx
      resetFrom ring times (idx + 1) m
    else .ok m

/-- What `~LocalPublisher` and `~LocalService` do to the ring. -/
def cleanUp (ring : CircularCells Place) (m : PtrMemory) : Except RingFault PtrMemory :=
  ring.resetFrom (ring.tail.toNat - ring.head.toNat) ring.head m

end CircularCells

/-- **A ring of messages**, the handles there are, and what was pushed: what
each message referred to. -/
structure RingMemory where
  mem : PtrMemory
  ring : CircularCells Place
  pushed : List (Option ℕ)

/-- What happens to a ring of messages. -/
inductive MessageOp where
  /-- `publish`, and the `push_back` in `call`. -/
  | push (data : Place)
  /-- Anything else the callers do with their handles. -/
  | pointers (l : PtrOp)

/-- **A ring of `size` messages**, from its construction on, among whatever
handles there are. The callers store to handles of their own, no object
comes to own itself, and there are few handles to each. -/
def ringSystem (size : UInt64) : TransitionSystem RingMemory MessageOp where
  init s := s.mem.Owned ∧ s.mem.Few ∅ ∧ s.ring.head = 0 ∧ s.ring.tail = 0 ∧ s.ring.totalSize = size
    ∧ s.ring.buffer.length = size.toNat ∧ s.ring.buffer.Nodup
    ∧ (∀ p ∈ s.ring.buffer, p.container = none ∧ s.mem.view p = some none) ∧ s.pushed = []
  step s op s' := s'.mem.Few ∅ ∧
    match op with
    | .push data => s.mem.refs.Usable data
      ∧ s.ring.pushHandle s.mem data = .ok (s'.mem, s'.ring)
      ∧ s'.pushed = s.pushed ++ [s.mem.refersTo data]
    | .pointers l => (∀ p ∈ s.ring.buffer, ¬ l.Writes p) ∧ s.mem.refs.Enabled l
      ∧ (s.mem.refs.apply l).graph.Acyclic
      ∧ s.mem.run l = .ok s'.mem ∧ s'.ring = s.ring ∧ s'.pushed = s.pushed

namespace RingMemory

/-- **The counters after `k` pushes** to a ring of `size` elements. -/
structure Counts (ring : CircularCells Place) (size : UInt64) (k : ℕ) : Prop where
  size_eq : ring.totalSize = size
  length_eq : ring.buffer.length = size.toNat
  tail_eq : ring.tail = UInt64.ofNat k
  head_eq : ring.head = UInt64.ofNat (k - min k (size.toNat - 1))

theorem Counts.ready {ring : CircularCells Place} {size : UInt64} {k : ℕ}
    (h : Counts ring size k) (hsize : 1 ≤ size) : ring.Ready := by
  refine ⟨?_, by rw [h.size_eq, h.length_eq]⟩
  rw [h.size_eq]
  exact UInt64.le_iff_toNat_le.mp hsize

/-- The counters wrap, but their difference does not. -/
theorem Counts.advance {ring : CircularCells Place} {size : UInt64} {k : ℕ}
    (h : Counts ring size k) (hsize : 1 ≤ size) : Counts ring.advance size (k + 1) := by
  have hpos : 1 ≤ size.toNat := UInt64.le_iff_toNat_le.mp hsize
  have hbound := size.toNat_lt
  have htail : ring.tail + 1 = UInt64.ofNat (k + 1) := by
    rw [h.tail_eq, UInt64.ofNat_add]
    rfl
  have hdiff : (ring.tail + 1 - ring.head).toNat = min k (size.toNat - 1) + 1 := by
    rw [htail, h.head_eq, UInt64.toNat_sub, UInt64.toNat_ofNat', UInt64.toNat_ofNat']
    omega
  have hle : ring.totalSize ≤ ring.tail + 1 - ring.head ↔ size.toNat - 1 ≤ k := by
    rw [UInt64.le_iff_toNat_le, hdiff, h.size_eq]
    omega
  refine ⟨by rw [CircularCells.totalSize_advance, h.size_eq],
    by rw [CircularCells.buffer_advance, h.length_eq], ?_, ?_⟩
  · unfold CircularCells.advance
    split
    · exact htail
    · exact htail
  · unfold CircularCells.advance
    split
    · next hfull =>
      have hk := hle.mp hfull
      show ring.head + 1 = _
      rw [h.head_eq, show k + 1 - min (k + 1) (size.toNat - 1) =
        k - min k (size.toNat - 1) + 1 by omega, UInt64.ofNat_add]
      rfl
    · next hroom =>
      have hk := mt hle.mpr hroom
      show ring.head = _
      rw [h.head_eq, show k + 1 - min (k + 1) (size.toNat - 1) =
        k - min k (size.toNat - 1) by omega]

/-- The element of message `j`. -/
def elementOf (size : UInt64) (j : ℕ) : ℕ := (UInt64.ofNat j % size).toNat

/-- **A ring of messages**: an element refers to something exactly if a
message went to it that did. -/
structure Keeps (s : RingMemory) (size : UInt64) : Prop where
  owned : s.mem.Owned
  few : s.mem.Few ∅
  counts : Counts s.ring size s.pushed.length
  nodup : s.ring.buffer.Nodup
  outside : ∀ p ∈ s.ring.buffer, p.container = none ∧ s.mem.view p ≠ none
  refers : ∀ i (hi : i < s.ring.buffer.length), s.mem.refersTo s.ring.buffer[i] ≠ none ↔
    ∃ j x, s.pushed[j]? = some (some x) ∧ elementOf size j = i

theorem exists_concat {pushed : List (Option ℕ)} {t : Option ℕ} {P : ℕ → Prop} :
    (∃ j x, (pushed ++ [t])[j]? = some (some x) ∧ P j) ↔
      (∃ j x, pushed[j]? = some (some x) ∧ P j) ∨ t ≠ none ∧ P pushed.length := by
  constructor
  · rintro ⟨j, x, hj, hP⟩
    rcases lt_trichotomy j pushed.length with hlt | rfl | hgt
    · rw [List.getElem?_append_left hlt] at hj
      exact .inl ⟨j, x, hj, hP⟩
    · rw [List.getElem?_concat_length, Option.some_inj] at hj
      exact .inr ⟨hj ▸ Option.some_ne_none x, hP⟩
    · rw [List.getElem?_eq_none (by rw [List.length_append, List.length_singleton]; omega)] at hj
      cases hj
  · rintro (⟨j, x, hj, hP⟩ | ⟨ht, hP⟩)
    · have hlt := (List.getElem?_eq_some_iff.mp hj).1
      exact ⟨j, x, (List.getElem?_append_left hlt).trans hj, hP⟩
    · obtain ⟨x, rfl⟩ := Option.ne_none_iff_exists'.mp ht
      exact ⟨pushed.length, x, List.getElem?_concat_length, hP⟩

end RingMemory

namespace CircularCells

variable {ring : CircularCells Place} {m m' : PtrMemory}

theorem refersTo_congr {p : Place} (h : m'.view p = m.view p) : m'.refersTo p = m.refersTo p := by
  rw [PtrMemory.refersTo_eq_view, h, ← PtrMemory.refersTo_eq_view]

/-- **A push assigns to its element.** -/
theorem Ready.pushHandle_eq (h : ring.Ready) (m : PtrMemory) (data : Place) :
    ∃ hi : (ring.tail % ring.totalSize).toNat < ring.buffer.length,
      ring.pushHandle m data =
        ((m.copyAssign ring.buffer[(ring.tail % ring.totalSize).toNat] data).mapError .pointers
          >>= fun m => .ok (m, ring.advance)) := by
  obtain ⟨slot, hslot⟩ := h.exists_cell ring.tail
  obtain ⟨hi, hslot'⟩ := List.getElem?_eq_some_iff.mp hslot
  refine ⟨hi, ?_⟩
  unfold pushHandle writeSlot
  rw [modulo_eq_ok h.pos, hslot']
  show ((ring.cell _).mapError RingFault.cells >>= _) = _
  rw [cell_eq_ok hslot]
  rfl

/-- **An index of the window** resets its own element. -/
theorem Ready.resetAt_eq (h : ring.Ready) (m : PtrMemory) {idx : UInt64}
    (hhead : ring.head ≤ idx) (htail : idx < ring.tail) :
    ∃ hi : (idx % ring.totalSize).toNat < ring.buffer.length,
      ring.resetAt m idx =
        (m.reset ring.buffer[(idx % ring.totalSize).toNat]).mapError .pointers := by
  have hclamp : ring.clamp idx = idx := by
    unfold clamp
    rw [if_neg (UInt64.not_lt.mpr hhead), if_neg (UInt64.not_le.mpr htail)]
  obtain ⟨slot, hslot, helement, -, -⟩ := h.copy_eq idx
  rw [hclamp] at hslot helement
  obtain ⟨hi, hslot'⟩ := List.getElem?_eq_some_iff.mp hslot
  refine ⟨hi, ?_⟩
  unfold resetAt
  rw [helement, hslot']
  show ((ring.cell _).mapError RingFault.cells >>= _) = _
  rw [cell_eq_ok hslot]
  rfl

/-- **The loop resets the elements of the indices it walks over**, and no
other. -/
theorem Ready.resetFrom_spec (h : ring.Ready) (hnodup : ring.buffer.Nodup) :
    ∀ (times : ℕ) (idx : UInt64) (m : PtrMemory), m.Owned → m.Few ∅ →
      (∀ p ∈ ring.buffer, p.container = none ∧ m.view p ≠ none) →
      ring.head ≤ idx → ring.tail.toNat - idx.toNat ≤ times →
      ∃ m', ring.resetFrom times idx m = .ok m' ∧ m'.Owned ∧
        ∀ i (hi : i < ring.buffer.length), m'.refersTo ring.buffer[i] ≠ none ↔
          m.refersTo ring.buffer[i] ≠ none ∧
            ¬ ∃ j, idx ≤ j ∧ j < ring.tail ∧ (j % ring.totalSize).toNat = i := by
  intro times
  induction times with
  | zero =>
    intro idx m howned _ _ _ htimes
    refine ⟨m, rfl, howned, fun i hi => (and_iff_left ?_).symm⟩
    rintro ⟨j, hle, hlt, -⟩
    rw [UInt64.le_iff_toNat_le] at hle
    rw [UInt64.lt_iff_toNat_lt] at hlt
    omega
  | succ times ih =>
    intro idx m howned hfew hout hhead htimes
    unfold resetFrom
    by_cases htail : idx < ring.tail
    · rw [if_pos htail]
      obtain ⟨hi₀, heq⟩ := h.resetAt_eq m hhead htail
      have hmem := List.getElem_mem hi₀
      have husable : m.refs.Usable ring.buffer[(idx % ring.totalSize).toNat] := by
        refine ⟨(hout _ hmem).2, fun o ho => ?_⟩
        rw [(hout _ hmem).1] at ho
        cases ho
      obtain ⟨m₁, hm₁, howned₁, hfew₁, hnull, hothers⟩ := howned.reset hfew husable
      have hlt := UInt64.lt_iff_toNat_lt.mp htail
      have hbound := ring.tail.toNat_lt
      have hnext : (idx + 1).toNat = idx.toNat + 1 := by
        rw [UInt64.toNat_add]
        exact Nat.mod_eq_of_lt (by show idx.toNat + 1 < 2 ^ 64; omega)
      have hout₁ : ∀ p ∈ ring.buffer, p.container = none ∧ m₁.view p ≠ none := by
        intro p hp
        refine ⟨(hout p hp).1, ?_⟩
        by_cases hp₀ : p = ring.buffer[(idx % ring.totalSize).toNat]
        · rw [hp₀, hnull]
          exact Option.some_ne_none none
        · rw [hothers p (hout p hp).1 hp₀]
          exact (hout p hp).2
      have hhead₁ : ring.head ≤ idx + 1 := by
        rw [UInt64.le_iff_toNat_le, hnext]
        exact (UInt64.le_iff_toNat_le.mp hhead).trans (Nat.le_succ _)
      obtain ⟨m', hm', howned', hrefers⟩ := ih (idx + 1) m₁ howned₁ hfew₁ hout₁ hhead₁
        (by rw [hnext]; omega)
      refine ⟨m', ?_, howned', fun i hi => ?_⟩
      · rw [heq, hm₁]
        exact hm'
      · -- the indices are the first one, and those of the rest
        have hsplit : (∃ j, idx ≤ j ∧ j < ring.tail ∧ (j % ring.totalSize).toNat = i) ↔
            (idx % ring.totalSize).toNat = i ∨
              ∃ j, idx + 1 ≤ j ∧ j < ring.tail ∧ (j % ring.totalSize).toNat = i := by
          constructor
          · rintro ⟨j, hle, hlt', hj⟩
            rcases eq_or_ne j idx with rfl | hne
            · exact .inl hj
            · refine .inr ⟨j, ?_, hlt', hj⟩
              rw [UInt64.le_iff_toNat_le] at hle ⊢
              have hne' : j.toNat ≠ idx.toNat := fun heq => hne (UInt64.toNat_inj.mp heq)
              omega
          · rintro (hi' | ⟨j, hle, hlt', hj⟩)
            · exact ⟨idx, UInt64.le_refl idx, htail, hi'⟩
            · refine ⟨j, ?_, hlt', hj⟩
              rw [UInt64.le_iff_toNat_le] at hle ⊢
              omega
        rw [hrefers, hsplit, not_or, ← and_assoc]
        refine and_congr_left fun _ => ?_
        rcases eq_or_ne (idx % ring.totalSize).toNat i with rfl | hne
        · rw [PtrMemory.refersTo_eq_view, hnull]
          exact iff_of_false (fun hne => hne rfl) fun hne => hne.2 rfl
        · have hslot : ring.buffer[i] ≠ ring.buffer[(idx % ring.totalSize).toNat] :=
            fun heq => hne ((hnodup.getElem_inj_iff).mp heq).symm
          rw [refersTo_congr (hothers _ (hout _ (List.getElem_mem hi)).1 hslot)]
          exact (and_iff_left hne).symm
    · rw [if_neg htail]
      refine ⟨m, rfl, howned, fun i hi => (and_iff_left ?_).symm⟩
      rintro ⟨j, hle, hlt, -⟩
      exact htail (UInt64.lt_of_le_of_lt hle hlt)

end CircularCells

namespace RingMemory

/-- **A push** keeps the ring of messages. -/
theorem Keeps.push {s s' : RingMemory} {size : UInt64} (h : s.Keeps size) (hsize : 1 ≤ size)
    {data : Place} (hdata : s.mem.refs.Usable data)
    (hpush : s.ring.pushHandle s.mem data = .ok (s'.mem, s'.ring))
    (hpushed : s'.pushed = s.pushed ++ [s.mem.refersTo data]) (hfew' : s'.mem.Few ∅) :
    s'.Keeps size := by
  obtain ⟨hi₀, heq⟩ := (h.counts.ready hsize).pushHandle_eq s.mem data
  rw [heq] at hpush
  set slot := s.ring.buffer[(s.ring.tail % s.ring.totalSize).toNat] with hslot
  have hmem : slot ∈ s.ring.buffer := List.getElem_mem hi₀
  obtain ⟨m, hm, hret⟩ := Except.bind_eq_ok.mp hpush
  obtain ⟨rfl, hring⟩ := Prod.mk.inj (Except.ok.inj hret)
  have hbuffer : s'.ring.buffer = s.ring.buffer := by
    rw [← hring, CircularCells.buffer_advance]
  have husable : s.mem.refs.Usable slot := by
    refine ⟨(h.outside _ hmem).2, fun o ho => ?_⟩
    rw [(h.outside _ hmem).1] at ho
    cases ho
  obtain ⟨howned, hview, hothers⟩ := h.owned.copyAssign h.few husable (h.outside _ hmem).1 hdata
    (Except.mapError_eq_ok.mp hm)
  have helement : (s.ring.tail % s.ring.totalSize).toNat = elementOf size s.pushed.length := by
    rw [h.counts.tail_eq, h.counts.size_eq]
    rfl
  refine ⟨howned, hfew', ?_, ?_, fun p hp => ?_, fun i hi => ?_⟩
  · rw [← hring, hpushed, List.length_append]
    exact h.counts.advance hsize
  · rw [hbuffer]
    exact h.nodup
  · rw [hbuffer] at hp
    refine ⟨(h.outside p hp).1, ?_⟩
    rcases eq_or_ne p slot with rfl | hne
    · rw [hview]
      exact Option.some_ne_none _
    · rw [hothers p (h.outside p hp).1 hne]
      exact (h.outside p hp).2
  · have hi' : i < s.ring.buffer.length := hbuffer ▸ hi
    have hget : s'.ring.buffer[i] = s.ring.buffer[i] := by simp only [hbuffer]
    rw [hget, hpushed, exists_concat, ← h.refers i hi', ← helement]
    rcases eq_or_ne (s.ring.tail % s.ring.totalSize).toNat i with rfl | hne
    · rw [PtrMemory.refersTo_eq_view, ← hslot, hview]
      cases hold : s.mem.refersTo slot <;> cases hnew : s.mem.refersTo data <;> simp
    · have hslot' : s.ring.buffer[i] ≠ slot :=
        fun heq => hne (h.nodup.getElem_inj_iff.mp heq).symm
      rw [CircularCells.refersTo_congr (hothers _ (h.outside _ (List.getElem_mem hi')).1 hslot')]
      exact (or_iff_left fun hboth => hne hboth.2).symm

/-- **The callers' operations** keep the ring of messages. -/
theorem Keeps.pointers {s s' : RingMemory} {size : UInt64} (h : s.Keeps size) {l : PtrOp}
    (hw : ∀ p ∈ s.ring.buffer, ¬ l.Writes p) (hl : s.mem.refs.Enabled l)
    (hacyclic : (s.mem.refs.apply l).graph.Acyclic) (hrun : s.mem.run l = .ok s'.mem)
    (hring : s'.ring = s.ring) (hpushed : s'.pushed = s.pushed) (hfew' : s'.mem.Few ∅) :
    s'.Keeps size := by
  obtain ⟨howned, hothers⟩ := h.owned.run h.few hl hacyclic hrun
  have hview : ∀ p ∈ s.ring.buffer, s'.mem.view p = s.mem.view p :=
    fun p hp => hothers p (h.outside p hp).1 (hw p hp)
  refine ⟨howned, hfew', ?_, ?_, fun p hp => ?_, fun i hi => ?_⟩
  · rw [hring, hpushed]
    exact h.counts
  · rw [hring]
    exact h.nodup
  · rw [hring] at hp
    rw [hview p hp]
    exact h.outside p hp
  · have hi' : i < s.ring.buffer.length := hring ▸ hi
    have hget : s'.ring.buffer[i] = s.ring.buffer[i] := by simp only [hring]
    rw [hget, hpushed, CircularCells.refersTo_congr (hview _ (List.getElem_mem hi'))]
    exact h.refers i hi'

/-- **Every ring of messages is one.** -/
theorem keeps_of_reachable {size : UInt64} (hsize : 1 ≤ size) {s : RingMemory}
    (hs : (ringSystem size).Reachable s) : s.Keeps size := by
  refine hs.invariant (I := fun s => s.Keeps size) ?_ ?_
  · rintro s ⟨howned, hfew, hhead, htail, htotal, hlength, hnodup, hnull, hpushed⟩
    refine ⟨howned, hfew, ⟨htotal, hlength, ?_, ?_⟩, hnodup, fun p hp => ⟨(hnull p hp).1, ?_⟩,
      fun i hi => ?_⟩
    · rw [htail, hpushed]
      rfl
    · rw [hhead, hpushed]
      rfl
    · rw [(hnull p hp).2]
      exact Option.some_ne_none none
    · rw [PtrMemory.refersTo_eq_view, (hnull _ (List.getElem_mem hi)).2, hpushed]
      refine iff_of_false (fun hne => hne rfl) ?_
      rintro ⟨j, x, hj, -⟩
      cases hj
  · rintro s (data | l) s' - h hstep
    · obtain ⟨hfew, hdata, hpush, hpushed⟩ := hstep
      exact h.push hsize hdata hpush hpushed hfew
    · obtain ⟨hfew, hw, hl, hacyclic, hrun, hring, hpushed⟩ := hstep
      exact h.pointers hw hl hacyclic hrun hring hpushed hfew

/-! ## What the destructor leaves -/

/-- An index of the window after `k` pushes is taken to element `i`. -/
def InWindow (size : UInt64) (k i : ℕ) : Prop :=
  ∃ idx, UInt64.ofNat (k - min k (size.toNat - 1)) ≤ idx ∧ idx < UInt64.ofNat k
    ∧ (idx % size).toNat = i

/-- **Which messages the destructor reaches**: every message which is not
null was pushed to an element that an index of the window is taken to. -/
def AllInWindow (size : UInt64) (pushed : List (Option ℕ)) : Prop :=
  ∀ j x, pushed[j]? = some (some x) → InWindow size pushed.length (elementOf size j)

/-- Who owns what without the ring. -/
def elsewhere (ring : CircularCells Place) (m : PtrMemory) : Ownership ℕ where
  root i := ∃ h, .handle h ∉ ring.buffer ∧ m.refersTo (.handle h) = some i
  owns o i := ∃ k, m.refersTo (.field o k) = some i

/-- **The ring is given back**: no element refers to anything, and what is
still there is held elsewhere. -/
def Released (ring : CircularCells Place) (m : PtrMemory) : Prop :=
  (∀ p ∈ ring.buffer, m.refersTo p = none)
    ∧ ∀ i, m.objects i ≠ none → (elsewhere ring m).Reachable i

/-- A ring that refers to nothing holds nothing. -/
theorem released_iff {ring : CircularCells Place} {m : PtrMemory} (hm : m.Owned) :
    Released ring m ↔ ∀ p ∈ ring.buffer, m.refersTo p = none := by
  refine ⟨And.left, fun h => ⟨h, fun i hi => ?_⟩⟩
  refine Ownership.Reachable.mono (fun j hj => ?_) (fun o j _ ho hj => ?_) ((hm.live i).mp hi)
  · obtain ⟨k, hk⟩ := hj
    rw [PtrMemory.target_refs] at hk
    refine .of_root ⟨k, fun hmem => ?_, hk⟩
    rw [h _ hmem] at hk
    cases hk
  · obtain ⟨k, hk⟩ := hj
    rw [PtrMemory.target_refs] at hk
    exact ho.owned ⟨k, hk⟩

/-- As long as the tail counts the messages, those which are not reached
are in the element which the next message would go to. -/
theorem allInWindow_iff {size : UInt64} (hsize : 1 ≤ size) {pushed : List (Option ℕ)}
    (hlen : pushed.length < 2 ^ 64) : AllInWindow size pushed ↔
      ∀ j x, pushed[j]? = some (some x) → j % size.toNat ≠ pushed.length % size.toNat := by
  have hpos : 1 ≤ size.toNat := UInt64.le_iff_toNat_le.mp hsize
  have hofNat : ∀ {k}, k < 2 ^ 64 → (UInt64.ofNat k).toNat = k := by
    intro k hk
    rw [UInt64.toNat_ofNat']
    exact Nat.mod_eq_of_lt hk
  set k := pushed.length with hk
  refine forall_congr' fun j => forall_congr' fun x => imp_congr_right fun hj => ?_
  have hlt : j < k := (List.getElem?_eq_some_iff.mp hj).1
  have helement : elementOf size j = j % size.toNat := by
    unfold elementOf
    rw [UInt64.toNat_mod, hofNat (hlt.trans hlen)]
  rw [helement]
  constructor
  · rintro ⟨idx, hhead, htail, hidx⟩ heq
    rw [UInt64.le_iff_toNat_le, hofNat (by omega)] at hhead
    rw [UInt64.lt_iff_toNat_lt, hofNat hlen] at htail
    rw [UInt64.toNat_mod, heq] at hidx
    exact Nat.mod_ne_of_lt_add htail (by omega) hidx
  · intro hne
    -- the last index before the tail which is congruent to `j`
    have hdiv := Nat.div_add_mod (k - j) size.toNat
    have hmod := Nat.mod_lt (k - j) hpos
    set q := (k - j) / size.toNat
    have hcongr : (j + size.toNat * q) % size.toNat = j % size.toNat :=
      Nat.add_mul_mod_self_left j size.toNat q
    have hrest : (k - j) % size.toNat ≠ 0 := by
      intro h0
      refine hne ?_
      rw [← hcongr]
      exact congrArg (· % size.toNat) (by omega)
    have hbelow : j + size.toNat * q < k := by omega
    refine ⟨UInt64.ofNat (j + size.toNat * q), ?_, ?_, ?_⟩
    · rw [UInt64.le_iff_toNat_le, hofNat (by omega), hofNat (by omega)]
      omega
    · rw [UInt64.lt_iff_toNat_lt, hofNat (by omega), hofNat hlen]
      exact hbelow
    · rw [UInt64.toNat_mod, hofNat (by omega), hcongr]

theorem elementOf_lt {size : UInt64} (hsize : 1 ≤ size) (j : ℕ) :
    elementOf size j < size.toNat := by
  unfold elementOf
  rw [UInt64.toNat_mod]
  exact Nat.mod_lt _ (UInt64.le_iff_toNat_le.mp hsize)

/-- **What the destructor of a publisher, or of a service, gives back**: the
messages it reaches, which is all of them if each that is not null is in an
element some index of the window is taken to. For fewer than `2 ^ 64`
messages that is to say that no message is, modulo the size of the ring, as
many as there were. -/
theorem cleanUp_released_iff {size : UInt64} (hsize : 1 ≤ size) {s : RingMemory}
    (hs : (ringSystem size).Reachable s) :
    ∃ m, s.ring.cleanUp s.mem = .ok m ∧
      (Released s.ring m ↔ AllInWindow size s.pushed) ∧
      (s.pushed.length < 2 ^ 64 → (AllInWindow size s.pushed ↔
        ∀ j x, s.pushed[j]? = some (some x) →
          j % size.toNat ≠ s.pushed.length % size.toNat)) := by
  have h := keeps_of_reachable hsize hs
  obtain ⟨m, hm, howned, hrefers⟩ := (h.counts.ready hsize).resetFrom_spec h.nodup _ s.ring.head
    s.mem h.owned h.few h.outside (UInt64.le_refl _) le_rfl
  refine ⟨m, hm, ?_, allInWindow_iff hsize⟩
  rw [released_iff howned]
  constructor
  · intro hnull j x hj
    have hi : elementOf size j < s.ring.buffer.length := by
      rw [h.counts.length_eq]
      exact elementOf_lt hsize j
    by_contra hout
    refine (hrefers _ hi).mpr ⟨(h.refers _ hi).mpr ⟨j, x, hj, rfl⟩, ?_⟩
      (hnull _ (List.getElem_mem hi))
    rw [h.counts.head_eq, h.counts.tail_eq, h.counts.size_eq]
    exact hout
  · intro hall p hp
    obtain ⟨i, hi, rfl⟩ := List.getElem_of_mem hp
    by_contra hne
    obtain ⟨hold, hout⟩ := (hrefers i hi).mp hne
    obtain ⟨j, x, hj, rfl⟩ := (h.refers i hi).mp hold
    refine hout ?_
    rw [h.counts.head_eq, h.counts.tail_eq, h.counts.size_eq]
    exact hall j x hj

end RingMemory

/-! ## A ring of two messages -/

namespace PtrMemory

/-- Two null handles, and two handles to an object each. -/
def twoSlots : PtrMemory :=
  let s : Except PtrFault PtrMemory := do
    let m ← PtrMemory.empty.run (.construct 0)
    let m ← m.run (.construct 1)
    let m ← m.run (.makeShmShared 2 0)
    m.run (.makeShmShared 3 0)
  s.toOption.getD .empty

theorem twoSlots_eq : twoSlots
    = (((empty.write (.handle 0) {}).write (.handle 1) {}).made 2 0).made 3 0 := by
  unfold twoSlots run
  dsimp only
  rw [Except.ok_bind, Except.ok_bind, makeShmShared_eq, Except.ok_bind, makeShmShared_eq]
  rfl

theorem twoSlots_owned : twoSlots.Owned := by
  have h₀ := SharedRefs.Upward.set (p := .handle 0) (x := none) PtrPair.empty_upward nofun
  have h₁ := SharedRefs.Upward.set (p := .handle 1) (x := none) h₀ nofun
  have h₂ := h₁.make 2 0
  have ha₀ := empty_agrees.construct (h := 0) rfl h₀.acyclic
  have ha₁ := ha₀.construct (h := 1) rfl h₁.acyclic
  have ha₂ := ha₁.makeShmShared (h := 2) rfl 0 h₂.acyclic
  rw [twoSlots_eq]
  exact (ha₂.makeShmShared (h := 3) rfl 0 (h₂.make 3 0).acyclic).owned

theorem twoSlots_support (p : Place) (hp : twoSlots.refersTo p ≠ none) :
    p ∈ ({.handle 3, .handle 2} : Finset Place) := by
  have hfirst := empty_counted.construct (h := 0) rfl
  have hsecond := hfirst.construct (h := 1) rfl
  have hnull : ∀ p, ((empty.write (.handle 0) {}).write (.handle 1) {}).refersTo p ≠ none →
      p ∈ (∅ : Finset Place) := by
    intro p hp
    rw [refersTo_update (m := empty.write (.handle 0) {}) (c := {}) rfl,
      refersTo_update (m := empty) (c := {}) rfl] at hp
    refine absurd ?_ hp
    by_cases h₁ : p = .handle 1
    · rw [h₁, Function.update_self]
    · by_cases h₀ : p = .handle 0
      · rw [Function.update_of_ne h₁, h₀, Function.update_self]
      · rw [Function.update_of_ne h₁, Function.update_of_ne h₀]
        rfl
  rw [twoSlots_eq] at hp
  exact mem_of_made (hsecond.made_spec (h := 2) rfl 0) (mem_of_made hsecond hnull 2 0) 3 0 p hp

end PtrMemory

namespace RingMemory

/-- A new ring of two messages. -/
def two : RingMemory := ⟨.twoSlots, ⟨0, 0, 2, [.handle 0, .handle 1]⟩, []⟩

/-- A handle outside is pushed. -/
def push (s : RingMemory) (h : ℕ) : RingMemory :=
  ((s.ring.pushHandle s.mem (.handle h)).toOption.map
    fun r => ⟨r.1, r.2, s.pushed ++ [s.mem.refersTo (.handle h)]⟩).getD s

theorem two_reachable : (ringSystem 2).Reachable two := by
  refine .init ⟨PtrMemory.twoSlots_owned,
    PtrMemory.few_of_subset PtrMemory.twoSlots_support (by decide), rfl, rfl, rfl, rfl, by decide,
    ?_, rfl⟩
  intro p hp
  rcases List.mem_pair.mp hp with rfl | rfl
  · exact ⟨rfl, rfl⟩
  · exact ⟨rfl, rfl⟩

/-- The first element has been assigned to. -/
theorem push_two_support : ∀ p, (two.push 2).mem.refersTo p ≠ none →
    p ∈ ({.handle 0, .handle 3, .handle 2} : Finset Place) := by
  have hfew := PtrMemory.few_of_subset PtrMemory.twoSlots_support (by decide)
  refine PtrMemory.twoSlots_owned.support_copyAssign hfew (q := .handle 2)
    ⟨?_, SharedRefs.present_handle _ 0⟩ rfl ⟨?_, SharedRefs.present_handle _ 2⟩ rfl
    PtrMemory.twoSlots_support
  · exact Option.some_ne_none none
  · exact Option.some_ne_none (some 0)

theorem push_two_reachable : (ringSystem 2).Reachable (two.push 2) := by
  refine .step (l := .push (.handle 2)) two_reachable
    ⟨PtrMemory.few_of_subset push_two_support (by decide),
      ⟨?_, SharedRefs.present_handle _ 2⟩, ?_, ?_⟩
  · exact Option.some_ne_none (some 0)
  · rfl
  · rfl

/-- One message, which is given back. -/
theorem cleanUp_released_one :
    ∃ m, (two.push 2).ring.cleanUp (two.push 2).mem = .ok m ∧ Released (two.push 2).ring m := by
  obtain ⟨m, hm, hreleased, hcount⟩ := cleanUp_released_iff (by decide) push_two_reachable
  refine ⟨m, hm, hreleased.mpr ((hcount (by decide)).mpr fun j x hj => ?_)⟩
  have hlt : j < 1 := (List.getElem?_eq_some_iff.mp hj).1
  rw [Nat.lt_one_iff.mp hlt]
  decide

/-- Two messages in a ring of two: the first one is still there when the
publisher has gone. -/
theorem cleanUp_not_released : ∃ s, (ringSystem 2).Reachable s ∧ s.pushed = [some 0, some 1] ∧
    ∃ m, s.ring.cleanUp s.mem = .ok m ∧ .handle 0 ∈ s.ring.buffer ∧
      m.refersTo (.handle 0) = some 0 ∧ m.objects 0 ≠ none := by
  refine ⟨(two.push 2).push 3, ?_, rfl, ?_⟩
  · have hkeeps := keeps_of_reachable (by decide) push_two_reachable
    have hslot : (two.push 2).mem.refs.Usable (.handle 1) :=
      ⟨Option.some_ne_none none, SharedRefs.present_handle _ 1⟩
    have hdata : (two.push 2).mem.refs.Usable (.handle 3) :=
      ⟨Option.some_ne_none (some 1), SharedRefs.present_handle _ 3⟩
    have hsupport : ∀ p, ((two.push 2).push 3).mem.refersTo p ≠ none → _ :=
      hkeeps.owned.support_copyAssign hkeeps.few hslot rfl hdata rfl push_two_support
    exact .step (l := .push (.handle 3)) push_two_reachable
      ⟨PtrMemory.few_of_subset hsupport (by decide), hdata, rfl, rfl⟩
  · exact ⟨_, rfl, List.mem_cons_self, rfl, Option.some_ne_none 0⟩

end RingMemory
