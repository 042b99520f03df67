import CoinData.Ownership
import CoinData.SharedPtrOperations

/-!
# Shared pointers are shared ownership

What a shared pointer is for can be said without counters: a handle refers
to an object or to nothing, an assignment makes it refer to what another
handle refers to, and the objects that are there are those which can be
reached from the handles outside. The program does this with the exception
of two assignments. One from a null handle does nothing. And since the left
side gives up its object first, one from a handle which only that object
keeps, as in `p = p->next`, reads what is gone.

Everything else is here shown to agree, as long as no object comes to own
itself, and none has as many handles as an `int` has values, for any handles,
outside the managed objects and in them (`sharedPtr_refines_iff`).
-/

/-- **Shared ownership**: what the handles refer to, and how many objects
have been made. -/
structure SharedRefs where
  points : Place → Option (Option ℕ)
  next : ℕ

namespace SharedRefs

/-- Nothing yet. -/
def empty : SharedRefs := ⟨fun _ => none, 0⟩

/-- What a handle refers to. -/
def target (s : SharedRefs) (p : Place) : Option ℕ := (s.points p).join

/-- A handle is made to refer to something, or to nothing. -/
def set (s : SharedRefs) (p : Place) (x : Option ℕ) : SharedRefs :=
  { s with points := Function.update s.points p (some x) }

/-- A handle goes away. -/
def remove (s : SharedRefs) (p : Place) : SharedRefs :=
  { s with points := Function.update s.points p none }

/-- A new object with null handles in it, and a handle to it. -/
def make (s : SharedRefs) (h width : ℕ) : SharedRefs where
  points
    | .field obj k =>
      if obj = s.next then if k < width then some none else none else s.points (.field obj k)
    | .handle h' => if h' = h then some (some s.next) else s.points (.handle h')
  next := s.next + 1

/-- **An operation.** -/
def apply (s : SharedRefs) : PtrOp → SharedRefs
  | .makeShmShared h width => s.make h width
  | .construct h => s.set (.handle h) none
  | .copyConstruct h rhs => s.set (.handle h) (s.target rhs)
  | .moveConstruct h rhs => (s.set (.handle h) (s.target rhs)).set rhs none
  | .copyAssign lhs rhs => s.set lhs (s.target rhs)
  | .moveAssign lhs rhs => if lhs = rhs then s else (s.set lhs (s.target rhs)).set rhs none
  | .reset p => s.set p none
  | .destroy h => s.remove (.handle h)

/-- Who owns which object: the handles outside, and the objects by the
handles in them. -/
def graph (s : SharedRefs) : Ownership ℕ where
  root i := ∃ h, s.target (.handle h) = some i
  owns o i := ∃ k, s.target (.field o k) = some i

/-- An object can be reached from a handle outside. -/
def Live (s : SharedRefs) (i : ℕ) : Prop := s.graph.Reachable i

/-- A handle outside, or in an object which can be reached. -/
def Present (s : SharedRefs) (p : Place) : Prop := ∀ o, p.container = some o → s.Live o

/-- A handle can be used. -/
def Usable (s : SharedRefs) (p : Place) : Prop := s.points p ≠ none ∧ s.Present p

/-- An operation uses handles that can be used, and constructs others where
none is. -/
def Enabled (s : SharedRefs) : PtrOp → Prop
  | .makeShmShared h _ | .construct h => s.points (.handle h) = none
  | .copyConstruct h rhs | .moveConstruct h rhs => s.points (.handle h) = none ∧ s.Usable rhs
  | .copyAssign lhs rhs | .moveAssign lhs rhs => s.Usable lhs ∧ s.Usable rhs
  | .reset p => s.Usable p
  | .destroy h => s.points (.handle h) ≠ none

end SharedRefs

/-- The memory of the program, or its fault, and what it is to be. -/
structure PtrPair where
  mem : Except PtrFault PtrMemory
  refs : SharedRefs

namespace PtrPair

/-- Nothing yet. -/
def empty : PtrPair := ⟨.ok .empty, .empty⟩

/-- An operation is done on both sides. -/
def after (s : PtrPair) (l : PtrOp) : PtrPair :=
  ⟨s.mem >>= fun m => m.run l, s.refs.apply l⟩

/-- **The program does what it is to do**: the objects that are there are
those which can be reached, and each handle refers to what it should. -/
def Refines (s : PtrPair) : Prop :=
  ∃ m, s.mem = .ok m ∧ (∀ i, m.objects i ≠ none ↔ s.refs.Live i)
    ∧ ∀ p, s.refs.Present p → m.view p = s.refs.points p

/-- **An assignment which is done right**: if the right side is null, so is
the left side; else the right side is outside, or in an object which can be
reached without the left side. -/
def Sound (s : PtrPair) : PtrOp → Prop
  | .copyAssign lhs rhs | .moveAssign lhs rhs => lhs ≠ rhs →
    (s.refs.target rhs = none → s.refs.target lhs = none)
      ∧ (s.refs.target rhs ≠ none → (s.refs.set lhs none).Present rhs)
  | _ => True

/-- There are fewer handles to each object than an `int` has values. -/
def Few (s : PtrPair) : Prop := ∀ m, s.mem = .ok m → m.Few ∅

end PtrPair

/-- **The program and its purpose, side by side**, for operations after
which no object owns itself. -/
def sharedPtrSystem : TransitionSystem PtrPair PtrOp where
  init s := s = .empty
  step s l s' := s.refs.Enabled l ∧ (s.after l).refs.graph.Acyclic ∧ s' = s.after l

/-! ## What can be reached -/

namespace SharedRefs

variable {s s' : SharedRefs} {p q : Place} {x : Option ℕ} {i j : ℕ}

theorem target_set (s : SharedRefs) (p : Place) (x : Option ℕ) :
    (s.set p x).target = Function.update s.target p x := by
  funext q
  rw [target, set]
  dsimp only
  by_cases hq : q = p
  · rw [hq, Function.update_self, Function.update_self]
    rfl
  · rw [Function.update_of_ne hq, Function.update_of_ne hq]
    rfl

theorem set_set (s : SharedRefs) (p : Place) (x y : Option ℕ) :
    (s.set p x).set p y = s.set p y := by
  dsimp only [set]
  rw [Function.update_idem]

/-- A handle is made to refer to what it refers to. -/
theorem set_self (hp : s.points p ≠ none) : s.set p (s.target p) = s := by
  obtain ⟨x, hx⟩ := Option.ne_none_iff_exists'.mp hp
  have hself : Function.update s.points p (some (s.target p)) = s.points := by
    rw [Function.update_eq_self_iff, target, hx]
    rfl
  rw [set, hself]

theorem target_of_points (h : s.points p = some x) : s.target p = x := by
  rw [target, h]
  rfl

/-- What a handle which is present refers to is live. -/
theorem Present.live (hp : s.Present p) (h : s.target p = some i) : s.Live i := by
  cases p with
  | handle k => exact .of_root ⟨k, h⟩
  | field o k => exact (hp o rfl).owned ⟨k, h⟩

theorem present_handle (s : SharedRefs) (h : ℕ) : s.Present (.handle h) := by
  rintro o ⟨⟩

theorem target_of_free (h : s.points p = none) : s.target p = none := by
  rw [target, h]
  rfl

/-- The same targets make the same objects live. -/
theorem live_congr (h : s.target = s'.target) : s.Live i ↔ s'.Live i := by
  rw [Live, Live, graph, graph, h]

/-- A null handle which is made to refer to a live object changes nothing. -/
theorem live_set (hp : s.target p = none) (hx : ∀ i, x = some i → s.Live i) :
    (s.set p x).Live j ↔ s.Live j := by
  constructor
  · refine Ownership.Reachable.mono (fun i hi => ?_) fun o i _ ho hi => ?_
    · obtain ⟨h, hh⟩ := hi
      rw [target_set] at hh
      by_cases hq : Place.handle h = p
      · rw [hq, Function.update_self] at hh
        exact hx i hh
      · rw [Function.update_of_ne hq] at hh
        exact .of_root ⟨h, hh⟩
    · obtain ⟨k, hk⟩ := hi
      rw [target_set] at hk
      by_cases hq : Place.field o k = p
      · rw [hq, Function.update_self] at hk
        exact hx i hk
      · rw [Function.update_of_ne hq] at hk
        exact ho.owned ⟨k, hk⟩
  · have hne : ∀ {q i}, s.target q = some i → (s.set p x).target q = some i := by
      intro q i hq
      rw [target_set, Function.update_of_ne ?_]
      · exact hq
      · rintro rfl
        rw [hp] at hq
        cases hq
    refine Ownership.Reachable.mono (fun i hi => ?_) fun o i _ ho hi => ?_
    · obtain ⟨h, hh⟩ := hi
      exact .of_root ⟨h, hne hh⟩
    · obtain ⟨k, hk⟩ := hi
      exact ho.owned ⟨k, hne hk⟩

theorem live_set_none (hp : s.target p = none) : (s.set p none).Live j ↔ s.Live j :=
  live_set hp nofun

/-- What a null handle refers to is referred to without it. -/
theorem target_of_set_none (h : (s.set p none).target q = some i) : s.target q = some i := by
  rw [target_set] at h
  by_cases hq : q = p
  · rw [hq, Function.update_self] at h
    cases h
  · rw [Function.update_of_ne hq] at h
    exact h

theorem Live.of_set_none (h : (s.set p none).Live i) : s.Live i := by
  refine Ownership.Reachable.mono (fun i hi => ?_) (fun o i _ ho hi => ?_) h
  · obtain ⟨h, hh⟩ := hi
    exact .of_root ⟨h, target_of_set_none hh⟩
  · obtain ⟨k, hk⟩ := hi
    exact ho.owned ⟨k, target_of_set_none hk⟩

theorem acyclic_set_none (h : s.graph.Acyclic) (p : Place) : (s.set p none).graph.Acyclic := by
  refine h.mono fun o i hi => ?_
  obtain ⟨k, hk⟩ := hi
  exact ⟨k, target_of_set_none hk⟩

/-- **A handle is where it was without what it refers to.** -/
theorem Present.set_none (hp : s.Present p) (hacyclic : s.graph.Acyclic) :
    (s.set p none).Present p := by
  intro o ho
  have hne : ∀ {q i}, q.container ≠ some o → s.target q = some i →
      (s.set p none).target q = some i := by
    intro q i hq hi
    rw [target_set, Function.update_of_ne ?_]
    · exact hi
    · rintro rfl
      exact hq ho
  refine hacyclic.reachable_of_others (hp o ho) (fun i hi => ?_) fun o' i ho' hi => ?_
  · obtain ⟨h, hh⟩ := hi
    exact ⟨h, hne nofun hh⟩
  · obtain ⟨k, hk⟩ := hi
    exact ⟨k, hne (fun heq => ho' (Option.some.inj heq)) hk⟩

/-- **A null handle takes over an object**, and nothing is lost. -/
theorem live_move (hp : s.target p = none) (hpresent : s.Present p) (hq : s.target q = some i)
    (hlive : s.Live i) (hacyclic : ((s.set p (some i)).set q none).graph.Acyclic) :
    ((s.set p (some i)).set q none).Live j ↔ s.Live j := by
  have hpq : p ≠ q := by
    rintro rfl
    rw [hp] at hq
    cases hq
  constructor
  · intro h
    refine (live_set hp fun i' hi' => ?_).mp h.of_set_none
    rw [← Option.some.inj hi']
    exact hlive
  · have hkeep : ∀ {r i'}, s.target r = some i' →
        ((s.set p (some i)).set q none).target r = some i' ∨ i' = i := by
      intro r i' hr
      by_cases hrq : r = q
      · rw [hrq, hq] at hr
        exact Or.inr (Option.some.inj hr).symm
      · left
        rw [target_set, Function.update_of_ne hrq, target_set, Function.update_of_ne ?_]
        · exact hr
        · rintro rfl
          rw [hp] at hr
          cases hr
    have hnew : ((s.set p (some i)).set q none).target p = some i := by
      rw [target_set, Function.update_of_ne hpq, target_set, Function.update_self]
    refine hacyclic.reachable_of_moved (x := i) (fun i' hi' => ?_) (fun o i' hi' => ?_) ?_
    · obtain ⟨h, hh⟩ := hi'
      exact (hkeep hh).imp_left fun hh => ⟨h, hh⟩
    · obtain ⟨k, hk⟩ := hi'
      exact (hkeep hk).imp_left fun hk => ⟨k, hk⟩
    · cases p with
      | handle h => exact Or.inl ⟨h, hnew⟩
      | field o k => exact Or.inr ⟨o, hpresent o rfl, k, hnew⟩

end SharedRefs

namespace SharedRefs

/-- **The two kinds of assignments which are not done right.** -/
theorem unsound {s : SharedRefs} {lhs rhs : Place}
    (h : ¬ (lhs ≠ rhs → (s.target rhs = none → s.target lhs = none)
      ∧ (s.target rhs ≠ none → (s.set lhs none).Present rhs))) :
    lhs ≠ rhs ∧ (s.target rhs = none ∧ s.target lhs ≠ none
      ∨ ∃ i, s.target rhs = some i ∧ ¬ (s.set lhs none).Present rhs) := by
  obtain ⟨hne, hbad⟩ := Classical.not_imp.mp h
  refine ⟨hne, ?_⟩
  cases ht : s.target rhs with
  | none => exact Or.inl ⟨rfl, fun hleft => hbad ⟨fun _ => hleft, absurd ht⟩⟩
  | some i =>
    have hsome : s.target rhs ≠ none := by
      rw [ht]
      exact Option.some_ne_none i
    exact Or.inr ⟨i, rfl, fun hstays => hbad ⟨fun hnone => absurd hnone hsome, fun _ => hstays⟩⟩

end SharedRefs

/-! ## The memory agrees -/

namespace PtrMemory

/-- **The memory is as it should be**, in between operations. -/
structure Agrees (m : PtrMemory) (s : SharedRefs) : Prop where
  counted : Counted ∅ ∅ m
  next : m.next = s.next
  live : ∀ i, m.objects i ≠ none ↔ s.Live i
  view : ∀ p, s.Present p → m.view p = s.points p
  acyclic : s.graph.Acyclic

variable {m m' : PtrMemory} {s s' : SharedRefs} {p q : Place} {i h : ℕ}

namespace Agrees

/-- A handle refers to what it should. -/
theorem refersTo (ha : m.Agrees s) (hp : s.Present p) : m.refersTo p = s.target p := by
  rw [refersTo_eq_view, ha.view p hp, SharedRefs.target]

/-- A handle which can be used is there. -/
theorem usable (ha : m.Agrees s) (hp : s.Usable p) :
    ∃ c, m.handles p = some c ∧ c.rawPtr = s.target p := by
  have hview := ha.view p hp.2
  cases hc : m.handles p with
  | none =>
    rw [PtrMemory.view, hc] at hview
    exact absurd hview.symm hp.1
  | some c => exact ⟨c, rfl, (refersTo_of_some hc).symm.trans (ha.refersTo hp.2)⟩

/-- Where no handle is to be, none is. -/
theorem free (ha : m.Agrees s) (hh : s.points (.handle h) = none) :
    m.handles (.handle h) = none := by
  have hview := ha.view (.handle h) (s.present_handle h)
  rw [hh, PtrMemory.view, Option.map_eq_none_iff] at hview
  exact hview

/-- A handle which points to something is where it can be reached. -/
theorem present (ha : m.Agrees s) (hp : m.handles p ≠ none) : s.Present p := by
  intro o ho
  rw [← ha.live]
  exact fun hnone => hp (ha.counted.handles_none ho hnone)

/-- The objects are ordered by who owns whom. -/
theorem ordered (ha : m.Agrees s) :
    Ordered (fun j o => Relation.TransGen s.graph.owns o j) m := by
  refine ⟨ha.acyclic, fun i j k hij hjk => hjk.trans hij, fun i k j hj => .single ⟨k, ?_⟩⟩
  rw [← ha.refersTo (ha.present ?_)]
  · exact hj
  · obtain ⟨c, hc, _⟩ := handles_of_refersTo hj
    rw [hc]
    exact Option.some_ne_none c

/-- **A handle gives up its object**, and what is gone is what cannot be
reached any more. -/
theorem dropped (ha : m.Agrees s) (hd : Dropped p m m') : m'.Agrees (s.set p none) := by
  have hacyclic := SharedRefs.acyclic_set_none ha.acyclic p
  have hthere : ∀ {q}, (∀ o, q.container = some o → m'.objects o ≠ none) →
      s.Present q ∧ m'.view q = (s.set p none).points q := by
    intro q hq
    have hpresent : s.Present q := by
      intro o ho
      rw [← ha.live]
      exact fun hnone => hq o ho (hd.frame.objects_none hnone)
    refine ⟨hpresent, ?_⟩
    show _ = Function.update s.points p (some none) q
    by_cases hqp : q = p
    · obtain ⟨c, hc⟩ := hd.there
      have hnull : c.rawPtr = none := (refersTo_of_some hc).symm.trans hd.null
      rw [hqp, Function.update_self, PtrMemory.view, hc, Option.map_some, hnull]
    · rw [Function.update_of_ne hqp, ← ha.view q hpresent, PtrMemory.view,
        hd.frame.handles_eq hqp fun o _ ho => hq o ho]
      rfl
  have htarget : ∀ {q}, (∀ o, q.container = some o → m'.objects o ≠ none) →
      m'.refersTo q = (s.set p none).target q := by
    intro q hq
    rw [refersTo_eq_view, (hthere hq).2, SharedRefs.target]
  have hout : ∀ h o, (Place.handle h).container = some o → m'.objects o ≠ none := by
    rintro h o ⟨⟩
  have hfinite : {i | m'.objects i ≠ none}.Finite :=
    (Set.finite_lt_nat m'.next).subset fun i hi => hd.counted.made i hi
  have hlive : ∀ i, m'.objects i ≠ none ↔ (s.set p none).Live i := by
    intro i
    refine hacyclic.kept_iff (K := {i | m'.objects i ≠ none}) hfinite (fun j hj => ?_)
      (fun o ho j hj => ?_) fun j hj => ?_
    · obtain ⟨h, hh⟩ := hj
      rw [← htarget (hout h)] at hh
      exact (hd.counted.kept hh (Set.notMem_empty _)).2.object
    · obtain ⟨k, hk⟩ := hj
      rw [← htarget ?_] at hk
      · exact (hd.counted.kept hk (Set.notMem_empty _)).2.object
      · rintro o' ⟨⟩
        exact ho
    · have hkept := (hd.counted.rest j (Finset.notMem_empty j)).resolve_right
        fun hgone => hj hgone.object
      obtain ⟨n, _, hcard, hpos⟩ := hkept.counter
      obtain ⟨q, _, hq⟩ : (m'.users ∅ j).Nonempty := by
        rw [← Set.encard_pos, hcard]
        exact_mod_cast hpos
      cases q with
      | handle h => exact Or.inl ⟨h, (htarget (hout h)).symm.trans hq⟩
      | field o k =>
        obtain ⟨c, hc, _⟩ := handles_of_refersTo hq
        have ho : m'.objects o ≠ none := by
          obtain ⟨w, hw, _⟩ := (hd.counted.fields o k).mp (by rw [hc]; exact Option.some_ne_none c)
          rw [hw]
          exact Option.some_ne_none w
        refine Or.inr ⟨o, ho, k, ?_⟩
        rw [← htarget ?_]
        · exact hq
        · rintro o' ⟨⟩
          exact ho
  refine ⟨hd.counted, hd.frame.next.trans ha.next, hlive, fun q hq => (hthere ?_).2, hacyclic⟩
  exact fun o ho => (hlive o).mpr (hq o ho)

/-- **Handles are stored**, and the same objects are live. -/
theorem assigned (ha : m.Agrees s) {v : Place → Option (Option ℕ)} (h : Assigned v m m')
    (hnext : s'.next = s.next) (hacyclic : s'.graph.Acyclic) (hlive : ∀ i, s'.Live i ↔ s.Live i)
    (hv : ∀ q, s.Present q → v q = s'.points q) : m'.Agrees s' := by
  refine ⟨h.counted, h.next.trans (ha.next.trans hnext.symm), fun i => ?_, fun q hq => ?_,
    hacyclic⟩
  · rw [h.objects, hlive]
    exact ha.live i
  · rw [h.view]
    exact hv q fun o ho => (hlive o).mp (hq o ho)

end Agrees

/-- One handle is stored in the memory and in what it is to be. -/
theorem view_set {v : Place → Option (Option ℕ)} (hv : v q = s.points q) (p : Place)
    (x : Option ℕ) : Function.update v p (some x) q = (s.set p x).points q := by
  show _ = Function.update s.points p (some x) q
  by_cases hqp : q = p
  · rw [hqp, Function.update_self, Function.update_self]
  · rw [Function.update_of_ne hqp, Function.update_of_ne hqp]
    exact hv

namespace Agrees

/-- A null handle is constructed. -/
theorem construct (ha : m.Agrees s) (hh : s.points (.handle h) = none)
    (hacyclic : (s.set (.handle h) none).graph.Acyclic) :
    (m.write (.handle h) {}).Agrees (s.set (.handle h) none) := by
  have hassigned : Assigned (Function.update m.view (.handle h) (some none)) m
      (m.write (.handle h) {}) :=
    ⟨ha.counted.construct (ha.free hh), view_update (x := some {}) rfl, rfl, rfl⟩
  refine ha.assigned hassigned rfl hacyclic (fun i => ?_) fun r hr => view_set (ha.view r hr) _ _
  exact SharedRefs.live_set_none (SharedRefs.target_of_free hh)

/-- **The copy constructor.** -/
theorem copyConstruct (ha : m.Agrees s) (hh : s.points (.handle h) = none) (hq : s.Usable q)
    (hacyclic : (s.set (.handle h) (s.target q)).graph.Acyclic) :
    ∃ m', m.copyConstruct (.handle h) q = .ok m'
      ∧ m'.Agrees (s.set (.handle h) (s.target q)) := by
  obtain ⟨c, hc, hraw⟩ := ha.usable hq
  obtain ⟨m', hm', hassigned⟩ := copyConstruct_spec ha.counted (ha.free hh) hc
  rw [hraw] at hassigned
  refine ⟨m', hm', ha.assigned hassigned rfl hacyclic (fun i => ?_)
    fun r hr => view_set (ha.view r hr) _ _⟩
  exact SharedRefs.live_set (SharedRefs.target_of_free hh) fun i hi => hq.2.live hi

/-- **The move constructor.** -/
theorem moveConstruct (ha : m.Agrees s) (hfew : Few ∅ m) (hh : s.points (.handle h) = none)
    (hq : s.Usable q)
    (hacyclic : ((s.set (.handle h) (s.target q)).set q none).graph.Acyclic) :
    ∃ m', m.moveConstruct (.handle h) q = .ok m'
      ∧ m'.Agrees ((s.set (.handle h) (s.target q)).set q none) := by
  have hfree := SharedRefs.target_of_free hh
  obtain ⟨c, hc, hraw⟩ := ha.usable hq
  obtain ⟨m', hm', hassigned⟩ := moveConstruct_spec ha.counted hfew (ha.free hh) hc
  rw [hraw] at hassigned
  have hlive : ∀ i, ((s.set (.handle h) (s.target q)).set q none).Live i ↔ s.Live i := by
    intro i
    cases ht : s.target q with
    | none =>
      rw [SharedRefs.live_set_none ?_, SharedRefs.live_set_none hfree]
      rw [SharedRefs.target_set]
      by_cases hqh : q = .handle h
      · rw [hqh, Function.update_self]
      · rw [Function.update_of_ne hqh, ht]
    | some j =>
      rw [ht] at hacyclic
      exact SharedRefs.live_move hfree (s.present_handle h) ht (hq.2.live ht) hacyclic
  exact ⟨m', hm', ha.assigned hassigned rfl hacyclic hlive fun r hr =>
    view_set (view_set (ha.view r hr) _ _) _ _⟩

/-- A handle which is present and refers to something is there. -/
theorem handles_ne_none (ha : m.Agrees s) (hp : s.Present p) (hi : s.target p = some i) :
    m.handles p ≠ none := by
  intro hnone
  have hrefers := ha.refersTo hp
  rw [refersTo_of_none hnone, hi] at hrefers
  cases hrefers

/-- The right side of an assignment, once the left side is null. -/
theorem target_right (hpq : p ≠ q) : (s.set p none).target q = s.target q := by
  rw [SharedRefs.target_set, Function.update_of_ne hpq.symm]

/-- **The copy assignment**, where the right side stays. -/
theorem copyAssign (ha : m.Agrees s) (hfew : Few ∅ m) (hp : s.Usable p) (hq : s.Usable q)
    (hpq : p ≠ q) (hi : s.target q = some i) (hstays : (s.set p none).Present q)
    (hacyclic : (s.set p (some i)).graph.Acyclic) :
    ∃ m', m.copyAssign p q = .ok m' ∧ m'.Agrees (s.set p (some i)) := by
  obtain ⟨c, hc, _⟩ := ha.usable hp
  obtain ⟨m₁, hd, -, hok⟩ := copyAssign_spec ha.counted hfew ha.ordered hc
    ((ha.refersTo hq.2).trans hi) hpq
  have ha₁ := ha.dropped hd
  have hi₁ : (s.set p none).target q = some i := (target_right hpq).trans hi
  obtain ⟨m', hm', hassigned⟩ := hok (ha₁.handles_ne_none hstays hi₁)
  rw [← SharedRefs.set_set s p none] at hacyclic ⊢
  refine ⟨m', hm', ha₁.assigned hassigned rfl hacyclic (fun j => ?_)
    fun r hr => view_set (ha₁.view r hr) _ _⟩
  refine SharedRefs.live_set ?_ fun j hj => Option.some.inj hj ▸ hstays.live hi₁
  rw [SharedRefs.target_set, Function.update_self]

/-- **The move assignment**, where the right side stays. -/
theorem moveAssign (ha : m.Agrees s) (hfew : Few ∅ m) (hp : s.Usable p) (hq : s.Usable q)
    (hpq : p ≠ q) (hi : s.target q = some i) (hstays : (s.set p none).Present q)
    (hacyclic : ((s.set p (some i)).set q none).graph.Acyclic) :
    ∃ m', m.moveAssign p q = .ok m' ∧ m'.Agrees ((s.set p (some i)).set q none) := by
  obtain ⟨c, hc, _⟩ := ha.usable hp
  obtain ⟨m₁, hd, -, hok⟩ := moveAssign_spec ha.counted hfew ha.ordered hc
    ((ha.refersTo hq.2).trans hi) hpq
  have ha₁ := ha.dropped hd
  have hi₁ : (s.set p none).target q = some i := (target_right hpq).trans hi
  obtain ⟨m', hm', hassigned⟩ := hok (ha₁.handles_ne_none hstays hi₁)
  rw [← SharedRefs.set_set s p none] at hacyclic ⊢
  refine ⟨m', hm', ha₁.assigned hassigned rfl hacyclic (fun j => ?_)
    fun r hr => view_set (view_set (ha₁.view r hr) _ _) _ _⟩
  refine SharedRefs.live_move ?_ (hp.2.set_none ha.acyclic) hi₁ (hstays.live hi₁) hacyclic
  rw [SharedRefs.target_set, Function.update_self]

/-- **The destructor of a handle outside.** -/
theorem destroy (ha : m.Agrees s) (hfew : Few ∅ m) (hh : s.points (.handle h) ≠ none)
    (hacyclic : (s.remove (.handle h)).graph.Acyclic) :
    ∃ m', m.destroy h = .ok m' ∧ m'.Agrees (s.remove (.handle h)) := by
  obtain ⟨c, hc, _⟩ := ha.usable ⟨hh, s.present_handle h⟩
  obtain ⟨m₁, hd, hm', hcounted⟩ := destroy_spec ha.counted hfew ha.ordered hc
  have ha₁ := ha.dropped hd
  refine ⟨_, hm', ha₁.assigned ⟨hcounted, view_update (x := none) rfl, rfl, rfl⟩ rfl hacyclic
    (fun i => ?_) fun r hr => ?_⟩
  · refine SharedRefs.live_congr ?_
    rw [SharedRefs.target_set]
    funext r
    show (Function.update s.points (.handle h) none r).join = _
    by_cases hr : r = .handle h
    · rw [hr, Function.update_self, Function.update_self]
      rfl
    · rw [Function.update_of_ne hr, Function.update_of_ne hr]
      rfl
  · show Function.update m₁.view (.handle h) none r = Function.update s.points (.handle h) none r
    by_cases hrh : r = .handle h
    · rw [hrh, Function.update_self, Function.update_self]
    · rw [Function.update_of_ne hrh, Function.update_of_ne hrh, ha₁.view r hr]
      exact Function.update_of_ne hrh ..

/-- What is live has been made. -/
theorem lt_next (ha : m.Agrees s) (hi : s.Live i) : i < s.next := by
  rw [← ha.next]
  exact ha.counted.made i ((ha.live i).mpr hi)

/-- The new object is live, and what was. -/
theorem live_make (ha : m.Agrees s) (hh : s.points (.handle h) = none) (width : ℕ) :
    (s.make h width).Live i ↔ i = s.next ∨ s.Live i := by
  have hfield : ∀ {o k}, o ≠ s.next →
      (s.make h width).target (.field o k) = s.target (.field o k) := by
    intro o k ho
    show (if o = s.next then _ else _ : Option (Option ℕ)).join = _
    rw [if_neg ho]
    rfl
  have hhandle : ∀ {h'}, h' ≠ h →
      (s.make h width).target (.handle h') = s.target (.handle h') := by
    intro h' hne
    show (if h' = h then _ else _ : Option (Option ℕ)).join = _
    rw [if_neg hne]
    rfl
  have hnew : (s.make h width).target (.handle h) = some s.next := by
    show (if h = h then _ else _ : Option (Option ℕ)).join = _
    rw [if_pos rfl]
    rfl
  constructor
  · refine Ownership.Reachable.induction (P := fun i => i = s.next ∨ s.Live i) (fun i hi => ?_)
      fun o i ho hi => ?_
    · obtain ⟨h', hh'⟩ := hi
      by_cases hne : h' = h
      · rw [hne, hnew] at hh'
        exact Or.inl (Option.some.inj hh').symm
      · rw [hhandle hne] at hh'
        exact Or.inr (.of_root ⟨h', hh'⟩)
    · obtain ⟨k, hk⟩ := hi
      have hne : o ≠ s.next := by
        rintro rfl
        have hnone : (s.make h width).target (.field s.next k) = none := by
          show (if s.next = s.next then _ else _ : Option (Option ℕ)).join = _
          rw [if_pos rfl]
          split <;> rfl
        rw [hnone] at hk
        cases hk
      rw [hfield hne] at hk
      exact Or.inr ((ho.resolve_left hne).owned ⟨k, hk⟩)
  · rintro (rfl | hi)
    · exact .of_root ⟨h, hnew⟩
    · refine hi.mono (fun i hi => ?_) fun o i ho ho' hi => ?_
      · obtain ⟨h', hh'⟩ := hi
        have hne : h' ≠ h := by
          rintro rfl
          rw [SharedRefs.target_of_free hh] at hh'
          cases hh'
        exact .of_root ⟨h', (hhandle hne).trans hh'⟩
      · obtain ⟨k, hk⟩ := hi
        exact ho'.owned ⟨k, (hfield (ha.lt_next ho).ne).trans hk⟩

/-- **`makeShmShared`.** -/
theorem makeShmShared (ha : m.Agrees s) (hh : s.points (.handle h) = none) (width : ℕ)
    (hacyclic : (s.make h width).graph.Acyclic) :
    (m.made h width).Agrees (s.make h width) := by
  refine ⟨ha.counted.made_spec (ha.free hh) width, congrArg (· + 1) ha.next, fun i => ?_,
    fun q hq => ?_, hacyclic⟩
  · rw [ha.live_make hh, ← ha.live, ← ha.next]
    show Function.update m.objects m.next (some width) i ≠ none ↔ _
    by_cases hi : i = m.next
    · rw [hi, Function.update_self]
      exact iff_of_true (Option.some_ne_none width) (Or.inl rfl)
    · rw [Function.update_of_ne hi, or_iff_right hi]
  · cases q with
    | handle h' =>
      show Option.map _ (if h' = h then _ else _) = if h' = h then _ else _
      by_cases hne : h' = h
      · rw [if_pos hne, if_pos hne, ← ha.next]
        rfl
      · rw [if_neg hne, if_neg hne, ← ha.view _ (s.present_handle h')]
        rfl
    | field o k =>
      show Option.map _ (if o = m.next ∧ k < width then _ else _)
        = if o = s.next then if k < width then _ else _ else _
      by_cases ho : o = s.next
      · rw [if_pos ho]
        by_cases hk : k < width
        · rw [if_pos ⟨ho.trans ha.next.symm, hk⟩, if_pos hk]
          rfl
        · rw [if_neg fun hand => hk hand.2, if_neg hk,
            ha.counted.handles_none (i := o) rfl ?_]
          · rfl
          · rw [ho, ← ha.next]
            exact ha.counted.next_gone.object
      · rw [if_neg ho, if_neg fun hand => ho (hand.1.trans ha.next), ← ha.view]
        · rfl
        · rintro o' ⟨⟩
          exact ((ha.live_make hh width).mp (hq o rfl)).resolve_left ho

/-- **An operation which is done right keeps the memory as it should be.** -/
theorem run (ha : m.Agrees s) (hfew : Few ∅ m) {l : PtrOp} (hl : s.Enabled l)
    (hacyclic : (s.apply l).graph.Acyclic) (hsound : PtrPair.Sound ⟨.ok m, s⟩ l) :
    ∃ m', m.run l = .ok m' ∧ m'.Agrees (s.apply l) := by
  cases l with
  | makeShmShared h width =>
    exact ⟨_, makeShmShared_eq m h width, ha.makeShmShared hl width hacyclic⟩
  | construct h => exact ⟨_, rfl, ha.construct hl hacyclic⟩
  | copyConstruct h rhs => exact ha.copyConstruct hl.1 hl.2 hacyclic
  | moveConstruct h rhs => exact ha.moveConstruct hfew hl.1 hl.2 hacyclic
  | copyAssign lhs rhs =>
    obtain ⟨d, hd, hraw⟩ := ha.usable hl.2
    change (s.set lhs (s.target rhs)).graph.Acyclic at hacyclic
    show ∃ m', m.copyAssign lhs rhs = .ok m' ∧ m'.Agrees (s.set lhs (s.target rhs))
    by_cases hne : lhs = rhs
    · rw [← hne, SharedRefs.set_self hl.1.1]
      exact ⟨m, copyAssign_skip (hne ▸ hd) (Or.inr rfl), ha⟩
    · cases ht : s.target rhs with
      | none =>
        rw [← (hsound hne).1 ht, SharedRefs.set_self hl.1.1]
        exact ⟨m, copyAssign_skip hd (Or.inl (hraw.trans ht)), ha⟩
      | some i =>
        rw [ht] at hacyclic
        have hstays := (hsound hne).2 (by rw [ht]; exact Option.some_ne_none i)
        exact ha.copyAssign hfew hl.1 hl.2 hne ht hstays hacyclic
  | moveAssign lhs rhs =>
    obtain ⟨d, hd, hraw⟩ := ha.usable hl.2
    change (if lhs = rhs then s else (s.set lhs (s.target rhs)).set rhs none).graph.Acyclic
      at hacyclic
    show ∃ m', m.moveAssign lhs rhs = .ok m'
      ∧ m'.Agrees (if lhs = rhs then s else (s.set lhs (s.target rhs)).set rhs none)
    by_cases hne : lhs = rhs
    · rw [if_pos hne]
      exact ⟨m, moveAssign_skip hd (Or.inr hne), ha⟩
    · rw [if_neg hne] at hacyclic ⊢
      cases ht : s.target rhs with
      | none =>
        have hleft : s.set lhs none = s := by
          rw [← (hsound hne).1 ht, SharedRefs.set_self hl.1.1]
        have hright : s.set rhs none = s := by
          rw [← ht, SharedRefs.set_self hl.2.1]
        rw [hleft, hright]
        exact ⟨m, moveAssign_skip hd (Or.inl (hraw.trans ht)), ha⟩
      | some i =>
        rw [ht] at hacyclic
        have hstays := (hsound hne).2 (by rw [ht]; exact Option.some_ne_none i)
        exact ha.moveAssign hfew hl.1 hl.2 hne ht hstays hacyclic
  | reset p =>
    obtain ⟨c, hc, _⟩ := ha.usable hl
    obtain ⟨m', hm', hd⟩ := reset_spec ha.counted hfew ha.ordered hc
    exact ⟨m', hm', ha.dropped hd⟩
  | destroy h => exact ha.destroy hfew hl hacyclic

/-- A right side which does not stay is gone when the left side has given up
its object. -/
theorem handles_of_not_present (ha : m.Agrees s) (hd : Dropped p m m')
    (hgone : ¬ (s.set p none).Present q) : m'.handles q = none := by
  by_contra hthere
  exact hgone ((ha.dropped hd).present hthere)

/-- An assignment from null which leaves the left side alone. -/
theorem not_skipped (ha : m.Agrees s) (hp : s.Usable p) (htarget : s.target p ≠ none)
    (hview : m.view p = some none) : False := by
  refine htarget ?_
  rw [SharedRefs.target, ← ha.view p hp.2, hview]
  rfl

/-- **An operation which is not done right** leaves a handle which refers to
what it should not, or accesses what is gone. -/
theorem not_refines (ha : m.Agrees s) (hfew : Few ∅ m) {l : PtrOp} (hl : s.Enabled l)
    (hsound : ¬ PtrPair.Sound ⟨.ok m, s⟩ l) : ¬ PtrPair.Refines ⟨m.run l, s.apply l⟩ := by
  rintro ⟨m', hm', -, hview⟩
  cases l with
  | copyAssign lhs rhs =>
    change m.copyAssign lhs rhs = .ok m' at hm'
    obtain ⟨c, hc, _⟩ := ha.usable hl.1
    obtain ⟨d, hd, hraw⟩ := ha.usable hl.2
    obtain ⟨hne, ⟨ht, hleft⟩ | ⟨i, ht, hgone⟩⟩ := SharedRefs.unsound hsound
    · rw [copyAssign_skip hd (Or.inl (hraw.trans ht))] at hm'
      cases hm'
      change ∀ q, (s.set lhs (s.target rhs)).Present q
        → m.view q = (s.set lhs (s.target rhs)).points q at hview
      rw [ht] at hview
      refine ha.not_skipped hl.1 hleft ?_
      rw [hview lhs (hl.1.2.set_none ha.acyclic)]
      exact Function.update_self lhs (some none) s.points
    · obtain ⟨m₁, hdrop, herror, -⟩ := copyAssign_spec ha.counted hfew ha.ordered hc
        ((ha.refersTo hl.2.2).trans ht) hne
      rw [herror (ha.handles_of_not_present hdrop hgone)] at hm'
      cases hm'
  | moveAssign lhs rhs =>
    change m.moveAssign lhs rhs = .ok m' at hm'
    obtain ⟨c, hc, _⟩ := ha.usable hl.1
    obtain ⟨d, hd, hraw⟩ := ha.usable hl.2
    obtain ⟨hne, ⟨ht, hleft⟩ | ⟨i, ht, hgone⟩⟩ := SharedRefs.unsound hsound
    · rw [moveAssign_skip hd (Or.inl (hraw.trans ht))] at hm'
      cases hm'
      change ∀ q, (if lhs = rhs then s else (s.set lhs (s.target rhs)).set rhs none).Present q
        → m.view q = (if lhs = rhs then s else (s.set lhs (s.target rhs)).set rhs none).points q
        at hview
      rw [if_neg hne, ht] at hview
      refine ha.not_skipped hl.1 hleft ?_
      rw [hview lhs fun o ho => ?_]
      · exact (Function.update_of_ne hne ..).trans (Function.update_self ..)
      · rw [SharedRefs.live_set_none ((target_right hne).trans ht)]
        exact hl.1.2.set_none ha.acyclic o ho
    · obtain ⟨m₁, hdrop, herror, -⟩ := moveAssign_spec ha.counted hfew ha.ordered hc
        ((ha.refersTo hl.2.2).trans ht) hne
      rw [herror (ha.handles_of_not_present hdrop hgone)] at hm'
      cases hm'
  | makeShmShared => exact hsound trivial
  | construct => exact hsound trivial
  | copyConstruct => exact hsound trivial
  | moveConstruct => exact hsound trivial
  | reset => exact hsound trivial
  | destroy => exact hsound trivial

end Agrees

end PtrMemory

namespace PtrPair

variable {s : PtrPair}

/-- What holds besides, as long as the program does what it is to do. -/
def Sane (s : PtrPair) : Prop :=
  s.refs.graph.Acyclic ∧ ∀ m, s.mem = .ok m → m.Counted ∅ ∅ ∧ m.next = s.refs.next

theorem agrees_iff : s.Refines ∧ s.Sane ↔ ∃ m, s.mem = .ok m ∧ m.Agrees s.refs := by
  constructor
  · rintro ⟨⟨m, hm, hlive, hview⟩, hacyclic, hcounted⟩
    exact ⟨m, hm, (hcounted m hm).1, (hcounted m hm).2, hlive, hview, hacyclic⟩
  · rintro ⟨m, hm, ha⟩
    refine ⟨⟨m, hm, ha.live, ha.view⟩, ha.acyclic, fun m' hm' => ?_⟩
    rw [hm] at hm'
    cases hm'
    exact ⟨ha.counted, ha.next⟩

end PtrPair

theorem PtrMemory.empty_agrees : PtrMemory.empty.Agrees .empty := by
  have hnot : ∀ i, ¬ SharedRefs.empty.Live i := by
    intro i hi
    refine hi.induction (P := fun _ => False) (fun i hi => ?_) fun _ _ h _ => h
    obtain ⟨h, hh⟩ := hi
    cases hh
  refine ⟨PtrMemory.empty_counted, rfl, fun i => iff_of_false (fun h => h rfl) (hnot i),
    fun _ _ => rfl, fun i hi => ?_⟩
  obtain ⟨j, ⟨k, hk⟩, _⟩ := Relation.TransGen.head'_iff.mp hi
  cases hk

open TransitionSystem

/-- **Shared pointers are shared ownership, but for two assignments**: in
every run in which there are never as many handles to an object as an `int`
has values, the program does throughout what it is to do, if and only if
every assignment in it is done right. Those which are not are the ones from
a null handle to one which is not, and those from a handle that is gone when
the left side has given up its object. -/
theorem sharedPtr_refines_iff {tr : List (PtrPair × PtrOp)} {s : PtrPair}
    (hr : sharedPtrSystem.Run tr s) (hfew : Met (fun s _ => s.Few) tr) :
    Throughout PtrPair.Refines tr s ↔ Met PtrPair.Sound tr := by
  refine (hr.restrict hfew).forall_iff (J := PtrPair.Sane) ?_ ?_ ?_
  · rintro s rfl
    exact PtrPair.agrees_iff.mpr ⟨.empty, rfl, PtrMemory.empty_agrees⟩
  · rintro ⟨mem, refs⟩ l s' hP hJ ⟨hfew, hl, hacyclic, rfl⟩ hsound
    obtain ⟨m, rfl, ha⟩ := PtrPair.agrees_iff.mp ⟨hP, hJ⟩
    obtain ⟨m', hm', ha'⟩ := ha.run (hfew m rfl) hl hacyclic hsound
    exact PtrPair.agrees_iff.mpr ⟨m', hm', ha'⟩
  · rintro ⟨mem, refs⟩ l s' hP hJ ⟨hfew, hl, _, rfl⟩ hsound
    obtain ⟨m, rfl, ha⟩ := PtrPair.agrees_iff.mp ⟨hP, hJ⟩
    exact ha.not_refines (hfew m rfl) hl hsound

/-- A memory in which only so many handles point to anything. -/
theorem PtrMemory.few_of_subset {m : PtrMemory} {S : Finset Place}
    (h : ∀ p, m.refersTo p ≠ none → p ∈ S) (hS : S.card < 2 ^ 32) : m.Few ∅ := by
  intro i
  have hsub : m.users ∅ i ⊆ S := by
    rintro p ⟨-, hp⟩
    refine h p ?_
    rw [hp]
    exact Option.some_ne_none i
  refine (Set.encard_le_encard hsub).trans_lt ?_
  rw [Set.encard_coe_eq_coe_finsetCard]
  exact_mod_cast hS

/-- A new object has one handle. -/
theorem PtrMemory.mem_of_made {m : PtrMemory} {S : Finset Place} (hm : m.Counted ∅ ∅)
    (hS : ∀ p, m.refersTo p ≠ none → p ∈ S) (h width : ℕ) (p : Place)
    (hp : (m.made h width).refersTo p ≠ none) : p ∈ insert (.handle h) S := by
  by_cases heq : p = .handle h
  · rw [heq]
    exact Finset.mem_insert_self ..
  · rw [refersTo_made hm, Function.update_of_ne heq] at hp
    exact Finset.mem_insert_of_mem (hS p hp)

namespace SharedRefs

variable {s : SharedRefs} {p : Place} {x : Option ℕ} {o i h : ℕ}

/-- The objects refer to those made after them. -/
def Upward (s : SharedRefs) : Prop := ∀ o k i, s.target (.field o k) = some i → o < i

theorem Upward.acyclic (hs : s.Upward) : s.graph.Acyclic := by
  have hlt : ∀ {o i}, Relation.TransGen s.graph.owns o i → o < i := by
    intro o i hoi
    induction hoi with
    | single hi =>
      obtain ⟨k, hk⟩ := hi
      exact hs _ k _ hk
    | tail _ hi ih =>
      obtain ⟨k, hk⟩ := hi
      exact ih.trans (hs _ k _ hk)
  exact fun i hi => lt_irrefl i (hlt hi)

theorem Upward.set (hs : s.Upward) (hx : ∀ o i, p.container = some o → x = some i → o < i) :
    (s.set p x).Upward := by
  intro o k i hi
  rw [target_set] at hi
  by_cases hp : Place.field o k = p
  · rw [hp, Function.update_self] at hi
    refine hx o i ?_ hi
    rw [← hp]
    rfl
  · rw [Function.update_of_ne hp] at hi
    exact hs o k i hi

theorem Upward.make (hs : s.Upward) (h width : ℕ) : (s.make h width).Upward := by
  intro o k i hi
  change (if o = s.next then if k < width then some none else none
    else s.points (.field o k)).join = some i at hi
  split at hi
  · split at hi <;> cases hi
  · exact hs o k i hi

theorem live_of_handle (hi : s.points (.handle h) = some (some i)) : s.Live i :=
  .of_root ⟨h, target_of_points hi⟩

end SharedRefs

namespace PtrPair

/-- Two objects have been made, with a handle to each, and room for a handle
in the first one. -/
def twoMade : PtrPair := (empty.after (.makeShmShared 0 1)).after (.makeShmShared 1 0)

/-- The handle to the second object has been moved into the first one. -/
def linked : PtrPair := twoMade.after (.moveAssign (.field 0 0) (.handle 1))

theorem empty_upward : SharedRefs.empty.Upward := by
  rintro o k i ⟨⟩

theorem twoMade_upward : twoMade.refs.Upward := (empty_upward.make 0 1).make 1 0

theorem linked_upward : linked.refs.Upward := by
  refine (twoMade_upward.set (p := .field 0 0) (x := some 1) ?_).set (p := .handle 1) (x := none) ?_
  · rintro o i ⟨⟩ ⟨⟩
    exact Nat.zero_lt_one
  · rintro o i ⟨⟩

theorem linked_run : sharedPtrSystem.Run
    [(twoMade, .moveAssign (.field 0 0) (.handle 1)),
      (empty.after (.makeShmShared 0 1), .makeShmShared 1 0), (empty, .makeShmShared 0 1)]
    linked := by
  have hmade : sharedPtrSystem.Run [(empty, .makeShmShared 0 1)] (empty.after _) :=
    .snoc (.start rfl) ⟨rfl, (empty_upward.make 0 1).acyclic, rfl⟩
  have htwo : sharedPtrSystem.Run
      [(empty.after (.makeShmShared 0 1), .makeShmShared 1 0), (empty, .makeShmShared 0 1)]
      twoMade := .snoc hmade ⟨rfl, twoMade_upward.acyclic, rfl⟩
  refine .snoc htwo ⟨⟨⟨nofun, ?_⟩, nofun, SharedRefs.present_handle _ 1⟩, linked_upward.acyclic,
    rfl⟩
  rintro o ⟨⟩
  exact SharedRefs.live_of_handle (h := 0) rfl

/-- The handle to the first object is made to refer to what another handle
refers to. -/
theorem linked_assign {q : Place} (hq : linked.refs.Usable q) : sharedPtrSystem.Run
    ((linked, .copyAssign (.handle 0) q)
      :: [(twoMade, .moveAssign (.field 0 0) (.handle 1)),
        (empty.after (.makeShmShared 0 1), .makeShmShared 1 0), (empty, .makeShmShared 0 1)])
    (linked.after (.copyAssign (.handle 0) q)) := by
  refine .snoc linked_run ⟨⟨⟨nofun, SharedRefs.present_handle _ 0⟩, hq⟩, ?_, rfl⟩
  refine (linked_upward.set (p := .handle 0) ?_).acyclic
  rintro o i ⟨⟩

end PtrPair

/-- There are few handles in these. -/
theorem PtrPair.linked_few : Met (fun s _ => s.Few)
    [(twoMade, PtrOp.moveAssign (.field 0 0) (.handle 1)),
      (empty.after (.makeShmShared 0 1), .makeShmShared 1 0), (empty, .makeShmShared 0 1)] := by
  have hempty : ∀ p, PtrMemory.empty.refersTo p ≠ none → p ∈ (∅ : Finset Place) :=
    fun _ hp => absurd rfl hp
  have hone := PtrMemory.mem_of_made PtrMemory.empty_counted hempty 0 1
  have htwo := PtrMemory.mem_of_made (PtrMemory.empty_counted.made_spec (h := 0) rfl 1) hone 1 0
  simp only [met_cons]
  refine ⟨?_, ?_, ?_, met_nil _⟩
  · rintro m ⟨⟩
    exact PtrMemory.few_of_subset htwo (by decide)
  · rintro m ⟨⟩
    exact PtrMemory.few_of_subset hone (by decide)
  · rintro m ⟨⟩
    exact PtrMemory.few_of_subset hempty (by decide)

/-- A handle has been moved into an object. -/
theorem sharedPtr_refines_linked : ∃ tr, sharedPtrSystem.Run tr .linked
    ∧ Throughout PtrPair.Refines tr .linked := by
  refine ⟨_, PtrPair.linked_run,
    (sharedPtr_refines_iff PtrPair.linked_run PtrPair.linked_few).mpr ?_⟩
  rw [met_cons, met_cons, met_cons]
  exact ⟨fun _ => ⟨nofun, fun _ => SharedRefs.present_handle _ 1⟩, trivial, trivial, met_nil _⟩

/-- Two assignments which go wrong: the first handle is to refer to nothing,
as the second one, and still refers to its object; and it is to refer to
what the handle in its object refers to, which is read when it is gone. -/
theorem sharedPtr_not_refines :
    (∃ tr s, sharedPtrSystem.Run tr s ∧ s.refs.target (.handle 0) = none
      ∧ (s.mem.toOption.map fun m => m.refersTo (.handle 0)) = some (some 0)
      ∧ ¬ Throughout PtrPair.Refines tr s)
    ∧ ∃ tr s, sharedPtrSystem.Run tr s ∧ s.mem = .error .freed
      ∧ ¬ Throughout PtrPair.Refines tr s := by
  refine ⟨⟨_, _, PtrPair.linked_assign (q := .handle 1)
      ⟨nofun, SharedRefs.present_handle _ 1⟩, rfl, rfl, fun h => ?_⟩,
    ⟨_, _, PtrPair.linked_assign (q := .field 0 0) ⟨nofun, ?_⟩, rfl, fun h => ?_⟩⟩
  · obtain ⟨m, hm, _, hview⟩ := h.1
    have hstill : ((PtrPair.linked.after (.copyAssign (.handle 0) (.handle 1))).mem.toOption.map
        fun m => m.view (.handle 0)) = some (some (some 0)) := rfl
    have hnull : m.view (.handle 0) = some none :=
      hview (.handle 0) (SharedRefs.present_handle _ 0)
    rw [hm] at hstill
    cases hnull.symm.trans (Option.some.inj hstill)
  · rintro o ⟨⟩
    exact SharedRefs.live_of_handle (h := 0) rfl
  · obtain ⟨m, hm, _⟩ := h.1
    cases hm
