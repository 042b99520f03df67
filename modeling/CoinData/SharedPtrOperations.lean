import CoinData.SharedPtrCounts
import Mathlib.Data.ENat.Lattice

/-!
# The operations on shared pointers

What an assignment gives up and what it takes over are two steps: first the
left side gives up its object, then it shares that of the right side. So
each operation is put together from a step which gives something up
(`PtrMemory.Dropped`) and one which takes something over. Where all handles
are outside the managed objects, no operation can fail as long as there are
few, and that is the theorem about them: whatever the operations, the
counters are right, and everything is freed once, with the last handle, until
an object gets more handles than an `int` can count
(`sharedPtr_accounted_iff`).
-/

open Except (ok_bind)

namespace PtrMemory

variable {R : ℕ → ℕ → Prop} {m m' : PtrMemory} {p q : Place} {c : ShmSharedPtr} {i h : ℕ} {v : ℤ}

/-- **The handle at `p` has given up what it pointed to.** -/
structure Dropped (p : Place) (m m' : PtrMemory) : Prop where
  counted : Counted ∅ ∅ m'
  frame : Frame {p} Set.univ m m'
  there : ∃ c, m'.handles p = some c
  null : m'.refersTo p = none

/-- The other handles outside are where they were. -/
theorem Dropped.handle_eq (hd : Dropped p m m') (hne : .handle h ≠ p) :
    m'.handles (.handle h) = m.handles (.handle h) :=
  hd.frame.handles_eq hne fun _ _ hc => by cases hc

/-- A handle which is still there has not changed. -/
theorem Dropped.handles_eq (hd : Dropped p m m') (hne : q ≠ p) (hq : m'.handles q ≠ none) :
    m'.handles q = m.handles q :=
  hd.frame.handles_eq hne fun _ _ hc hnone => hq (hd.counted.handles_none hc hnone)

theorem Few.dropped (hfew : Few ∅ m) (hd : Dropped p m m') : Few ∅ m' :=
  hfew.frame hd.frame hd.counted fun _ hq => hq ▸ hd.null

/-- **The destructor, and the left side of an assignment.** -/
theorem giveUpRaw_spec (hm : Counted ∅ ∅ m) (hfew : Few ∅ m) (hR : Ordered R m)
    (hp : m.handles p = some c) :
    ∃ m', m.giveUpRaw (decreace m.fuel) p = .ok m' ∧ Dropped p m m' := by
  rw [giveUpRaw, read_of_some hp, ok_bind]
  cases hraw : c.rawPtr with
  | none => exact ⟨m, rfl, hm, .refl .., ⟨c, hp⟩, (refersTo_of_some hp).trans hraw⟩
  | some i =>
    obtain ⟨m', hm', hcounted, hframe, hthere, hnull⟩ :=
      giveUp_spec hm hfew hR ((refersTo_of_some hp).trans hraw)
    exact ⟨m', hm', hcounted, hframe.mono subset_rfl (Set.subset_univ _), hthere, hnull⟩

/-! ## Taking over -/

/-- What a handle shares with another one, before the mutex is unlocked. -/
def shared (m : PtrMemory) (p : Place) (i : ℕ) (v : ℤ) : PtrMemory :=
  ((m.take i).write p (.whole i)).setCounter i (wrap (v + 1))

theorem share_spec (hm : Counted ∅ ∅ m) (hp : m.handles p = some c)
    (hq : m.refersTo q = some i) (hv : m.counters i = some v) :
    m.share p q = .ok (m.shared p i v) := by
  have hwhole := hm.handles_of_refersTo hq
  have hmutex := (hm.kept hq (Set.notMem_empty q)).2.mutex
  rw [share, lock_of_some hwhole rfl hmutex, ok_bind, read_of_some (m := m.take i) hwhole, ok_bind,
    modify_of_some (m := m.take i) hp, ok_bind]
  exact fetchAdd_of_some (m := (m.take i).write p (.whole i)) hv

/-- **A null handle shares an object.** -/
theorem Counted.share (hm : Counted ∅ ∅ m) (hp : m.handles p = some c)
    (hnull : m.refersTo p = none) (hq : m.refersTo q = some i) (hv : m.counters i = some v) :
    Counted ∅ ∅ ((m.shared p i v).release i) := by
  have hkept := (hm.kept hq (Set.notMem_empty q)).2
  have hrefers : ((m.shared p i v).release i).refersTo = Function.update m.refersTo p (some i) :=
    refersTo_update (m := m) (c := .whole i) rfl
  refine hm.of_block (Finset.notMem_empty i) (handles_update rfl hp (Or.inr ⟨i, rfl⟩)) rfl rfl
    (fun j hj => ?_) (fun j hj => users_update_of_ne hrefers ?_ ?_) ?_
  · rw [block_release_of_ne hj, PtrMemory.shared, block_setCounter_of_ne hj, block_write,
      block_take_of_ne hj]
  · rw [hnull]
    exact (Option.some_ne_none j).symm
  · exact fun heq => hj (Option.some.inj heq).symm
  · rw [users_update_add hrefers (Set.notMem_empty p), block_release, PtrMemory.shared,
      block_setCounter, block_write, block_take]
    obtain ⟨n, hn, hcard, _⟩ := hkept.counter
    have hnv : wrap n = v := Option.some.inj (hn.symm.trans hv)
    have hmore : wrap (v + 1) = wrap (n + 1 : ℕ) := by
      rw [← hnv, wrap_add, Nat.cast_succ]
    rw [hmore]
    refine hkept.recounted ?_ (Nat.succ_pos n)
    rw [Set.encard_insert_of_notMem (notMem_users hnull), hcard]
    rfl

/-- What a handle has taken over from another one, which is null then, before
the mutex is unlocked. -/
def moved (m : PtrMemory) (p q : Place) (i : ℕ) (v : ℤ) : PtrMemory :=
  ((((m.shared p i v).setCounter i (wrap (wrap (v + 1) - 1))).write q
    { mutex := some i }).write q {})

theorem wrap_pred_succ (v : ℤ) : wrap (wrap (wrap v + 1) - 1) = wrap v := by
  rw [wrap_add, sub_eq_add_neg, wrap_add, add_neg_cancel_right]

/-- **A null handle takes over an object.** -/
theorem Counted.move (hm : Counted ∅ ∅ m) (hp : m.handles p = some c)
    (hnull : m.refersTo p = none) (hq : m.refersTo q = some i) (hv : m.counters i = some v) :
    Counted ∅ ∅ ((m.moved p q i v).release i) := by
  have hkept := (hm.kept hq (Set.notMem_empty q)).2
  have hne : q ≠ p := by
    rintro rfl
    rw [hnull] at hq
    cases hq
  have hwhole := hm.handles_of_refersTo hq
  have hshared : (m.shared p i v).refersTo = Function.update m.refersTo p (some i) :=
    refersTo_update (m := m) (c := .whole i) rfl
  have hrefers : ((m.moved p q i v).release i).refersTo
      = Function.update (m.shared p i v).refersTo q none :=
    refersTo_update (c := {}) (Function.update_idem ..)
  refine hm.of_block (Finset.notMem_empty i) (fun r => ?_) rfl rfl (fun j hj => ?_)
    (fun j hj => ?_) ?_
  · have hhandles : ((m.moved p q i v).release i).handles
        = Function.update (m.shared p i v).handles q (some {}) := Function.update_idem ..
    rw [hhandles]
    by_cases hr : r = q
    · rw [hr, hwhole, Function.update_self]
      exact Or.inr ⟨Option.some_ne_none _, _, rfl, Or.inl ⟨rfl, rfl⟩⟩
    · rw [Function.update_of_ne hr]
      exact handles_update (m := m) rfl hp (Or.inr ⟨i, rfl⟩) r
  · rw [block_release_of_ne hj, moved, block_write, block_write, block_setCounter_of_ne hj,
      PtrMemory.shared, block_setCounter_of_ne hj, block_write, block_take_of_ne hj]
  · rw [users_update_of_ne hrefers ?_ (by simp), users_update_of_ne hshared ?_ ?_]
    · rw [hnull]
      exact (Option.some_ne_none j).symm
    · exact fun heq => hj (Option.some.inj heq).symm
    · rw [hshared, Function.update_of_ne hne, hq]
      exact fun heq => hj (Option.some.inj heq).symm
  · rw [users_update_remove hrefers (by simp), users_update_add hshared (Set.notMem_empty p),
      block_release, moved, block_write, block_write, block_setCounter, PtrMemory.shared,
      block_setCounter, block_write, block_take]
    obtain ⟨n, hn, hcard, hpos⟩ := hkept.counter
    have hnv : wrap n = v := Option.some.inj (hn.symm.trans hv)
    rw [← hnv, wrap_pred_succ]
    refine hkept.recounted ?_ hpos
    rw [← Set.insert_sdiff_singleton_comm hne.symm, Set.encard_exchange (notMem_users hnull)
      (show q ∈ m.users ∅ i from ⟨Set.notMem_empty q, hq⟩), hcard]

/-! ## Assignments -/

/-- A null handle, or the handle itself, on the right side: nothing is
done. -/
theorem copyAssign_skip (hq : m.handles q = some c) (h : c.rawPtr = none ∨ p = q) :
    m.copyAssign p q = .ok m := by
  rw [copyAssign, read_of_some hq, ok_bind, if_pos h]
  rfl

theorem moveAssign_skip (hq : m.handles q = some c) (h : c.rawPtr = none ∨ p = q) :
    m.moveAssign p q = .ok m := by
  rw [moveAssign, read_of_some hq, ok_bind, if_pos h]
  rfl

/-- An assignment which does something begins by giving up the left side. -/
theorem copyAssign_eq (hq : m.refersTo q = some i) (hne : p ≠ q)
    (hm' : m.giveUpRaw (decreace m.fuel) p = .ok m') :
    m.copyAssign p q = (do let m ← m'.share p q; m.unlockRef q) := by
  obtain ⟨c, hc, hraw⟩ := handles_of_refersTo hq
  have hnot : ¬ (c.rawPtr = none ∨ p = q) := by
    rw [hraw]
    exact not_or.mpr ⟨Option.some_ne_none i, hne⟩
  rw [copyAssign, read_of_some hc, ok_bind, if_neg hnot, hm', ok_bind]

theorem moveAssign_eq (hq : m.refersTo q = some i) (hne : p ≠ q)
    (hm' : m.giveUpRaw (decreace m.fuel) p = .ok m') :
    m.moveAssign p q = (do
      let m ← m'.share p q
      let m ← decreace m.fuel m q
      let m ← m.modify q fun _ => {}
      m.unlockRef p) := by
  obtain ⟨c, hc, hraw⟩ := handles_of_refersTo hq
  have hnot : ¬ (c.rawPtr = none ∨ p = q) := by
    rw [hraw]
    exact not_or.mpr ⟨Option.some_ne_none i, hne⟩
  rw [moveAssign, read_of_some hc, ok_bind, if_neg hnot, hm', ok_bind]

/-- The right side is not there any more. -/
theorem share_of_none (hq : m.handles q = none) : m.share p q = .error .freed := by
  rw [share, lock, read_of_none hq]
  rfl

/-- **The handles point to what `view` says**, and no object has been made or
destroyed. -/
structure Assigned (view : Place → Option (Option ℕ)) (m m' : PtrMemory) : Prop where
  counted : Counted ∅ ∅ m'
  view : m'.view = view
  objects : m'.objects = m.objects
  next : m'.next = m.next

/-- The handle at `p` is stored. -/
theorem view_update {x : Option ShmSharedPtr}
    (h : m'.handles = Function.update m.handles p x) :
    m'.view = Function.update m.view p (x.map (·.rawPtr)) := by
  funext q
  rw [view, h]
  by_cases hq : q = p
  · rw [hq, Function.update_self, Function.update_self]
  · rw [Function.update_of_ne hq, Function.update_of_ne hq]
    rfl

/-- The counter of an object which a handle points to. -/
theorem Counted.counter (hm : Counted ∅ ∅ m) (hq : m.refersTo q = some i) :
    ∃ n : ℕ, m.counters i = some (wrap n) ∧ (m.users ∅ i).encard = n ∧ 0 < n :=
  (hm.kept hq (Set.notMem_empty q)).2.counter

/-- **Sharing, and unlocking the mutex.** -/
theorem copy_spec (hm : Counted ∅ ∅ m) (hp : m.handles p = some c)
    (hnull : m.refersTo p = none) (hq : m.refersTo q = some i) :
    ∃ m', (do let m ← m.share p q; m.unlockRef q) = .ok m'
      ∧ (do let m ← m.share p q; m.unlockMutex q) = .ok m'
      ∧ Assigned (Function.update m.view p (some (some i))) m m' := by
  obtain ⟨n, hn, -, -⟩ := hm.counter hq
  have hne : q ≠ p := by
    rintro rfl
    rw [hnull] at hq
    cases hq
  have hwhole : (m.shared p i (wrap n)).handles q = some (.whole i) :=
    (Function.update_of_ne hne ..).trans (hm.handles_of_refersTo hq)
  have hheld : (m.shared p i (wrap n)).mutexes i = some true := Function.update_self ..
  refine ⟨(m.shared p i (wrap n)).release i, ?_, ?_, hm.share hp hnull hq hn,
    view_update (x := some (.whole i)) rfl, rfl, rfl⟩
  · rw [share_spec hm hp hq hn, ok_bind, unlockRef, read_of_some hwhole, ok_bind]
    exact unlock_of_held hheld
  · rw [share_spec hm hp hq hn, ok_bind]
    exact unlockMutex_of_some hwhole rfl hheld

/-- **Taking over, and unlocking the mutex.** -/
theorem move_spec (hm : Counted ∅ ∅ m) (hfew : Few ∅ m) (hp : m.handles p = some c)
    (hnull : m.refersTo p = none) (hq : m.refersTo q = some i) : ∃ m', (do
        let m ← m.share p q
        let m ← decreace m.fuel m q
        let m ← m.modify q fun _ => {}
        m.unlockRef p) = .ok m'
      ∧ Assigned (Function.update (Function.update m.view p (some (some i))) q (some none))
        m m' := by
  obtain ⟨n, hn, hcard, hpos⟩ := hm.counter hq
  -- the counter is taken to one more and back, and is not zero
  have hback : wrap (wrap (wrap n + 1) - 1) ≠ 0 := by
    have hlt := hfew i
    rw [hcard] at hlt
    have hlt : n < 2 ^ 32 := by exact_mod_cast hlt
    rw [wrap_pred_succ]
    unfold wrap
    rw [Int.bmod_def]
    omega
  have hne : q ≠ p := by
    rintro rfl
    rw [hnull] at hq
    cases hq
  have hwhole : (m.shared p i (wrap n)).handles q = some (.whole i) :=
    (Function.update_of_ne hne ..).trans (hm.handles_of_refersTo hq)
  have hcounter : (m.shared p i (wrap n)).counters i = some (wrap (wrap n + 1)) :=
    Function.update_self ..
  have hheld : (m.moved p q i (wrap n)).mutexes i = some true := Function.update_self ..
  have hp' : (m.moved p q i (wrap n)).handles p = some (.whole i) := by
    show Function.update (Function.update (Function.update m.handles p _) q _) q _ p = _
    rw [Function.update_of_ne hne.symm, Function.update_of_ne hne.symm, Function.update_self]
  have hview : ((m.moved p q i (wrap n)).release i).view
      = Function.update (Function.update m.view p (some (some i))) q (some none) := by
    have hshared : (m.shared p i (wrap n)).view = Function.update m.view p (some (some i)) :=
      view_update (x := some (.whole i)) rfl
    rw [← hshared]
    exact view_update (x := some {}) (Function.update_idem ..)
  refine ⟨(m.moved p q i (wrap n)).release i, ?_, hm.move hp hnull hq hn, hview, rfl, rfl⟩
  rw [share_spec hm hp hq hn, ok_bind]
  dsimp only [fuel]
  rw [decreace_shared hwhole hcounter hback, ok_bind,
    modify_of_some (c := { mutex := some i }) (Function.update_self ..), ok_bind]
  change (m.moved p q i (wrap n)).unlockRef p = _
  rw [unlockRef, read_of_some hp', ok_bind]
  exact unlock_of_held hheld

/-! ## Handles come and go -/

/-- **A null handle is stored, or goes away**, if it is outside. -/
theorem Counted.set_null (hm : Counted ∅ ∅ m) (hnull : m.refersTo p = none)
    {x : Option ShmSharedPtr} (hx : x.bind (·.rawPtr) = none) (hfits : ∀ c ∈ x, c.Fits)
    (hp : p.container = none ∨ x ≠ none ∧ m.handles p ≠ none) :
    Counted ∅ ∅ { m with handles := Function.update m.handles p x } := by
  have husers : ∀ j, ({ m with handles := Function.update m.handles p x } : PtrMemory).users ∅ j
      = m.users ∅ j := by
    intro j
    ext q
    refine and_congr_right fun _ => ?_
    show (Function.update m.handles p x q).bind _ = some j ↔ (m.handles q).bind _ = some j
    by_cases hq : q = p
    · have hnull : (m.handles p).bind (·.rawPtr) = none := hnull
      rw [hq, Function.update_self, hx, hnull]
    · rw [Function.update_of_ne hq]
  refine ⟨fun q c hc => ?_, fun i k => ?_, hm.made, fun i hi => absurd hi (Finset.notMem_empty i),
    fun i hi => ?_⟩
  · change Function.update m.handles p x q = some c at hc
    by_cases hq : q = p
    · rw [hq, Function.update_self] at hc
      exact hfits c hc
    · rw [Function.update_of_ne hq] at hc
      exact hm.fits q c hc
  · rw [← hm.fields i k]
    show Function.update m.handles p x _ ≠ none ↔ _
    by_cases hq : Place.field i k = p
    · subst hq
      obtain ⟨hsome, hthere⟩ := hp.resolve_left (Option.some_ne_none i)
      rw [Function.update_self]
      exact iff_of_true hsome hthere
    · rw [Function.update_of_ne hq]
  · rw [husers]
    exact hm.rest i hi

/-- A null handle outside is constructed. -/
theorem Counted.construct (hm : Counted ∅ ∅ m) (hh : m.handles (.handle h) = none) :
    Counted ∅ ∅ (m.write (.handle h) {}) := by
  refine hm.set_null (refersTo_of_none hh) rfl ?_ (Or.inl rfl)
  rintro c ⟨⟩
  exact Or.inl ⟨rfl, rfl⟩

theorem Few.construct (hfew : Few ∅ m) (hh : m.handles (.handle h) = none) :
    Few ∅ (m.write (.handle h) {}) := by
  refine hfew.mono fun i q hq => ⟨hq.1, ?_⟩
  have hrefers : (m.write (.handle h) {}).refersTo = Function.update m.refersTo (.handle h) none :=
    refersTo_update (c := {}) rfl
  have hself : m.refersTo (.handle h) = none := refersTo_of_none hh
  rw [← Function.update_eq_self (Place.handle h) m.refersTo, hself, ← hrefers]
  exact hq.2

/-- What has been given up stays null. -/
theorem Dropped.write_null (hd : Dropped p m m') : Dropped p m (m'.write p {}) := by
  obtain ⟨c, hc⟩ := hd.there
  refine ⟨hd.counted.set_null hd.null rfl ?_ (Or.inr ⟨Option.some_ne_none _, ?_⟩),
    ⟨hd.frame.next, hd.frame.objects, fun q hq => ?_⟩, ⟨_, Function.update_self ..⟩,
    refersTo_of_some (c := {}) (Function.update_self ..)⟩
  · rintro c ⟨⟩
    exact Or.inl ⟨rfl, rfl⟩
  · rw [hc]
    exact Option.some_ne_none c
  · exact (hd.frame.handles q hq).imp_left (Function.update_of_ne hq ..).trans

/-- **`reset`.** -/
theorem reset_spec (hm : Counted ∅ ∅ m) (hfew : Few ∅ m) (hR : Ordered R m)
    (hp : m.handles p = some c) :
    ∃ m', m.reset p = .ok m' ∧ Dropped p m m' := by
  rw [reset, read_of_some hp, ok_bind]
  cases hraw : c.rawPtr with
  | none => exact ⟨m, rfl, hm, .refl .., ⟨c, hp⟩, (refersTo_of_some hp).trans hraw⟩
  | some i =>
    have hrefers : m.refersTo p = some i := (refersTo_of_some hp).trans hraw
    have hc : c = .whole i := Option.some.inj (hp.symm.trans (hm.handles_of_refersTo hrefers))
    subst hc
    obtain ⟨m₁, hm₁, hdec⟩ : ∃ m₁, decreace m.fuel (m.take i) p = .ok m₁
        ∧ Decreaced ∅ ∅ R m p i m₁ :=
      decreace_spec ⟨hm, hfew, hR, Set.notMem_empty p, fun q hq => absurd hq (Set.notMem_empty q)⟩
        hrefers (Nat.lt_succ_self m.next)
    have hmutex : (ShmSharedPtr.whole i).mutex ≠ none := Option.some_ne_none i
    rw [if_neg (Option.some_ne_none i), if_pos hmutex,
      lock_of_some hp rfl (hm.kept hrefers (Set.notMem_empty p)).2.mutex, ok_bind,
      show (m.take i).fuel = m.fuel from rfl, hm₁, ok_bind]
    cases hdec with
    | shared hc hmutex hcounted hframe =>
      have hdropped : Dropped p m (m₁.release i) :=
        ⟨hcounted, hframe.mono subset_rfl (Set.subset_univ _), ⟨_, hc⟩,
          refersTo_of_some (m := m₁.release i) hc⟩
      refine ⟨(m₁.release i).write p {}, ?_, hdropped.write_null⟩
      rw [modify_of_some hc, ok_bind, unlockMutex_of_some (handles_write ..) rfl hmutex, ok_bind,
        modify_of_some (m := (m₁.write p _).release i) (handles_write m₁ p _)]
      dsimp only [write, release]
      rw [Function.update_idem]
    | last hc hcounted hframe =>
      have hdropped : Dropped p m m₁ :=
        ⟨hcounted, hframe.mono subset_rfl (Set.subset_univ _), ⟨_, hc⟩, refersTo_of_some hc⟩
      refine ⟨m₁.write p {}, ?_, hdropped.write_null⟩
      rw [modify_of_some hc, ok_bind,
        unlockMutex_of_none (handles_write ..) rfl, ok_bind, modify_of_some (handles_write ..)]
      dsimp only [write]
      rw [Function.update_idem]

/-- **The destructor of a handle outside.** -/
theorem destroy_spec (hm : Counted ∅ ∅ m) (hfew : Few ∅ m) (hR : Ordered R m)
    (hh : m.handles (.handle h) = some c) : ∃ m₁, Dropped (.handle h) m m₁
      ∧ m.destroy h = .ok { m₁ with handles := Function.update m₁.handles (.handle h) none }
      ∧ Counted ∅ ∅ { m₁ with handles := Function.update m₁.handles (.handle h) none } := by
  obtain ⟨m₁, hm₁, hd⟩ := giveUpRaw_spec hm hfew hR hh
  refine ⟨m₁, hd, ?_, hd.counted.set_null hd.null rfl nofun (Or.inl rfl)⟩
  rw [destroy, hm₁]
  rfl

/-- With a new object, and a handle to it. -/
def made (m : PtrMemory) (h width : ℕ) : PtrMemory where
  handles
    | .field obj k => if obj = m.next ∧ k < width then some {} else m.handles (.field obj k)
    | .handle h' => if h' = h then some (.whole m.next) else m.handles (.handle h')
  objects := Function.update m.objects m.next (some width)
  counters := Function.update m.counters m.next (some 1)
  mutexes := Function.update m.mutexes m.next (some false)
  next := m.next + 1
  events := m.events

theorem makeShmShared_eq (m : PtrMemory) (h width : ℕ) :
    m.makeShmShared h width = .ok (m.made h width) := by
  rw [makeShmShared, increace, fetchAdd_of_some (v := 0) (Function.update_self ..)]
  dsimp only [made]
  rw [Function.update_idem]
  rfl

theorem block_made_of_ne {width : ℕ} (hi : i ≠ m.next) : (m.made h width).block i = m.block i := by
  have hlt : i ≤ m.next ↔ i < m.next := ⟨fun hle => lt_of_le_of_ne hle hi, le_of_lt⟩
  simp [block, made, hi, hlt]

/-- The object of the next number has not been made. -/
theorem Counted.next_gone (hm : Counted ∅ ∅ m) : (m.block m.next).Gone (m.users ∅ m.next) := by
  refine (hm.rest m.next (Finset.notMem_empty _)).resolve_left fun hkept => ?_
  exact lt_irrefl _ (hm.made m.next hkept.object)

theorem refersTo_made (hm : Counted ∅ ∅ m) (h width : ℕ) :
    (m.made h width).refersTo = Function.update m.refersTo (.handle h) (some m.next) := by
  funext q
  cases q with
  | handle h' =>
    show Option.bind (if h' = h then _ else _) _ = _
    by_cases hq : h' = h
    · rw [if_pos hq, hq, Function.update_self]
      rfl
    · have hne : Place.handle h' ≠ .handle h := fun heq => hq (Place.handle.inj heq)
      rw [if_neg hq, Function.update_of_ne hne]
      rfl
  | field obj k =>
    have hne : Place.field obj k ≠ .handle h := nofun
    rw [Function.update_of_ne hne]
    show Option.bind (if obj = m.next ∧ k < width then _ else _) _ = _
    by_cases hq : obj = m.next ∧ k < width
    · rw [if_pos hq, refersTo_of_none (hm.handles_none (i := obj) rfl ?_)]
      · rfl
      · rw [hq.1]
        exact hm.next_gone.object
    · rw [if_neg hq]
      rfl

/-- **A new object, and its first handle.** -/
theorem Counted.made_spec (hm : Counted ∅ ∅ m) (hh : m.handles (.handle h) = none)
    (width : ℕ) : Counted ∅ ∅ (m.made h width) := by
  have hrefers := refersTo_made hm h width
  refine ⟨fun q c hc => ?_, fun i k => ?_, fun i hi => ?_,
    fun i hi => absurd hi (Finset.notMem_empty i), fun i _ => ?_⟩
  · cases q with
    | handle h' =>
      change (if h' = h then some _ else _) = some c at hc
      split at hc
      · cases hc
        exact Or.inr ⟨m.next, rfl⟩
      · exact hm.fits _ c hc
    | field obj k =>
      change (if obj = m.next ∧ k < width then some _ else _) = some c at hc
      split at hc
      · cases hc
        exact Or.inl ⟨rfl, rfl⟩
      · exact hm.fits _ c hc
  · show (if i = m.next ∧ k < width then some _ else _) ≠ none
      ↔ ∃ w, Function.update m.objects m.next _ i = some w ∧ k < w
    by_cases hi : i = m.next
    · subst hi
      rw [Function.update_self]
      by_cases hk : k < width
      · rw [if_pos ⟨rfl, hk⟩]
        exact iff_of_true (Option.some_ne_none _) ⟨width, rfl, hk⟩
      · rw [if_neg fun hand => hk hand.2, hm.handles_none (i := m.next) rfl hm.next_gone.object]
        refine iff_of_false (fun hnone => hnone rfl) ?_
        rintro ⟨w, hw, hkw⟩
        cases hw
        exact hk hkw
    · rw [if_neg fun hand => hi hand.1, Function.update_of_ne hi]
      exact hm.fields i k
  · change Function.update m.objects m.next _ i ≠ none at hi
    by_cases hin : i = m.next
    · rw [hin]
      exact Nat.lt_succ_self m.next
    · rw [Function.update_of_ne hin] at hi
      exact Nat.lt_succ_of_lt (hm.made i hi)
  · by_cases hi : i = m.next
    · subst hi
      left
      have hgone := hm.next_gone
      have hfreed := hgone.freed
      have hnot : (m.block m.next).made = false := decide_eq_false (lt_irrefl m.next)
      rw [hnot, if_neg Bool.false_ne_true] at hfreed
      rw [users_update_add hrefers (Set.notMem_empty _), hgone.unused]
      refine ⟨?_, ⟨1, Function.update_self .., ?_, Nat.one_pos⟩, Function.update_self ..,
        hgone.balanced, hfreed.object, hfreed.counter, hfreed.mutex⟩
      · show Function.update m.objects m.next _ m.next ≠ none
        rw [Function.update_self]
        exact Option.some_ne_none width
      · rw [insert_empty_eq, Set.encard_singleton]
        rfl
    · rw [block_made_of_ne hi, users_update_of_ne hrefers ?_ ?_]
      · exact hm.rest i (Finset.notMem_empty i)
      · rw [refersTo_of_none hh]
        exact (Option.some_ne_none i).symm
      · exact fun heq => hi (Option.some.inj heq).symm

/-! ## The operations -/

/-- A handle which is there cannot be at a place that is free. -/
theorem ne_of_handles (hp : m.handles p = none) (hq : m.handles q = some c) : p ≠ q := by
  rintro rfl
  rw [hp] at hq
  cases hq

/-- **The copy constructor.** -/
theorem copyConstruct_spec (hm : Counted ∅ ∅ m) (hh : m.handles (.handle h) = none)
    (hq : m.handles q = some c) : ∃ m', m.copyConstruct (.handle h) q = .ok m'
      ∧ Assigned (Function.update m.view (.handle h) (some c.rawPtr)) m m' := by
  have hne := ne_of_handles hh hq
  have hq' : (m.write (.handle h) {}).handles q = some c :=
    (Function.update_of_ne hne.symm ..).trans hq
  have hview : (m.write (.handle h) {}).view = Function.update m.view (.handle h) (some none) :=
    view_update (x := some {}) rfl
  rw [copyConstruct, read_of_some hq', ok_bind]
  cases hraw : c.rawPtr with
  | none =>
    rw [if_pos (Or.inl rfl)]
    exact ⟨_, rfl, hm.construct hh, hview, rfl, rfl⟩
  | some i =>
    obtain ⟨m', _, hm', ha⟩ := copy_spec (hm.construct hh) (handles_write ..)
      (refersTo_of_some (handles_write ..)) ((refersTo_of_some hq').trans hraw)
    rw [if_neg (not_or.mpr ⟨Option.some_ne_none i, hne⟩), read_of_some (handles_write ..), ok_bind,
      if_neg (not_not.mpr rfl)]
    refine ⟨m', hm', ha.counted, ?_, ha.objects, ha.next⟩
    rw [ha.view, hview, Function.update_idem]

/-- **The move constructor.** -/
theorem moveConstruct_spec (hm : Counted ∅ ∅ m) (hfew : Few ∅ m) (hh : m.handles (.handle h) = none)
    (hq : m.handles q = some c) : ∃ m', m.moveConstruct (.handle h) q = .ok m'
      ∧ Assigned (Function.update (Function.update m.view (.handle h) (some c.rawPtr)) q
        (some none)) m m' := by
  have hne := ne_of_handles hh hq
  have hq' : (m.write (.handle h) {}).handles q = some c :=
    (Function.update_of_ne hne.symm ..).trans hq
  have hview : (m.write (.handle h) {}).view = Function.update m.view (.handle h) (some none) :=
    view_update (x := some {}) rfl
  cases hraw : c.rawPtr with
  | none =>
    refine ⟨_, moveAssign_skip hq' (Or.inl hraw), hm.construct hh, ?_, rfl, rfl⟩
    have hqv : Function.update m.view (.handle h) (some none) q = some none := by
      rw [Function.update_of_ne hne.symm, view, hq, Option.map_some, hraw]
    rw [hview]
    exact (Function.update_eq_self_iff.mpr hqv.symm).symm
  | some i =>
    have hrefers : (m.write (.handle h) {}).refersTo q = some i :=
      (refersTo_of_some hq').trans hraw
    obtain ⟨m', hm', ha⟩ := move_spec (hm.construct hh) (hfew.construct hh) (handles_write ..)
      (refersTo_of_some (handles_write ..)) hrefers
    have hnothing : (m.write (.handle h) {}).giveUpRaw
        (decreace (m.write (.handle h) {}).fuel) (.handle h) = .ok (m.write (.handle h) {}) := by
      rw [giveUpRaw, read_of_some (handles_write ..), ok_bind, if_pos rfl]
      rfl
    refine ⟨m', (moveAssign_eq hrefers hne hnothing).trans hm', ha.counted, ?_, ha.objects,
      ha.next⟩
    rw [ha.view, hview, Function.update_idem]

/-- **The copy assignment**, of what is not null and not the left side: it
fails if the right side is gone once the left side has given up its
object. -/
theorem copyAssign_spec (hm : Counted ∅ ∅ m) (hfew : Few ∅ m) (hR : Ordered R m)
    (hp : m.handles p = some c) (hq : m.refersTo q = some i) (hne : p ≠ q) : ∃ m₁, Dropped p m m₁
      ∧ (m₁.handles q = none → m.copyAssign p q = .error .freed)
      ∧ (m₁.handles q ≠ none → ∃ m', m.copyAssign p q = .ok m'
        ∧ Assigned (Function.update m₁.view p (some (some i))) m₁ m') := by
  obtain ⟨m₁, hm₁, hd⟩ := giveUpRaw_spec hm hfew hR hp
  refine ⟨m₁, hd, fun hnone => ?_, fun hthere => ?_⟩
  · rw [copyAssign_eq hq hne hm₁, share_of_none hnone]
    rfl
  · obtain ⟨d, hd'⟩ := hd.there
    have hq₁ : m₁.refersTo q = some i := by
      rw [refersTo, hd.handles_eq hne.symm hthere]
      exact hq
    obtain ⟨m', hm', _, ha⟩ := copy_spec hd.counted hd' hd.null hq₁
    exact ⟨m', (copyAssign_eq hq hne hm₁).trans hm', ha⟩

/-- **The move assignment**, likewise. -/
theorem moveAssign_spec (hm : Counted ∅ ∅ m) (hfew : Few ∅ m) (hR : Ordered R m)
    (hp : m.handles p = some c) (hq : m.refersTo q = some i) (hne : p ≠ q) : ∃ m₁, Dropped p m m₁
      ∧ (m₁.handles q = none → m.moveAssign p q = .error .freed)
      ∧ (m₁.handles q ≠ none → ∃ m', m.moveAssign p q = .ok m'
        ∧ Assigned (Function.update (Function.update m₁.view p (some (some i))) q (some none))
          m₁ m') := by
  obtain ⟨m₁, hm₁, hd⟩ := giveUpRaw_spec hm hfew hR hp
  refine ⟨m₁, hd, fun hnone => ?_, fun hthere => ?_⟩
  · rw [moveAssign_eq hq hne hm₁, share_of_none hnone]
    rfl
  · obtain ⟨d, hd'⟩ := hd.there
    have hq₁ : m₁.refersTo q = some i := by
      rw [refersTo, hd.handles_eq hne.symm hthere]
      exact hq
    obtain ⟨m', hm', ha⟩ := move_spec hd.counted (hfew.dropped hd) hd' hd.null hq₁
    exact ⟨m', (moveAssign_eq hq hne hm₁).trans hm', ha⟩

/-- An operation uses the handles that are there, and constructs others where
none is. -/
def Enabled (m : PtrMemory) : PtrOp → Prop
  | .makeShmShared h _ | .construct h => m.handles (.handle h) = none
  | .copyConstruct h rhs | .moveConstruct h rhs =>
    m.handles (.handle h) = none ∧ m.handles rhs ≠ none
  | .copyAssign lhs rhs | .moveAssign lhs rhs => m.handles lhs ≠ none ∧ m.handles rhs ≠ none
  | .reset p => m.handles p ≠ none
  | .destroy h => m.handles (.handle h) ≠ none

instance (m : PtrMemory) : (l : PtrOp) → Decidable (m.Enabled l)
  | .makeShmShared h _ | .construct h =>
    inferInstanceAs (Decidable (m.handles (.handle h) = none))
  | .copyConstruct h rhs | .moveConstruct h rhs =>
    inferInstanceAs (Decidable (m.handles (.handle h) = none ∧ m.handles rhs ≠ none))
  | .copyAssign lhs rhs | .moveAssign lhs rhs =>
    inferInstanceAs (Decidable (m.handles lhs ≠ none ∧ m.handles rhs ≠ none))
  | .reset p => inferInstanceAs (Decidable (m.handles p ≠ none))
  | .destroy h => inferInstanceAs (Decidable (m.handles (.handle h) ≠ none))

end PtrMemory

/-! ## Handles outside the managed objects -/

/-- All handles of the operation are outside the managed objects. -/
def PtrOp.Outside : PtrOp → Prop
  | .makeShmShared .. | .construct _ | .destroy _ => True
  | .copyConstruct _ rhs | .moveConstruct _ rhs => rhs.container = none
  | .copyAssign lhs rhs | .moveAssign lhs rhs => lhs.container = none ∧ rhs.container = none
  | .reset p => p.container = none

instance : (l : PtrOp) → Decidable l.Outside
  | .makeShmShared .. | .construct _ | .destroy _ => inferInstanceAs (Decidable True)
  | .copyConstruct _ rhs | .moveConstruct _ rhs =>
    inferInstanceAs (Decidable (rhs.container = none))
  | .copyAssign lhs rhs | .moveAssign lhs rhs =>
    inferInstanceAs (Decidable (lhs.container = none ∧ rhs.container = none))
  | .reset p => inferInstanceAs (Decidable (p.container = none))

/-- **Operations on handles outside the managed objects**, until there is a
fault. -/
def outsidePtrSystem : TransitionSystem (Except PtrFault PtrMemory) PtrOp where
  init r := r = .ok .empty
  step r l r' := l.Outside ∧ ∃ m, r = .ok m ∧ m.Enabled l ∧ r' = m.run l

namespace PtrMemory

/-- The handles outside which point to an object. -/
def outside (m : PtrMemory) (i : ℕ) : Set ℕ := {h | m.refersTo (.handle h) = some i}

/-- **The account of an object which has been made**: as long as handles
point to it, it is there, its counter is their number, and its mutex is not
held; after that, the object, the counter and the mutex have been freed
once. The mutex has been unlocked as often as it has been locked. -/
structure Accounted (m : PtrMemory) (i : ℕ) : Prop where
  balanced : m.events.count (.locked i) = m.events.count (.unlocked i)
  used : (m.outside i).Nonempty → m.objects i ≠ none ∧ m.mutexes i = some false
    ∧ (∃ n : ℕ, m.counters i = some (n : ℤ) ∧ (m.outside i).encard = n) ∧ (m.block i).Freed 0
  unused : m.outside i = ∅ → m.objects i = none ∧ m.mutexes i = none ∧ m.counters i = none
    ∧ (m.block i).Freed 1

variable {m m' : PtrMemory} {p : Place} {i : ℕ}

/-- The handles in the objects are null. -/
def FieldsNull (m : PtrMemory) : Prop := ∀ p, p.container ≠ none → m.refersTo p = none

theorem refersTo_eq_view (m : PtrMemory) (p : Place) : m.refersTo p = (m.view p).join := by
  rw [refersTo, view]
  cases m.handles p <;> rfl

theorem FieldsNull.ordered (h : m.FieldsNull) : Ordered (fun _ _ => False) m := by
  refine ⟨fun _ => id, fun _ _ _ hij _ => hij, fun i k j hj => ?_⟩
  rw [h (.field i k) (Option.some_ne_none i)] at hj
  cases hj

theorem FieldsNull.dropped (h : m.FieldsNull) (hd : Dropped p m m') : m'.FieldsNull := by
  intro q hq
  by_contra hsome
  obtain ⟨j, hj⟩ := Option.ne_none_iff_exists'.mp hsome
  have hold : m.refersTo q = some j :=
    hd.frame.refersTo_of hd.counted (fun r hr => hr ▸ hd.null) hj
  rw [h q hq] at hold
  cases hold

theorem FieldsNull.of_view (h : m.FieldsNull)
    (hview : ∀ q, q.container ≠ none → m'.view q = m.view q) : m'.FieldsNull := by
  intro q hq
  rw [refersTo_eq_view, hview q hq, ← refersTo_eq_view]
  exact h q hq

/-- Storing a handle outside leaves those in the objects. -/
theorem update_of_inside {α : Type*} (f : Place → α) {q : Place} (hp : p.container = none)
    (hq : q.container ≠ none) (x : α) : Function.update f p x q = f q := by
  refine Function.update_of_ne ?_ x f
  rintro rfl
  exact hq hp

/-- What a handle outside has been made to point to. -/
theorem Dropped.view_eq {q : Place} (hd : Dropped p m m') (hq : q.container = none) :
    m'.view q = Function.update m.view p (some none) q := by
  by_cases hne : q = p
  · obtain ⟨c, hc⟩ := hd.there
    rw [hne, Function.update_self, view, hc, Option.map_some, ← refersTo_of_some hc, hd.null]
  · cases q with
    | field => cases hq
    | handle h =>
      rw [Function.update_of_ne hne, view, hd.handle_eq hne]
      rfl

/-- What the handles outside point to after an operation. -/
def stored (m : PtrMemory) : PtrOp → Place → Option (Option ℕ)
  | .makeShmShared h _ => Function.update m.view (.handle h) (some (some m.next))
  | .construct h => Function.update m.view (.handle h) (some none)
  | .copyConstruct h rhs => Function.update m.view (.handle h) (some (m.refersTo rhs))
  | .moveConstruct h rhs =>
    Function.update (Function.update m.view (.handle h) (some (m.refersTo rhs))) rhs (some none)
  | .copyAssign lhs rhs =>
    if m.refersTo rhs = none ∨ lhs = rhs then m.view
    else Function.update m.view lhs (some (m.refersTo rhs))
  | .moveAssign lhs rhs =>
    if m.refersTo rhs = none ∨ lhs = rhs then m.view
    else Function.update (Function.update m.view lhs (some (m.refersTo rhs))) rhs (some none)
  | .reset p => Function.update m.view p (some none)
  | .destroy h => Function.update m.view (.handle h) none

/-- What the left side is given up for replaces that it is null. -/
theorem Dropped.update_view {q : Place} (hd : Dropped p m m') (x : Option (Option ℕ))
    (hq : q.container = none) : Function.update m'.view p x q = Function.update m.view p x q := by
  by_cases hne : q = p
  · rw [hne, Function.update_self, Function.update_self]
  · rw [Function.update_of_ne hne, Function.update_of_ne hne, hd.view_eq hq,
      Function.update_of_ne hne]

/-- The right side of an assignment is outside, so it is still there. -/
theorem Dropped.handles_ne_none {q : Place} (hd : Dropped p m m') (hne : p ≠ q)
    (hq : q.container = none) (hthere : m.handles q ≠ none) : m'.handles q ≠ none := by
  cases q with
  | field => cases hq
  | handle h =>
    rw [hd.handle_eq hne.symm]
    exact hthere

/-- **What an operation on handles outside has done**: the counters are right, the handles
in the objects are null, and those outside are what it has stored. -/
structure Stored (m : PtrMemory) (l : PtrOp) (m' : PtrMemory) : Prop where
  counted : Counted ∅ ∅ m'
  fieldsNull : m'.FieldsNull
  view : ∀ q, q.container = none → m'.view q = m.stored l q

theorem stored_makeShmShared (hm : Counted ∅ ∅ m) (hnull : m.FieldsNull) {h : ℕ}
    (hfree : m.handles (.handle h) = none) (width : ℕ) :
    Stored m (.makeShmShared h width) (m.made h width) := by
  refine ⟨hm.made_spec hfree width, fun q hq => ?_, fun q hq => ?_⟩
  · rw [refersTo_made hm h width, update_of_inside _ rfl hq]
    exact hnull q hq
  · cases q with
    | field => cases hq
    | handle h' =>
      show Option.map (·.rawPtr) (if h' = h then some (.whole m.next) else m.handles (.handle h'))
        = Function.update m.view (.handle h) (some (some m.next)) (.handle h')
      by_cases hne : h' = h
      · rw [if_pos hne, hne, Function.update_self]
        rfl
      · rw [if_neg hne, Function.update_of_ne fun heq => hne (Place.handle.inj heq)]
        rfl

theorem exists_stored_copyAssign (hm : Counted ∅ ∅ m) (hfew : Few ∅ m) (hnull : m.FieldsNull)
    {lhs rhs : Place} (hout : lhs.container = none ∧ rhs.container = none)
    (hl : m.handles lhs ≠ none ∧ m.handles rhs ≠ none) :
    ∃ m', m.copyAssign lhs rhs = .ok m' ∧ Stored m (.copyAssign lhs rhs) m' := by
  obtain ⟨c, hc⟩ := Option.ne_none_iff_exists'.mp hl.1
  obtain ⟨d, hd⟩ := Option.ne_none_iff_exists'.mp hl.2
  have hstored : m.stored (.copyAssign lhs rhs) = if d.rawPtr = none ∨ lhs = rhs then m.view
      else Function.update m.view lhs (some d.rawPtr) := by
    rw [← refersTo_of_some hd]
    rfl
  by_cases hskip : d.rawPtr = none ∨ lhs = rhs
  · rw [if_pos hskip] at hstored
    exact ⟨m, copyAssign_skip hd hskip, hm, hnull, fun _ _ => by rw [hstored]⟩
  · rw [if_neg hskip] at hstored
    obtain ⟨hraw, hne⟩ := not_or.mp hskip
    obtain ⟨i, hi⟩ := Option.ne_none_iff_exists'.mp hraw
    obtain ⟨m₁, hdrop, -, hok⟩ :=
      copyAssign_spec hm hfew hnull.ordered hc ((refersTo_of_some hd).trans hi) hne
    obtain ⟨m', hm', ha⟩ := hok (hdrop.handles_ne_none hne hout.2 hl.2)
    refine ⟨m', hm', ha.counted, (hnull.dropped hdrop).of_view fun q hq => ?_, fun q hq => ?_⟩
    · rw [ha.view, update_of_inside _ hout.1 hq]
    · rw [hstored, ha.view, hi]
      exact hdrop.update_view _ hq

theorem exists_stored_moveAssign (hm : Counted ∅ ∅ m) (hfew : Few ∅ m) (hnull : m.FieldsNull)
    {lhs rhs : Place} (hout : lhs.container = none ∧ rhs.container = none)
    (hl : m.handles lhs ≠ none ∧ m.handles rhs ≠ none) :
    ∃ m', m.moveAssign lhs rhs = .ok m' ∧ Stored m (.moveAssign lhs rhs) m' := by
  obtain ⟨c, hc⟩ := Option.ne_none_iff_exists'.mp hl.1
  obtain ⟨d, hd⟩ := Option.ne_none_iff_exists'.mp hl.2
  have hstored : m.stored (.moveAssign lhs rhs) = if d.rawPtr = none ∨ lhs = rhs then m.view
      else Function.update (Function.update m.view lhs (some d.rawPtr)) rhs (some none) := by
    rw [← refersTo_of_some hd]
    rfl
  by_cases hskip : d.rawPtr = none ∨ lhs = rhs
  · rw [if_pos hskip] at hstored
    exact ⟨m, moveAssign_skip hd hskip, hm, hnull, fun _ _ => by rw [hstored]⟩
  · rw [if_neg hskip] at hstored
    obtain ⟨hraw, hne⟩ := not_or.mp hskip
    obtain ⟨i, hi⟩ := Option.ne_none_iff_exists'.mp hraw
    obtain ⟨m₁, hdrop, -, hok⟩ :=
      moveAssign_spec hm hfew hnull.ordered hc ((refersTo_of_some hd).trans hi) hne
    obtain ⟨m', hm', ha⟩ := hok (hdrop.handles_ne_none hne hout.2 hl.2)
    refine ⟨m', hm', ha.counted, (hnull.dropped hdrop).of_view fun q hq => ?_, fun q hq => ?_⟩
    · rw [ha.view, update_of_inside _ hout.2 hq, update_of_inside _ hout.1 hq]
    · rw [hstored, ha.view, hi]
      by_cases hqr : q = rhs
      · rw [hqr, Function.update_self, Function.update_self]
      · rw [Function.update_of_ne hqr, Function.update_of_ne hqr]
        exact hdrop.update_view _ hq

/-- **An operation on handles outside is done.** -/
theorem run_outside (hm : Counted ∅ ∅ m) (hfew : Few ∅ m) (hnull : m.FieldsNull) {l : PtrOp}
    (hout : l.Outside) (hl : m.Enabled l) : ∃ m', m.run l = .ok m' ∧ Stored m l m' := by
  cases l with
  | makeShmShared h width =>
    exact ⟨_, makeShmShared_eq m h width, stored_makeShmShared hm hnull hl width⟩
  | construct h =>
    have hview : (m.write (.handle h) {}).view = Function.update m.view (.handle h) (some none) :=
      view_update (x := some {}) rfl
    refine ⟨_, rfl, hm.construct hl, hnull.of_view fun q hq => ?_, fun q _ => ?_⟩
    · rw [hview, update_of_inside _ rfl hq]
    · rw [hview]
      rfl
  | copyConstruct h rhs =>
    obtain ⟨c, hc⟩ := Option.ne_none_iff_exists'.mp hl.2
    obtain ⟨m', hm', ha⟩ := copyConstruct_spec hm hl.1 hc
    refine ⟨m', hm', ha.counted, hnull.of_view fun q hq => ?_, fun q _ => ?_⟩
    · rw [ha.view, update_of_inside _ rfl hq]
    · rw [ha.view, ← refersTo_of_some hc]
      rfl
  | moveConstruct h rhs =>
    obtain ⟨c, hc⟩ := Option.ne_none_iff_exists'.mp hl.2
    obtain ⟨m', hm', ha⟩ := moveConstruct_spec hm hfew hl.1 hc
    refine ⟨m', hm', ha.counted, hnull.of_view fun q hq => ?_, fun q _ => ?_⟩
    · rw [ha.view, update_of_inside _ hout hq, update_of_inside _ rfl hq]
    · rw [ha.view, ← refersTo_of_some hc]
      rfl
  | copyAssign lhs rhs => exact exists_stored_copyAssign hm hfew hnull hout hl
  | moveAssign lhs rhs => exact exists_stored_moveAssign hm hfew hnull hout hl
  | reset p =>
    obtain ⟨c, hc⟩ := Option.ne_none_iff_exists'.mp hl
    obtain ⟨m', hm', hd⟩ := reset_spec hm hfew hnull.ordered hc
    exact ⟨m', hm', hd.counted, hnull.dropped hd, fun _ hq => hd.view_eq hq⟩
  | destroy h =>
    obtain ⟨c, hc⟩ := Option.ne_none_iff_exists'.mp hl
    obtain ⟨m₁, hd, hm', hcounted⟩ := destroy_spec hm hfew hnull.ordered hc
    refine ⟨_, hm', hcounted, (hnull.dropped hd).of_view fun q hq => ?_, fun q hq => ?_⟩
    · rw [view_update (x := none) rfl, update_of_inside _ rfl hq]
    · rw [view_update (m := m₁) (x := none) rfl]
      exact hd.update_view _ hq

/-! ## How many handles there are -/

/-- The handles outside which point to an object. -/
def pointing (view : Place → Option (Option ℕ)) (i : ℕ) : Set ℕ :=
  {h | (view (.handle h)).join = some i}

theorem outside_eq (m : PtrMemory) (i : ℕ) : m.outside i = pointing m.view i := by
  ext h
  show m.refersTo (.handle h) = some i ↔ _
  rw [refersTo_eq_view]
  rfl

theorem pointing_update {view : Place → Option (Option ℕ)} {x : Option (Option ℕ)} (h : ℕ)
    (hx : x.join = some i) :
    pointing (Function.update view (.handle h) x) i = insert h (pointing view i) := by
  ext k
  show (Function.update view (.handle h) x (.handle k)).join = some i ↔ k = h ∨ _
  by_cases hk : k = h
  · rw [hk, Function.update_self]
    exact iff_of_true hx (Or.inl rfl)
  · rw [Function.update_of_ne fun heq => hk (Place.handle.inj heq), or_iff_right hk]
    rfl

theorem pointing_update_of_ne {view : Place → Option (Option ℕ)} {x : Option (Option ℕ)} (h : ℕ)
    (hx : x.join ≠ some i) :
    pointing (Function.update view (.handle h) x) i = pointing view i \ {h} := by
  ext k
  show (Function.update view (.handle h) x (.handle k)).join = some i ↔ _ ∧ k ≠ h
  by_cases hk : k = h
  · rw [hk, Function.update_self]
    exact iff_of_false hx fun hand => hand.2 rfl
  · rw [Function.update_of_ne fun heq => hk (Place.handle.inj heq), and_iff_left hk]
    rfl

theorem outside_of_view {f : Place → Option (Option ℕ)}
    (h : ∀ q, q.container = none → m.view q = f q) (i : ℕ) : m.outside i = pointing f i := by
  rw [outside_eq]
  ext k
  show (m.view (.handle k)).join = some i ↔ (f (.handle k)).join = some i
  rw [h (.handle k) rfl]

/-- **After the operation one more handle points to the object.** -/
def Shares (m : PtrMemory) : PtrOp → ℕ → Prop
  | .copyConstruct _ rhs, i => m.refersTo rhs = some i
  | .copyAssign lhs rhs, i => m.refersTo rhs = some i ∧ m.refersTo lhs ≠ some i
  | _, _ => False

/-- It is one that did not. -/
theorem pointing_stored (hl : m.Enabled l) (hout : l.Outside) (hi : m.Shares l i) :
    (pointing (m.stored l) i).encard = (m.outside i).encard + 1 := by
  have hinsert : ∀ h, h ∉ pointing m.view i →
      (pointing (Function.update m.view (.handle h) (some (some i))) i).encard
        = (m.outside i).encard + 1 := by
    intro h hh
    rw [pointing_update h rfl, Set.encard_insert_of_notMem hh, outside_eq]
  cases l with
  | copyConstruct h rhs =>
    have hrhs : m.refersTo rhs = some i := hi
    have hnot : h ∉ pointing m.view i := by
      rw [← outside_eq]
      intro hh
      have hh : m.refersTo (.handle h) = some i := hh
      rw [refersTo_of_none hl.1] at hh
      cases hh
    show (pointing (Function.update m.view (.handle h) (some (m.refersTo rhs))) i).encard = _
    rw [hrhs]
    exact hinsert h hnot
  | copyAssign lhs rhs =>
    obtain ⟨hrhs, hlhs⟩ : m.refersTo rhs = some i ∧ m.refersTo lhs ≠ some i := hi
    cases lhs with
    | field => cases hout.1
    | handle h =>
      have hnot : h ∉ pointing m.view i := by
        rw [← outside_eq]
        exact hlhs
      have hskip : ¬ (m.refersTo rhs = none ∨ .handle h = rhs) := by
        rintro (hnone | rfl)
        · cases hrhs.symm.trans hnone
        · exact hlhs hrhs
      have hstored : m.stored (.copyAssign (.handle h) rhs)
          = Function.update m.view (.handle h) (some (m.refersTo rhs)) := if_neg hskip
      rw [hstored, hrhs]
      exact hinsert h hnot
  | makeShmShared | construct | moveConstruct | moveAssign | reset | destroy => cases hi

/-- A handle is moved from one that pointed to the same. -/
theorem pointing_move {h k : ℕ} {x : Option ℕ} (hk : m.refersTo (.handle k) = x) :
    (pointing (Function.update (Function.update m.view (.handle h) (some x)) (.handle k)
      (some none)) i).encard ≤ (m.outside i).encard := by
  rw [pointing_update_of_ne (x := some none) k (Option.some_ne_none i).symm]
  by_cases hx : x = some i
  · rw [pointing_update h (x := some x) hx, ← outside_eq]
    have hmem : k ∈ m.outside i := hk.trans hx
    refine (Set.encard_le_encard Set.insert_sdiff_subset).trans ?_
    refine (Set.encard_insert_le _ _).trans_eq ?_
    exact Set.encard_sdiff_singleton_add_one hmem
  · rw [pointing_update_of_ne h (x := some x) hx, ← outside_eq]
    exact Set.encard_le_encard (Set.sdiff_subset.trans Set.sdiff_subset)

/-- Else there are not more, but for the first one. -/
theorem pointing_stored_le (hm : Counted ∅ ∅ m) (hl : m.Enabled l) (hout : l.Outside)
    (hi : ¬ m.Shares l i) : (pointing (m.stored l) i).encard ≤ max 1 (m.outside i).encard := by
  have hstay : (pointing m.view i).encard ≤ max 1 (m.outside i).encard :=
    (congrArg Set.encard (outside_eq m i)).symm.trans_le (le_max_right 1 _)
  -- a handle that does not come to point to the object
  have hless : ∀ h x, Option.join x ≠ some i →
      (pointing (Function.update m.view (.handle h) x) i).encard ≤ max 1 (m.outside i).encard := by
    intro h x hx
    rw [pointing_update_of_ne h hx]
    exact (Set.encard_le_encard Set.sdiff_subset).trans hstay
  cases l with
  | makeShmShared h width =>
    by_cases hnew : m.next = i
    · show (pointing (Function.update m.view (.handle h) (some (some m.next))) i).encard ≤ _
      have hempty : pointing m.view i = ∅ := by
        rw [← outside_eq, ← hnew, Set.eq_empty_iff_forall_notMem]
        intro k hk
        have hmem : Place.handle k ∈ m.users ∅ m.next := ⟨Set.notMem_empty _, hk⟩
        rw [hm.next_gone.unused] at hmem
        exact hmem
      rw [pointing_update h (x := some (some _)) (congrArg some hnew), hempty, insert_empty_eq,
        Set.encard_singleton]
      exact le_max_left _ _
    · exact hless h (some (some m.next)) fun heq => hnew (Option.some.inj heq)
  | construct h => exact hless h (some none) (Option.some_ne_none i).symm
  | destroy h => exact hless h none (Option.some_ne_none i).symm
  | reset p =>
    cases p with
    | field => cases hout
    | handle h => exact hless h (some none) (Option.some_ne_none i).symm
  | copyConstruct h rhs => exact hless h (some (m.refersTo rhs)) hi
  | moveConstruct h rhs =>
    cases rhs with
    | field => cases hout
    | handle k => exact (pointing_move rfl).trans (le_max_right 1 _)
  | copyAssign lhs rhs =>
    by_cases hskip : m.refersTo rhs = none ∨ lhs = rhs
    · have hstored : m.stored (.copyAssign lhs rhs) = m.view := if_pos hskip
      rw [hstored]
      exact hstay
    · have hstored : m.stored (.copyAssign lhs rhs)
          = Function.update m.view lhs (some (m.refersTo rhs)) := if_neg hskip
      rw [hstored]
      cases lhs with
      | field => cases hout.1
      | handle h =>
        by_cases hrhs : m.refersTo rhs = some i
        · -- it pointed there before
          have hlhs : m.refersTo (.handle h) = some i := not_not.mp fun hne => hi ⟨hrhs, hne⟩
          have hmem : h ∈ pointing m.view i := outside_eq m i ▸ hlhs
          rw [pointing_update h (x := some (m.refersTo rhs)) hrhs, Set.insert_eq_of_mem hmem]
          exact hstay
        · exact hless h (some (m.refersTo rhs)) hrhs
  | moveAssign lhs rhs =>
    by_cases hskip : m.refersTo rhs = none ∨ lhs = rhs
    · have hstored : m.stored (.moveAssign lhs rhs) = m.view := if_pos hskip
      rw [hstored]
      exact hstay
    · have hstored : m.stored (.moveAssign lhs rhs) = Function.update
          (Function.update m.view lhs (some (m.refersTo rhs))) rhs (some none) := if_neg hskip
      rw [hstored]
      cases lhs with
      | field => cases hout.1
      | handle h =>
        cases rhs with
        | field => cases hout.2
        | handle k => exact (pointing_move rfl).trans (le_max_right 1 _)

/-- The users of an object are the handles outside which point to it. -/
theorem FieldsNull.users_eq (h : m.FieldsNull) (i : ℕ) :
    m.users ∅ i = Place.handle '' m.outside i := by
  ext p
  cases p with
  | handle k =>
    rw [Function.Injective.mem_set_image fun _ _ => Place.handle.inj]
    exact and_iff_right (Set.notMem_empty _)
  | field obj k =>
    refine iff_of_false (fun hp => ?_) ?_
    · have hsome := hp.2
      rw [h (.field obj k) (Option.some_ne_none obj)] at hsome
      cases hsome
    · rintro ⟨k', _, hk'⟩
      cases hk'

theorem FieldsNull.encard_users (h : m.FieldsNull) (i : ℕ) :
    (m.users ∅ i).encard = (m.outside i).encard := by
  rw [h.users_eq, Function.Injective.encard_image fun _ _ => Place.handle.inj]

/-- The counters are right, so the accounts are, as long as an `int` can
count the handles. -/
theorem Counted.accounted (hm : Counted ∅ ∅ m) (hnull : m.FieldsNull) (hi : i < m.next)
    (hlt : (m.outside i).encard < 2 ^ 31) : m.Accounted i := by
  have hmade : (m.block i).made = true := decide_eq_true hi
  rcases hm.rest i (Finset.notMem_empty i) with hkept | hgone
  · obtain ⟨n, hn, hcard, hpos⟩ := hkept.counter
    rw [hnull.encard_users] at hcard
    rw [hcard] at hlt
    have hcount : m.counters i = some (n : ℤ) :=
      hn.trans (congrArg some (wrap_of_lt (by exact_mod_cast hlt)))
    refine ⟨hkept.balanced, fun _ => ⟨hkept.object, hkept.mutex, ⟨n, hcount, hcard⟩, hkept.freed⟩,
      fun hempty => ?_⟩
    rw [hempty, Set.encard_empty] at hcard
    exact absurd (Nat.cast_eq_zero.mp hcard.symm) hpos.ne'
  · have hfreed := hgone.freed
    rw [hmade, if_pos rfl] at hfreed
    have hempty : m.outside i = ∅ := by
      rw [← Set.image_eq_empty, ← hnull.users_eq]
      exact hgone.unused
    refine ⟨hgone.balanced, fun hne => ?_, fun _ => ⟨hgone.object, hgone.mutex, hgone.counter,
      hfreed⟩⟩
    exact absurd hempty hne.ne_empty

/-- **Where all is accounted for, an `int` can count the handles.** -/
theorem Counted.outside_lt (hm : Counted ∅ ∅ m) (hnull : m.FieldsNull)
    (ha : ∀ i, i < m.next → m.Accounted i) (i : ℕ) : (m.outside i).encard < 2 ^ 31 := by
  rcases hm.rest i (Finset.notMem_empty i) with hkept | hgone
  · obtain ⟨n, hn, hcard, hpos⟩ := hkept.counter
    rw [hnull.encard_users] at hcard
    have hne : (m.outside i).Nonempty := by
      rw [← Set.encard_pos, hcard]
      exact_mod_cast hpos
    obtain ⟨-, -, ⟨k, hk, hcard'⟩, -⟩ := (ha i (hm.made i hkept.object)).used hne
    have hkn : k = n := by exact_mod_cast hcard'.symm.trans hcard
    have hwrap : wrap n = n := by
      rw [hkn] at hk
      exact Option.some.inj (hn.symm.trans hk)
    have hlt : n < 2 ^ 31 := by
      unfold wrap at hwrap
      rw [Int.bmod_def] at hwrap
      omega
    rw [hcard]
    exact_mod_cast hlt
  · have hempty : m.outside i = ∅ := by
      rw [← Set.image_eq_empty, ← hnull.users_eq]
      exact hgone.unused
    rw [hempty, Set.encard_empty]
    exact_mod_cast Nat.two_pow_pos 31

theorem FieldsNull.few (hnull : m.FieldsNull) (hlt : ∀ i, (m.outside i).encard < 2 ^ 31) :
    Few ∅ m := by
  intro i
  rw [hnull.encard_users]
  exact (hlt i).trans_le (pow_le_pow_right₀ one_le_two (by decide))

theorem empty_counted : Counted ∅ ∅ empty := by
  refine ⟨nofun, fun i k => iff_of_false (fun h => h rfl) nofun, fun i h => absurd rfl h, nofun,
    fun i _ => Or.inr ⟨rfl, rfl, ?_, rfl, rfl, rfl, rfl, rfl⟩⟩
  ext p
  exact iff_of_false nofun (Set.notMem_empty p)

end PtrMemory

/-- **Every object that has been made is accounted for**, and there is no
fault. -/
def AllAccounted (r : Except PtrFault PtrMemory) : Prop :=
  ∃ m, r = .ok m ∧ ∀ i, i < m.next → m.Accounted i

/-- **The counter has room**: with one more handle, there are not more than
an `int` can count. -/
def HasRoom (r : Except PtrFault PtrMemory) (l : PtrOp) : Prop :=
  ∀ m, r = .ok m → ∀ i, m.Shares l i → (m.outside i).encard + 1 < (2 ^ 31 : ℕ)

/-- **Every object is freed once, with its last handle**, as long as there
are fewer than `2 ^ 31` handles to it. Whatever the operations on handles
outside the managed objects, there is no fault: no freed block is accessed,
no mutex is destroyed while it is held, locked twice or unlocked twice; and
after each operation every object that has been made is accounted for; if
and only if no object gets more handles than its counter can count. -/
theorem sharedPtr_accounted_iff {tr : List (Except PtrFault PtrMemory × PtrOp)}
    {r : Except PtrFault PtrMemory} (hr : outsidePtrSystem.Run tr r) :
    TransitionSystem.Throughout AllAccounted tr r ↔ TransitionSystem.Met HasRoom tr := by
  refine hr.forall_iff
    (J := fun r => ∀ m, r = .ok m → PtrMemory.Counted ∅ ∅ m ∧ m.FieldsNull) ?_ ?_ ?_
  · rintro r rfl
    refine ⟨⟨.empty, rfl, nofun⟩, ?_⟩
    rintro m ⟨⟩
    exact ⟨PtrMemory.empty_counted, fun _ _ => rfl⟩
  · rintro _ l _ ⟨m, rfl, ha⟩ hJ ⟨hout, m₁, hm₁, hl, rfl⟩ hroom
    cases hm₁
    obtain ⟨hm, hnull⟩ := hJ m rfl
    have hlt := hm.outside_lt hnull ha
    obtain ⟨m', hm', hcounted, hnull', hview⟩ :=
      PtrMemory.run_outside hm (hnull.few hlt) hnull hout hl
    have hlt' : ∀ i, (m'.outside i).encard < 2 ^ 31 := by
      intro i
      rw [PtrMemory.outside_of_view hview]
      by_cases hi : m.Shares l i
      · rw [PtrMemory.pointing_stored hl hout hi]
        exact hroom m rfl i hi
      · refine (PtrMemory.pointing_stored_le hm hl hout hi).trans_lt (max_lt ?_ (hlt i))
        exact_mod_cast Nat.one_lt_two_pow (n := 31) (by decide)
    refine ⟨⟨m', hm', fun i hi => hcounted.accounted hnull' hi (hlt' i)⟩, ?_⟩
    rw [hm']
    rintro _ ⟨⟩
    exact ⟨hcounted, hnull'⟩
  · rintro _ l _ ⟨m, rfl, ha⟩ hJ ⟨hout, m₁, hm₁, hl, rfl⟩ hroom ⟨m', hm', ha'⟩
    cases hm₁
    obtain ⟨hm, hnull⟩ := hJ m rfl
    have hlt := hm.outside_lt hnull ha
    obtain ⟨m'', hm'', hcounted, hnull', hview⟩ :=
      PtrMemory.run_outside hm (hnull.few hlt) hnull hout hl
    cases hm''.symm.trans hm'
    refine hroom fun m₂ hm₂ i hi => ?_
    cases hm₂
    have hcard := PtrMemory.pointing_stored hl hout hi
    rw [← PtrMemory.outside_of_view hview] at hcard
    rw [← hcard]
    exact hcounted.outside_lt hnull' ha' i

open TransitionSystem

/-- Two handles share an object. -/
theorem sharedPtr_accounted_two : ∃ tr m, outsidePtrSystem.Run tr (.ok m)
    ∧ m.counters 0 = some 2 ∧ Throughout AllAccounted tr (.ok m) := by
  have hrun : outsidePtrSystem.Run [(.ok _, .copyConstruct 1 (.handle 0)),
      (.ok .empty, .makeShmShared 0 1)] (.ok _) :=
    .snoc (.snoc (.start rfl) ⟨trivial, _, rfl, rfl, rfl⟩) ⟨rfl, _, rfl, ⟨rfl, nofun⟩, rfl⟩
  refine ⟨_, _, hrun, rfl, (sharedPtr_accounted_iff hrun).mpr ?_⟩
  simp only [met_cons]
  refine ⟨?_, (fun _ _ _ hi => absurd hi id), met_nil _⟩
  rintro _ ⟨⟩ i -
  have hsub : PtrMemory.outside (PtrMemory.empty.made 0 1) i ⊆ {0} := by
    intro h hh
    by_contra hne
    have hnone : (PtrMemory.empty.made 0 1).refersTo (.handle h) = none :=
      PtrMemory.refersTo_of_none (if_neg hne)
    cases hnone.symm.trans hh
  have hcard : (PtrMemory.outside (PtrMemory.empty.made 0 1) i).encard ≤ 1 :=
    (Set.encard_le_encard hsub).trans_eq (Set.encard_singleton 0)
  refine (add_le_add_left hcard 1).trans_lt ?_
  exact_mod_cast (by decide : 1 + 1 < 2 ^ 31)

namespace PtrMemory

/-- An object is made, and its handle is copied `n` times. -/
theorem copies_run (n : ℕ) : ∃ tr m, outsidePtrSystem.Run tr (.ok m)
    ∧ tr.reverse.map Prod.snd = .makeShmShared 0 0 ::
      (List.range n).map (fun k => .copyConstruct (k + 1) (.handle 0))
    ∧ Counted ∅ ∅ m ∧ m.FieldsNull
    ∧ ∀ h, m.view (.handle h) = if h ≤ n then some (some 0) else none := by
  induction n with
  | zero =>
    refine ⟨[(.ok .empty, .makeShmShared 0 0)], empty.made 0 0,
      .snoc (.start rfl) ⟨trivial, _, rfl, rfl, (makeShmShared_eq ..).symm⟩, rfl,
      empty_counted.made_spec rfl 0, fun q hq => ?_, fun h => ?_⟩
    · rw [refersTo_made empty_counted, update_of_inside _ rfl hq]
      rfl
    · show Option.map ShmSharedPtr.rawPtr (if h = 0 then some (ShmSharedPtr.whole 0) else none) = _
      by_cases hh : h = 0
      · rw [if_pos hh, if_pos hh.le]
        rfl
      · rw [if_neg hh, if_neg (mt Nat.le_zero.mp hh)]
        rfl
  | succ n ih =>
    obtain ⟨tr, m, hr, hops, hm, hnull, hview⟩ := ih
    have hfree : m.handles (.handle (n + 1)) = none := by
      have hnone := hview (n + 1)
      rw [if_neg (Nat.not_succ_le_self n)] at hnone
      exact Option.map_eq_none_iff.mp hnone
    obtain ⟨c, hc, hraw⟩ : ∃ c, m.handles (.handle 0) = some c ∧ c.rawPtr = some 0 := by
      have hsome := hview 0
      rw [if_pos (Nat.zero_le n)] at hsome
      exact Option.map_eq_some_iff.mp hsome
    obtain ⟨m', hm', ha⟩ := copyConstruct_spec hm hfree hc
    have hthere : m.handles (.handle 0) ≠ none := by
      rw [hc]
      exact Option.some_ne_none c
    refine ⟨(.ok m, .copyConstruct (n + 1) (.handle 0)) :: tr, m',
      .snoc hr ⟨rfl, m, rfl, ⟨hfree, hthere⟩, hm'.symm⟩, ?_, ha.counted,
      hnull.of_view fun q hq => ?_, fun h => ?_⟩
    · rw [List.reverse_cons, List.map_append, hops, List.range_succ, List.map_append]
      rfl
    · rw [ha.view, update_of_inside _ rfl hq]
    · rw [ha.view, hraw]
      by_cases hh : h = n + 1
      · rw [hh, Function.update_self, if_pos le_rfl]
      · rw [Function.update_of_ne fun heq => hh (Place.handle.inj heq), hview]
        refine if_congr ?_ rfl rfl
        omega

end PtrMemory

theorem encard_le_nat (n : ℕ) : {h : ℕ | h ≤ n}.encard = (n + 1 : ℕ) := by
  have hcoe : {h : ℕ | h ≤ n} = (Finset.range (n + 1) : Set ℕ) := by
    ext h
    exact Nat.lt_succ_iff.symm.trans Finset.mem_range.symm
  rw [hcoe, Set.encard_coe_eq_coe_finsetCard, Finset.card_range]

/-- The `2 ^ 31` handles to an object are more than its counter can count. -/
theorem sharedPtr_not_accounted : ∃ tr m, outsidePtrSystem.Run tr (.ok m)
    ∧ tr.reverse.map Prod.snd = .makeShmShared 0 0 ::
      (List.range (2 ^ 31 - 1)).map (fun k => .copyConstruct (k + 1) (.handle 0))
    ∧ (m.outside 0).encard = (2 ^ 31 : ℕ) ∧ m.counters 0 = some (-2 ^ 31)
    ∧ ¬ Throughout AllAccounted tr (.ok m) := by
  obtain ⟨tr, m, hr, hops, hm, hnull, hview⟩ := PtrMemory.copies_run (2 ^ 31 - 1)
  have houtside : m.outside 0 = {h | h ≤ 2 ^ 31 - 1} := by
    ext h
    show m.refersTo (.handle h) = some 0 ↔ h ≤ 2 ^ 31 - 1
    rw [PtrMemory.refersTo_eq_view, hview]
    split
    · next hle => exact iff_of_true rfl hle
    · next hlt => exact iff_of_false (fun hnone => by cases hnone) hlt
  have hcard : (m.outside 0).encard = (2 ^ 31 : ℕ) := by
    rw [houtside, encard_le_nat, Nat.sub_add_cancel Nat.one_le_two_pow]
  have hzero : m.refersTo (.handle 0) = some 0 := by
    rw [PtrMemory.refersTo_eq_view, hview, if_pos (Nat.zero_le _)]
    rfl
  obtain ⟨n, hn, husers, -⟩ := hm.counter hzero
  have hcount : m.counters 0 = some (-2 ^ 31) := by
    rw [hnull.encard_users, hcard] at husers
    have hn' : n = 2 ^ 31 := by exact_mod_cast husers.symm
    rw [hn, hn']
    rfl
  refine ⟨tr, m, hr, hops, hcard, hcount, fun h => ?_⟩
  obtain ⟨m', hm', ha⟩ := h.1
  cases hm'
  have hmade : 0 < m.next := hm.made 0 (hm.kept hzero (Set.notMem_empty _)).2.object
  obtain ⟨-, -, ⟨k, hk, -⟩, -⟩ := (ha 0 hmade).used ⟨0, hzero⟩
  have hneg : (k : ℤ) = -2 ^ 31 := Option.some.inj (hk.symm.trans hcount)
  omega
