import CoinData.Results
import CoinData.SharedPtr
import Mathlib.Data.Set.Card
import Mathlib.Data.Finset.Card

/-!
# Counting handles

The counter of an object is the number of the handles which point to it, as
an `int`; so it is zero with the last handle, as long as there are fewer than
`2 ^ 32` (`PtrMemory.Few`). While objects are being destroyed this needs saying with care: there are
handles which still point to what their `decreace_` has given up, and
objects which nobody points to and which are not gone, because the handles
in them are being destroyed. The invariant (`PtrMemory.Counted`) keeps a set
of either. Its main lemma is that of `decreace_`, which goes down from an
object to those that only it points to; that it comes to an end, and does
not meet a mutex which it has locked itself, is because no object owns
itself.
-/

open Except (ok_bind)

namespace ShmSharedPtr

/-- A handle to the object of a number. -/
def whole (i : ℕ) : ShmSharedPtr := ⟨some i, some i, some i⟩

/-- A handle points to nothing, or to an object with its counter and its
mutex. -/
def Fits (c : ShmSharedPtr) : Prop :=
  (c.rawPtr = none ∧ c.usedCounter = none) ∨ ∃ i, c = whole i

theorem Fits.eq_whole {c : ShmSharedPtr} {i : ℕ} (h : c.Fits) (hi : c.rawPtr = some i) :
    c = whole i := by
  rcases h with ⟨hnone, _⟩ | ⟨j, rfl⟩
  · rw [hnone] at hi
    cases hi
  · rw [Option.some.inj hi]

end ShmSharedPtr

/-- All that there is, and has been, of a number. -/
structure PtrBlock where
  object : Option ℕ
  counter : Option ℤ
  mutex : Option Bool
  made : Bool
  locked : ℕ
  unlocked : ℕ
  objectFreed : ℕ
  counterFreed : ℕ
  mutexFreed : ℕ

namespace PtrBlock

/-- The object, the counter and the mutex have been freed so often. -/
structure Freed (b : PtrBlock) (n : ℕ) : Prop where
  object : b.objectFreed = n
  counter : b.counterFreed = n
  mutex : b.mutexFreed = n

/-- **An object with users**: it is there, its counter is their number, as an
`int`, and its mutex is not held. -/
structure Kept (b : PtrBlock) (users : Set Place) : Prop where
  object : b.object ≠ none
  counter : ∃ n : ℕ, b.counter = some (PtrMemory.wrap n) ∧ users.encard = n ∧ 0 < n
  mutex : b.mutex = some false
  balanced : b.locked = b.unlocked
  freed : b.Freed 0

/-- With its mutex locked and unlocked in between, an object has other
users, whose number its counter is. -/
theorem Kept.recounted {b : PtrBlock} {users users' : Set Place} (h : b.Kept users) {n : ℕ}
    (hcard : users'.encard = n) (hpos : 0 < n) : Kept { b with
      counter := some (PtrMemory.wrap n), mutex := some false
      locked := b.locked + 1, unlocked := b.unlocked + 1 } users' :=
  ⟨h.object, ⟨n, rfl, hcard, hpos⟩, rfl, congrArg (· + 1) h.balanced,
    ⟨h.freed.object, h.freed.counter, h.freed.mutex⟩⟩

/-- **An object in its destructor.** -/
structure Dying (b : PtrBlock) (users : Set Place) : Prop where
  object : b.object ≠ none
  counter : b.counter = some 0
  unused : users = ∅
  mutex : b.mutex = some true
  balanced : b.locked = b.unlocked + 1
  freed : b.Freed 0

/-- **An object which is gone**, or has not been made. -/
structure Gone (b : PtrBlock) (users : Set Place) : Prop where
  object : b.object = none
  counter : b.counter = none
  unused : users = ∅
  mutex : b.mutex = none
  balanced : b.locked = b.unlocked
  freed : b.Freed (if b.made then 1 else 0)

end PtrBlock

namespace PtrMemory

/-- What there is of a number. -/
def block (m : PtrMemory) (i : ℕ) : PtrBlock where
  object := m.objects i
  counter := m.counters i
  mutex := m.mutexes i
  made := i < m.next
  locked := m.events.count (.locked i)
  unlocked := m.events.count (.unlocked i)
  objectFreed := m.events.count (.objectFreed i)
  counterFreed := m.events.count (.counterFreed i)
  mutexFreed := m.events.count (.mutexFreed i)

/-- The handles which point to an object, without those which have given it
up. -/
def users (m : PtrMemory) (P : Set Place) (i : ℕ) : Set Place :=
  {p | p ∉ P ∧ m.refersTo p = some i}

/-- No object has as many users as an `int` has values. -/
def Few (P : Set Place) (m : PtrMemory) : Prop := ∀ i, (m.users P i).encard < 2 ^ 32

/-- **The counters are right**, where the handles of `P` have given up what
they point to, and the objects of `D` are in their destructors. -/
structure Counted (D : Finset ℕ) (P : Set Place) (m : PtrMemory) : Prop where
  fits : ∀ p c, m.handles p = some c → c.Fits
  fields : ∀ i k, m.handles (.field i k) ≠ none ↔ ∃ w, m.objects i = some w ∧ k < w
  made : ∀ i, m.objects i ≠ none → i < m.next
  dying : ∀ i ∈ D, (m.block i).Dying (m.users P i)
  rest : ∀ i ∉ D, (m.block i).Kept (m.users P i) ∨ (m.block i).Gone (m.users P i)

/-- **No object owns itself**: `R` orders the objects, and every handle in
an object points to a lower one. -/
structure Ordered (R : ℕ → ℕ → Prop) (m : PtrMemory) : Prop where
  irrefl : ∀ i, ¬ R i i
  trans : ∀ i j k, R i j → R j k → R i k
  field : ∀ i k j, m.refersTo (.field i k) = some j → R j i

/-- **What may have changed**: the handles of `S`, and the objects of `B`,
which may be gone, with the handles in them. -/
structure Frame (S : Set Place) (B : Set ℕ) (m m' : PtrMemory) : Prop where
  next : m'.next = m.next
  objects : ∀ i, m'.objects i = m.objects i ∨ i ∈ B ∧ m'.objects i = none
  handles : ∀ p, p ∉ S → m'.handles p = m.handles p
    ∨ ∃ i ∈ B, p.container = some i ∧ m'.objects i = none

/-! ## Counting with an `int` -/

/-- What has wrapped around does so once. -/
theorem wrap_add (v d : ℤ) : wrap (wrap v + d) = wrap (v + d) :=
  Int.bmod_add_bmod

theorem wrap_of_lt {n : ℕ} (h : n < 2 ^ 31) : wrap n = n := by
  unfold wrap
  rw [Int.bmod_def]
  omega

/-- The counter does not tell a multiple of `2 ^ 32` from zero. -/
theorem wrap_pred_eq_zero {n : ℕ} (hpos : 0 < n) (h : n ≤ 2 ^ 32) :
    wrap (wrap n - 1) = 0 ↔ n = 1 := by
  rw [sub_eq_add_neg, wrap_add]
  unfold wrap
  rw [Int.bmod_def]
  omega

/-! ## What the steps do -/

section Steps

variable {m : PtrMemory} {p q : Place} {c : ShmSharedPtr} {i : ℕ} {v : ℤ}

theorem read_of_some (h : m.handles p = some c) : m.read p = .ok c := by
  rw [read, h]

theorem read_of_none (h : m.handles p = none) : m.read p = .error .freed := by
  rw [read, h]

theorem handles_write (m : PtrMemory) (p : Place) (c : ShmSharedPtr) :
    (m.write p c).handles p = some c := Function.update_self ..

theorem modify_of_some {f : ShmSharedPtr → ShmSharedPtr} (h : m.handles p = some c) :
    m.modify p f = .ok (m.write p (f c)) := by
  rw [modify, read_of_some h]
  rfl

theorem lock_of_some (h : m.handles p = some c) (hc : c.mutex = some i)
    (hm : m.mutexes i = some false) : m.lock p = .ok (m.take i) := by
  rw [lock, read_of_some h, ok_bind, hc]
  dsimp only
  rw [timedlock, hm]

theorem unlock_of_held (hm : m.mutexes i = some true) : m.unlock i = .ok (m.release i) := by
  rw [unlock, hm]

theorem unlockMutex_of_some (h : m.handles p = some c) (hc : c.mutex = some i)
    (hm : m.mutexes i = some true) : m.unlockMutex p = .ok (m.release i) := by
  rw [unlockMutex, read_of_some h, ok_bind, hc]
  exact unlock_of_held hm

theorem unlockMutex_of_none (h : m.handles p = some c) (hc : c.mutex = none) :
    m.unlockMutex p = .ok m := by
  rw [unlockMutex, read_of_some h, ok_bind, hc]
  rfl

theorem fetchAdd_of_some {d : ℤ} (h : m.counters i = some v) :
    m.fetchAdd i d
      = .ok { m with counters := Function.update m.counters i (some (wrap (v + d))) } := by
  rw [fetchAdd, h]

theorem load_of_some (h : m.counters i = some v) : m.load i = .ok v := by
  rw [load, h]

theorem refersTo_of_some (h : m.handles p = some c) : m.refersTo p = c.rawPtr := by
  rw [refersTo, h]
  rfl

theorem refersTo_of_none (h : m.handles p = none) : m.refersTo p = none := by
  rw [refersTo, h]
  rfl

/-- What points to something is there. -/
theorem handles_of_refersTo (h : m.refersTo p = some i) :
    ∃ c, m.handles p = some c ∧ c.rawPtr = some i :=
  Option.bind_eq_some_iff.mp h

theorem refersTo_update {m' : PtrMemory} (h : m'.handles = Function.update m.handles p (some c)) :
    m'.refersTo = Function.update m.refersTo p c.rawPtr := by
  funext q
  rw [refersTo, h]
  by_cases hq : q = p
  · rw [hq, Function.update_self, Function.update_self]
    rfl
  · rw [Function.update_of_ne hq, Function.update_of_ne hq]
    rfl

/-- A handle which is there is stored. -/
theorem handles_update {m' : PtrMemory} {d : ShmSharedPtr}
    (h : m'.handles = Function.update m.handles p (some d)) (hp : m.handles p = some c)
    (hd : d.Fits) (q : Place) : m'.handles q = m.handles q
      ∨ m.handles q ≠ none ∧ ∃ c, m'.handles q = some c ∧ c.Fits := by
  rw [h]
  by_cases hq : q = p
  · rw [hq, Function.update_self, hp]
    exact Or.inr ⟨Option.some_ne_none c, d, rfl, hd⟩
  · exact Or.inl (Function.update_of_ne hq ..)

end Steps

/-! ## Users -/

section Users

variable {m m' : PtrMemory} {P : Set Place} {p : Place} {r : Option ℕ} {i j : ℕ}

/-- A handle to another object is no user. -/
theorem users_update_of_ne (h : m'.refersTo = Function.update m.refersTo p r)
    (hold : m.refersTo p ≠ some j) (hnew : r ≠ some j) : m'.users P j = m.users P j := by
  ext q
  refine and_congr_right fun _ => ?_
  rw [h]
  by_cases hq : q = p
  · rw [hq, Function.update_self]
    exact iff_of_false hnew hold
  · rw [Function.update_of_ne hq]

/-- One user less. -/
theorem users_update_remove (h : m'.refersTo = Function.update m.refersTo p r)
    (hnew : r ≠ some i) : m'.users P i = m.users P i \ {p} := by
  ext q
  show (q ∉ P ∧ m'.refersTo q = some i) ↔ (q ∉ P ∧ m.refersTo q = some i) ∧ q ≠ p
  rw [h]
  by_cases hq : q = p
  · rw [hq, Function.update_self]
    exact iff_of_false (fun hr => hnew hr.2) fun hr => hr.2 rfl
  · rw [Function.update_of_ne hq]
    exact (and_iff_left hq).symm

/-- One user more. -/
theorem users_update_add (h : m'.refersTo = Function.update m.refersTo p (some i))
    (hp : p ∉ P) : m'.users P i = insert p (m.users P i) := by
  ext q
  show (q ∉ P ∧ m'.refersTo q = some i) ↔ q = p ∨ q ∉ P ∧ m.refersTo q = some i
  rw [h]
  by_cases hq : q = p
  · rw [hq, Function.update_self]
    exact iff_of_true ⟨hp, rfl⟩ (Or.inl rfl)
  · rw [Function.update_of_ne hq, or_iff_right hq]

theorem notMem_users (h : m.refersTo p = none) : p ∉ m.users P i := by
  rintro ⟨_, hi⟩
  rw [h] at hi
  cases hi

theorem users_insert_of_ne (h : m.refersTo p ≠ some j) :
    m.users (insert p P) j = m.users P j := by
  ext q
  refine and_congr_left fun hq => not_congr (or_iff_right ?_)
  rintro rfl
  exact h hq

theorem users_insert : m.users (insert p P) i = m.users P i \ {p} := by
  ext q
  show (¬ (q = p ∨ q ∈ P) ∧ m.refersTo q = some i) ↔ (q ∉ P ∧ m.refersTo q = some i) ∧ q ≠ p
  rw [not_or, and_comm (a := q ≠ p), and_assoc, and_assoc, and_comm (a := q ≠ p)]

end Users

/-! ## Frames -/

namespace Frame

variable {m m' m'' : PtrMemory} {S S' : Set Place} {B B' : Set ℕ}

theorem refl (m : PtrMemory) (S : Set Place) (B : Set ℕ) : Frame S B m m :=
  ⟨rfl, fun _ => Or.inl rfl, fun _ _ => Or.inl rfl⟩

theorem mono (h : Frame S B m m') (hS : S ⊆ S') (hB : B ⊆ B') : Frame S' B' m m' := by
  refine ⟨h.next, fun i => (h.objects i).imp_right fun hi => ⟨hB hi.1, hi.2⟩, fun p hp => ?_⟩
  refine (h.handles p fun hin => hp (hS hin)).imp_right ?_
  rintro ⟨i, hi, hgone⟩
  exact ⟨i, hB hi, hgone⟩

/-- What is gone stays away. -/
theorem objects_none (h : Frame S B m m') {i : ℕ} (hi : m.objects i = none) :
    m'.objects i = none := by
  rcases h.objects i with heq | ⟨_, hnone⟩
  · rw [heq, hi]
  · exact hnone

theorem trans (h : Frame S B m m') (h' : Frame S B m' m'') : Frame S B m m'' := by
  refine ⟨h'.next.trans h.next, fun i => ?_, fun p hp => ?_⟩
  · rcases h'.objects i with heq | hgone
    · rw [heq]
      exact h.objects i
    · exact Or.inr hgone
  · rcases h'.handles p hp with heq | hgone
    · rw [heq]
      refine (h.handles p hp).imp_right ?_
      rintro ⟨i, hi, hc, hnone⟩
      exact ⟨i, hi, hc, h'.objects_none hnone⟩
    · exact Or.inr hgone

/-- A handle whose object is still there has not changed. -/
theorem handles_eq (h : Frame S B m m') {p : Place} (hp : p ∉ S)
    (hthere : ∀ i ∈ B, p.container = some i → m'.objects i ≠ none) :
    m'.handles p = m.handles p := by
  rcases h.handles p hp with heq | ⟨i, hi, hc, hnone⟩
  · exact heq
  · exact absurd hnone (hthere i hi hc)

end Frame

/-! ## The invariant -/

namespace Counted

variable {D : Finset ℕ} {P : Set Place} {m m' : PtrMemory} {p : Place} {i : ℕ}

/-- A handle which points to something is whole. -/
theorem handles_of_refersTo (h : Counted D P m) (hp : m.refersTo p = some i) :
    m.handles p = some (.whole i) := by
  obtain ⟨c, hc, hraw⟩ := PtrMemory.handles_of_refersTo hp
  rw [hc, (h.fits p c hc).eq_whole hraw]

/-- What a handle points to is there, unless the handle has given it up. -/
theorem kept (h : Counted D P m) (hp : m.refersTo p = some i) (hP : p ∉ P) :
    i ∉ D ∧ (m.block i).Kept (m.users P i) := by
  have hmem : p ∈ m.users P i := ⟨hP, hp⟩
  have hi : i ∉ D := by
    intro hi
    have hunused := (h.dying i hi).unused
    rw [hunused] at hmem
    exact hmem
  refine ⟨hi, (h.rest i hi).resolve_right fun hgone => ?_⟩
  rw [hgone.unused] at hmem
  exact hmem

/-- The objects in their destructors are among those which have been made. -/
theorem card_le (h : Counted D P m) : D.card ≤ m.next := by
  have hsub : D ⊆ Finset.range m.next :=
    fun i hi => Finset.mem_range.mpr (h.made i (h.dying i hi).object)
  exact (Finset.card_le_card hsub).trans_eq (Finset.card_range _)

/-- The handles in an object are there as long as it is. -/
theorem handles_none (h : Counted D P m) (hp : p.container = some i)
    (hi : m.objects i = none) : m.handles p = none := by
  cases p with
  | handle => cases hp
  | field obj k =>
    cases hp
    by_contra hthere
    obtain ⟨w, hw, _⟩ := (h.fields i k).mp hthere
    rw [hi] at hw
    cases hw

/-- **A change to one number**, and to handles which stay where they are. The
other numbers are as they were, and this one has users. -/
theorem of_block (h : Counted D P m) (hi : i ∉ D)
    (hhandles : ∀ q, m'.handles q = m.handles q
      ∨ m.handles q ≠ none ∧ ∃ c, m'.handles q = some c ∧ c.Fits)
    (hobjects : m'.objects = m.objects)
    (hnext : m'.next = m.next) (hblock : ∀ j, j ≠ i → m'.block j = m.block j)
    (husers : ∀ j, j ≠ i → m'.users P j = m.users P j)
    (hkept : (m'.block i).Kept (m'.users P i)) : Counted D P m' := by
  refine ⟨fun q c hc => ?_, fun j k => ?_, fun j hj => ?_, fun j hj => ?_, fun j hj => ?_⟩
  · rcases hhandles q with heq | ⟨_, c', hc', hfits⟩
    · rw [heq] at hc
      exact h.fits q c hc
    · rw [hc'] at hc
      cases hc
      exact hfits
  · rw [hobjects, ← h.fields j k]
    rcases hhandles (.field j k) with heq | ⟨hthere, c', hc', _⟩
    · rw [heq]
    · rw [hc']
      exact iff_of_true (Option.some_ne_none c') hthere
  · rw [hobjects] at hj
    rw [hnext]
    exact h.made j hj
  · have hne : j ≠ i := by
      rintro rfl
      exact hi hj
    rw [hblock j hne, husers j hne]
    exact h.dying j hj
  · by_cases hne : j = i
    · rw [hne]
      exact Or.inl hkept
    · rw [hblock j hne, husers j hne]
      exact h.rest j hj

end Counted

/-- A frame in which the changed handles point to nothing points nowhere
new. -/
theorem Frame.refersTo_of {S : Set Place} {B : Set ℕ} {D : Finset ℕ} {P : Set Place}
    {m m' : PtrMemory} (h : Frame S B m m') (hcounted : Counted D P m')
    (hS : ∀ q ∈ S, m'.refersTo q = none) {q : Place} {j : ℕ} (hq : m'.refersTo q = some j) :
    m.refersTo q = some j := by
  have hnot : q ∉ S := by
    intro hin
    rw [hS q hin] at hq
    cases hq
  have heq : m'.handles q = m.handles q := by
    refine h.handles_eq hnot fun i _ hc hnone => ?_
    rw [refersTo_of_none (hcounted.handles_none hc hnone)] at hq
    cases hq
  rw [refersTo, heq] at hq
  exact hq

theorem Ordered.frame {R : ℕ → ℕ → Prop} {S : Set Place} {B : Set ℕ} {D : Finset ℕ}
    {P : Set Place} {m m' : PtrMemory} (h : Ordered R m) (hframe : Frame S B m m')
    (hcounted : Counted D P m') (hS : ∀ q ∈ S, m'.refersTo q = none) : Ordered R m' :=
  ⟨h.irrefl, h.trans, fun i k j hj => h.field i k j (hframe.refersTo_of hcounted hS hj)⟩

/-- Where handles only point to less, there are still few. -/
theorem Few.mono {P P' : Set Place} {m m' : PtrMemory} (h : Few P m)
    (hsub : ∀ i, m'.users P' i ⊆ m.users P i) : Few P' m' :=
  fun i => (Set.encard_le_encard (hsub i)).trans_lt (h i)

theorem Few.frame {S : Set Place} {B : Set ℕ} {D : Finset ℕ} {P : Set Place} {m m' : PtrMemory}
    (h : Few P m) (hframe : Frame S B m m') (hcounted : Counted D P m')
    (hS : ∀ q ∈ S, m'.refersTo q = none) : Few P m' :=
  h.mono fun _ _ hq => ⟨hq.1, hframe.refersTo_of hcounted hS hq.2⟩

/-! ## Giving up an object -/

section GiveUp

variable {D : Finset ℕ} {P : Set Place} {R : ℕ → ℕ → Prop} {m m' : PtrMemory} {p : Place}
  {i n : ℕ} {v : ℤ}

/-- A counter is set. -/
def setCounter (m : PtrMemory) (i : ℕ) (v : ℤ) : PtrMemory :=
  { m with counters := Function.update m.counters i (some v) }

/-- An object is gone, with its counter and its mutex, and `p` points to
nothing. -/
def without (m : PtrMemory) (i : ℕ) (p : Place) : PtrMemory where
  handles := Function.update (fun q => if q.container = some i then none else m.handles q) p
    (some {})
  objects := Function.update m.objects i none
  counters := Function.update m.counters i none
  mutexes := Function.update m.mutexes i none
  next := m.next
  events := [.mutexFreed i, .unlocked i, .counterFreed i, .objectFreed i] ++ m.events

theorem block_write (m : PtrMemory) (p : Place) (c : ShmSharedPtr) (j : ℕ) :
    (m.write p c).block j = m.block j := rfl

theorem block_take (m : PtrMemory) (i : ℕ) : (m.take i).block i
    = { m.block i with mutex := some true, locked := (m.block i).locked + 1 } := by
  simp [block, take]
  rfl

theorem block_take_of_ne {j : ℕ} (h : j ≠ i) : (m.take i).block j = m.block j := by
  simp [block, take, h, Ne.symm h]
  rfl

theorem block_release (m : PtrMemory) (i : ℕ) : (m.release i).block i
    = { m.block i with mutex := some false, unlocked := (m.block i).unlocked + 1 } := by
  simp [block, release]
  rfl

theorem block_release_of_ne {j : ℕ} (h : j ≠ i) : (m.release i).block j = m.block j := by
  simp [block, release, h, Ne.symm h]
  rfl

theorem block_setCounter (m : PtrMemory) (i : ℕ) (v : ℤ) :
    (m.setCounter i v).block i = { m.block i with counter := some v } := by
  simp [block, setCounter]
  rfl

theorem block_setCounter_of_ne {j : ℕ} (h : j ≠ i) :
    (m.setCounter i v).block j = m.block j := by
  simp [block, setCounter, h]
  rfl

theorem block_without (m : PtrMemory) (i : ℕ) (p : Place) : (m.without i p).block i
    = { m.block i with
      object := none, counter := none, mutex := none
      unlocked := (m.block i).unlocked + 1
      objectFreed := (m.block i).objectFreed + 1
      counterFreed := (m.block i).counterFreed + 1
      mutexFreed := (m.block i).mutexFreed + 1 } := by
  simp [block, without]
  rfl

theorem block_without_of_ne {j : ℕ} (h : j ≠ i) : (m.without i p).block j = m.block j := by
  simp [block, without, h, Ne.symm h]
  rfl

theorem handles_without (m : PtrMemory) (i : ℕ) (p : Place) :
    (m.without i p).handles p = some {} := by
  dsimp only [without]
  rw [Function.update_self]

/-- `decreace_` of a handle which is not the last. -/
theorem decreace_shared {fuel : ℕ} (hp : m.handles p = some (.whole i))
    (hv : m.counters i = some v) (hne : wrap (v - 1) ≠ 0) : decreace (fuel + 1) m p
      = .ok ((m.setCounter i (wrap (v - 1))).write p { mutex := some i }) := by
  rw [decreace, read_of_some hp, ok_bind]
  dsimp only [ShmSharedPtr.whole, deref]
  rw [ok_bind, fetchAdd_of_some hv, ok_bind, ok_bind,
    load_of_some (v := wrap (v - 1)) (Function.update_self ..), ok_bind, if_neg hne]
  exact modify_of_some (m := m.setCounter i (wrap (v - 1))) hp

/-- `decreace_` of the last handle, whose object is destroyed first. -/
theorem decreace_last {fuel : ℕ} (hp : m.handles p = some (.whole i))
    (hv : m.counters i = some 1)
    (hd : (m.setCounter i 0).destroyObject (decreace fuel) i = .ok m')
    (hp' : m'.handles p = some (.whole i)) (hpi : p.container ≠ some i)
    (hobject : m'.objects i ≠ none) (hcounter : m'.counters i ≠ none)
    (hmutex : m'.mutexes i = some true) :
    decreace (fuel + 1) m p = .ok (m'.without i p) := by
  obtain ⟨w, hw⟩ := Option.ne_none_iff_exists'.mp hobject
  obtain ⟨u, hu⟩ := Option.ne_none_iff_exists'.mp hcounter
  rw [decreace, read_of_some hp, ok_bind]
  dsimp only [ShmSharedPtr.whole, deref]
  rw [ok_bind, fetchAdd_of_some hv, ok_bind, ok_bind,
    load_of_some (v := 0) (Function.update_self ..), ok_bind, if_pos rfl, ok_bind]
  change (do let m ← (m.setCounter i 0).destroyObject (decreace fuel) i; _) = _
  rw [hd, ok_bind, read_of_some hp', ok_bind]
  dsimp only [ShmSharedPtr.whole]
  rw [ok_bind, freeObject, hw]
  dsimp only
  rw [ok_bind, ok_bind, freeCounter]
  dsimp only
  rw [hu]
  dsimp only
  rw [ok_bind, ok_bind, unlock]
  dsimp only
  rw [hmutex]
  dsimp only [release]
  rw [ok_bind, ok_bind, freeMutex]
  dsimp only
  rw [Function.update_self]
  dsimp only
  rw [ok_bind, Function.update_idem, modify_of_some (c := .whole i) ((if_neg hpi).trans hp'),
    ok_bind, modify_of_some (c := ⟨some i, some i, none⟩) (Function.update_self ..)]
  dsimp only [write, without]
  rw [Function.update_idem]
  rfl

/-- **A handle that is not the last gives up its object.** -/
theorem Counted.giveUp_shared (h : Counted D P m) (hp : m.refersTo p = some i) (hP : p ∉ P)
    (hv : m.counters i = some v) (hne : wrap (v - 1) ≠ 0) : Counted D P
      ((((m.take i).setCounter i (wrap (v - 1))).write p { mutex := some i }).release i) := by
  obtain ⟨hi, hkept⟩ := h.kept hp hP
  obtain ⟨c, hc, _⟩ := PtrMemory.handles_of_refersTo hp
  have hrefers : ((((m.take i).setCounter i (wrap (v - 1))).write p
      { mutex := some i }).release i).refersTo = Function.update m.refersTo p none :=
    refersTo_update (m := m) (c := { mutex := some i }) rfl
  refine h.of_block hi (handles_update rfl hc (Or.inl ⟨rfl, rfl⟩)) rfl rfl (fun j hj => ?_)
    (fun j hj => users_update_of_ne hrefers ?_ (by simp)) ?_
  · rw [block_release_of_ne hj, block_write, block_setCounter_of_ne hj, block_take_of_ne hj]
  · rw [hp]
    exact fun heq => hj (Option.some.inj heq).symm
  · rw [users_update_remove hrefers (by simp), block_release, block_write, block_setCounter,
      block_take]
    obtain ⟨n, hn, hcard, hpos⟩ := hkept.counter
    have hnv : wrap n = v := Option.some.inj (hn.symm.trans hv)
    have hless : wrap (v - 1) = wrap (n - 1 : ℕ) := by
      rw [← hnv, sub_eq_add_neg, wrap_add, Nat.cast_pred hpos, sub_eq_add_neg]
    have hmore : n - 1 ≠ 0 := by
      intro hzero
      rw [hless, hzero] at hne
      exact hne rfl
    rw [hless]
    refine hkept.recounted ?_ (Nat.pos_of_ne_zero hmore)
    rw [Set.encard_sdiff_singleton_of_mem (show p ∈ m.users P i from ⟨hP, hp⟩), hcard]
    rfl

/-- **The last handle gives up its object**, whose destructor begins. -/
theorem Counted.enter (h : Counted D P m) (hp : m.refersTo p = some i) (hP : p ∉ P)
    (hone : (m.users P i).encard = 1) :
    Counted (insert i D) (insert p P) ((m.take i).setCounter i 0) := by
  obtain ⟨hi, hkept⟩ := h.kept hp hP
  have husers : ∀ j, j ≠ i → m.users (insert p P) j = m.users P j := by
    intro j hj
    refine users_insert_of_ne ?_
    rw [hp]
    exact fun heq => hj (Option.some.inj heq).symm
  have hblock : ∀ j, j ≠ i → ((m.take i).setCounter i 0).block j = m.block j := by
    intro j hj
    rw [block_setCounter_of_ne hj, block_take_of_ne hj]
  refine ⟨h.fits, h.fields, h.made, fun j hj => ?_, fun j hj => ?_⟩
  · show PtrBlock.Dying _ (m.users (insert p P) j)
    rcases Finset.mem_insert.mp hj with rfl | hjD
    · rw [users_insert, block_setCounter, block_take]
      refine ⟨hkept.object, rfl, ?_, rfl, congrArg (· + 1) hkept.balanced,
        ⟨hkept.freed.object, hkept.freed.counter, hkept.freed.mutex⟩⟩
      rw [← Set.encard_eq_zero,
        Set.encard_sdiff_singleton_of_mem (show p ∈ m.users P _ from ⟨hP, hp⟩), hone]
      rfl
    · have hne : j ≠ i := by
        rintro rfl
        exact hi hjD
      rw [husers j hne, hblock j hne]
      exact h.dying j hjD
  · show PtrBlock.Kept _ (m.users (insert p P) j) ∨ PtrBlock.Gone _ (m.users (insert p P) j)
    obtain ⟨hne, hj⟩ := not_or.mp fun hor => hj (Finset.mem_insert.mpr hor)
    rw [husers j hne, hblock j hne]
    exact h.rest j hj

/-- **The destructor of an object has ended**, and what there is of it is
deallocated. -/
theorem Counted.leave (h : Counted (insert i D) (insert p P) m) (hi : i ∉ D)
    (hp : m.refersTo p = some i) (hpi : p.container ≠ some i)
    (hempty : ∀ q, q.container = some i → m.refersTo q = none) :
    Counted D P (m.without i p) := by
  have hmade : i < m.next := h.made i (h.dying i (Finset.mem_insert_self i D)).object
  have hrefers : (m.without i p).refersTo = Function.update m.refersTo p none := by
    funext q
    show Option.bind (Function.update (fun q => if q.container = some i then none
      else m.handles q) p (some {}) q) _ = _
    by_cases hq : q = p
    · rw [hq, Function.update_self, Function.update_self]
      rfl
    · rw [Function.update_of_ne hq, Function.update_of_ne hq]
      by_cases hc : q.container = some i
      · rw [if_pos hc, hempty q hc]
        rfl
      · rw [if_neg hc]
        rfl
  -- who is left out of the users before, and points to nothing after
  have husers : ∀ j, (m.without i p).users P j = m.users (insert p P) j := by
    intro j
    rw [users_update_remove hrefers (by simp), users_insert]
  refine ⟨fun q c hc => ?_, fun j k => ?_, fun j hj => ?_, fun j hj => ?_, fun j hj => ?_⟩
  · change Function.update (fun q => if q.container = some i then none else m.handles q) p
      (some {}) q = some c at hc
    by_cases hq : q = p
    · rw [hq, Function.update_self] at hc
      cases hc
      exact Or.inl ⟨rfl, rfl⟩
    · rw [Function.update_of_ne hq] at hc
      split at hc
      · cases hc
      · exact h.fits q c hc
  · show Function.update (fun q => if q.container = some i then none else m.handles q) p
      (some {}) (.field j k) ≠ none ↔ ∃ w, Function.update m.objects i none j = some w ∧ k < w
    by_cases hji : j = i
    · subst hji
      have hne : Place.field j k ≠ p := by
        rintro rfl
        exact hpi rfl
      rw [Function.update_of_ne hne, Function.update_self,
        if_pos (show (Place.field j k).container = some j from rfl)]
      exact iff_of_false (fun hnone => hnone rfl) nofun
    · rw [Function.update_of_ne hji, ← h.fields j k]
      by_cases hq : Place.field j k = p
      · rw [hq, Function.update_self]
        obtain ⟨c, hc, _⟩ := PtrMemory.handles_of_refersTo hp
        rw [hc]
        exact iff_of_true (Option.some_ne_none _) (Option.some_ne_none _)
      · have hc : Place.container (.field j k) ≠ some i := fun heq => hji (Option.some.inj heq)
        rw [Function.update_of_ne hq, if_neg hc]
  · change Function.update m.objects i none j ≠ none at hj
    by_cases hji : j = i
    · rw [hji, Function.update_self] at hj
      exact absurd rfl hj
    · rw [Function.update_of_ne hji] at hj
      exact h.made j hj
  · have hne : j ≠ i := by
      rintro rfl
      exact hi hj
    rw [husers, block_without_of_ne hne]
    exact h.dying j (Finset.mem_insert_of_mem hj)
  · rw [husers]
    by_cases hji : j = i
    · subst hji
      have hdying := h.dying j (Finset.mem_insert_self j D)
      right
      rw [block_without]
      refine ⟨rfl, rfl, hdying.unused, rfl, hdying.balanced, ?_⟩
      have hmade' : (m.block j).made = true := decide_eq_true hmade
      dsimp only
      rw [if_pos hmade']
      exact ⟨congrArg (· + 1) hdying.freed.object, congrArg (· + 1) hdying.freed.counter,
        congrArg (· + 1) hdying.freed.mutex⟩
    · rw [block_without_of_ne hji]
      exact h.rest j fun hin => (Finset.mem_insert.mp hin).elim hji hj

/-- The objects which may be destroyed with an object. -/
def below (R : ℕ → ℕ → Prop) (i : ℕ) : Set ℕ := {j | j = i ∨ R j i}

/-- **What `decreace_` does** to a handle at `p`, whose mutex has been
locked: if it was the last one, all is gone; else the mutex is still to be
unlocked. -/
inductive Decreaced (D : Finset ℕ) (P : Set Place) (R : ℕ → ℕ → Prop) (m : PtrMemory)
    (p : Place) (i : ℕ) (m' : PtrMemory) : Prop
  | shared : m'.handles p = some { mutex := some i } → m'.mutexes i = some true →
      Counted D P (m'.release i) → Frame {p} (below R i) m (m'.release i) →
      Decreaced D P R m p i m'
  | last : m'.handles p = some {} → Counted D P m' → Frame {p} (below R i) m m' →
      Decreaced D P R m p i m'

/-- What is assumed of a memory in which a handle is about to give up an
object: the objects in their destructors are higher. -/
structure Ready (D : Finset ℕ) (P : Set Place) (R : ℕ → ℕ → Prop) (m : PtrMemory) (p : Place) :
    Prop where
  counted : Counted D P m
  few : Few P m
  ordered : Ordered R m
  pending : p ∉ P
  higher : ∀ q ∈ P, ∀ i j, m.refersTo p = some i → q.container = some j → R i j

/-- **A handle gives up its object**, once `decreace_` is known. -/
theorem giveUp_of_decreace {fuel : ℕ} (h : Counted D P m) (hp : m.refersTo p = some i)
    (hP : p ∉ P) (hd : ∃ m', decreace fuel (m.take i) p = .ok m' ∧ Decreaced D P R m p i m') :
    ∃ m', m.giveUp (decreace fuel) p = .ok m' ∧ Counted D P m' ∧ Frame {p} (below R i) m m'
      ∧ (∃ c, m'.handles p = some c) ∧ m'.refersTo p = none := by
  have hwhole := h.handles_of_refersTo hp
  obtain ⟨m', hm', hdec⟩ := hd
  have hgive : m.giveUp (decreace fuel) p = m'.unlockMutex p := by
    rw [giveUp, lock_of_some hwhole rfl (h.kept hp hP).2.mutex, ok_bind, hm', ok_bind]
  cases hdec with
  | shared hc hmutex hcounted hframe =>
    refine ⟨m'.release i, hgive.trans (unlockMutex_of_some hc rfl hmutex), hcounted, hframe,
      ⟨_, hc⟩, refersTo_of_some (m := m'.release i) hc⟩
  | last hc hcounted hframe =>
    exact ⟨m', hgive.trans (unlockMutex_of_none hc rfl), hcounted, hframe, ⟨_, hc⟩,
      refersTo_of_some hc⟩

/-- **The handles of an object in its destructor give up what they point
to**, once `decreace_` is known. -/
theorem destroyFields_of_decreace {fuel : ℕ}
    (hd : ∀ {m p i}, Ready D P R m p → m.refersTo p = some i → m.next < fuel + D.card →
      ∃ m', decreace fuel (m.take i) p = .ok m' ∧ Decreaced D P R m p i m')
    (h : Counted D P m) (hfew : Few P m) (hR : Ordered R m)
    (hP : ∀ q ∈ P, ∀ j, q.container = some j → R i j) (hfuel : m.next < fuel + D.card)
    {w : ℕ} (hw : m.objects i = some w) {k : ℕ} (hk : k ≤ w) :
    ∃ m', destroyFields (decreace fuel) i k m = .ok m' ∧ Counted D P m'
      ∧ Frame {q | ∃ l < k, q = .field i l} {j | R j i} m m'
      ∧ ∀ l < k, m'.refersTo (.field i l) = none := by
  have hi : ∀ k, Place.field i k ∉ P := fun k hk => hR.irrefl i (hP _ hk i rfl)
  induction k generalizing m with
  | zero => exact ⟨m, rfl, h, .refl .., nofun⟩
  | succ k ih =>
    -- the last handle
    have hfirst : ∃ m', m.giveUpRaw (decreace fuel) (.field i k) = .ok m' ∧ Counted D P m'
        ∧ Frame {.field i k} {j | R j i} m m' ∧ m'.refersTo (.field i k) = none := by
      obtain ⟨c, hc⟩ := Option.ne_none_iff_exists'.mp ((h.fields i k).mpr ⟨w, hw, hk⟩)
      rw [giveUpRaw, read_of_some hc, ok_bind]
      cases hraw : c.rawPtr with
      | none => exact ⟨m, rfl, h, .refl .., (refersTo_of_some hc).trans hraw⟩
      | some j =>
        rw [if_neg (Option.some_ne_none j)]
        have hrefers : m.refersTo (.field i k) = some j := (refersTo_of_some hc).trans hraw
        have hji : R j i := hR.field i k j hrefers
        have hready : Ready D P R m (.field i k) := by
          refine ⟨h, hfew, hR, hi k, fun q hq j' j'' hj' hj'' => ?_⟩
          rw [Option.some.inj (hj'.symm.trans hrefers)]
          exact hR.trans _ _ _ hji (hP q hq j'' hj'')
        obtain ⟨m', hm', hcounted, hframe, _, hnone⟩ :=
          giveUp_of_decreace h hrefers (hi k) (hd hready hrefers hfuel)
        refine ⟨m', hm', hcounted, hframe.mono subset_rfl ?_, hnone⟩
        rintro l (rfl | hl)
        · exact hji
        · exact hR.trans _ _ _ hl hji
    obtain ⟨m₁, hm₁, hcounted₁, hframe₁, hnone₁⟩ := hfirst
    have hw₁ : m₁.objects i = some w := by
      rcases hframe₁.objects i with heq | ⟨hii, _⟩
      · rw [heq, hw]
      · exact absurd hii (hR.irrefl i)
    have hnull₁ : ∀ q ∈ ({.field i k} : Set Place), m₁.refersTo q = none := by
      rintro q rfl
      exact hnone₁
    obtain ⟨m', hm', hcounted, hframe, hnone⟩ := ih hcounted₁ (hfew.frame hframe₁ hcounted₁ hnull₁)
      (hR.frame hframe₁ hcounted₁ hnull₁) (hframe₁.next ▸ hfuel) hw₁ (Nat.le_of_succ_le hk)
    refine ⟨m', ?_, hcounted, ?_, fun l hl => ?_⟩
    · rw [destroyFields, hm₁, ok_bind, hm']
    · refine (hframe₁.mono ?_ subset_rfl).trans (hframe.mono ?_ subset_rfl)
      · rintro q rfl
        exact ⟨k, Nat.lt_succ_self k, rfl⟩
      · rintro q ⟨l, hl, rfl⟩
        exact ⟨l, Nat.lt_succ_of_lt hl, rfl⟩
    · rcases Nat.lt_succ_iff_lt_or_eq.mp hl with hl | rfl
      · exact hnone l hl
      · have heq : m'.handles (.field i l) = m₁.handles (.field i l) := by
          refine hframe.handles_eq ?_ fun j hj hc => ?_
          · rintro ⟨l', hl', heq⟩
            cases heq
            exact lt_irrefl _ hl'
          · cases hc
            exact absurd hj (hR.irrefl i)
        rw [refersTo, heq]
        exact hnone₁

/-- **`decreace_`**, of a handle which points to something, with enough
fuel. The induction goes down from an object to those in its handles. -/
theorem decreace_spec {fuel : ℕ} : ∀ {D : Finset ℕ} {P : Set Place} {m : PtrMemory} {p : Place}
    {i : ℕ}, Ready D P R m p → m.refersTo p = some i → m.next < fuel + D.card →
      ∃ m', decreace fuel (m.take i) p = .ok m' ∧ Decreaced D P R m p i m' := by
  induction fuel with
  | zero =>
    intro D P m p i h _ hfuel
    have hle := h.counted.card_le
    omega
  | succ fuel ih =>
    intro D P m p i h hp hfuel
    have hwhole := h.counted.handles_of_refersTo hp
    obtain ⟨hi, hkept⟩ := h.counted.kept hp h.pending
    obtain ⟨n, hn, hcard, hpos⟩ := hkept.counter
    have hlt : n < 2 ^ 32 := by
      have hfew := h.few i
      rw [hcard] at hfew
      exact_mod_cast hfew
    by_cases hone : wrap (wrap n - 1) = 0
    · rw [(wrap_pred_eq_zero hpos hlt.le).mp hone] at hn hcard
      have hcounter : m.counters i = some 1 := hn
      have henter := h.counted.enter hp h.pending hcard
      have hpi : ∀ j, p.container = some j → R i j := by
        intro j hj
        cases p with
        | handle => cases hj
        | field obj k =>
          cases hj
          exact h.ordered.field _ k i hp
      have hP : ∀ q ∈ insert p P, ∀ j, q.container = some j → R i j := by
        rintro q (rfl | hq) j hj
        · exact hpi j hj
        · exact h.higher q hq i j hp hj
      obtain ⟨w, hw⟩ := Option.ne_none_iff_exists'.mp hkept.object
      have hcard : (insert i D).card = D.card + 1 := Finset.card_insert_of_notMem hi
      obtain ⟨m₁, hm₁, hcounted, hframe, hempty⟩ := destroyFields_of_decreace
        (m := (m.take i).setCounter i 0) (fun hready => ih hready) henter
        (h.few.mono fun _ _ hq => ⟨fun hin => hq.1 (Or.inr hin), hq.2⟩)
        ⟨h.ordered.irrefl, h.ordered.trans, h.ordered.field⟩ hP
        (show m.next < fuel + (insert i D).card by omega) hw le_rfl
      -- the handle is where it was
      have hnot : p.container ≠ some i := fun hc => h.ordered.irrefl i (hpi i hc)
      have hwhole₁ : m₁.handles p = some (.whole i) := by
        refine (hframe.handles_eq ?_ fun j hj hc => ?_).trans hwhole
        · rintro ⟨l, _, rfl⟩
          exact hnot rfl
        · exact absurd (h.ordered.trans _ _ _ hj (hpi j hc)) (h.ordered.irrefl j)
      have hdying := hcounted.dying i (Finset.mem_insert_self i D)
      have hw₁ : m₁.objects i = some w := by
        rcases hframe.objects i with heq | ⟨hii, _⟩
        · exact heq.trans hw
        · exact absurd hii (h.ordered.irrefl i)
      have hfields : ∀ q, q.container = some i → m₁.refersTo q = none := by
        intro q hq
        cases q with
        | handle => cases hq
        | field obj k =>
          cases hq
          by_cases hk : k < w
          · exact hempty k hk
          · refine refersTo_of_none (not_not.mp fun hthere => hk ?_)
            obtain ⟨w', hw', hk'⟩ := (hcounted.fields _ k).mp hthere
            rw [hw₁] at hw'
            cases hw'
            exact hk'
      refine ⟨m₁.without i p, ?_, .last (handles_without ..) ?_ ?_⟩
      · refine decreace_last hwhole hcounter ?_ hwhole₁ hnot hdying.object ?_ hdying.mutex
        · rw [destroyObject, show ((m.take i).setCounter i 0).objects i = some w from hw]
          exact hm₁
        · rw [show m₁.counters i = some 0 from hdying.counter]
          exact Option.some_ne_none 0
      · exact hcounted.leave hi (refersTo_of_some hwhole₁) hnot hfields
      · refine ⟨hframe.next, fun j => ?_, fun q hq => ?_⟩
        · show Function.update m₁.objects i none j = m.objects j ∨ _
          by_cases hj : j = i
          · rw [hj]
            exact Or.inr ⟨Or.inl rfl, Function.update_self ..⟩
          · refine (hframe.objects j).imp (Function.update_of_ne hj ..).trans ?_
            rintro ⟨hji, hnone⟩
            exact ⟨Or.inr hji, (Function.update_of_ne hj ..).trans hnone⟩
        · show Function.update (fun q => if q.container = some i then none else m₁.handles q) p
            (some {}) q = m.handles q ∨ _
          rw [Function.update_of_ne hq]
          by_cases hc : q.container = some i
          · exact Or.inr ⟨i, Or.inl rfl, hc, Function.update_self ..⟩
          · rw [if_neg hc]
            have hq' : q ∉ {q | ∃ l < w, q = .field i l} := by
              rintro ⟨l, _, rfl⟩
              exact hc rfl
            refine (hframe.handles q hq').imp_right ?_
            rintro ⟨j, hj, hqj, hnone⟩
            have hne : j ≠ i := by
              rintro rfl
              exact h.ordered.irrefl j hj
            exact ⟨j, Or.inr hj, hqj, (Function.update_of_ne hne ..).trans hnone⟩
    · refine ⟨_, decreace_shared (m := m.take i) hwhole hn hone, ?_⟩
      refine .shared (Function.update_self ..) (Function.update_self ..)
        (h.counted.giveUp_shared hp h.pending hn hone) ⟨rfl, fun _ => Or.inl rfl, fun q hq => ?_⟩
      exact Or.inl (Function.update_of_ne hq ..)

/-- **Giving up an object**, in between operations. -/
theorem giveUp_spec (h : Counted ∅ ∅ m) (hfew : Few ∅ m) (hR : Ordered R m)
    (hp : m.refersTo p = some i) :
    ∃ m', m.giveUp (decreace m.fuel) p = .ok m' ∧ Counted ∅ ∅ m' ∧ Frame {p} (below R i) m m'
      ∧ (∃ c, m'.handles p = some c) ∧ m'.refersTo p = none := by
  refine giveUp_of_decreace h hp (Set.notMem_empty p) (decreace_spec ⟨h, hfew, hR, ?_, ?_⟩ hp ?_)
  · exact Set.notMem_empty p
  · exact fun q hq => absurd hq (Set.notMem_empty q)
  · exact Nat.lt_succ_self m.next

end GiveUp

end PtrMemory
