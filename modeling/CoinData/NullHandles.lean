import CoinData.SharedPtrOperations

/-!
# Handles made from a null pointer

The constructor from a pointer allocates a mutex and a counter whatever the
pointer. What gives them back is `decreace_`, and every function from which
it is called returns before, if the pointer is null. So a handle made from
`nullptr` leaves a counter and a mutex behind, and `MutableReader::read`
makes one each time it is called while no reader is bound.

A handle made by the default constructor is null as well, and has neither.
-/

open Except (ok_bind)

namespace PtrMemory

/-- **`ShmSharedPtr(T* raw)`**: a mutex and a counter, which `increace_`
makes one. -/
def constructRaw (m : PtrMemory) (h : ℕ) (raw : Option ℕ) : Except PtrFault PtrMemory :=
  let i := m.next
  increace { m with
    handles := Function.update m.handles (.handle h) (some ⟨raw, some i, some i⟩)
    counters := Function.update m.counters i (some 0)
    mutexes := Function.update m.mutexes i (some false)
    next := i + 1 } (some i)

/-- **`makeShmShared`** constructs an object, and a handle from the pointer
to it. -/
theorem makeShmShared_eq_constructRaw (m : PtrMemory) (h width : ℕ) :
    m.makeShmShared h width = constructRaw { m with
      handles := fun
        | .field obj k => if obj = m.next ∧ k < width then some {} else m.handles (.field obj k)
        | .handle h' => m.handles (.handle h')
      objects := Function.update m.objects m.next (some width) } h (some m.next) := by
  unfold makeShmShared constructRaw
  dsimp only
  congr 2
  funext p
  cases p with
  | field obj k => rfl
  | handle h' =>
    by_cases hh : h' = h
    · rw [hh, Function.update_self]
      exact if_pos rfl
    · rw [Function.update_of_ne fun heq => hh (Place.handle.inj heq)]
      exact if_neg hh

end PtrMemory

/-- What is allocated from the shared memory. -/
inductive PtrCell where
  | object (i : ℕ)
  | counter (i : ℕ)
  | mutex (i : ℕ)
deriving DecidableEq, Repr

/-- The number of what is allocated. -/
def PtrCell.number : PtrCell → ℕ
  | .object i | .counter i | .mutex i => i

/-- **What is allocated.** -/
def PtrMemory.allocated (m : PtrMemory) : Set PtrCell
  | .object i => m.objects i ≠ none
  | .counter i => m.counters i ≠ none
  | .mutex i => m.mutexes i ≠ none

/-- `MutableReader`, bound to a reader or not. -/
structure MutableReader (ρ : Type) where
  reader : Option ρ
deriving DecidableEq, Repr

/-- **`MutableReader::read`** into a place; what a bound reader reads is up
to the reader. -/
def MutableReader.read {ρ : Type}
    (readerRead : ρ → ℕ → PtrMemory → Except PtrFault PtrMemory) (r : MutableReader ρ) (h : ℕ)
    (m : PtrMemory) : Except PtrFault PtrMemory :=
  match r.reader with
  | some reader => readerRead reader h m
  | none => m.constructRaw h none

/-- An operation, or a construction from `nullptr`. -/
inductive RawPtrOp where
  | op (l : PtrOp)
  | fromNull (h : ℕ)
deriving DecidableEq, Repr

/-- The handle which an operation destroys, resets, moves or assigns
from. -/
def PtrOp.source : PtrOp → Option Place
  | .makeShmShared .. | .construct _ => none
  | .copyConstruct _ rhs | .moveConstruct _ rhs | .copyAssign _ rhs | .moveAssign _ rhs => some rhs
  | .reset p => some p
  | .destroy h => some (.handle h)

/-- What is done with null handles: a reader that is not bound is read, and
the handle is dropped; or a handle is made from `nullptr`, or is the source
of an operation. -/
inductive NullOp (ρ : Type) where
  | poll (r : MutableReader ρ) (h : ℕ)
  | step (l : RawPtrOp)
deriving DecidableEq, Repr

/-- The call makes a handle from `nullptr`. -/
def NullOp.Constructs {ρ : Type} : NullOp ρ → Prop
  | .poll .. | .step (.fromNull _) => True
  | .step (.op _) => False

instance {ρ : Type} : (l : NullOp ρ) → Decidable l.Constructs
  | .poll .. | .step (.fromNull _) => inferInstanceAs (Decidable True)
  | .step (.op _) => inferInstanceAs (Decidable False)

namespace PtrMemory

/-- **An operation, or a construction from `nullptr`.** -/
def runRaw (m : PtrMemory) : RawPtrOp → Except PtrFault PtrMemory
  | .op l => m.run l
  | .fromNull h => m.constructRaw h none

/-- Handles are there, or their places are free. -/
def EnabledRaw (m : PtrMemory) : RawPtrOp → Prop
  | .op l => m.Enabled l
  | .fromNull h => m.handles (.handle h) = none

/-- What is read while the reader is not bound, and what is done with a
handle which is null. -/
def Admits {ρ : Type} (m : PtrMemory) : NullOp ρ → Prop
  | .poll r h => r.reader = none ∧ m.handles (.handle h) = none
  | .step (.op l) => m.Enabled l ∧ ∃ p ∈ l.source, m.view p = some none
  | .step (.fromNull h) => m.handles (.handle h) = none

instance (m : PtrMemory) : (l : RawPtrOp) → Decidable (m.EnabledRaw l)
  | .op l => inferInstanceAs (Decidable (m.Enabled l))
  | .fromNull h => inferInstanceAs (Decidable (m.handles (.handle h) = none))

instance {ρ : Type} (m : PtrMemory) : (l : NullOp ρ) → Decidable (m.Admits l)
  | .poll r h => inferInstanceAs (Decidable (r.reader = none ∧ m.handles (.handle h) = none))
  | .step (.op l) =>
    inferInstanceAs (Decidable (m.Enabled l ∧ ∃ p ∈ l.source, m.view p = some none))
  | .step (.fromNull h) => inferInstanceAs (Decidable (m.handles (.handle h) = none))

/-- **What is done with a null handle.** -/
def runNull {ρ : Type} (readerRead : ρ → ℕ → PtrMemory → Except PtrFault PtrMemory)
    (m : PtrMemory) : NullOp ρ → Except PtrFault PtrMemory
  | .poll r h => do
    let m ← r.read readerRead h m
    m.destroy h
  | .step l => m.runRaw l

end PtrMemory

/-- **Any operations**, and constructions from `nullptr`, until there is a
fault. -/
def rawPtrSystem : TransitionSystem (Except PtrFault PtrMemory) RawPtrOp where
  init r := r = .ok .empty
  step r l r' := ∃ m, r = .ok m ∧ m.EnabledRaw l ∧ r' = m.runRaw l

/-- **What is done with null handles**, beginning with a memory. -/
def nullSystem {ρ : Type} (readerRead : ρ → ℕ → PtrMemory → Except PtrFault PtrMemory)
    (m₀ : PtrMemory) : TransitionSystem (Except PtrFault PtrMemory) (NullOp ρ) where
  init r := r = .ok m₀
  step r l r' := ∃ m, r = .ok m ∧ m.Admits l ∧ r' = m.runNull readerRead l

namespace PtrMemory

/-! ## What an operation allocates -/

/-- Nothing is allocated from one memory to the other. -/
structure Shrinks (m m' : PtrMemory) : Prop where
  next : m'.next = m.next
  allocated : m'.allocated ⊆ m.allocated

/-- If a call returns, it has allocated nothing. -/
def Within (m : PtrMemory) (x : Except PtrFault PtrMemory) : Prop :=
  ∀ m', x = .ok m' → Shrinks m m'

variable {m m' : PtrMemory} {p : Place} {i : ℕ} {α : Type}

theorem Shrinks.refl (m : PtrMemory) : Shrinks m m := ⟨rfl, subset_rfl⟩

/-- Each object, counter and mutex which is there was there before. -/
theorem Shrinks.of_cells (hnext : m'.next = m.next)
    (hobject : ∀ i, m'.objects i ≠ none → m.objects i ≠ none)
    (hcounter : ∀ i, m'.counters i ≠ none → m.counters i ≠ none)
    (hmutex : ∀ i, m'.mutexes i ≠ none → m.mutexes i ≠ none) : Shrinks m m' := by
  refine ⟨hnext, fun b hb => ?_⟩
  cases b with
  | object i => exact hobject i hb
  | counter i => exact hcounter i hb
  | mutex i => exact hmutex i hb

/-- What is stored where something is takes up nothing. -/
theorem ne_none_of_update {β : Type} {f : ℕ → Option β} {x : Option β} {j : ℕ} (hi : f i ≠ none)
    (hj : Function.update f i x j ≠ none) : f j ≠ none := by
  by_cases hji : j = i
  · rw [hji]
    exact hi
  · rwa [Function.update_of_ne hji] at hj

namespace Within

theorem ok (h : Shrinks m m') : Within m (.ok m') := by
  rintro m₁ ⟨⟩
  exact h

theorem error {e : PtrFault} : Within m (.error e) := by
  rintro m' ⟨⟩

/-- A call, and what comes after it. -/
theorem bind {x : Except PtrFault PtrMemory} {f : PtrMemory → Except PtrFault PtrMemory}
    (hx : Within m x) (hf : ∀ m₁, Within m₁ (f m₁)) : Within m (x >>= f) := by
  intro m' h
  obtain ⟨m₁, hm₁, hm'⟩ := Except.bind_eq_ok.mp h
  have h₁ := hx m₁ hm₁
  have h' := hf m₁ m' hm'
  exact ⟨h'.next.trans h₁.next, h'.allocated.trans h₁.allocated⟩

/-- Something is read, and what comes after it. -/
theorem read {x : Except PtrFault α} {f : α → Except PtrFault PtrMemory}
    (hf : ∀ a, Within m (f a)) : Within m (x >>= f) := by
  intro m' h
  obtain ⟨a, _, hm'⟩ := Except.bind_eq_ok.mp h
  exact hf a m' hm'

theorem write (m : PtrMemory) (p : Place) (c : ShmSharedPtr) : Within m (.ok (m.write p c)) :=
  ok ⟨rfl, subset_rfl⟩

theorem modify (m : PtrMemory) (p : Place) (f : ShmSharedPtr → ShmSharedPtr) :
    Within m (m.modify p f) :=
  read fun c => write m p (f c)

/-- A mutex which is there is locked or unlocked. -/
theorem setMutex (hi : m.mutexes i ≠ none) (b : Bool) (events : List PtrEvent) :
    Within m (.ok { m with
      mutexes := Function.update m.mutexes i (some b)
      events := events }) :=
  ok (.of_cells rfl (fun _ h => h) (fun _ h => h) fun _ h => ne_none_of_update hi h)

theorem timedlock (m : PtrMemory) (i : ℕ) : Within m (m.timedlock i) := by
  unfold PtrMemory.timedlock
  split
  · exact error
  · exact error
  · next hi => exact setMutex (by rw [hi]; exact Option.some_ne_none _) true _

theorem unlock (m : PtrMemory) (i : ℕ) : Within m (m.unlock i) := by
  unfold PtrMemory.unlock
  split
  · exact error
  · exact error
  · next hi => exact setMutex (by rw [hi]; exact Option.some_ne_none _) false _

theorem lock (m : PtrMemory) (p : Place) : Within m (m.lock p) := by
  refine read fun c => ?_
  split
  · exact ok (.refl m)
  · exact timedlock m _

theorem unlockMutex (m : PtrMemory) (p : Place) : Within m (m.unlockMutex p) := by
  refine read fun c => ?_
  split
  · exact ok (.refl m)
  · exact unlock m _

theorem unlockRef (m : PtrMemory) (p : Place) : Within m (m.unlockRef p) :=
  read fun _ => read fun i => unlock m i

theorem fetchAdd (m : PtrMemory) (i : ℕ) (d : ℤ) : Within m (m.fetchAdd i d) := by
  unfold PtrMemory.fetchAdd
  split
  · exact error
  · next hi =>
    have hne : m.counters i ≠ none := by
      rw [hi]
      exact Option.some_ne_none _
    exact ok (.of_cells rfl (fun _ h => h) (fun _ h => ne_none_of_update hne h) fun _ h => h)

theorem increace (m : PtrMemory) (usedCounter : Option ℕ) :
    Within m (m.increace usedCounter) := by
  unfold PtrMemory.increace
  split
  · exact ok (.refl m)
  · exact fetchAdd m _ 1

theorem freeObject (m : PtrMemory) (i : ℕ) : Within m (m.freeObject i) := by
  unfold PtrMemory.freeObject
  split
  · exact error
  · next hi =>
    have hne : m.objects i ≠ none := by
      rw [hi]
      exact Option.some_ne_none _
    exact ok (.of_cells rfl (fun _ h => ne_none_of_update hne h) (fun _ h => h) fun _ h => h)

theorem freeCounter (m : PtrMemory) (i : ℕ) : Within m (m.freeCounter i) := by
  unfold PtrMemory.freeCounter
  split
  · exact error
  · next hi =>
    have hne : m.counters i ≠ none := by
      rw [hi]
      exact Option.some_ne_none _
    exact ok (.of_cells rfl (fun _ h => h) (fun _ h => ne_none_of_update hne h) fun _ h => h)

theorem freeMutex (m : PtrMemory) (i : ℕ) : Within m (m.freeMutex i) := by
  unfold PtrMemory.freeMutex
  split
  · exact error
  · exact error
  · next hi =>
    have hne : m.mutexes i ≠ none := by
      rw [hi]
      exact Option.some_ne_none _
    exact ok (.of_cells rfl (fun _ h => h) (fun _ h => h) fun _ h => ne_none_of_update hne h)

section Decreace

variable {decreace : PtrMemory → Place → Except PtrFault PtrMemory}
  (hdecreace : ∀ m p, Within m (decreace m p))

include hdecreace

theorem giveUp (m : PtrMemory) (p : Place) : Within m (m.giveUp decreace p) :=
  bind (lock m p) fun m₁ => bind (hdecreace m₁ p) fun m₂ => unlockMutex m₂ p

theorem giveUpRaw (m : PtrMemory) (p : Place) : Within m (m.giveUpRaw decreace p) := by
  refine read fun c => ?_
  split
  · exact ok (.refl m)
  · exact giveUp hdecreace m p

theorem destroyFields (obj k : ℕ) (m : PtrMemory) :
    Within m (destroyFields decreace obj k m) := by
  induction k generalizing m with
  | zero => exact ok (.refl m)
  | succ k ih => exact bind (giveUpRaw hdecreace m _) fun m₁ => ih m₁

theorem destroyObject (m : PtrMemory) (obj : ℕ) : Within m (m.destroyObject decreace obj) := by
  unfold PtrMemory.destroyObject
  split
  · exact error
  · exact destroyFields hdecreace obj _ m

end Decreace

/-- **`decreace_` allocates nothing.** -/
theorem decreace (fuel : ℕ) (m : PtrMemory) (p : Place) : Within m (decreace fuel m p) := by
  induction fuel generalizing m p with
  | zero => exact error
  | succ fuel ih =>
    refine read fun c => ?_
    split
    · exact ok (.refl m)
    · refine read fun i => bind (fetchAdd m i (-1)) fun m₁ => read fun j => read fun count => ?_
      split
      · refine read fun obj => bind (destroyObject ih m₁ obj) fun m₂ => read fun c =>
          read fun obj => bind (freeObject m₂ obj) fun m₃ =>
          read fun k => bind (freeCounter m₃ k) fun m₄ => ?_
        exact read fun k => bind (unlock m₄ k) fun m₅ => read fun k =>
          bind (freeMutex m₅ k) fun m₆ => bind (modify m₆ p _) fun m₇ => modify m₇ p _
      · exact modify m₁ p _

theorem share (m : PtrMemory) (lhs rhs : Place) : Within m (m.share lhs rhs) :=
  bind (lock m rhs) fun m₁ => read fun c => bind (modify m₁ lhs _) fun m₂ =>
    increace m₂ c.usedCounter

theorem copyAssign (m : PtrMemory) (lhs rhs : Place) : Within m (m.copyAssign lhs rhs) := by
  refine read fun r => ?_
  split
  · exact ok (.refl m)
  · exact bind (giveUpRaw (decreace _) m lhs) fun m₁ => bind (share m₁ lhs rhs) fun m₂ =>
      unlockRef m₂ rhs

theorem moveAssign (m : PtrMemory) (lhs rhs : Place) : Within m (m.moveAssign lhs rhs) := by
  refine read fun r => ?_
  split
  · exact ok (.refl m)
  · exact bind (giveUpRaw (decreace _) m lhs) fun m₁ => bind (share m₁ lhs rhs) fun m₂ =>
      bind (decreace _ m₂ rhs) fun m₃ => bind (modify m₃ rhs _) fun m₄ => unlockRef m₄ lhs

/-- Storing a handle, and what comes after it. -/
theorem of_write {x : Except PtrFault PtrMemory} {c : ShmSharedPtr}
    (hx : Within (m.write p c) x) : Within m x := by
  intro m' h
  obtain ⟨hnext, hallocated⟩ := hx m' h
  exact ⟨hnext, hallocated⟩

theorem copyConstruct (m : PtrMemory) (lhs rhs : Place) : Within m (m.copyConstruct lhs rhs) := by
  refine of_write (p := lhs) (c := {}) (read fun r => ?_)
  split
  · exact ok (.refl _)
  · have hshare : ∀ m₁ : PtrMemory,
        Within m₁ (m₁.share lhs rhs >>= fun m => m.unlockMutex rhs) :=
      fun m₁ => bind (share m₁ lhs rhs) fun m₂ => unlockMutex m₂ rhs
    refine read fun l => ?_
    dsimp only
    split
    · exact bind (giveUp (decreace _) _ lhs) hshare
    · exact hshare _

theorem reset (m : PtrMemory) (p : Place) : Within m (m.reset p) := by
  refine read fun c => ?_
  split
  · exact ok (.refl m)
  · split
    · exact bind (lock m p) fun m₁ => bind (decreace _ m₁ p) fun m₂ => bind (modify m₂ p _)
        fun m₃ => bind (unlockMutex m₃ p) fun m₄ => modify m₄ p _
    · exact modify m p _

theorem destroy (m : PtrMemory) (h : ℕ) : Within m (m.destroy h) :=
  bind (giveUpRaw (decreace _) m _) fun _ => ok ⟨rfl, subset_rfl⟩

end Within

end PtrMemory

/-! ## What has not been allocated yet -/

namespace PtrMemory

variable {m m' : PtrMemory} {p : Place} {h : ℕ}

/-- **What is allocated next is not allocated yet.** -/
def Fresh (m : PtrMemory) : Prop := ∀ b ∈ m.allocated, b.number < m.next

theorem Fresh.shrinks (hm : m.Fresh) (hs : Shrinks m m') : m'.Fresh := by
  intro b hb
  rw [hs.next]
  exact hm b (hs.allocated hb)

/-- A counter and a mutex of the next number. -/
def handleCells (i : ℕ) : Set PtrCell := {.counter i, .mutex i}

/-- **What a handle that is made takes.** -/
theorem constructRaw_spec (m : PtrMemory) (h : ℕ) (raw : Option ℕ) :
    ∃ m', m.constructRaw h raw = .ok m' ∧ m'.next = m.next + 1
      ∧ m'.allocated = m.allocated ∪ handleCells m.next
      ∧ m'.handles = Function.update m.handles (.handle h)
        (some ⟨raw, some m.next, some m.next⟩) := by
  refine ⟨_, fetchAdd_of_some (v := 0) (Function.update_self ..), rfl, ?_, rfl⟩
  ext b
  cases b with
  | object i =>
    refine (or_iff_left ?_).symm
    rintro (heq | heq) <;> cases heq
  | counter i =>
    show Function.update (Function.update m.counters m.next (some 0)) m.next _ i ≠ none ↔ _
    rw [Function.update_idem]
    by_cases hi : i = m.next
    · rw [hi, Function.update_self]
      exact iff_of_true (Option.some_ne_none _) (Or.inr (Or.inl rfl))
    · rw [Function.update_of_ne hi]
      refine (or_iff_left ?_).symm
      rintro (heq | heq)
      · exact hi (PtrCell.counter.inj heq)
      · cases heq
  | mutex i =>
    show Function.update m.mutexes m.next (some false) i ≠ none ↔ _
    by_cases hi : i = m.next
    · rw [hi, Function.update_self]
      exact iff_of_true (Option.some_ne_none _) (Or.inr (Or.inr rfl))
    · rw [Function.update_of_ne hi]
      refine (or_iff_left ?_).symm
      rintro (heq | heq)
      · cases heq
      · exact hi (PtrCell.mutex.inj heq)

theorem Fresh.constructRaw (hm : m.Fresh) {raw : Option ℕ} (h : m.constructRaw h raw = .ok m') :
    m'.Fresh := by
  obtain ⟨m₁, hm₁, hnext, hallocated, _⟩ := constructRaw_spec m _ raw
  cases h.symm.trans hm₁
  intro b hb
  rw [hallocated] at hb
  rw [hnext]
  rcases hb with hb | rfl | rfl
  · exact (hm b hb).trans (Nat.lt_succ_self _)
  · exact Nat.lt_succ_self _
  · exact Nat.lt_succ_self _

/-- An object of the next number is stored. -/
theorem Fresh.makeShmShared (hm : m.Fresh) {width : ℕ}
    (hrun : m.makeShmShared h width = .ok m') : m'.Fresh := by
  rw [makeShmShared_eq_constructRaw] at hrun
  obtain ⟨m₁, hm₁, hnext, hallocated, _⟩ := constructRaw_spec { m with
      handles := fun
        | .field obj k => if obj = m.next ∧ k < width then some {} else m.handles (.field obj k)
        | .handle h' => m.handles (.handle h')
      objects := Function.update m.objects m.next (some width) } h (some m.next)
  cases hrun.symm.trans hm₁
  intro b hb
  rw [hallocated] at hb
  rw [hnext]
  show b.number < m.next + 1
  rcases hb with hb | rfl | rfl
  · by_cases hb' : b = .object m.next
    · rw [hb']
      exact Nat.lt_succ_self _
    · refine (hm b ?_).trans (Nat.lt_succ_self _)
      cases b with
      | object i =>
        have hi : i ≠ m.next := fun heq => hb' (congrArg PtrCell.object heq)
        change Function.update m.objects m.next _ i ≠ none at hb
        rwa [Function.update_of_ne hi] at hb
      | counter i => exact hb
      | mutex i => exact hb
  · exact Nat.lt_succ_self _
  · exact Nat.lt_succ_self _

/-- **Every operation keeps what is not allocated yet apart.** -/
theorem Fresh.runRaw (hm : m.Fresh) {l : RawPtrOp} (hrun : m.runRaw l = .ok m') : m'.Fresh := by
  cases l with
  | fromNull h => exact hm.constructRaw hrun
  | op l =>
    cases l with
    | makeShmShared h width => exact hm.makeShmShared hrun
    | construct h => exact hm.shrinks (Within.write m _ _ m' hrun)
    | copyConstruct h rhs => exact hm.shrinks (Within.copyConstruct m _ rhs m' hrun)
    | moveConstruct h rhs =>
      exact hm.shrinks (Within.of_write (Within.moveAssign _ _ rhs) m' hrun)
    | copyAssign lhs rhs => exact hm.shrinks (Within.copyAssign m lhs rhs m' hrun)
    | moveAssign lhs rhs => exact hm.shrinks (Within.moveAssign m lhs rhs m' hrun)
    | reset p => exact hm.shrinks (Within.reset m p m' hrun)
    | destroy h => exact hm.shrinks (Within.destroy m h m' hrun)

theorem fresh_of_reachable (hr : rawPtrSystem.Reachable (.ok m)) : m.Fresh := by
  have hinv : ∀ m', (.ok m : Except PtrFault PtrMemory) = .ok m' → m'.Fresh := by
    refine hr.invariant (I := fun r => ∀ m', r = .ok m' → m'.Fresh) ?_ ?_
    · rintro r rfl m' ⟨⟩ b hb
      cases b <;> exact absurd rfl hb
    · rintro r l r' _ ih ⟨m, rfl, _, rfl⟩ m' hm'
      exact (ih m rfl).runRaw hm'
  exact hinv m rfl

/-! ## Null handles -/

/-- A null handle is null, wherever a null handle is stored. -/
theorem read_write_null {c : ShmSharedPtr} (hc : m.handles p = some c) (hraw : c.rawPtr = none) :
    ∃ c', (m.write (.handle h) {}).read p = .ok c' ∧ c'.rawPtr = none := by
  by_cases hp : p = .handle h
  · rw [hp]
    exact ⟨{}, read_of_some (handles_write m _ _), rfl⟩
  · refine ⟨c, read_of_some ?_, hraw⟩
    exact (Function.update_of_ne hp _ _).trans hc

/-- **The destructor of a null handle** returns before it does anything. -/
theorem destroy_null {c : ShmSharedPtr} (hc : m.handles (.handle h) = some c)
    (hraw : c.rawPtr = none) : m.destroy h
      = .ok { m with handles := Function.update m.handles (.handle h) none } := by
  unfold destroy giveUpRaw
  rw [read_of_some hc, ok_bind, if_pos hraw]
  rfl

/-- **What an operation on a null handle allocates and gives back**:
nothing. -/
theorem run_null {l : PtrOp} (hsource : p ∈ l.source) (hp : m.view p = some none) :
    ∃ m', m.run l = .ok m' ∧ m'.next = m.next ∧ m'.allocated = m.allocated := by
  obtain ⟨c, hc, hraw⟩ := Option.map_eq_some_iff.mp hp
  cases l with
  | makeShmShared h width => cases hsource
  | construct h => cases hsource
  | copyConstruct h rhs =>
    cases hsource
    obtain ⟨c', hc', hraw'⟩ := read_write_null (h := h) hc hraw
    refine ⟨m.write (.handle h) {}, ?_, rfl, rfl⟩
    show m.copyConstruct (.handle h) p = _
    rw [copyConstruct]
    dsimp only
    rw [hc', ok_bind, if_pos (Or.inl hraw')]
    rfl
  | moveConstruct h rhs =>
    cases hsource
    obtain ⟨c', hc', hraw'⟩ := read_write_null (h := h) hc hraw
    refine ⟨m.write (.handle h) {}, ?_, rfl, rfl⟩
    show (m.write (.handle h) {}).moveAssign (.handle h) p = _
    rw [moveAssign, hc', ok_bind, if_pos (Or.inl hraw')]
    rfl
  | copyAssign lhs rhs =>
    cases hsource
    refine ⟨m, ?_, rfl, rfl⟩
    show m.copyAssign lhs p = _
    rw [copyAssign, read_of_some hc, ok_bind, if_pos (Or.inl hraw)]
    rfl
  | moveAssign lhs rhs =>
    cases hsource
    refine ⟨m, ?_, rfl, rfl⟩
    show m.moveAssign lhs p = _
    rw [moveAssign, read_of_some hc, ok_bind, if_pos (Or.inl hraw)]
    rfl
  | reset p =>
    cases hsource
    refine ⟨m, ?_, rfl, rfl⟩
    show m.reset p = _
    rw [reset, read_of_some hc, ok_bind, if_pos hraw]
    rfl
  | destroy h =>
    cases hsource
    exact ⟨_, destroy_null hc hraw, rfl, rfl⟩

/-- The handles made from `nullptr`, in a run. -/
def madeFromNull {ρ : Type} (tr : List (Except PtrFault PtrMemory × NullOp ρ)) : ℕ :=
  tr.countP fun e => e.2.Constructs

/-- What handles made from `nullptr` have left behind. -/
def leaked (i n : ℕ) : Set PtrCell := {b | ∃ j < n, b ∈ handleCells (i + j)}

theorem leaked_succ (i n : ℕ) : leaked i (n + 1) = leaked i n ∪ handleCells (i + n) := by
  ext b
  constructor
  · rintro ⟨j, hj, hb⟩
    rcases Nat.lt_succ_iff_lt_or_eq.mp hj with hj | rfl
    · exact Or.inl ⟨j, hj, hb⟩
    · exact Or.inr hb
  · rintro (⟨j, hj, hb⟩ | hb)
    · exact ⟨j, hj.trans (Nat.lt_succ_self n), hb⟩
    · exact ⟨n, Nat.lt_succ_self n, hb⟩

/-- **A call with null handles** returns, and leaves a counter and a mutex
behind if it makes one. -/
theorem runNull_spec {ρ : Type} {readerRead : ρ → ℕ → PtrMemory → Except PtrFault PtrMemory}
    {l : NullOp ρ} (hl : m.Admits l) : ∃ m', m.runNull readerRead l = .ok m'
      ∧ (l.Constructs → m'.next = m.next + 1
        ∧ m'.allocated = m.allocated ∪ handleCells m.next)
      ∧ (¬ l.Constructs → m'.next = m.next ∧ m'.allocated = m.allocated) := by
  cases l with
  | poll r h =>
    obtain ⟨m₁, hm₁, hnext, hallocated, hhandles⟩ := constructRaw_spec m h none
    refine ⟨{ m₁ with handles := Function.update m₁.handles (.handle h) none }, ?_,
      fun _ => ⟨hnext, hallocated⟩, fun hnot => absurd trivial hnot⟩
    unfold runNull MutableReader.read
    dsimp only
    rw [hl.1]
    dsimp only
    rw [hm₁, ok_bind]
    refine destroy_null (c := ⟨none, some m.next, some m.next⟩) ?_ rfl
    rw [hhandles, Function.update_self]
  | step l =>
    cases l with
    | op l =>
      obtain ⟨_, p, hsource, hp⟩ := hl
      obtain ⟨m', hm', hkept⟩ := run_null hsource hp
      exact ⟨m', hm', fun hmade => absurd hmade id, fun _ => hkept⟩
    | fromNull h =>
      obtain ⟨m', hm', hnext, hallocated, _⟩ := constructRaw_spec m h none
      exact ⟨m', hm', fun _ => ⟨hnext, hallocated⟩, fun hnot => absurd trivial hnot⟩

open TransitionSystem

/-- **What a run with null handles leaves behind.** -/
theorem allocated_of_run {ρ : Type} {readerRead : ρ → ℕ → PtrMemory → Except PtrFault PtrMemory}
    {m₀ : PtrMemory} {tr : List (Except PtrFault PtrMemory × NullOp ρ)}
    {r : Except PtrFault PtrMemory} (hr : (nullSystem readerRead m₀).Run tr r) :
    ∃ m, r = .ok m ∧ m.next = m₀.next + madeFromNull tr
      ∧ m.allocated = m₀.allocated ∪ leaked m₀.next (madeFromNull tr) := by
  induction hr with
  | start hi =>
    refine ⟨m₀, hi, rfl, ?_⟩
    refine (Set.union_eq_self_of_subset_right ?_).symm
    rintro b ⟨j, hj, _⟩
    exact absurd hj (Nat.not_lt_zero j)
  | @snoc tr r r' l _ hstep ih =>
    obtain ⟨m, rfl, hnext, hallocated⟩ := ih
    obtain ⟨m₁, heq, hl, rfl⟩ := hstep
    cases heq
    obtain ⟨m', hm', hmade, hkept⟩ := @runNull_spec _ ρ readerRead l hl
    refine ⟨m', hm', ?_⟩
    by_cases hc : l.Constructs
    · have hcount : madeFromNull ((.ok m, l) :: tr) = madeFromNull tr + 1 :=
        List.countP_cons_of_pos (decide_eq_true hc)
      obtain ⟨hnext', hallocated'⟩ := hmade hc
      rw [hcount, leaked_succ, ← Set.union_assoc, ← hallocated, ← hnext]
      exact ⟨by rw [hnext', hnext, Nat.add_assoc], hallocated'⟩
    · have hcount : madeFromNull ((.ok m, l) :: tr) = madeFromNull tr :=
        List.countP_cons_of_neg fun hd => hc (of_decide_eq_true hd)
      obtain ⟨hnext', hallocated'⟩ := hkept hc
      rw [hcount, hnext', hallocated']
      exact ⟨hnext, hallocated⟩

/-- **What is allocated after a run with null handles is what was allocated
before** exactly if no handle was made from `nullptr` in it, by
`MutableReader::read` or otherwise. -/
theorem allocated_eq_iff {ρ : Type} {readerRead : ρ → ℕ → PtrMemory → Except PtrFault PtrMemory}
    {m₀ : PtrMemory} (h₀ : rawPtrSystem.Reachable (.ok m₀))
    {tr : List (Except PtrFault PtrMemory × NullOp ρ)} {r : Except PtrFault PtrMemory}
    (hr : (nullSystem readerRead m₀).Run tr r) : ∃ m, r = .ok m
      ∧ (m.allocated = m₀.allocated ↔ Met (fun _ l => ¬ l.Constructs) tr) := by
  obtain ⟨m, hm, _, hallocated⟩ := allocated_of_run hr
  have hmet : Met (fun _ l => ¬ l.Constructs) tr ↔ madeFromNull tr = 0 := by
    refine Iff.trans ?_ List.countP_eq_zero.symm
    exact forall₂_congr fun e _ => not_congr decide_eq_true_iff.symm
  refine ⟨m, hm, ?_⟩
  rw [hmet, hallocated]
  constructor
  · intro heq
    by_contra hne
    have hmem : PtrCell.counter m₀.next ∈ m₀.allocated := by
      rw [← heq]
      exact Or.inr ⟨0, Nat.pos_of_ne_zero hne, Or.inl rfl⟩
    exact lt_irrefl _ (fresh_of_reachable h₀ _ hmem)
  · intro hzero
    rw [hzero]
    refine Set.union_eq_self_of_subset_right ?_
    rintro b ⟨j, hj, _⟩
    exact absurd hj (Nat.not_lt_zero j)

/-- Take a step, if it is possible. -/
def nullNext {ρ : Type} (readerRead : ρ → ℕ → PtrMemory → Except PtrFault PtrMemory)
    (r : Except PtrFault PtrMemory) (l : NullOp ρ) : Option (Except PtrFault PtrMemory) :=
  match r with
  | .ok m => if m.Admits l then some (m.runNull readerRead l) else none
  | .error _ => none

theorem step_of_nullNext {ρ : Type} {readerRead : ρ → ℕ → PtrMemory → Except PtrFault PtrMemory}
    {m₀ : PtrMemory} (r : Except PtrFault PtrMemory) (l : NullOp ρ)
    (r' : Except PtrFault PtrMemory) (h : nullNext readerRead r l = some r') :
    (nullSystem readerRead m₀).step r l r' := by
  cases r with
  | error e => cases h
  | ok m =>
    obtain ⟨hl, heq⟩ := Option.ite_none_right_eq_some.mp h
    exact ⟨m, rfl, hl, (Option.some.inj heq).symm⟩

/-- A handle made by the default constructor is reset, copied and
dropped. -/
theorem allocated_eq_iff_default : ∃ m₀ m tr, rawPtrSystem.Reachable (.ok m₀)
    ∧ (nullSystem (Empty.elim : Empty → _) m₀).Run tr (.ok m) ∧ tr.length = 3
    ∧ m.allocated = m₀.allocated := by
  have h₀ : rawPtrSystem.Reachable (.ok (empty.write (.handle 0) {})) :=
    .step (l := .op (.construct 0)) (.init rfl) ⟨empty, rfl, rfl, rfl⟩
  have htrace : (trace (nullNext (Empty.elim : Empty → _)) [] (.ok (empty.write (.handle 0) {}))
      [.step (.op (.reset (.handle 0))), .step (.op (.copyConstruct 1 (.handle 0))),
        .step (.op (.destroy 0))]).map
        (fun e => (e.1.length, decide (Met (fun _ l => ¬ l.Constructs) e.1)))
      = some (3, true) := by decide +kernel
  obtain ⟨tr, r, hr, heq⟩ := Run.exists_of_trace
    (S := nullSystem (Empty.elim : Empty → _) (empty.write (.handle 0) {})) step_of_nullNext rfl
    htrace
  obtain ⟨hlen, hmet⟩ := Prod.mk.inj heq
  obtain ⟨m, rfl, hiff⟩ := allocated_eq_iff h₀ hr
  exact ⟨_, m, tr, h₀, hr, hlen, hiff.mpr (of_decide_eq_true hmet)⟩

/-- **A read while no reader is bound**, whose handle is dropped, leaves a
counter and a mutex behind; and so does a handle made from `nullptr` which
is reset and then destroyed. -/
theorem allocated_grows : ∃ m tr, (nullSystem (Empty.elim : Empty → _) empty).Run tr (.ok m)
    ∧ tr.map Prod.snd = [.step (.op (.destroy 1)), .step (.op (.reset (.handle 1))),
      .step (.fromNull 1), .poll ⟨none⟩ 0]
    ∧ m.allocated ≠ empty.allocated := by
  have htrace : (trace (nullNext (Empty.elim : Empty → _)) [] (.ok empty)
      [.poll ⟨none⟩ 0, .step (.fromNull 1), .step (.op (.reset (.handle 1))),
        .step (.op (.destroy 1))]).map
        (fun e => (e.1.map Prod.snd, e.2.toOption.map fun m => (m.counters 0, m.mutexes 1)))
      = some ([.step (.op (.destroy 1)), .step (.op (.reset (.handle 1))), .step (.fromNull 1),
        .poll ⟨none⟩ 0], some (some 1, some false)) := by decide +kernel
  obtain ⟨tr, r, hr, heq⟩ := Run.exists_of_trace (S := nullSystem (Empty.elim : Empty → _) empty)
    step_of_nullNext rfl htrace
  obtain ⟨hlabels, hcells⟩ := Prod.mk.inj heq
  obtain ⟨m, hm, hm'⟩ := Option.map_eq_some_iff.mp hcells
  obtain rfl : r = .ok m := Except.toOption_eq_some.mp hm
  obtain ⟨hcounter, _⟩ := Prod.mk.inj hm'
  refine ⟨m, tr, hr, hlabels, fun hsame => ?_⟩
  have hmem : PtrCell.counter 0 ∈ m.allocated := by
    show m.counters 0 ≠ none
    rw [hcounter]
    exact Option.some_ne_none _
  rw [hsame] at hmem
  exact hmem rfl

end PtrMemory
