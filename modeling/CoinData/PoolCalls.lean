import CoinData.Results
import CoinData.ThreadBindPool

/-!
# Which workers a pool has

Both overloads of `add_task_to` make the workers up to the index of theirs,
and start the thread of this one. So a worker which is made on the way to
another one has no thread until it is given a task itself; and the destructor
of the pool, which joins the threads of all workers, follows a null pointer
if there is one left.

Nor do the overloads agree on which indices there are: one refuses those
above `reserve_`, while the other one takes every index modulo `reserve_`. An
index of `reserve_` itself is a worker too many for the first one, and
worker zero for the second.
-/

/-- What goes wrong. -/
inductive PoolFault where
  | divByZero
  | nullDeref
deriving DecidableEq, Repr

/-- The worker which the first overload gives a task to, unless it refuses
it. -/
def taskSlot (reserve index : ℕ) : Option ℕ := if reserve < index then none else some index

/-- The worker which the second overload gives a task to, unless it divides by
zero. -/
def callableSlot (reserve index : ℕ) : Option ℕ :=
  if reserve = 0 then none else some (index % reserve)

namespace PoolStep

variable {τ : Type}

/-- The index a task is added to. -/
def index : PoolStep τ → Option ℕ
  | .addTask _ index | .addCallable _ index => some index
  | _ => none

/-- The worker which a call gives a task to. -/
def slot (reserve : ℕ) : PoolStep τ → Option ℕ
  | .addTask _ index => taskSlot reserve index
  | .addCallable _ index => callableSlot reserve index
  | _ => none

/-- The second overload is called. -/
def IsCallable : PoolStep τ → Prop
  | .addCallable .. => True
  | _ => False

instance : (l : PoolStep τ) → Decidable l.IsCallable
  | .addCallable .. => inferInstanceAs (Decidable True)
  | .addTask .. | .adder | .worker _ => inferInstanceAs (Decidable False)

end PoolStep

namespace ThreadBindPool

variable {τ : Type}

/-- The second overload takes an index modulo zero. -/
def Divides (s : ThreadBindPool τ) (l : PoolStep τ) : Prop :=
  l.IsCallable ∧ s.reserve = 0 ∧ s.adder = .idle ∧ s.terminated = false

instance [DecidableEq τ] (s : ThreadBindPool τ) (l : PoolStep τ) : Decidable (s.Divides l) :=
  inferInstanceAs
    (Decidable (l.IsCallable ∧ s.reserve = 0 ∧ s.adder = .idle ∧ s.terminated = false))

/-- `worker->thread->join()`. -/
def join (s : ThreadBindPool τ) (slot : ℕ) : Except PoolFault Unit :=
  match (s.workers slot).thread with
  | none => .error .nullDeref
  | some _ => .ok ()

/-- The loop of the destructor over the workers from `slot` on. -/
def joinFrom (s : ThreadBindPool τ) : ℕ → ℕ → Except PoolFault Unit
  | 0, _ => .ok ()
  | n + 1, slot => do
    s.join slot
    s.joinFrom n (slot + 1)

/-- **`~ThreadPool`**: every worker's thread is joined. -/
def destroy (s : ThreadBindPool τ) : Except PoolFault Unit := s.joinFrom s.count 0

end ThreadBindPool

/-- **The pool until a call divides by zero.** -/
def poolCallSystem {τ : Type} [DecidableEq τ] (callable : τ → Bool) (reserve : ℕ) :
    TransitionSystem (Except PoolFault (ThreadBindPool τ)) (PoolStep τ) where
  init σ := σ = .ok (ThreadBindPool.new reserve)
  step σ l σ' := ∃ s, σ = .ok s ∧ (s.Divides l ∧ σ' = .error .divByZero
    ∨ ∃ s', s.next callable l = some s' ∧ σ' = .ok s')

namespace AdderPc

variable {τ : Type}

/-- The worker of the call in progress. -/
def slot : AdderPc τ → Option ℕ
  | .idle => none
  | .grow _ _ slot | .push _ _ slot | .pushing _ _ slot _ | .setIdx _ slot | .start slot
  | .join slot | .notify slot => some slot

/-- The calls, latest first, whose workers have been made. -/
def grown : AdderPc τ → List ℕ → List ℕ
  | .grow .., slots => slots.tail
  | _, slots => slots

/-- The calls whose workers' threads have been started. -/
def started : AdderPc τ → List ℕ → List ℕ
  | .grow .., slots | .push .., slots | .pushing .., slots | .setIdx .., slots
  | .start _, slots => slots.tail
  | _, slots => slots

end AdderPc

/-- **The overloads agree** on an index: if both take it, they give the task to
the same worker. -/
def OverloadsAgree (reserve index : ℕ) : Prop :=
  ∀ i ∈ taskSlot reserve index, ∀ j ∈ callableSlot reserve index, i = j

/-- An index other than `reserve_` is the same worker for both, if they take
it. -/
theorem overloadsAgree_of_ne {reserve index : ℕ} (h : index ≠ reserve) :
    OverloadsAgree reserve index := by
  intro i hi j hj
  obtain ⟨hle, ⟨⟩⟩ := Option.ite_none_left_eq_some.mp hi
  obtain ⟨_, ⟨⟩⟩ := Option.ite_none_left_eq_some.mp hj
  exact (Nat.mod_eq_of_lt (lt_of_le_of_ne (not_lt.mp hle) h)).symm

/-- **A call that fits the pool**: its index is not `reserve_` itself, and the
second overload is for pools that are not of size zero. -/
structure PoolStep.Fits {τ : Type} (l : PoolStep τ) (reserve : ℕ) : Prop where
  index : ∀ index ∈ l.index, index ≠ reserve
  callable : l.IsCallable → reserve ≠ 0

instance {τ : Type} (l : PoolStep τ) (reserve : ℕ) : Decidable (l.Fits reserve) :=
  decidable_of_iff ((∀ index ∈ l.index, index ≠ reserve) ∧ (l.IsCallable → reserve ≠ 0))
    ⟨fun h => ⟨h.1, h.2⟩, fun h => ⟨h.index, h.callable⟩⟩

theorem PoolStep.Fits.slot_lt {τ : Type} {l : PoolStep τ} {reserve i : ℕ} (h : l.Fits reserve)
    (hi : l.slot reserve = some i) : i < reserve := by
  cases l with
  | addTask task index =>
    obtain ⟨hle, ⟨⟩⟩ := Option.ite_none_left_eq_some.mp hi
    exact lt_of_le_of_ne (not_lt.mp hle) (h.index _ rfl)
  | addCallable task index =>
    obtain ⟨hne, ⟨⟩⟩ := Option.ite_none_left_eq_some.mp hi
    exact Nat.mod_lt index (Nat.pos_of_ne_zero hne)
  | adder => cases hi
  | worker slot => cases hi

/-- **The pool keeps to `reserve_`**: there are never more workers, no call
divides by zero, and the overloads agree on the indices they were called
with. -/
structure KeepsReserve {τ : Type} (reserve : ℕ)
    (tr : List (Except PoolFault (ThreadBindPool τ) × PoolStep τ))
    (σ : Except PoolFault (ThreadBindPool τ)) : Prop where
  size : TransitionSystem.Throughout (fun σ => ∃ s, σ = .ok s ∧ s.count ≤ reserve) tr σ
  agree : ∀ e ∈ tr, ∀ index ∈ e.2.index, OverloadsAgree reserve index

/-- The workers that were given tasks in a run, the latest first. -/
def taskSlots {σ τ : Type} (reserve : ℕ) (tr : List (σ × PoolStep τ)) : List ℕ :=
  tr.filterMap fun e => e.2.slot reserve

/-- **A thread goes on**: no step ends it. -/
theorem Worker.runStep_thread {τ : Type} {callable : τ → Bool} {n : ℕ} {w w' : Worker τ}
    {pc : RunPc τ} (h : w.runStep callable n pc = some w') : w'.thread ≠ none := by
  cases pc with
  | top =>
    cases h
    exact Option.some_ne_none _
  | size call =>
    cases h
    exact Option.some_ne_none _
  | sized call currentTail =>
    cases h
    exact Option.some_ne_none _
  | popFront pc =>
    by_cases hpc : pc = .idle
    · rw [hpc] at h
      cases h
      exact Option.some_ne_none _
    · rw [Worker.runStep_popFront hpc] at h
      obtain ⟨⟨tasks, pc', e⟩, _, rfl⟩ := Option.map_eq_some_iff.mp h
      cases e with
      | none => exact Option.some_ne_none _
      | some e => cases e <;> exact Option.some_ne_none _
  | check =>
    unfold Worker.runStep at h
    cases htask : w.task with
    | none | some task =>
      rw [htask] at h
      cases h
      exact Option.some_ne_none _
  | invoke task => cases h
  | executing task =>
    cases h
    exact Option.some_ne_none _

namespace ThreadBindPool

variable {τ : Type} {s s' : ThreadBindPool τ} {slot : ℕ}

/-! ## The destructor -/

/-- **The destructor joins all workers exactly if all have a thread.** -/
theorem destroy_eq_ok : s.destroy = .ok () ↔ ∀ slot < s.count, (s.workers slot).thread ≠ none := by
  have hfrom : ∀ n slot, s.joinFrom n slot = .ok ()
      ↔ ∀ i < n, (s.workers (slot + i)).thread ≠ none := by
    intro n
    induction n with
    | zero => exact fun slot => iff_of_true rfl fun i hi => absurd hi (Nat.not_lt_zero i)
    | succ n ih =>
      intro slot
      rw [joinFrom]
      unfold join
      cases hthread : (s.workers slot).thread with
      | none =>
        refine iff_of_false nofun fun h => h 0 (Nat.succ_pos n) ?_
        exact hthread
      | some pc =>
        show s.joinFrom n (slot + 1) = _ ↔ _
        rw [ih (slot + 1)]
        constructor
        · rintro h (_ | i) hi
          · rw [Nat.add_zero, hthread]
            exact Option.some_ne_none pc
          · have hs := h i (Nat.lt_of_succ_lt_succ hi)
            rwa [Nat.add_right_comm, Nat.add_assoc] at hs
        · intro h i hi
          have hs := h (i + 1) (Nat.succ_lt_succ hi)
          rwa [Nat.add_right_comm, Nat.add_assoc]
  unfold destroy
  rw [hfrom]
  exact forall₂_congr fun i _ => by rw [Nat.zero_add]

/-! ## The workers and the calls -/

/-- **What the calls have done**: there are workers up to those which were
given tasks, and those have threads. -/
structure Served (s : ThreadBindPool τ) (slots : List ℕ) : Prop where
  count : ∀ slot, slot < s.count ↔ ∃ i ∈ s.adder.grown slots, slot ≤ i
  thread : ∀ slot, (s.workers slot).thread ≠ none ↔ slot ∈ s.adder.started slots
  adder : ∀ slot ∈ s.adder.slot, slots.head? = some slot

theorem Served.new (reserve : ℕ) : (new reserve : ThreadBindPool τ).Served [] where
  count _ := iff_of_false (Nat.not_lt_zero _) nofun
  thread _ := iff_of_false (fun h => h rfl) nofun
  adder := nofun

/-- A call goes on to where it has done no more, and no thread is started. -/
theorem Served.move {slots : List ℕ} (h : s.Served slots) (hcount : s'.count = s.count)
    (hgrown : s'.adder.grown = s.adder.grown) (hstarted : s'.adder.started = s.adder.started)
    (hslot : ∀ i ∈ s'.adder.slot, i ∈ s.adder.slot)
    (hthread : ∀ i, (s'.workers i).thread = none ↔ (s.workers i).thread = none) :
    s'.Served slots where
  count slot := by rw [hcount, hgrown, h.count slot]
  thread slot := by rw [hstarted, ← h.thread slot, ne_eq, ne_eq, hthread slot]
  adder slot hs := h.adder slot (hslot slot hs)

/-- The thread of a worker that was changed. -/
theorem thread_modify {w : Worker τ} (h : w.thread = none ↔ (s.workers slot).thread = none)
    (i : ℕ) : ((s.modify slot w).workers i).thread = none ↔ (s.workers i).thread = none := by
  show (Function.update s.workers slot w i).thread = none ↔ _
  by_cases hi : i = slot
  · rw [hi, Function.update_self, h]
  · rw [Function.update_of_ne hi]

/-- A worker whose thread was started before has been given a task before. -/
theorem Served.threads {slots : List ℕ} (h : s.Served slots) (hpc : s.adder = .start slot)
    {pc : RunPc τ} (hsome : (s.workers slot).thread = some pc) :
    (∀ i, i < s.count ↔ ∃ j ∈ slots, i ≤ j) ∧ (∀ i, (s.workers i).thread ≠ none ↔ i ∈ slots)
      ∧ ∀ i ∈ some slot, slots.head? = some i := by
  obtain ⟨hcount, hthread, hadder⟩ := h
  rw [hpc] at hcount hthread hadder
  obtain ⟨slots', rfl⟩ := List.head?_eq_some_iff.mp (hadder slot rfl)
  have hmem : slot ∈ slots' := (hthread slot).mp (by rw [hsome]; exact Option.some_ne_none pc)
  refine ⟨hcount, fun i => ?_, hadder⟩
  rw [hthread i, List.mem_cons, or_iff_right_of_imp]
  · rfl
  · rintro rfl
    exact hmem

/-- **What a call does while it holds the lock.** -/
theorem Served.adderStep {slots : List ℕ} (h : s.Served slots) (hstep : s.adderStep = some s') :
    s'.Served slots := by
  cases move_of_adderStep hstep with
  | @grow task index slot hpc =>
    obtain ⟨hcount, hthread, hadder⟩ := h
    rw [hpc] at hcount hthread hadder
    obtain ⟨slots', rfl⟩ := List.head?_eq_some_iff.mp (hadder slot rfl)
    refine ⟨fun i => ?_, hthread, hadder⟩
    show i < max s.count (slot + 1) ↔ ∃ j ∈ slot :: slots', i ≤ j
    rw [lt_max_iff, hcount i, Nat.lt_succ_iff, List.exists_mem_cons_iff, or_comm]
    rfl
  | call hpc =>
    exact h.move rfl (by rw [hpc]; rfl) (by rw [hpc]; rfl) (by rw [hpc]; exact fun _ hi => hi)
      fun _ => Iff.rfl
  | push hpc _ =>
    exact h.move rfl (by rw [hpc]; rfl) (by rw [hpc]; rfl) (by rw [hpc]; exact fun _ hi => hi)
      (thread_modify Iff.rfl)
  | pushed hpc _ =>
    exact h.move rfl (by rw [hpc]; rfl) (by rw [hpc]; rfl) (by rw [hpc]; exact fun _ hi => hi)
      (thread_modify Iff.rfl)
  | setIdx hpc =>
    exact h.move rfl (by rw [hpc]; rfl) (by rw [hpc]; rfl) (by rw [hpc]; exact fun _ hi => hi)
      (thread_modify Iff.rfl)
  | running hpc hsome =>
    obtain ⟨hcount, hthread, hadder⟩ := h.threads hpc hsome
    exact ⟨hcount, hthread, hadder⟩
  | @restart slot pc hpc hsome =>
    obtain ⟨hcount, hthread, hadder⟩ := h.threads hpc hsome
    refine ⟨hcount, fun i => Iff.trans ?_ (hthread i), hadder⟩
    exact not_congr (thread_modify (w := { s.workers slot with isRunning := true }) Iff.rfl i)
  | @start slot hpc hnone =>
    obtain ⟨hcount, hthread, hadder⟩ := h
    rw [hpc] at hcount hthread hadder
    obtain ⟨slots', rfl⟩ := List.head?_eq_some_iff.mp (hadder slot rfl)
    refine ⟨hcount, fun i => ?_, hadder⟩
    show (Function.update s.workers slot _ i).thread ≠ none ↔ i ∈ slot :: slots'
    by_cases hi : i = slot
    · rw [hi, Function.update_self]
      exact iff_of_true (Option.some_ne_none _) List.mem_cons_self
    · rw [Function.update_of_ne hi, hthread i, List.mem_cons, or_iff_right hi]
      rfl
  | notify hpc =>
    exact h.move rfl (by rw [hpc]; rfl) (by rw [hpc]; rfl) nofun fun _ => Iff.rfl

/-- **A step of a worker's thread** starts no thread, and ends none. -/
theorem Served.workerStep [DecidableEq τ] {callable : τ → Bool} {slots : List ℕ}
    (h : s.Served slots) (hstep : s.workerStep callable slot = some s') : s'.Served slots := by
  unfold ThreadBindPool.workerStep at hstep
  split at hstep
  · cases hstep
  · next task hpc =>
    split at hstep <;> cases hstep
    · exact h.move rfl rfl rfl (fun _ hi => hi) fun _ => Iff.rfl
    · refine h.move rfl rfl rfl (fun _ hi => hi) (thread_modify ?_)
      rw [hpc]
      exact iff_of_false (Option.some_ne_none _) (Option.some_ne_none _)
  · next pc _ hpc =>
    obtain ⟨w, hrun, rfl⟩ := Option.map_eq_some_iff.mp hstep
    refine h.move rfl rfl rfl (fun _ hi => hi) (thread_modify ?_)
    rw [hpc]
    exact iff_of_false (Worker.runStep_thread hrun) (Option.some_ne_none _)

/-- What a call does with the lock has no effect on `reserve_`. -/
theorem adderStep_reserve (hstep : s.adderStep = some s') : s'.reserve = s.reserve := by
  cases move_of_adderStep hstep <;> rfl

variable [DecidableEq τ] {callable : τ → Bool}

theorem workerStep_reserve (hstep : s.workerStep callable slot = some s') :
    s'.reserve = s.reserve := by
  unfold ThreadBindPool.workerStep at hstep
  split at hstep
  · cases hstep
  · split at hstep <;> cases hstep <;> rfl
  · obtain ⟨w, _, rfl⟩ := Option.map_eq_some_iff.mp hstep
    rfl

/-- **What a step is**: a call that is refused, or gets the lock; a step of
the call that has it; or one of a worker's thread. -/
theorem next_cases {l : PoolStep τ} (hstep : s.next callable l = some s') :
    (l.slot s.reserve = none ∧ s' = s)
      ∨ (∃ task index slot, l.slot s.reserve = some slot ∧ s.adder = .idle
        ∧ s' = { s with adder := .grow task index slot })
      ∨ (l = .adder ∧ s.adderStep = some s')
      ∨ ∃ slot, l = .worker slot ∧ s.workerStep callable slot = some s' := by
  cases l with
  | addTask task index =>
    unfold ThreadBindPool.next at hstep
    dsimp only at hstep
    split at hstep
    · cases hstep
    · next hfree =>
      split at hstep <;> cases hstep
      · next hlt => exact .inl ⟨if_pos hlt, rfl⟩
      · next hlt =>
        refine .inr (.inl ⟨task, index, index, if_neg hlt, ?_, rfl⟩)
        by_contra hne
        exact hfree (.inr hne)
  | addCallable task index =>
    unfold ThreadBindPool.next at hstep
    dsimp only at hstep
    split at hstep
    · cases hstep
    · next hfree =>
      cases hstep
      refine .inr (.inl ⟨task, index, index % s.reserve, if_neg ?_, ?_, rfl⟩)
      · exact fun hzero => hfree (.inr (.inr (.inl hzero)))
      · by_contra hne
        exact hfree (.inr (.inl hne))
  | adder =>
    unfold ThreadBindPool.next at hstep
    dsimp only at hstep
    split at hstep
    · cases hstep
    · exact .inr (.inr (.inl ⟨rfl, hstep⟩))
  | worker slot =>
    unfold ThreadBindPool.next at hstep
    dsimp only at hstep
    split at hstep
    · cases hstep
    · exact .inr (.inr (.inr ⟨slot, rfl, hstep⟩))

theorem next_reserve {l : PoolStep τ} (hstep : s.next callable l = some s') :
    s'.reserve = s.reserve := by
  obtain ⟨_, rfl⟩ | ⟨_, _, _, _, _, rfl⟩ | ⟨_, hadder⟩ | ⟨_, _, hworker⟩ := next_cases hstep
  · rfl
  · rfl
  · exact adderStep_reserve hadder
  · exact workerStep_reserve hworker

/-- **Every step** does what the calls up to it have to do. -/
theorem Served.next {slots : List ℕ} (h : s.Served slots) {l : PoolStep τ}
    (hstep : s.next callable l = some s') :
    s'.Served ((l.slot s.reserve).toList ++ slots) := by
  obtain ⟨hslot, rfl⟩ | ⟨task, index, slot, hslot, hidle, rfl⟩ | ⟨rfl, hadder⟩
    | ⟨slot, rfl, hworker⟩ := next_cases hstep
  · rw [hslot]
    exact h
  · obtain ⟨hcount, hthread, _⟩ := h
    rw [hidle] at hcount hthread
    rw [hslot]
    refine ⟨hcount, hthread, fun i hi => ?_⟩
    cases hi
    rfl
  · exact h.adderStep hadder
  · exact h.workerStep hworker

end ThreadBindPool

/-! ## Runs -/

section Runs

open TransitionSystem

variable {τ : Type} [DecidableEq τ] {callable : τ → Bool} {reserve : ℕ}
  {tr : List (Except PoolFault (ThreadBindPool τ) × PoolStep τ)} {s : ThreadBindPool τ}
  {σ : Except PoolFault (ThreadBindPool τ)}

/-- The workers which a run has given tasks to are those that are there. -/
theorem served_of_run (hr : (poolCallSystem callable reserve).Run tr (.ok s)) :
    s.reserve = reserve ∧ s.Served (taskSlots reserve tr) := by
  suffices hserved : ∀ σ, (poolCallSystem callable reserve).Run tr σ → ∀ s, σ = .ok s →
      s.reserve = reserve ∧ s.Served (taskSlots reserve tr) from hserved _ hr s rfl
  clear hr
  intro σ hr
  induction hr with
  | start hi =>
    rintro s rfl
    cases hi
    exact ⟨rfl, .new reserve⟩
  | @snoc tr σ σ' l _ hstep ih =>
    rintro s' rfl
    obtain ⟨s, rfl, ⟨_, herr⟩ | ⟨s₁, hnext, heq⟩⟩ := hstep
    · cases herr
    · cases heq
      obtain ⟨hreserve, hserved⟩ := ih s rfl
      have hserved' := hserved.next hnext
      rw [hreserve] at hserved'
      refine ⟨(ThreadBindPool.next_reserve hnext).trans hreserve, ?_⟩
      have hslots : taskSlots reserve ((.ok s, l) :: tr)
          = (l.slot reserve).toList ++ taskSlots reserve tr := by
        unfold taskSlots
        cases hslot : l.slot reserve with
        | none => exact List.filterMap_cons_none hslot
        | some slot => exact List.filterMap_cons_some hslot
      rw [hslots]
      exact hserved'

/-- Take a step, if it is possible. -/
def poolCallNext (callable : τ → Bool) (σ : Except PoolFault (ThreadBindPool τ))
    (l : PoolStep τ) : Option (Except PoolFault (ThreadBindPool τ)) :=
  match σ with
  | .error _ => none
  | .ok s => if s.Divides l then some (.error .divByZero) else (s.next callable l).map .ok

theorem step_of_poolCallNext (σ : Except PoolFault (ThreadBindPool τ)) (l : PoolStep τ)
    (σ' : Except PoolFault (ThreadBindPool τ)) (h : poolCallNext callable σ l = some σ') :
    (poolCallSystem callable reserve).step σ l σ' := by
  cases σ with
  | error e => cases h
  | ok s =>
    refine ⟨s, rfl, ?_⟩
    unfold poolCallNext at h
    dsimp only at h
    split at h
    · next hdiv => exact .inl ⟨hdiv, (Option.some.inj h).symm⟩
    · obtain ⟨s', hnext, rfl⟩ := Option.map_eq_some_iff.mp h
      exact .inr ⟨s', hnext, rfl⟩

/-- **The destructor joins every worker's thread** exactly if tasks were given
to all the workers in front of each one that was given one. -/
theorem destroy_eq_ok_iff (hr : (poolCallSystem callable reserve).Run tr (.ok s))
    (hidle : s.adder = .idle) :
    s.destroy = .ok () ↔ ∀ i ∈ taskSlots reserve tr, ∀ j < i, j ∈ taskSlots reserve tr := by
  obtain ⟨_, hcount, hthread, _⟩ := served_of_run hr
  rw [hidle] at hcount hthread
  rw [ThreadBindPool.destroy_eq_ok]
  constructor
  · intro hall i hi j hj
    exact (hthread j).mp (hall j ((hcount j).mpr ⟨i, hi, hj.le⟩))
  · intro hslots j hj
    obtain ⟨i, hi, hji⟩ := (hcount j).mp hj
    rw [hthread j]
    rcases hji.lt_or_eq with hlt | rfl
    · exact hslots i hi j hlt
    · exact hi

/-- The steps of a call that is alone. -/
def call (l : PoolStep ℕ) : List (PoolStep ℕ) := l :: List.replicate 8 .adder

/-- Tasks are given to worker zero and to worker one. -/
theorem destroy_eq_ok_iff_two : ∃ (tr : _) (s : ThreadBindPool ℕ),
    (poolCallSystem (fun _ => true) 4).Run tr (.ok s) ∧ s.count = 2 ∧ s.destroy = .ok () := by
  have htrace : (trace (poolCallNext fun _ => true) [] (.ok (.new 4))
      (call (.addTask 7 0) ++ call (.addCallable 8 5))).map (fun e =>
        (taskSlots 4 e.1, e.2.toOption.map fun s => (s.count, decide (s.adder = .idle))))
      = some ([1, 0], some (2, true)) := by decide +kernel
  obtain ⟨tr, σ, hr, heq⟩ := Run.exists_of_trace (S := poolCallSystem (fun _ => true) 4)
    step_of_poolCallNext rfl htrace
  obtain ⟨hslots, hend⟩ := Prod.mk.inj heq
  obtain ⟨s, hσ, hs⟩ := Option.map_eq_some_iff.mp hend
  obtain rfl : σ = .ok s := Except.toOption_eq_some.mp hσ
  obtain ⟨hcount, hidle⟩ := Prod.mk.inj hs
  refine ⟨tr, s, hr, hcount, (destroy_eq_ok_iff hr (of_decide_eq_true hidle)).mpr ?_⟩
  rw [show taskSlots 4 tr = [1, 0] from hslots]
  decide

/-- **A task is given to worker three** of a new pool. The three in front of it
have no thread, and the destructor joins the first of them. -/
theorem destroy_follows_null : ∃ (tr : _) (s : ThreadBindPool ℕ),
    (poolCallSystem (fun _ => true) 4).Run tr (.ok s) ∧ s.adder = .idle
      ∧ tr.filterMap (fun e => e.2.index) = [3] ∧ s.destroy = .error .nullDeref := by
  have htrace : (trace (poolCallNext fun _ => true) [] (.ok (.new 4))
      (call (.addTask 7 3))).map (fun e => (e.1.filterMap (fun e => e.2.index),
        e.2.toOption.map fun s => (decide (s.adder = .idle),
          match s.destroy with | .ok _ => none | .error e => some e)))
      = some ([3], some (true, some .nullDeref)) := by decide +kernel
  obtain ⟨tr, σ, hr, heq⟩ := Run.exists_of_trace (S := poolCallSystem (fun _ => true) 4)
    step_of_poolCallNext rfl htrace
  obtain ⟨hindices, hend⟩ := Prod.mk.inj heq
  obtain ⟨s, hσ, hs⟩ := Option.map_eq_some_iff.mp hend
  obtain rfl : σ = .ok s := Except.toOption_eq_some.mp hσ
  obtain ⟨hidle, hdestroy⟩ := Prod.mk.inj hs
  refine ⟨tr, s, hr, of_decide_eq_true hidle, hindices, ?_⟩
  split at hdestroy
  · cases hdestroy
  · next heq =>
    rw [heq]
    exact congrArg Except.error (Option.some.inj hdestroy)

/-- A run in which the second overload was called, and which goes on, has not
divided by zero. -/
theorem reserve_ne_zero_of_run (hr : (poolCallSystem callable reserve).Run tr σ)
    (hσ : σ ≠ .error .divByZero) : ∀ e ∈ tr, e.2.IsCallable → reserve ≠ 0 := by
  induction hr with
  | start _ => nofun
  | @snoc tr σ σ' l hr hstep ih =>
    obtain ⟨s, rfl, ⟨_, rfl⟩ | ⟨s', hnext, rfl⟩⟩ := hstep
    · exact absurd rfl hσ
    · refine List.forall_mem_cons.mpr ⟨fun hl => ?_, ih nofun⟩
      rw [← (served_of_run hr).1]
      cases l with
      | addCallable task index =>
        intro hzero
        unfold ThreadBindPool.next at hnext
        dsimp only at hnext
        rw [if_pos (.inr (.inr (.inl hzero)))] at hnext
        cases hnext
      | addTask task index => exact absurd hl id
      | adder => exact absurd hl id
      | worker slot => exact absurd hl id

/-- **The calls fit the pool**: there are not more workers than `reserve_`. -/
theorem count_le_of_fits (hr : (poolCallSystem callable reserve).Run tr σ)
    (hfits : ∀ e ∈ tr, e.2.Fits reserve) : ∃ s, σ = .ok s ∧ s.count ≤ reserve := by
  have hslots : ∀ i ∈ taskSlots reserve tr, i < reserve := by
    intro i hi
    obtain ⟨e, he, hslot⟩ := List.mem_filterMap.mp hi
    exact (hfits e he).slot_lt hslot
  cases σ with
  | ok s =>
    refine ⟨s, rfl, ?_⟩
    obtain ⟨_, hcount, _, _⟩ := served_of_run hr
    by_contra hlt
    obtain ⟨i, hi, hle⟩ := (hcount reserve).mp (not_le.mp hlt)
    have hmem : i ∈ taskSlots reserve tr := by
      cases hadder : s.adder with
      | grow task index slot =>
        rw [hadder] at hi
        exact List.mem_of_mem_tail hi
      | _ =>
        rw [hadder] at hi
        exact hi
    exact absurd (hslots i hmem) (not_lt.mpr hle)
  | error e =>
    cases hr with
    | start hi => cases hi
    | snoc hr hstep =>
      obtain ⟨s, rfl, ⟨⟨hcallable, hzero, _⟩, _⟩ | ⟨_, _, heq⟩⟩ := hstep
      · rw [(served_of_run hr).1] at hzero
        exact absurd hzero ((List.forall_mem_cons.mp hfits).1.callable hcallable)
      · cases heq

/-- **The pool keeps to `reserve_`**, no call divides by zero, and the
overloads agree on the indices, exactly if `reserve_` itself is not used as an
index, and the second overload is called on no pool of size zero. -/
theorem keepsReserve_iff (hr : (poolCallSystem callable reserve).Run tr σ)
    (hidle : ∀ s, σ = .ok s → s.adder = .idle) :
    KeepsReserve reserve tr σ ↔ ∀ e ∈ tr, e.2.Fits reserve := by
  constructor
  · rintro ⟨hsize, hagree⟩ e he
    obtain ⟨s, rfl, hle⟩ := hsize.1
    have hcallable := reserve_ne_zero_of_run hr nofun e he
    refine ⟨fun index hindex heq => ?_, hcallable⟩
    subst heq
    have hzero : index = 0 := by
      by_contra hne
      have hagree := hagree e he index hindex index (if_neg (lt_irrefl index)) 0
        ((if_neg hne).trans (congrArg some (Nat.mod_self index)))
      exact hne hagree
    subst hzero
    -- worker zero is one too many
    have hslot : e.2.slot 0 = some 0 := by
      cases hl : e.2 with
      | addTask task index =>
        rw [hl] at hindex
        cases hindex
        rfl
      | addCallable task index =>
        rw [hl] at hcallable
        exact absurd rfl (hcallable trivial)
      | adder =>
        rw [hl] at hindex
        cases hindex
      | worker slot =>
        rw [hl] at hindex
        cases hindex
    obtain ⟨_, hcount, _, _⟩ := served_of_run hr
    rw [hidle s rfl] at hcount
    have hlt := (hcount 0).mpr ⟨0, List.mem_filterMap.mpr ⟨e, he, hslot⟩, le_rfl⟩
    exact absurd hlt (not_lt.mpr hle)
  · intro hfits
    refine ⟨?_, fun e he index hindex => ?_⟩
    · clear hidle
      induction hr with
      | start hi => exact ⟨count_le_of_fits (.start hi) hfits, nofun⟩
      | @snoc tr σ σ' l hr hstep ih =>
        refine (throughout_cons _ _ _ _ _).mpr ⟨count_le_of_fits (.snoc hr hstep) hfits, ?_⟩
        exact ih (List.forall_mem_cons.mp hfits).2
    · exact overloadsAgree_of_ne ((hfits e he).index index hindex)

/-- Both overloads are called with indices other than `reserve_`. -/
theorem keepsReserve_iff_two : ∃ (tr : _) (s : ThreadBindPool ℕ),
    (poolCallSystem (fun _ => true) 2).Run tr (.ok s)
      ∧ tr.filterMap (fun e => e.2.index) = [3, 5, 1] ∧ KeepsReserve 2 tr (.ok s) := by
  have htrace : (trace (poolCallNext fun _ => true) [] (.ok (.new 2))
      (call (.addTask 7 1) ++ [.addTask 8 5] ++ call (.addCallable 9 3))).map (fun e =>
        (e.1.filterMap (fun e => e.2.index), decide (∀ a ∈ e.1, a.2.Fits 2),
          e.2.toOption.map fun s => decide (s.adder = .idle)))
      = some ([3, 5, 1], true, some true) := by decide +kernel
  obtain ⟨tr, σ, hr, heq⟩ := Run.exists_of_trace (S := poolCallSystem (fun _ => true) 2)
    step_of_poolCallNext rfl htrace
  simp only [Prod.mk.injEq] at heq
  obtain ⟨hindices, hfits, hs⟩ := heq
  obtain ⟨s, hσ, hidle⟩ := Option.map_eq_some_iff.mp hs
  obtain rfl : σ = .ok s := Except.toOption_eq_some.mp hσ
  refine ⟨tr, s, hr, hindices, (keepsReserve_iff hr ?_).mpr (of_decide_eq_true hfits)⟩
  rintro s' ⟨⟩
  exact of_decide_eq_true hidle

/-- **A pool of size four** gets five workers, and a pool of size zero is asked
for a worker modulo zero. -/
theorem not_keepsReserve :
    (∃ (tr : _) (s : ThreadBindPool ℕ), (poolCallSystem (fun _ => true) 4).Run tr (.ok s)
      ∧ s.count = 5 ∧ ¬ KeepsReserve 4 tr (.ok s))
    ∧ ∃ tr : List (Except PoolFault (ThreadBindPool ℕ) × PoolStep ℕ),
      (poolCallSystem (fun _ => true) 0).Run tr (.error .divByZero) := by
  have htrace : (trace (poolCallNext fun _ => true) [] (.ok (.new 4))
      (call (.addTask 7 4))).map (fun e => e.2.toOption.map ThreadBindPool.count)
      = some (some 5) := by decide +kernel
  obtain ⟨tr, σ, hr, hs⟩ := Run.exists_of_trace (S := poolCallSystem (fun _ => true) 4)
    step_of_poolCallNext rfl htrace
  obtain ⟨s, hσ, hcount⟩ := Option.map_eq_some_iff.mp hs
  obtain rfl : σ = .ok s := Except.toOption_eq_some.mp hσ
  have hdiv : (poolCallSystem (fun _ => true) 0).step (.ok (.new 0)) (.addCallable 7 0)
      (.error .divByZero) := step_of_poolCallNext _ _ _ rfl
  refine ⟨⟨tr, s, hr, hcount, ?_⟩, _, .snoc (.start rfl) hdiv⟩
  rintro ⟨⟨⟨s', ⟨⟩, hle⟩, _⟩, _⟩
  rw [hcount] at hle
  exact absurd hle (by decide)

end Runs
