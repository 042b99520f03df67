import CoinData.Inevitability
import Mathlib.Data.Finset.Max
import Mathlib.Order.Defs.LinearOrder

/-!
# Locks in an order

Threads that lock in nested sections, as the guards of a block do, can wait for
each other in a circle. If all locks have a rank, and within a section only locks
of higher rank are taken, they cannot: of the threads that wait, one waits for a
lock of the highest rank, and whoever holds that lock waits for none. So every
call comes to an end, whatever the order of the steps.

A call is given by its sections (`Nested`). What a call locks may depend on what
it finds, and on others; here the sections are chosen when it is made, so that
what holds of all calls holds of those that are chosen as one goes.
-/

/-- **Nested sections**: take a lock, do what is within, release it, and go on. -/
inductive Nested (M : Type*) where
  | done
  | hold (m : M) (inner next : Nested M)
deriving DecidableEq, Repr

/-- What a thread does with a lock. -/
inductive LockOp (M : Type*) where
  | acquire (m : M)
  | release (m : M)
deriving DecidableEq, Repr

namespace Nested

variable {M α : Type*}

/-- A section with nothing after it. -/
def one (m : M) (inner : Nested M) : Nested M := .hold m inner .done

/-- One after the other. -/
def seq : Nested M → Nested M → Nested M
  | .done, q => q
  | .hold m inner next, q => .hold m inner (next.seq q)

/-- Several, one after the other. -/
def all : List (Nested M) → Nested M
  | [] => .done
  | p :: ps => p.seq (all ps)

/-- What is done with the locks, in order. -/
def ops : Nested M → List (LockOp M)
  | .done => []
  | .hold m inner next => .acquire m :: (inner.ops ++ .release m :: next.ops)

/-- A property of all locks that are taken. -/
def Takes (P : M → Prop) : Nested M → Prop
  | .done => True
  | .hold m inner next => P m ∧ inner.Takes P ∧ next.Takes P

/-- **Within a section, only locks of higher rank are taken.** -/
def Ordered [LT α] (rank : M → α) : Nested M → Prop
  | .done => True
  | .hold m inner next => inner.Takes (rank m < rank ·) ∧ inner.Ordered rank ∧ next.Ordered rank

theorem Takes.mono {P Q : M → Prop} (h : ∀ m, P m → Q m) :
    ∀ {p : Nested M}, p.Takes P → p.Takes Q
  | .done, _ => trivial
  | .hold _ _ _, ⟨hm, hinner, hnext⟩ => ⟨h _ hm, hinner.mono h, hnext.mono h⟩

theorem Takes.of_forall {P : M → Prop} (h : ∀ m, P m) : ∀ p : Nested M, p.Takes P
  | .done => trivial
  | .hold m inner next => ⟨h m, of_forall h inner, of_forall h next⟩

theorem Takes.seq {P : M → Prop} {q : Nested M} (hq : q.Takes P) :
    ∀ {p : Nested M}, p.Takes P → (p.seq q).Takes P
  | .done, _ => hq
  | .hold _ _ _, ⟨hm, hinner, hnext⟩ => ⟨hm, hinner, Takes.seq hq hnext⟩

theorem Ordered.seq [LT α] {rank : M → α} {q : Nested M} (hq : q.Ordered rank) :
    ∀ {p : Nested M}, p.Ordered rank → (p.seq q).Ordered rank
  | .done, _ => hq
  | .hold _ _ _, ⟨htakes, hinner, hnext⟩ => ⟨htakes, hinner, Ordered.seq hq hnext⟩

theorem Takes.all {P : M → Prop} {ps : List (Nested M)} (h : ∀ p ∈ ps, p.Takes P) :
    (all ps).Takes P := by
  induction ps with
  | nil => trivial
  | cons p ps ih =>
    exact .seq (ih fun q hq => h q (List.mem_cons_of_mem _ hq)) (h p List.mem_cons_self)

theorem Ordered.all [LT α] {rank : M → α} {ps : List (Nested M)} (h : ∀ p ∈ ps, p.Ordered rank) :
    (all ps).Ordered rank := by
  induction ps with
  | nil => trivial
  | cons p ps ih =>
    exact .seq (ih fun q hq => h q (List.mem_cons_of_mem _ hq)) (h p List.mem_cons_self)

end Nested

/-! ## The system -/

/-- **Threads and locks**: what each thread has still to do, and who holds a
lock. -/
structure LockState (ι M : Type*) where
  todo : ι → List (LockOp M)
  owner : M → Option ι

/-- A thread makes a call, or goes on. -/
inductive LockStep (ι M : Type*) where
  | call (i : ι) (p : Nested M)
  | turn (i : ι)

namespace LockState

variable {ι M : Type*} [DecidableEq ι] [DecidableEq M]

/-- **The steps.** A thread waits for a lock that is held, also by itself. -/
inductive Step (s : LockState ι M) : LockStep ι M → LockState ι M → Prop
  | call {i : ι} {p : Nested M} : s.todo i = [] →
      Step s (.call i p) { s with todo := Function.update s.todo i p.ops }
  | acquire {i : ι} {m : M} {ops : List (LockOp M)} : s.todo i = .acquire m :: ops →
      s.owner m = none →
      Step s (.turn i) ⟨Function.update s.todo i ops, Function.update s.owner m (some i)⟩
  | release {i : ι} {m : M} {ops : List (LockOp M)} : s.todo i = .release m :: ops →
      Step s (.turn i) ⟨Function.update s.todo i ops, Function.update s.owner m none⟩

omit [DecidableEq ι] [DecidableEq M] in
/-- No thread is in a call. -/
def Idle (s : LockState ι M) : Prop := ∀ i, s.todo i = []

end LockState

/-- **The system of threads that lock.** -/
def lockSystem (ι M : Type*) [DecidableEq ι] [DecidableEq M] :
    TransitionSystem (LockState ι M) (LockStep ι M) where
  init s := (∀ i, s.todo i = []) ∧ ∀ m, s.owner m = none
  step := LockState.Step

/-- The same system, in which no more calls are made. -/
def turnSystem (ι M : Type*) [DecidableEq ι] [DecidableEq M] :
    TransitionSystem (LockState ι M) (LockStep ι M) where
  init _ := True
  step s l s' := (∃ i, l = .turn i) ∧ s.Step l s'

/-! ## What a thread holds -/

namespace LockOp

variable {M α : Type*} [LinearOrder α] {rank : M → α}

/-- **What a thread holds**, the last lock first, agrees with what it has to do: it
takes locks of higher rank only, and releases the last one. -/
def Agrees (rank : M → α) : List M → List (LockOp M) → Prop
  | held, [] => held = []
  | held, .acquire m :: ops => (∀ m' ∈ held, rank m' < rank m) ∧ Agrees rank (m :: held) ops
  | held, .release m :: ops => ∃ rest, held = m :: rest ∧ Agrees rank rest ops

/-- Ordered sections agree with what is held before, if it is of lower rank. -/
theorem Agrees.append {held : List M} {ops : List (LockOp M)} (h : Agrees rank held ops)
    {p : Nested M} (hp : p.Ordered rank) (htakes : p.Takes fun m => ∀ m' ∈ held, rank m' < rank m) :
    Agrees rank held (p.ops ++ ops) := by
  induction p generalizing held ops with
  | done => exact h
  | hold m inner next ihinner ihnext =>
    obtain ⟨hinner, hoi, hon⟩ := hp
    obtain ⟨hm, hti, htn⟩ := htakes
    have hnext := ihnext h hon htn
    have hrest : Agrees rank (m :: held) (.release m :: (next.ops ++ ops)) := ⟨held, rfl, hnext⟩
    have htakes : inner.Takes fun m₁ => ∀ m' ∈ m :: held, rank m' < rank m₁ := by
      refine hinner.mono fun m₁ hlt m' hm' => ?_
      rcases List.mem_cons.mp hm' with rfl | hm'
      · exact hlt
      · exact (hm m' hm').trans hlt
    have hbody := ihinner hrest hoi htakes
    have hops : (Nested.hold m inner next).ops ++ ops
        = .acquire m :: (inner.ops ++ .release m :: (next.ops ++ ops)) := by
      simp [Nested.ops]
    rw [hops]
    exact ⟨hm, hbody⟩

end LockOp

/-! ## All come to their end -/

namespace LockState

open TransitionSystem LockOp

variable {ι M α : Type*} [DecidableEq ι] [DecidableEq M] [LinearOrder α] {rank : M → α}
  {s s' : LockState ι M}

/-- **What holds of the locks**: `held` is what each thread holds, in an order of
falling rank. -/
structure Inv (rank : M → α) (s : LockState ι M) (held : ι → List M) : Prop where
  agrees : ∀ i, Agrees rank (held i) (s.todo i)
  sorted : ∀ i, (held i).Pairwise fun m m' => rank m' < rank m
  owner : ∀ i m, s.owner m = some i ↔ m ∈ held i

/-- **A turn keeps what holds of the locks.** -/
theorem Inv.turn {held : ι → List M} (h : Inv rank s held) {i : ι} (hs : s.Step (.turn i) s') :
    ∃ held', Inv rank s' held' := by
  have hi := h.agrees i
  cases hs with
  | @acquire _ m ops htodo hfree =>
    rw [htodo] at hi
    obtain ⟨hlow, hi⟩ := hi
    refine ⟨Function.update held i (m :: held i), fun j => ?_, fun j => ?_, fun j m' => ?_⟩
    · dsimp only
      by_cases hj : j = i
      · rw [hj, Function.update_self, Function.update_self]
        exact hi
      · rw [Function.update_of_ne hj, Function.update_of_ne hj]
        exact h.agrees j
    · by_cases hj : j = i
      · rw [hj, Function.update_self]
        exact List.pairwise_cons.mpr ⟨hlow, h.sorted i⟩
      · rw [Function.update_of_ne hj]
        exact h.sorted j
    · dsimp only
      by_cases hm : m' = m
      · rw [hm, Function.update_self]
        by_cases hj : j = i
        · rw [hj, Function.update_self]
          exact iff_of_true rfl List.mem_cons_self
        · rw [Function.update_of_ne hj]
          refine iff_of_false (fun heq => hj (Option.some.inj heq).symm) fun hmem => ?_
          cases hfree.symm.trans ((h.owner j m).mpr hmem)
      · rw [Function.update_of_ne hm, h.owner j m']
        by_cases hj : j = i
        · rw [hj, Function.update_self, List.mem_cons]
          exact (or_iff_right hm).symm
        · rw [Function.update_of_ne hj]
  | @release _ m ops htodo =>
    rw [htodo] at hi
    obtain ⟨rest, hheld, hi⟩ := hi
    have hsorted := h.sorted i
    rw [hheld] at hsorted
    obtain ⟨hlow, hsorted⟩ := List.pairwise_cons.mp hsorted
    have hnot : m ∉ rest := fun hm => lt_irrefl _ (hlow m hm)
    have howner : s.owner m = some i := (h.owner i m).mpr (hheld ▸ List.mem_cons_self)
    refine ⟨Function.update held i rest, fun j => ?_, fun j => ?_, fun j m' => ?_⟩
    · dsimp only
      by_cases hj : j = i
      · rw [hj, Function.update_self, Function.update_self]
        exact hi
      · rw [Function.update_of_ne hj, Function.update_of_ne hj]
        exact h.agrees j
    · by_cases hj : j = i
      · rw [hj, Function.update_self]
        exact hsorted
      · rw [Function.update_of_ne hj]
        exact h.sorted j
    · dsimp only
      by_cases hm : m' = m
      · rw [hm, Function.update_self]
        refine iff_of_false (fun heq => by cases heq) ?_
        by_cases hj : j = i
        · rw [hj, Function.update_self]
          exact hnot
        · rw [Function.update_of_ne hj]
          intro hmem
          exact hj (Option.some.inj (((h.owner j m).mpr hmem).symm.trans howner))
      · rw [Function.update_of_ne hm, h.owner j m']
        by_cases hj : j = i
        · rw [hj, Function.update_self, hheld, List.mem_cons]
          exact or_iff_right hm
        · rw [Function.update_of_ne hj]

/-- A call of ordered sections keeps it too. -/
theorem Inv.call {held : ι → List M} (h : Inv rank s held) {i : ι} {p : Nested M}
    (hp : p.Ordered rank) (hs : s.Step (.call i p) s') : Inv rank s' held := by
  cases hs with
  | call htodo =>
    have hnone : held i = [] := by
      have hi := h.agrees i
      rw [htodo] at hi
      exact hi
    refine ⟨fun j => ?_, h.sorted, h.owner⟩
    dsimp only
    by_cases hj : j = i
    · rw [hj, Function.update_self]
      have hops : Agrees rank (held i) (p.ops ++ []) := by
        refine Agrees.append ?_ hp ?_
        · rw [hnone]
          rfl
        · rw [hnone]
          exact .of_forall (fun m m' hm' => by cases hm') p
      rwa [List.append_nil] at hops
    · rw [Function.update_of_ne hj]
      exact h.agrees j

omit [DecidableEq ι] [DecidableEq M] in
/-- A thread that has released all it holds is done, and holds nothing. -/
theorem Inv.todo_ne_nil {held : ι → List M} (h : Inv rank s held) {i : ι} {m : M}
    (hm : s.owner m = some i) : s.todo i ≠ [] := by
  intro htodo
  have hi := h.agrees i
  rw [htodo] at hi
  have hmem := (h.owner i m).mp hm
  rw [show held i = [] from hi] at hmem
  cases hmem

omit [DecidableEq ι] [DecidableEq M] in
/-- What a thread waits for is of higher rank than what it holds. -/
theorem Inv.rank_lt {held : ι → List M} (h : Inv rank s held) {i : ι} {m m' : M}
    {ops : List (LockOp M)} (htodo : s.todo i = .acquire m :: ops) (hm' : s.owner m' = some i) :
    rank m' < rank m := by
  have hi := h.agrees i
  rw [htodo] at hi
  exact hi.1 m' ((h.owner i m').mp hm')

/-- **There is no deadlock**: as long as some thread is in a call, some thread can
go on. -/
theorem Inv.exists_turn [Fintype ι] {held : ι → List M} (h : Inv rank s held) (hnot : ¬ s.Idle) :
    ∃ i s', s.Step (.turn i) s' := by
  by_contra hstuck
  -- so every thread in a call waits for a lock that is held
  have hwaits (i : ι) (hi : s.todo i ≠ []) :
      ∃ m ops j, s.todo i = .acquire m :: ops ∧ s.owner m = some j := by
    match htodo : s.todo i with
    | [] => exact absurd htodo hi
    | .release m :: ops => exact absurd ⟨i, _, .release htodo⟩ hstuck
    | .acquire m :: ops =>
      cases howner : s.owner m with
      | none => exact absurd ⟨i, _, .acquire htodo howner⟩ hstuck
      | some j => exact ⟨m, ops, j, rfl, howner⟩
  obtain ⟨i₀, hi₀⟩ := not_forall.mp hnot
  have hbusy : (Finset.univ.filter fun i => s.todo i ≠ []).Nonempty :=
    ⟨i₀, Finset.mem_filter.mpr ⟨Finset.mem_univ i₀, hi₀⟩⟩
  obtain ⟨m₀, _, _⟩ := hwaits i₀ hi₀
  have : Nonempty M := ⟨m₀⟩
  have : Nonempty ι := ⟨i₀⟩
  choose! m ops j htodo howner using hwaits
  -- take one that waits for a lock of the highest rank
  obtain ⟨i, hi, hmax⟩ := Finset.exists_max_image _ (fun i => rank (m i)) hbusy
  have hi := (Finset.mem_filter.mp hi).2
  have hj : s.todo (j i) ≠ [] := h.todo_ne_nil (howner i hi)
  have hlt : rank (m i) < rank (m (j i)) := h.rank_lt (htodo (j i) hj) (howner i hi)
  exact absurd (hmax (j i) (Finset.mem_filter.mpr ⟨Finset.mem_univ _, hj⟩)) (not_le.mpr hlt)

/-- How much all threads have to do yet. -/
def work [Fintype ι] (s : LockState ι M) : ℕ := ∑ i, (s.todo i).length

theorem work_turn [Fintype ι] {i : ι} (hs : s.Step (.turn i) s') : s'.work < s.work := by
  cases hs with
  | acquire htodo _ | release htodo =>
    refine sum_update_lt List.length (Finset.mem_univ i) ?_
    rw [htodo]
    exact Nat.lt_succ_self _

/-- **All calls come to their end**, in whatever order the threads go on, and then all
locks are free. -/
theorem Inv.idle [Fintype ι] {held : ι → List M} (h : Inv rank s held) :
    (turnSystem ι M).Inevitably (fun s => s.Idle ∧ ∀ m, s.owner m = none) s := by
  refine .of_rank (I := fun s => ∃ held, Inv rank s held) work ?_ ?_ ⟨held, h⟩
  · rintro s ⟨held, h⟩ hnot
    have hnot : ¬ s.Idle := fun hidle => hnot ⟨hidle, fun m =>
      Option.eq_none_iff_forall_ne_some.mpr fun i hm => h.todo_ne_nil hm (hidle i)⟩
    obtain ⟨i, s', hs⟩ := h.exists_turn hnot
    exact ⟨.turn i, s', ⟨i, rfl⟩, hs⟩
  · rintro s _ s' ⟨held, h⟩ _ ⟨⟨i, rfl⟩, hs⟩
    exact ⟨h.turn hs, work_turn hs⟩

/-- **Ordered calls.** -/
def CallsOrdered (rank : M → α) (_ : LockState ι M) : LockStep ι M → Prop
  | .call _ p => p.Ordered rank
  | .turn _ => True

/-- **A run of ordered calls keeps what holds of the locks.** -/
theorem exists_inv {tr : List (LockState ι M × LockStep ι M)} (hr : (lockSystem ι M).Run tr s)
    (hc : Met (CallsOrdered rank) tr) : ∃ held, Inv rank s held := by
  refine (hr.throughout_of_met (I := fun s => ∃ held, Inv rank s held) ?_ ?_ hc).1
  · rintro s ⟨htodo, howner⟩
    refine ⟨fun _ => [], fun i => ?_, fun _ => .nil, fun i m => ?_⟩
    · rw [htodo i]
      rfl
    · rw [howner m]
      exact iff_of_false (fun heq => by cases heq) List.not_mem_nil
  · rintro s l s' _ ⟨held, h⟩ hs hl
    cases l with
    | call i p => exact ⟨held, h.call hl hs⟩
    | turn i => exact h.turn hs

end LockState
