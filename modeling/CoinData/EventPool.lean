import CoinData.Runs
import Mathlib.Data.List.Basic
import Mathlib.Tactic.Common

/-!
# Events and their tasks

An event pool keeps pairs of an event and a task. `spin_once` asks the events one
after the other, and puts the task of an event that is there into a second queue;
`run_and_clear_all_ready_task` gives the tasks of that queue to the first worker of a
pool of threads, and `clear_all_ready_task` drops them. The first queue is locked
as long as a spin asks, the second one as long as tasks are given to the worker, so
a spin goes on in between, but finds no event there.

The worker gets a plain pointer to the task, and its queue holds nine: a tenth is not
put in, and nobody is told. What the worker takes from its queue it calls. The calls on
this queue are single steps, as one thread puts in, under `worker_lock_`, and one takes
out. The pool is not destroyed, and no event and no task throws.
-/

/-- **An event pool** with its worker: `spin` is what the spin in progress has still to
ask, and `runner` what is still to be given to the worker by who has the second lock.
`found` are the tasks whose events were there, `invoked` those that were called, latest
first. -/
structure EventPool (ε τ : Type) where
  eventDeque : List (ε × τ)
  spin : Option (List (ε × τ))
  readyTaskDeque : List τ
  runner : Option (List τ)
  tasks : List τ
  current : Option τ
  found : List τ
  invoked : List τ

/-- What happens to an event pool. -/
inductive EventStep (ε τ : Type) where
  | pushEvent (event : ε) (task : τ)
  /-- `spin_once` has locked the events. -/
  | spin
  /-- The next event is asked. -/
  | ask (isThere : Bool)
  /-- `spin_once` returns. -/
  | spun
  /-- `run_and_clear_all_ready_task` has locked the ready tasks. -/
  | run
  /-- The next task is given to the worker. -/
  | add
  /-- `run_and_clear_all_ready_task` returns. -/
  | ran
  | clearAllReadyTask
  /-- The worker takes a task. -/
  | take
  /-- The task is called. -/
  | invoke
deriving DecidableEq, Repr

namespace EventPool

variable {ε τ : Type}

/-- The constructor. -/
def new : EventPool ε τ := ⟨[], none, [], none, [], none, [], []⟩

/-- How many tasks the worker's queue holds. -/
def room : ℕ := 9

/-- Take a step, if it is possible. -/
def next (s : EventPool ε τ) : EventStep ε τ → Option (EventPool ε τ)
  | .pushEvent event task =>
    if s.spin.isNone then some { s with eventDeque := s.eventDeque ++ [(event, task)] } else none
  | .spin => if s.spin.isNone then some { s with spin := some s.eventDeque } else none
  | .ask isThere =>
    match s.spin with
    | some ((_, task) :: rest) =>
      if isThere then
        if s.runner.isNone then some { s with
          spin := some rest
          readyTaskDeque := s.readyTaskDeque ++ [task]
          found := task :: s.found }
        else none
      else some { s with spin := some rest }
    | _ => none
  | .spun =>
    match s.spin with
    | some [] => some { s with spin := none }
    | _ => none
  | .run => if s.runner.isNone then some { s with runner := some s.readyTaskDeque } else none
  | .add =>
    match s.runner with
    | some (task :: rest) => some { s with
        runner := some rest
        tasks := if s.tasks.length < room then s.tasks ++ [task] else s.tasks }
    | _ => none
  | .ran =>
    match s.runner with
    | some [] => some { s with runner := none, readyTaskDeque := [] }
    | _ => none
  | .clearAllReadyTask =>
    if s.runner.isNone then some { s with readyTaskDeque := [] } else none
  | .take =>
    match s.current, s.tasks with
    | none, task :: rest => some { s with current := some task, tasks := rest }
    | _, _ => none
  | .invoke =>
    match s.current with
    | some task => some { s with current := none, invoked := task :: s.invoked }
    | none => none

end EventPool

/-- **The system of an event pool.** -/
def eventPoolSystem (ε τ : Type) : TransitionSystem (EventPool ε τ) (EventStep ε τ) where
  init s := s = .new
  step s l s' := s.next l = some s'

namespace EventPool

open TransitionSystem

variable {ε τ : Type} {s s' : EventPool ε τ} {l : EventStep ε τ}

/-- The tasks which are ready and not given to the worker. -/
def pending (s : EventPool ε τ) : List τ := s.runner.getD s.readyTaskDeque

/-- **The tasks where they are**: those called, the one being called, those in the
worker's queue, and those ready. -/
def order (s : EventPool ε τ) : List τ :=
  s.invoked.reverse ++ s.current.toList ++ s.tasks ++ s.pending

/-- **No task is lost**: they are where they should be, in the order in which their events
were found. -/
def Accounted (s : EventPool ε τ) : Prop := s.order = s.found.reverse

/-- **A step keeps the tasks**: there is room for the one that is given to the worker, and
none is ready when all are dropped. -/
def KeepsTasks (s : EventPool ε τ) : EventStep ε τ → Prop
  | .add => s.tasks.length < room
  | .clearAllReadyTask => s.readyTaskDeque = []
  | _ => True

instance [DecidableEq τ] (s : EventPool ε τ) (l : EventStep ε τ) : Decidable (s.KeepsTasks l) := by
  unfold KeepsTasks
  split <;> infer_instance

/-- All tasks stay, or one is found. -/
inductive Kept (s s' : EventPool ε τ) : Prop
  | same : s'.order = s.order → s'.found = s.found → Kept s s'
  | found {task : τ} : s'.order = s.order ++ [task] → s'.found = task :: s.found → Kept s s'

/-- Some tasks are gone. -/
structure Lost (s s' : EventPool ε τ) : Prop where
  found : s'.found = s.found
  order : ∃ front gone back, gone ≠ [] ∧ s.order = front ++ gone ++ back
    ∧ s'.order = front ++ back

theorem kept_of_next (h : s.next l = some s') (hl : s.KeepsTasks l) : Kept s s' := by
  cases l with
  | pushEvent event task | spin =>
    dsimp only [next] at h
    split at h
    · cases h
      exact .same rfl rfl
    · cases h
  | spun =>
    dsimp only [next] at h
    split at h
    · cases h
      exact .same rfl rfl
    · cases h
  | run =>
    dsimp only [next] at h
    split at h
    · next hrunner =>
      cases h
      refine .same ?_ rfl
      simp [order, pending, Option.isNone_iff_eq_none.mp hrunner]
    · cases h
  | ran =>
    dsimp only [next] at h
    split at h
    · next hrunner =>
      cases h
      refine .same ?_ rfl
      simp [order, pending, hrunner]
    · cases h
  | ask isThere =>
    dsimp only [next] at h
    split at h
    · next task rest hspin =>
      split at h
      · split at h
        · next hrunner =>
          cases h
          refine .found ?_ rfl
          simp [order, pending, Option.isNone_iff_eq_none.mp hrunner]
        · cases h
      · cases h
        exact .same rfl rfl
    · cases h
  | add =>
    dsimp only [next] at h
    split at h
    · next task rest hrunner =>
      cases h
      refine .same ?_ rfl
      simp [order, pending, hrunner, if_pos (show s.tasks.length < room from hl)]
    · cases h
  | clearAllReadyTask =>
    dsimp only [next] at h
    split at h
    · next hrunner =>
      cases h
      refine .same ?_ rfl
      simp [order, pending, Option.isNone_iff_eq_none.mp hrunner,
        show s.readyTaskDeque = [] from hl]
    · cases h
  | take =>
    dsimp only [next] at h
    split at h
    · next task rest hcurrent htasks =>
      cases h
      refine .same ?_ rfl
      simp [order, pending, hcurrent, htasks]
    · cases h
  | invoke =>
    dsimp only [next] at h
    split at h
    · next task hcurrent =>
      cases h
      refine .same ?_ rfl
      simp [order, pending, hcurrent]
    · cases h

theorem lost_of_next (h : s.next l = some s') (hl : ¬ s.KeepsTasks l) : Lost s s' := by
  cases l with
  | add =>
    dsimp only [next] at h
    split at h
    · next task rest hrunner =>
      cases h
      refine ⟨rfl, s.invoked.reverse ++ s.current.toList ++ s.tasks, [task], rest,
        List.cons_ne_nil _ _, ?_, ?_⟩
      · simp [order, pending, hrunner]
      · simp [order, pending, if_neg (show ¬ s.tasks.length < room from hl)]
    · cases h
  | clearAllReadyTask =>
    dsimp only [next] at h
    split at h
    · next hrunner =>
      cases h
      refine ⟨rfl, s.invoked.reverse ++ s.current.toList ++ s.tasks, s.readyTaskDeque, [], hl,
        ?_, ?_⟩ <;>
        simp [order, pending, Option.isNone_iff_eq_none.mp hrunner]
    · cases h
  | _ => exact absurd trivial hl

/-- **When every task whose event was found is called in its turn**, is about to be, or
waits for it: exactly if the worker's queue is never full when a task is given to it, and
no task is ready when all are dropped. -/
theorem tasks_accounted_iff {tr : List (EventPool ε τ × EventStep ε τ)}
    (hr : (eventPoolSystem ε τ).Run tr s) : Throughout Accounted tr s ↔ Met KeepsTasks tr := by
  refine hr.forall_iff (J := fun _ => True) ?_ ?_ ?_
  · rintro s rfl
    exact ⟨rfl, trivial⟩
  · intro s l s' h _ hstep hl
    refine ⟨?_, trivial⟩
    unfold Accounted at h ⊢
    cases kept_of_next hstep hl with
    | same horder hfound => rw [horder, hfound, h]
    | found horder hfound => rw [horder, hfound, h, List.reverse_cons]
  · intro s l s' h _ hstep hl h'
    unfold Accounted at h h'
    obtain ⟨hfound, front, gone, back, hgone, horder, horder'⟩ := lost_of_next hstep hl
    have hlen : s'.order.length = s.order.length := by rw [h', h, hfound]
    rw [horder, horder'] at hlen
    simp only [List.length_append] at hlen
    exact hgone (List.length_eq_zero_iff.mp (by omega))

/-- Two tasks, the first of which is called when the second is given to the worker. -/
theorem tasks_accounted_iff_two : ∃ tr s, (eventPoolSystem ℕ ℕ).Run tr s ∧ s.invoked = [11, 10]
    ∧ Throughout Accounted tr s := by
  have htrace : (trace EventPool.next [] (EventPool.new : EventPool ℕ ℕ)
      [.pushEvent 0 10, .pushEvent 1 11, .spin, .ask true, .ask true, .spun, .run, .add, .take,
        .add, .ran, .invoke, .take, .invoke]).map
        (fun e => (e.2.invoked, decide (Met KeepsTasks e.1)))
      = some ([11, 10], true) := by decide +kernel
  obtain ⟨tr, s, hr, heq⟩ :=
    Run.exists_of_trace (S := eventPoolSystem ℕ ℕ) (fun _ _ _ h => h) rfl htrace
  obtain ⟨hinvoked, hmet⟩ := Prod.mk.inj heq
  exact ⟨tr, s, hr, hinvoked, (tasks_accounted_iff hr).mpr (of_decide_eq_true hmet)⟩

/-- **Whoever has a pointer to a task**, the pool has the task, and the pairs to ask are
among its events. -/
structure Owned (s : EventPool ε τ) : Prop where
  order : s.order.Sublist s.found.reverse
  found : ∀ task ∈ s.found, ∃ event, (event, task) ∈ s.eventDeque
  spin : ∀ rest, s.spin = some rest → ∀ e ∈ rest, e ∈ s.eventDeque

theorem Owned.next (h : s.Owned) (hs : s.next l = some s') : s'.Owned := by
  have horder : s'.order.Sublist s'.found.reverse := by
    by_cases hl : s.KeepsTasks l
    · cases kept_of_next hs hl with
      | same horder hfound =>
        rw [horder, hfound]
        exact h.order
      | found horder hfound =>
        rw [horder, hfound, List.reverse_cons]
        exact h.order.append_right _
    · obtain ⟨hfound, front, gone, back, _, horder, horder'⟩ := lost_of_next hs hl
      rw [hfound, horder']
      refine List.Sublist.trans ?_ h.order
      rw [horder, List.append_assoc]
      exact (List.sublist_append_right gone back).append_left front
  cases l with
  | pushEvent event task =>
    dsimp only [EventPool.next] at hs
    split at hs
    · cases hs
      refine ⟨horder, fun t ht => ?_, fun rest hrest e he => ?_⟩
      · obtain ⟨event', he⟩ := h.found t ht
        exact ⟨event', List.mem_append_left _ he⟩
      · exact List.mem_append_left _ (h.spin rest hrest e he)
    · cases hs
  | spin =>
    dsimp only [EventPool.next] at hs
    split at hs
    · cases hs
      refine ⟨horder, h.found, fun rest hrest e he => ?_⟩
      cases hrest
      exact he
    · cases hs
  | ask isThere =>
    dsimp only [EventPool.next] at hs
    split at hs
    · next event task rest hspin =>
      have hmem := h.spin _ hspin
      have hrest : ∀ rest', some rest = some rest' → ∀ e ∈ rest', e ∈ s.eventDeque := by
        intro rest' heq e he
        cases heq
        exact hmem e (List.mem_cons_of_mem _ he)
      split at hs
      · split at hs
        · cases hs
          refine ⟨horder, fun t ht => ?_, hrest⟩
          rcases List.mem_cons.mp ht with rfl | ht
          · exact ⟨event, hmem _ List.mem_cons_self⟩
          · exact h.found t ht
        · cases hs
      · cases hs
        exact ⟨horder, h.found, hrest⟩
    · cases hs
  | spun =>
    dsimp only [EventPool.next] at hs
    split at hs
    · cases hs
      exact ⟨horder, h.found, fun rest hrest => by cases hrest⟩
    · cases hs
  | run | clearAllReadyTask | add | ran | take | invoke =>
    dsimp only [EventPool.next] at hs
    split at hs
    · cases hs
      exact ⟨horder, h.found, h.spin⟩
    · cases hs

/-- **Tasks are called in the order in which their events were found, each as often at
most**, and what the worker has a pointer to, the pool has. -/
theorem tasks_in_order (h : (eventPoolSystem ε τ).Reachable s) :
    s.order.Sublist s.found.reverse
      ∧ ∀ task ∈ s.current.toList ++ s.tasks, ∃ event, (event, task) ∈ s.eventDeque := by
  have howned : s.Owned := by
    refine h.invariant (I := Owned) ?_ fun _ _ _ _ hI hstep => hI.next hstep
    rintro s rfl
    exact ⟨.refl _, fun t ht => (by cases ht), fun rest hrest => by cases hrest⟩
  refine ⟨howned.order, fun task ht => howned.found task ?_⟩
  refine List.mem_reverse.mp (howned.order.subset ?_)
  unfold order
  rw [List.append_assoc s.invoked.reverse]
  exact List.mem_append_left _ (List.mem_append_right _ ht)

/-- Two tasks are dropped, one of them is found again, and the worker takes it. -/
theorem tasks_in_order_again : ∃ s, (eventPoolSystem ℕ ℕ).Reachable s ∧ s.found = [11, 11, 10]
    ∧ s.order = [11] ∧ s.current = some 11 ∧ s.order.Sublist s.found.reverse := by
  have htrace : (trace EventPool.next [] (EventPool.new : EventPool ℕ ℕ)
      [.pushEvent 0 10, .pushEvent 1 11, .spin, .ask true, .ask true, .clearAllReadyTask, .spun,
        .spin, .ask false, .ask true, .spun, .run, .add, .ran, .take]).map
        (fun e => (e.2.found, e.2.order, e.2.current))
      = some ([11, 11, 10], [11], some 11) := by decide +kernel
  obtain ⟨tr, s, hr, heq⟩ :=
    Run.exists_of_trace (S := eventPoolSystem ℕ ℕ) (fun _ _ _ h => h) rfl htrace
  simp only [Prod.mk.injEq] at heq
  obtain ⟨hfound, horder, hcurrent⟩ := heq
  exact ⟨s, hr.reachable, hfound, horder, hcurrent, (tasks_in_order hr.reachable).1⟩

end EventPool
