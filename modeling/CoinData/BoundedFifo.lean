import Mathlib.Algebra.Order.Ring.Nat
import Mathlib.Data.List.Basic
import Mathlib.Tactic.Common

/-!
# Bounded queues

A bounded first-in first-out queue is given by what its callers see of it:
values go in and come out, an attempt to put one in is refused if the queue
is full, and an attempt to take one out finds it empty. `Accepts` says of a
log of such events that a queue of `n` places can have produced it, and
what the queue holds afterwards.

The second part is about the usual representation: an array of `n + 1`
slots, used in a circle. Which slot an element is in depends on how many
elements went before it, modulo the number of slots.
-/

namespace BoundedFifo

/-- What a caller of a queue sees. -/
inductive Event (α : Type) where
  /-- The value went in. -/
  | pushed (v : α)
  /-- Nothing went in, as the queue was full. -/
  | refused
  /-- The value came out. -/
  | popped (v : α)
  /-- Nothing came out, as the queue was empty. -/
  | empty
deriving DecidableEq, Repr

variable {α : Type} {n : ℕ}

/-- **What a queue of `n` places does**, from one content to the next. -/
inductive Step (n : ℕ) : List α → Event α → List α → Prop
  | pushed {q : List α} (v : α) : q.length < n → Step n q (.pushed v) (q ++ [v])
  | refused {q : List α} : q.length = n → Step n q .refused q
  | popped {q : List α} (v : α) : Step n (v :: q) (.popped v) q
  | empty : Step n [] .empty []

/-- **The logs a queue of `n` places produces**, latest event first, and
the content it is left with. -/
inductive Accepts (n : ℕ) : List (Event α) → List α → Prop
  | nil : Accepts n [] []
  | cons {log : List (Event α)} {q q' : List α} {e : Event α} :
      Accepts n log q → Step n q e q' → Accepts n (e :: log) q'

/-- A step of an implementation either shows as an event, or not at all. -/
def Moves (n : ℕ) (q : List α) (e : Option (Event α)) (q' : List α) : Prop :=
  match e with
  | none => q' = q
  | some e => Step n q e q'

theorem Accepts.append {log : List (Event α)} {q q' : List α} {e : Option (Event α)}
    (h : Accepts n log q) (he : Moves n q e q') : Accepts n (e.toList ++ log) q' := by
  cases e with
  | none =>
    cases he
    exact h
  | some e => exact .cons h he

/-- What went in, in order. -/
def pushed : List (Event α) → List α
  | [] => []
  | .pushed v :: log => pushed log ++ [v]
  | .refused :: log | .popped _ :: log | .empty :: log => pushed log

/-- What came out, in order. -/
def popped : List (Event α) → List α
  | [] => []
  | .popped v :: log => popped log ++ [v]
  | .pushed _ :: log | .refused :: log | .empty :: log => popped log

/-- **Nothing is lost, and the order is kept**: what came out, followed by
what is still there, is what went in. -/
theorem Accepts.pushed_eq {log : List (Event α)} {q : List α} (h : Accepts n log q) :
    pushed log = popped log ++ q := by
  induction h with
  | nil => rfl
  | cons _ hstep ih =>
    cases hstep with
    | pushed v _ =>
      rw [pushed, popped, ih, List.append_assoc]
    | refused _ => exact ih
    | @popped q v =>
      rw [pushed, popped, ih, List.append_assoc]
      rfl
    | empty => exact ih

/-- **What came out is the first of what went in.** -/
theorem Accepts.popped_prefix {log : List (Event α)} {q : List α} (h : Accepts n log q) :
    popped log <+: pushed log :=
  ⟨q, h.pushed_eq.symm⟩

end BoundedFifo

/-! ## Slots in a circle -/

namespace Nat

variable {i j n : ℕ}

/-- Two numbers less than `n` apart are in different slots. -/
theorem mod_ne_of_lt_add (hij : i < j) (hj : j < i + n) : i % n ≠ j % n := by
  intro hmod
  have hdvd : n ∣ j - i := Nat.dvd_of_mod_eq_zero (Nat.sub_mod_eq_zero_of_mod_eq hmod.symm)
  have hle := Nat.le_of_dvd (Nat.sub_pos_of_lt hij) hdvd
  omega

/-- **Two numbers at most `n - 1` apart share a slot only if they are the
same.** -/
theorem mod_eq_iff_of_lt_add (hij : i ≤ j) (hj : j < i + n) : i % n = j % n ↔ i = j := by
  refine ⟨fun hmod => ?_, fun h => by rw [h]⟩
  by_contra hne
  exact mod_ne_of_lt_add (Nat.lt_of_le_of_ne hij hne) hj hmod

end Nat
