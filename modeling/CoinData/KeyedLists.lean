import Mathlib.Data.List.Basic
import Mathlib.Tactic.Common

/-!
# Lists of keyed entries

A list of entries, some of which have a key, says what a key stands for by its
first entry with it. Several entries may have the same key; the later ones are
without effect.

An entry is put in the place of the first one with its key, or, where there is
none, at the end. Both change what its key stands for, and nothing else.
-/

namespace KeyedList

variable {α κ : Type*} [DecidableEq κ] (key : α → Option κ) {k k' : κ} {a : α} {es : List α}
  {i : ℕ}

/-- The first entry with a key. -/
def first (k : κ) (es : List α) : Option α := es.find? fun a => key a = some k

/-- Where it is. -/
def position (k : κ) (es : List α) : Option ℕ := es.findIdx? fun a => key a = some k

variable {key}

theorem position_cons_of_eq (h : key a = some k) : position key k (a :: es) = some 0 := by
  unfold position
  rw [List.findIdx?_cons, decide_eq_true h]
  rfl

theorem position_cons_of_ne (h : key a ≠ some k) :
    position key k (a :: es) = (position key k es).map (· + 1) := by
  unfold position
  rw [List.findIdx?_cons, decide_eq_false h]
  rfl

theorem first_cons_of_eq (h : key a = some k) : first key k (a :: es) = some a :=
  List.find?_cons_of_pos (decide_eq_true h)

theorem first_cons_of_ne (h : key a ≠ some k) : first key k (a :: es) = first key k es :=
  List.find?_cons_of_neg (by simpa using h)

theorem position_eq_none : position key k es = none ↔ ∀ a ∈ es, key a ≠ some k := by
  unfold position
  rw [List.findIdx?_eq_none_iff]
  simp

/-- **The entry at a position** is the first one with its key. -/
theorem first_of_position (h : position key k es = some i) :
    ∃ a, first key k es = some a ∧ es[i]? = some a ∧ key a = some k := by
  induction es generalizing i with
  | nil => cases h
  | cons b es ih =>
    by_cases hb : key b = some k
    · rw [position_cons_of_eq hb] at h
      cases h
      exact ⟨b, first_cons_of_eq hb, rfl, hb⟩
    · rw [position_cons_of_ne hb] at h
      obtain ⟨j, hj, rfl⟩ := Option.map_eq_some_iff.mp h
      obtain ⟨c, hfirst, hget, hc⟩ := ih hj
      exact ⟨c, (first_cons_of_ne hb).trans hfirst, hget, hc⟩

theorem position_lt (h : position key k es = some i) : i < es.length := by
  obtain ⟨a, _, hget, _⟩ := first_of_position h
  exact (List.getElem?_eq_some_iff.mp hget).1

end KeyedList
