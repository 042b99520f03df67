import CoinData.BoundedFifo
import Mathlib.Algebra.Order.Ring.Nat
import Mathlib.Tactic.Common

/-!
# The shared circular buffer

What is pushed is numbered, from the first push on: number `i` goes to the
element `i % total_size_`, and the window from `head_` to `tail_` holds the
numbers that can be asked for. A push beyond `total_size_ - 1` of them
moves `head_` on, whether or not anybody has read the element: the window
never spans the whole buffer. An index outside the window is not refused
but moved into it.

`Keeps` is the invariant: the buffer keeps the latest of all that was ever
pushed (`Keeps.get`).
-/

/-- `SharedCircularBuffer<T>`. The elements are numbered from 0 to
`total_size_ - 1`; the counters `head_` and `tail_` are taken as unbounded. -/
structure SharedCircularBuffer (α : Type) where
  head : ℕ
  tail : ℕ
  totalSize : ℕ
  buffer : ℕ → α

namespace SharedCircularBuffer

variable {α : Type}

/-- A buffer of `size` elements, each with the default value. -/
def ofSize [Inhabited α] (size : ℕ) : SharedCircularBuffer α := ⟨0, 0, size, fun _ => default⟩

/-- `push_back`: the element is written before the counters move. -/
def pushBack (ring : SharedCircularBuffer α) (val : α) : SharedCircularBuffer α :=
  { ring with
    head := if ring.totalSize ≤ ring.tail + 1 - ring.head then ring.head + 1 else ring.head
    tail := ring.tail + 1
    buffer := Function.update ring.buffer (ring.tail % ring.totalSize) val }

/-- `operator[]`: which element the reference it returns is to. Below an
empty window, `tail_ - 1` wraps around. -/
def element (ring : SharedCircularBuffer α) (idx : ℕ) : ℕ :=
  (if idx < ring.head then ring.head
    else if ring.tail ≤ idx then (ring.tail + (2 ^ 64 - 1)) % 2 ^ 64
    else idx) % ring.totalSize

/-- `copy`: the value of the element. -/
def copy (ring : SharedCircularBuffer α) (idx : ℕ) : α := ring.buffer (ring.element idx)

/-- Assign to an element through a reference. -/
def assign (ring : SharedCircularBuffer α) (slot : ℕ) (val : α) : SharedCircularBuffer α :=
  { ring with buffer := Function.update ring.buffer slot val }

/-- The window of a buffer of size `n`: what was pushed last, but less than
`n`. -/
structure Window (ring : SharedCircularBuffer α) (n : ℕ) : Prop where
  size : ring.totalSize = n
  pos : 0 < n
  head_eq : ring.head = ring.tail + 1 - n

/-- **A buffer of size `n` after pushes**: number `i` was `f i`, and what is
not overwritten can be read. -/
structure Keeps (ring : SharedCircularBuffer α) (n : ℕ) (f : ℕ → α) : Prop
    extends ring.Window n where
  get : ∀ i, i < ring.tail → ring.tail ≤ i + n → ring.buffer (i % n) = f i

variable {ring : SharedCircularBuffer α} {n : ℕ} {f : ℕ → α}

namespace Window

/-- The head after a push. -/
theorem head_pushBack (h : ring.Window n) (val : α) :
    (ring.pushBack val).head = ring.tail + 2 - n := by
  have hhead := h.head_eq
  have hpos := h.pos
  show (if ring.totalSize ≤ ring.tail + 1 - ring.head then ring.head + 1 else ring.head) = _
  rw [h.size]
  split <;> omega

theorem pushBack (h : ring.Window n) (val : α) : (ring.pushBack val).Window n :=
  ⟨h.size, h.pos, h.head_pushBack val⟩

/-- A push moves the head on exactly if the window is as large as it can
be. -/
theorem head_pushBack_eq_iff (h : ring.Window n) (val : α) :
    (ring.pushBack val).head = ring.head ↔ ring.tail + 1 < ring.head + n := by
  have hhead := h.head_eq
  have hpos := h.pos
  rw [h.head_pushBack]
  omega

theorem head_le_pushBack (h : ring.Window n) (val : α) :
    ring.head ≤ (ring.pushBack val).head := by
  rw [h.head_pushBack, h.head_eq]
  omega

end Window

namespace Keeps

theorem ofSize [Inhabited α] (hn : 0 < n) (f : ℕ → α) :
    (SharedCircularBuffer.ofSize n : SharedCircularBuffer α).Keeps n f := by
  refine ⟨⟨rfl, hn, ?_⟩, fun i hi => absurd hi (Nat.not_lt_zero i)⟩
  show 0 = 0 + 1 - n
  omega

/-- **A push is kept.** -/
theorem pushBack (h : ring.Keeps n f) : (ring.pushBack (f ring.tail)).Keeps n f := by
  refine ⟨h.toWindow.pushBack _, fun i hi htail => ?_⟩
  change i < ring.tail + 1 at hi
  change ring.tail + 1 ≤ i + n at htail
  show Function.update ring.buffer (ring.tail % ring.totalSize) (f ring.tail) (i % n) = f i
  rw [h.size]
  rcases Nat.lt_succ_iff_lt_or_eq.mp hi with hlt | heq
  · -- two numbers of one element are `n` apart
    have hne : i % n ≠ ring.tail % n := Nat.mod_ne_of_lt_add hlt (by omega)
    rw [Function.update_of_ne hne]
    exact h.get i hlt (by omega)
  · rw [heq, Function.update_self]

end Keeps

namespace Window

/-- Within the window an index is not moved. -/
theorem element_eq (h : ring.Window n) {idx : ℕ} (hhead : ring.head ≤ idx)
    (htail : idx < ring.tail) : ring.element idx = idx % n := by
  unfold SharedCircularBuffer.element
  rw [if_neg (Nat.not_lt.mpr hhead), if_neg (Nat.not_le.mpr htail), h.size]

/-- Below the window the first element is returned. -/
theorem element_of_lt (h : ring.Window n) {idx : ℕ} (hhead : idx < ring.head) :
    ring.element idx = ring.head % n := by
  unfold SharedCircularBuffer.element
  rw [if_pos hhead, h.size]

/-- **An element that is asked for has a number in the buffer**, which is
the index itself unless the index is below the window. -/
theorem exists_element (h : ring.Window n) {idx : ℕ} (htail : idx < ring.tail) :
    ∃ i, ring.element idx = i % n ∧ idx ≤ i ∧ i < ring.tail ∧ (ring.head ≤ idx → i = idx) := by
  have hhead := h.head_eq
  have hpos := h.pos
  by_cases hlt : idx < ring.head
  · rw [h.element_of_lt hlt]
    by_cases hone : n = 1
    · refine ⟨ring.tail - 1, ?_, by omega, by omega, by omega⟩
      rw [hone, Nat.mod_one, Nat.mod_one]
    · exact ⟨ring.head, rfl, hlt.le, by omega, by omega⟩
  · exact ⟨idx, h.element_eq (not_lt.mp hlt) htail, le_rfl, htail, fun _ => rfl⟩

/-- An index below the window is moved to the head. -/
theorem element_eq_max (h : ring.Window n) {idx : ℕ} (htail : idx < ring.tail) :
    ring.element idx = max idx ring.head % n := by
  rcases lt_or_ge idx ring.head with hlt | hle
  · rw [h.element_of_lt hlt, max_eq_right hlt.le]
  · rw [h.element_eq hle htail, max_eq_left hle]

end Window

namespace Keeps

/-- **Every element there is a number for holds the latest such number.** -/
theorem exists_get (h : ring.Keeps n f) {i : ℕ} (hi : i < ring.tail) :
    ∃ j, i ≤ j ∧ j < ring.tail ∧ j % n = i % n ∧ ring.buffer (i % n) = f j := by
  have hpos := h.pos
  -- the last number before the tail which is congruent to `i`
  have hdiv := Nat.div_add_mod (ring.tail - 1 - i) n
  have hmod := Nat.mod_lt (ring.tail - 1 - i) hpos
  set q := (ring.tail - 1 - i) / n with hq
  have hj : (i + n * q) % n = i % n := Nat.add_mul_mod_self_left i n q
  refine ⟨i + n * q, by omega, by omega, hj, ?_⟩
  rw [← hj]
  exact h.get _ (by omega) (by omega)

end Keeps

end SharedCircularBuffer
