import Mathlib.Tactic.Ring
import Mathlib.Tactic.Linarith
import Mathlib.Algebra.Order.Ring.Nat

/-!
# Aligned intervals and their siblings

An interval of width `w` is aligned if it starts at a multiple of `w`. The
aligned intervals of width `2 * w` each consist of two aligned intervals of
width `w`, which are siblings of each other. Two neighbouring aligned
intervals of one width need not be siblings, and their union is aligned
only if they are: this is what tells the halves of a block from two blocks
that merely lie side by side.
-/

/-- **The sibling** of the aligned interval of width `w` at `x`: the other
half of the aligned interval of twice the width that it lies in. -/
def sibling (w x : ℕ) : ℕ := if x / w % 2 = 0 then x + w else x - w

section Sibling

variable {w x y v : ℕ}

theorem sibling_even {q : ℕ} (hw : 0 < w) (hq : q % 2 = 0) : sibling w (w * q) = w * (q + 1) := by
  unfold sibling
  rw [Nat.mul_div_cancel_left q hw, if_pos hq, Nat.mul_succ]

theorem sibling_odd {q : ℕ} (hw : 0 < w) (hq : q % 2 = 0) : sibling w (w * (q + 1)) = w * q := by
  unfold sibling
  rw [Nat.mul_div_cancel_left _ hw, if_neg (by omega), Nat.mul_succ, Nat.add_sub_cancel]

/-- An aligned interval is the lower or the upper half of an aligned one. -/
theorem exists_half (h : w ∣ x) : ∃ q, q % 2 = 0 ∧ (x = w * q ∨ x = w * (q + 1)) := by
  obtain ⟨q, rfl⟩ := h
  rcases Nat.mod_two_eq_zero_or_one q with hq | hq
  · exact ⟨q, hq, Or.inl rfl⟩
  · exact ⟨q - 1, by omega, Or.inr (by rw [Nat.sub_add_cancel (by omega)])⟩

/-- The sibling is aligned. -/
theorem dvd_sibling (hw : 0 < w) (h : w ∣ x) : w ∣ sibling w x := by
  obtain ⟨q, hq, rfl | rfl⟩ := exists_half h
  · rw [sibling_even hw hq]
    exact Dvd.intro _ rfl
  · rw [sibling_odd hw hq]
    exact Dvd.intro _ rfl

/-- Siblings are siblings of each other. -/
theorem sibling_sibling (hw : 0 < w) (h : w ∣ x) : sibling w (sibling w x) = x := by
  obtain ⟨q, hq, rfl | rfl⟩ := exists_half h
  · rw [sibling_even hw hq, sibling_odd hw hq]
  · rw [sibling_odd hw hq, sibling_even hw hq]

/-- No interval is its own sibling. -/
theorem sibling_ne (hw : 0 < w) : sibling w x ≠ x := by
  unfold sibling
  split
  · omega
  · next hodd =>
    intro h
    have hx : x = 0 := by omega
    rw [hx, Nat.zero_div] at hodd
    exact hodd rfl

/-- **The union of two neighbours is aligned exactly if they are
siblings.** -/
theorem dvd_min_iff (hw : 0 < w) (hx : w ∣ x) (hadj : y = x + w ∨ x = y + w) :
    2 * w ∣ min x y ↔ y = sibling w x := by
  have heven : ∀ q, 2 * w ∣ w * q ↔ q % 2 = 0 := fun q => by
    rw [Nat.mul_comm 2 w, Nat.mul_dvd_mul_iff_left hw]
    exact Nat.dvd_iff_mod_eq_zero
  obtain ⟨q, hq, rfl | rfl⟩ := exists_half hx
  · rw [sibling_even hw hq, Nat.mul_succ]
    rcases hadj with rfl | hy
    · rw [min_eq_left (Nat.le_add_right _ _), heven]
      exact ⟨fun _ => rfl, fun _ => hq⟩
    · -- the neighbour below belongs to another pair
      rw [min_eq_right (by omega)]
      have hq0 : q ≠ 0 := by
        rintro rfl
        rw [Nat.mul_zero] at hy
        omega
      have hy' : y = w * (q - 1) := by
        rw [Nat.mul_sub, Nat.mul_one]
        omega
      rw [hy', heven]
      refine ⟨fun h => by omega, fun h => ?_⟩
      omega
  · rw [sibling_odd hw hq]
    rcases hadj with rfl | hy
    · rw [min_eq_left (Nat.le_add_right _ _), heven, Nat.mul_succ]
      exact ⟨fun h => by omega, fun h => by omega⟩
    · rw [Nat.mul_succ] at hy
      have hyq : y = w * q := by omega
      rw [min_eq_right (by rw [hyq, Nat.mul_succ]; omega), hyq, heven]
      exact ⟨fun _ => rfl, fun _ => hq⟩

/-- A wider aligned interval contains an aligned one with its sibling, if
it meets it. -/
theorem sibling_within (hw : 0 < w) (hx : w ∣ x) (hv : 2 * w ∣ v) (hy : v ∣ y) (h₁ : y ≤ x)
    (h₂ : x < y + v) : y ≤ sibling w x ∧ sibling w x + w ≤ y + v := by
  obtain ⟨i, rfl⟩ := hv
  obtain ⟨j, rfl⟩ := hy
  have hcancel : ∀ {p r : ℕ}, w * p ≤ w * r → p ≤ r := fun h => Nat.le_of_mul_le_mul_left h hw
  have hcancel' : ∀ {p r : ℕ}, w * p < w * r → p < r := fun h => Nat.lt_of_mul_lt_mul_left h
  have hyj : 2 * w * i * j = w * (2 * (i * j)) := by ring
  have hvi : 2 * w * i * j + 2 * w * i = w * (2 * (i * j) + 2 * i) := by ring
  rw [hvi] at h₂ ⊢
  rw [hyj] at h₁ ⊢
  obtain ⟨q, hq, rfl | rfl⟩ := exists_half hx
  · have hlow := hcancel h₁
    have hhigh := hcancel' h₂
    rw [sibling_even hw hq, ← Nat.mul_succ]
    exact ⟨Nat.mul_le_mul_left w (by omega), Nat.mul_le_mul_left w (by omega)⟩
  · have hlow := hcancel h₁
    have hhigh := hcancel' h₂
    rw [sibling_odd hw hq, ← Nat.mul_succ]
    exact ⟨Nat.mul_le_mul_left w (by omega), Nat.mul_le_mul_left w (by omega)⟩

end Sibling
