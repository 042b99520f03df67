import Mathlib.Tactic.Common
import Mathlib.Data.List.Count
import Mathlib.Algebra.BigOperators.Group.Finset.Basic

/-!
# Exact covers by counting

Pieces are laid over points: `mem b x` says that the piece `b` contains the
point `x`. How often a point is covered is a number that adds up over the
pieces, so it is the convenient form of two statements at once: that the
pieces are pairwise disjoint (no point is counted twice) and that they
cover a set (every point of it is counted). Cutting a piece up, joining
pieces or moving them between lists are then equations between counts, and
`cover` is a conserved quantity of such steps.
-/

variable {β γ P : Type*} {mem : β → P → Bool} {l l₁ l₂ : List β} {b c : β} {x : P}

/-- **How many pieces of the list contain the point.** -/
def cover (mem : β → P → Bool) (l : List β) (x : P) : ℕ := l.countP (fun b => mem b x)

@[simp] theorem cover_nil : cover mem [] x = 0 := rfl

@[simp] theorem cover_cons : cover mem (b :: l) x
    = cover mem l x + (mem b x).toNat := by
  unfold cover
  rw [List.countP_cons]
  cases mem b x <;> rfl

@[simp] theorem cover_append : cover mem (l₁ ++ l₂) x
    = cover mem l₁ x + cover mem l₂ x := List.countP_append

/-- The order of the pieces is irrelevant. -/
theorem cover_perm (h : l₁.Perm l₂) : cover mem l₁ x = cover mem l₂ x := h.countP_eq _

/-- A point is covered exactly if some piece contains it. -/
theorem cover_pos_iff : 0 < cover mem l x ↔ ∃ b ∈ l, mem b x = true :=
  List.countP_pos_iff

/-- A piece contains a point only if the point is covered. -/
theorem cover_pos_of_mem (hb : b ∈ l) (hx : mem b x = true) : 0 < cover mem l x :=
  cover_pos_iff.mpr ⟨b, hb, hx⟩

/-- **No point is covered twice exactly if the pieces are pairwise
disjoint.** -/
theorem cover_le_one_iff : (∀ x, cover mem l x ≤ 1)
    ↔ l.Pairwise (fun b c => ∀ x, ¬ (mem b x = true ∧ mem c x = true)) := by
  induction l with
  | nil => exact ⟨fun _ => .nil, fun _ _ => Nat.zero_le 1⟩
  | cons b l ih =>
    rw [List.pairwise_cons, ← ih]
    constructor
    · refine fun h => ⟨fun c hc x hx => ?_, fun x => ?_⟩
      · have hpos := cover_pos_of_mem hc hx.2
        have hle := h x
        rw [cover_cons, hx.1, Bool.toNat_true] at hle
        omega
      · have hle := h x
        rw [cover_cons] at hle
        omega
    · intro h x
      rw [cover_cons]
      cases hb : mem b x with
      | false => exact h.2 x
      | true =>
        have hzero : ¬ 0 < cover mem l x := fun hpos => by
          obtain ⟨c, hc, hcx⟩ := cover_pos_iff.mp hpos
          exact h.1 c hc x ⟨hb, hcx⟩
        rw [Bool.toNat_true]
        omega

/-! ## Families of lists -/

/-- The pieces of the first `n` lists of a family. -/
def gather (n : ℕ) (F : ℕ → List β) : List β := (List.range n).flatMap F

theorem mem_gather {n : ℕ} {F : ℕ → List β} : b ∈ gather n F ↔ ∃ k < n, b ∈ F k := by
  unfold gather
  rw [List.mem_flatMap]
  exact exists_congr (fun k => and_congr_left (fun _ => List.mem_range))

/-- The cover of a family adds up over its lists. -/
theorem cover_gather (n : ℕ) (F : ℕ → List β) (x : P) :
    cover mem (gather n F) x = ∑ k ∈ Finset.range n, cover mem (F k) x := by
  induction n with
  | zero => rfl
  | succ n ih =>
    rw [Finset.sum_range_succ, ← ih]
    unfold gather
    rw [List.range_succ, List.flatMap_append, cover_append, List.flatMap_singleton]

/-- **Replacing one list of a family** exchanges its cover. -/
theorem cover_gather_update {n k : ℕ} (hk : k < n) (F : ℕ → List β) (l : List β) (x : P) :
    cover mem (gather n (Function.update F k l)) x + cover mem (F k) x
      = cover mem (gather n F) x + cover mem l x := by
  have hmem : k ∈ Finset.range n := Finset.mem_range.mpr hk
  rw [cover_gather, cover_gather, ← Finset.add_sum_erase _ _ hmem,
    ← Finset.add_sum_erase (Finset.range n) (fun j => cover mem (F j) x) hmem,
    Function.update_self,
    Finset.sum_congr rfl (fun j hj => by
      rw [Function.update_of_ne (Finset.ne_of_mem_erase hj)])]
  omega
