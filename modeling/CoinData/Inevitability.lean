import CoinData.Runs
import Mathlib.Algebra.Order.BigOperators.Group.Finset

/-!
# What every run comes to

That something may happen is shown by a run; that it has to happen is a
statement about all of them. A state with a property is **inevitable** if
whatever steps are taken, in whatever order, lead to one, and none of the
states before it is stuck. The rule to prove it is a rank: something can be
done in every state that is met before, and whatever is done lowers the rank.

No fairness is assumed, so the steps that may be taken for ever have to be
absent or to be limited themselves. Where many parties take steps, the rank is
a sum, of which a step of one party lowers one term.
-/

namespace TransitionSystem

variable {σ ι : Type*} {S : TransitionSystem σ ι} {P I : σ → Prop}

/-- **Whatever steps are taken from here, a state with the property is
met.** -/
inductive Inevitably (S : TransitionSystem σ ι) (P : σ → Prop) : σ → Prop
  | now {s : σ} : P s → Inevitably S P s
  | later {s : σ} : (∃ l s', S.step s l s') →
      (∀ l s', S.step s l s' → Inevitably S P s') → Inevitably S P s

/-- **The rank rule.** -/
theorem Inevitably.of_rank (rank : σ → ℕ)
    (hgo : ∀ s, I s → ¬ P s → ∃ l s', S.step s l s')
    (hstep : ∀ s l s', I s → ¬ P s → S.step s l s' → I s' ∧ rank s' < rank s) {s : σ}
    (hs : I s) : S.Inevitably P s := by
  suffices h : ∀ n s, I s → rank s < n → S.Inevitably P s from
    h (rank s + 1) s hs (Nat.lt_succ_self _)
  intro n
  induction n with
  | zero => exact fun s _ hlt => absurd hlt (Nat.not_lt_zero _)
  | succ n ih =>
    intro s hs hlt
    by_cases hP : P s
    · exact .now hP
    · refine .later (hgo s hs hP) fun l s' h => ?_
      obtain ⟨hs', hless⟩ := hstep s l s' hs hP h
      exact ih s' hs' (by omega)

/-- **A step of one party lowers the rank of all.** -/
theorem sum_update_lt {κ α : Type*} [DecidableEq κ] (rank : α → ℕ) {f : κ → α} {parties : Finset κ}
    {c : κ} (hc : c ∈ parties) {a : α} (ha : rank a < rank (f c)) :
    ∑ d ∈ parties, rank (Function.update f c a d) < ∑ d ∈ parties, rank (f d) := by
  refine Finset.sum_lt_sum (fun d _ => ?_) ⟨c, hc, by rwa [Function.update_self]⟩
  by_cases hd : d = c
  · rw [hd, Function.update_self]
    exact ha.le
  · rw [Function.update_of_ne hd]

end TransitionSystem
