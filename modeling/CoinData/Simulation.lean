import CoinData.Runs

/-!
# Simulation

A system says what happens step by step, and a specification says what is to
be seen of it. Both are transition systems, of which some steps are
*observed*: a call that is made, an answer that is given. A **simulation**
relates the states of the two so that each step of the system is either no step
of the specification, and then it is not observed, or one with the same
observation. Then whatever is observed of a run of the system is what may be
observed of the specification.

Where the specification does at once what the system does in many steps, with
others taking steps in between, this is what is called linearizability: the
calls take effect one after another, each between its call and its answer.
-/

namespace TransitionSystem

variable {σ ι τ κ ω : Type*} {S : TransitionSystem σ ι} {A : TransitionSystem τ κ}
  {cond : σ → ι → Prop} {obs : σ → ι → Option ω} {obsA : τ → κ → Option ω} {R : σ → τ → Prop}

/-- **What is observed of a run**, latest first. -/
def history (obs : σ → ι → Option ω) (tr : List (σ × ι)) : List ω :=
  tr.filterMap fun e => obs e.1 e.2

theorem history_cons (s : σ) (l : ι) (tr : List (σ × ι)) :
    history obs ((s, l) :: tr) = (obs s l).toList ++ history obs tr := by
  unfold history
  rw [List.filterMap_cons]
  cases obs s l <;> rfl

/-- **A simulation** of the steps that meet a condition. -/
structure Simulation (S : TransitionSystem σ ι) (A : TransitionSystem τ κ)
    (cond : σ → ι → Prop) (obs : σ → ι → Option ω) (obsA : τ → κ → Option ω)
    (R : σ → τ → Prop) : Prop where
  init : ∀ {s}, S.init s → ∃ a, A.init a ∧ R s a
  step : ∀ {s l s' a}, R s a → S.step s l s' → cond s l →
    (R s' a ∧ obs s l = none) ∨ ∃ k a', A.step a k a' ∧ R s' a' ∧ obsA a k = obs s l

/-- **The specification is seen.** -/
theorem Simulation.exists_run (h : Simulation S A cond obs obsA R) {tr : List (σ × ι)} {s : σ}
    (hr : S.Run tr s) (hc : Met cond tr) :
    ∃ tr' a, A.Run tr' a ∧ R s a ∧ history obsA tr' = history obs tr := by
  induction hr with
  | start hi =>
    obtain ⟨a, ha, hR⟩ := h.init hi
    exact ⟨[], a, .start ha, hR, rfl⟩
  | @snoc tr s s' l hr hstep ih =>
    obtain ⟨hl, htr⟩ := (met_cons cond s l tr).mp hc
    obtain ⟨tr', a, hrA, hR, heq⟩ := ih htr
    rcases h.step hR hstep hl with ⟨hR', hnone⟩ | ⟨k, a', hA, hR', hobs⟩
    · refine ⟨tr', a, hrA, hR', ?_⟩
      rw [history_cons, hnone, heq]
      rfl
    · refine ⟨(a, k) :: tr', a', .snoc hrA hA, hR', ?_⟩
      rw [history_cons, history_cons, hobs, heq]

end TransitionSystem
