import Mathlib.Tactic.Common

/-!
# Runs of labelled transition systems

A component is verified here as a transition system: which states it may
start in, and which state a step with a given label leads to. Two readings
of "always" are needed. An **invariant** is a property of every reachable
state, and is proved from what one step does. A property that holds only
as long as every step meets a side condition is a statement about a *run*:
the states passed on the way matter, not only the last one. `Run` keeps
them, and `Run.forall_iff` is the rule that turns a step-wise
characterization of the condition into one of whole runs.
-/

/-- **A labelled transition system**: the initial states, and the steps. -/
structure TransitionSystem (σ ι : Type*) where
  /-- The states a run may start in. -/
  init : σ → Prop
  /-- `step s l s'`: the step labelled `l` may lead from `s` to `s'`. -/
  step : σ → ι → σ → Prop

namespace TransitionSystem

variable {σ ι : Type*} {S : TransitionSystem σ ι}

/-- The states some run reaches. -/
inductive Reachable (S : TransitionSystem σ ι) : σ → Prop
  | init {s : σ} : S.init s → Reachable S s
  | step {s s' : σ} {l : ι} : Reachable S s → S.step s l s' → Reachable S s'

/-- **A run**: the steps taken, each with the state it was taken in, latest
first, and the state they lead to. -/
inductive Run (S : TransitionSystem σ ι) : List (σ × ι) → σ → Prop
  | start {s : σ} : S.init s → Run S [] s
  | snoc {tr : List (σ × ι)} {s s' : σ} {l : ι} :
      Run S tr s → S.step s l s' → Run S ((s, l) :: tr) s'

/-- A property of every state a run passes, the last one included. -/
def Throughout (P : σ → Prop) (tr : List (σ × ι)) (s : σ) : Prop :=
  P s ∧ ∀ e ∈ tr, P e.1

/-- A side condition met by every step of a run, in the state it is taken
in. -/
def Met (cond : σ → ι → Prop) (tr : List (σ × ι)) : Prop :=
  ∀ e ∈ tr, cond e.1 e.2

instance (cond : σ → ι → Prop) [∀ s l, Decidable (cond s l)] (tr : List (σ × ι)) :
    Decidable (Met cond tr) :=
  inferInstanceAs (Decidable (∀ e ∈ tr, cond e.1 e.2))

@[simp] theorem met_nil (cond : σ → ι → Prop) : Met cond [] := by
  intro e he
  cases he

@[simp] theorem met_cons (cond : σ → ι → Prop) (s : σ) (l : ι)
    (tr : List (σ × ι)) :
    Met cond ((s, l) :: tr) ↔ cond s l ∧ Met cond tr :=
  List.forall_mem_cons

theorem throughout_cons (P : σ → Prop) (s s' : σ) (l : ι)
    (tr : List (σ × ι)) :
    Throughout P ((s, l) :: tr) s' ↔ P s' ∧ Throughout P tr s := by
  unfold Throughout
  rw [List.forall_mem_cons]

/-- **The invariant rule**, where a step may use that the state it is taken
in is reachable. -/
theorem Reachable.invariant {I : σ → Prop} (h₀ : ∀ s, S.init s → I s)
    (h : ∀ s l s', S.Reachable s → I s → S.step s l s' → I s') {s : σ}
    (hs : S.Reachable s) : I s := by
  induction hs with
  | init hi => exact h₀ _ hi
  | step hr hstep ih => exact h _ _ _ hr ih hstep

/-- Every state a run passes is reachable. -/
theorem Run.reachable {tr : List (σ × ι)} {s : σ} (hr : S.Run tr s) :
    S.Reachable s := by
  induction hr with
  | start hi => exact .init hi
  | snoc _ hstep ih => exact .step ih hstep

/-- What holds throughout a run holds where it starts. -/
theorem Run.exists_init_of_throughout {P : σ → Prop} {tr : List (σ × ι)} {s : σ}
    (hr : S.Run tr s) (h : Throughout P tr s) : ∃ s₀, S.init s₀ ∧ P s₀ := by
  induction hr with
  | @start s hi => exact ⟨s, hi, h.1⟩
  | snoc _ _ ih => exact ih ((throughout_cons P _ _ _ _).mp h).2

/-- **The invariant rule for runs whose steps all meet a condition.** -/
theorem Run.throughout_of_met {I : σ → Prop} {cond : σ → ι → Prop}
    (h₀ : ∀ s, S.init s → I s)
    (h : ∀ s l s', S.Reachable s → I s → S.step s l s' → cond s l → I s')
    {tr : List (σ × ι)} {s : σ} (hr : S.Run tr s) (hc : Met cond tr) :
    Throughout I tr s := by
  induction hr with
  | start hi => exact ⟨h₀ _ hi, fun e he => by cases he⟩
  | @snoc tr s s' l hr hstep ih =>
    obtain ⟨hl, htr⟩ := (met_cons cond s l tr).mp hc
    have hI := ih htr
    exact (throughout_cons I s s' l tr).mpr
      ⟨h _ _ _ hr.reachable hI.1 hstep hl, hI⟩

/-- **When a side condition is exactly what a property needs.** If a step
that meets the condition keeps the property `P`, and a step that does not
breaks it at once, then `P` holds throughout a run exactly if all its steps
meet the condition. The invariant `J` may lean on `P`: it is kept by the
steps that meet the condition. -/
theorem Run.forall_iff {P J : σ → Prop} {cond : σ → ι → Prop}
    (h₀ : ∀ s, S.init s → P s ∧ J s)
    (hmet : ∀ s l s', P s → J s → S.step s l s' → cond s l → P s' ∧ J s')
    (hnot : ∀ s l s', P s → J s → S.step s l s' → ¬ cond s l → ¬ P s')
    {tr : List (σ × ι)} {s : σ} (hr : S.Run tr s) :
    Throughout P tr s ↔ Met cond tr := by
  have key : ∀ {tr : List (σ × ι)} {s : σ}, S.Run tr s →
      Met cond tr → Throughout P tr s ∧ J s := by
    intro tr s hr
    induction hr with
    | start hi => exact fun _ => ⟨⟨(h₀ _ hi).1, fun e he => by cases he⟩, (h₀ _ hi).2⟩
    | @snoc tr s s' l hr hstep ih =>
      intro hc
      obtain ⟨hl, htr⟩ := (met_cons cond s l tr).mp hc
      obtain ⟨hP, hJ⟩ := ih htr
      obtain ⟨hP', hJ'⟩ := hmet _ _ _ hP.1 hJ hstep hl
      exact ⟨(throughout_cons P s s' l tr).mpr ⟨hP', hP⟩, hJ'⟩
  refine ⟨fun hP => ?_, fun hc => (key hr hc).1⟩
  induction hr with
  | start _ => exact met_nil cond
  | @snoc tr s s' l hr hstep ih =>
    obtain ⟨hP', hP⟩ := (throughout_cons P s s' l tr).mp hP
    have htr := ih hP
    refine (met_cons cond s l tr).mpr ⟨?_, htr⟩
    by_contra hl
    exact hnot _ _ _ hP.1 (key hr htr).2 hstep hl hP'

/-- Only the steps that meet a side condition. -/
def restrict (S : TransitionSystem σ ι) (cond : σ → ι → Prop) : TransitionSystem σ ι where
  init := S.init
  step s l s' := cond s l ∧ S.step s l s'

theorem Run.restrict {cond : σ → ι → Prop} {tr : List (σ × ι)} {s : σ} (hr : S.Run tr s)
    (hc : Met cond tr) : (S.restrict cond).Run tr s := by
  induction hr with
  | start hi => exact .start hi
  | @snoc tr s s' l hr hstep ih =>
    obtain ⟨hl, htr⟩ := (met_cons cond s l tr).mp hc
    exact .snoc (ih htr) ⟨hl, hstep⟩

/-- A property of every step of a run, which is given by the state it is
taken in, its label, and the state it leads to. -/
def Steps (Q : σ → ι → σ → Prop) : List (σ × ι) → σ → Prop
  | [], _ => True
  | (s, l) :: tr, s' => Q s l s' ∧ Steps Q tr s

/-- **When a side condition is exactly what a property of the steps needs.**
The invariant `J` is kept by the steps that meet the condition, which have
the property; those that do not meet it do not have the property. -/
theorem Run.steps_iff {Q : σ → ι → σ → Prop} {J : σ → Prop} {cond : σ → ι → Prop}
    (h₀ : ∀ s, S.init s → J s)
    (hmet : ∀ s l s', J s → S.step s l s' → cond s l → Q s l s' ∧ J s')
    (hnot : ∀ s l s', J s → S.step s l s' → ¬ cond s l → ¬ Q s l s')
    {tr : List (σ × ι)} {s : σ} (hr : S.Run tr s) : Steps Q tr s ↔ Met cond tr := by
  have key : ∀ {tr : List (σ × ι)} {s : σ}, S.Run tr s → Met cond tr → Steps Q tr s ∧ J s := by
    intro tr s hr
    induction hr with
    | start hi => exact fun _ => ⟨trivial, h₀ _ hi⟩
    | @snoc tr s s' l hr hstep ih =>
      intro hc
      obtain ⟨hl, htr⟩ := (met_cons cond s l tr).mp hc
      obtain ⟨hQ, hJ⟩ := ih htr
      obtain ⟨hQ', hJ'⟩ := hmet _ _ _ hJ hstep hl
      exact ⟨⟨hQ', hQ⟩, hJ'⟩
  refine ⟨fun hQ => ?_, fun hc => (key hr hc).1⟩
  induction hr with
  | start _ => exact met_nil cond
  | @snoc tr s s' l hr hstep ih =>
    obtain ⟨hQ', hQ⟩ := hQ
    have htr := ih hQ
    refine (met_cons cond s l tr).mpr ⟨?_, htr⟩
    by_contra hl
    exact hnot _ _ _ (key hr htr).2 hstep hl hQ'

/-- **A run which can go on** until a property holds. -/
def Continues (S : TransitionSystem σ ι) (tr : List (σ × ι)) (P : σ → Prop) : Prop :=
  ∃ tr' s, S.Run (tr' ++ tr) s ∧ P s

theorem Run.continues {P : σ → Prop} {tr : List (σ × ι)} {s : σ} (hr : S.Run tr s) (hs : P s) :
    S.Continues tr P := ⟨[], s, hr, hs⟩

/-- A run can go on by its next step. -/
theorem Continues.of_snoc {P : σ → Prop} {tr : List (σ × ι)} {s : σ} {l : ι}
    (h : S.Continues ((s, l) :: tr) P) : S.Continues tr P := by
  obtain ⟨tr', s', hr, hs'⟩ := h
  refine ⟨tr' ++ [(s, l)], s', ?_, hs'⟩
  rw [List.append_assoc]
  exact hr

/-- **Scripted runs**: the labels in order, from a state which the steps of
`tr` have led to. -/
def trace (next : σ → ι → Option σ) :
    List (σ × ι) → σ → List ι → Option (List (σ × ι) × σ)
  | tr, s, [] => some (tr, s)
  | tr, s, l :: ls => (next s l).bind fun s' => trace next ((s, l) :: tr) s' ls

/-- A script of steps of the system is a run of it. -/
theorem Run.of_trace {next : σ → ι → Option σ}
    (h : ∀ s l s', next s l = some s' → S.step s l s') {ls : List ι}
    {tr tr' : List (σ × ι)} {s s' : σ} (hr : S.Run tr s)
    (ht : trace next tr s ls = some (tr', s')) : S.Run tr' s' := by
  induction ls generalizing tr s with
  | nil =>
    cases ht
    exact hr
  | cons l ls ih =>
    obtain ⟨s₁, hs₁, ht⟩ := Option.bind_eq_some_iff.mp ht
    exact ih (.snoc hr (h s l s₁ hs₁)) ht

/-- **What a script finds**: what is computed from it is so of a run. -/
theorem Run.exists_of_trace {β : Type*} {next : σ → ι → Option σ}
    {f : List (σ × ι) × σ → β} {b : β} {s₀ : σ} {ls : List ι}
    (h : ∀ s l s', next s l = some s' → S.step s l s') (h₀ : S.init s₀)
    (ht : (trace next [] s₀ ls).map f = some b) : ∃ tr s, S.Run tr s ∧ f (tr, s) = b := by
  obtain ⟨⟨tr, s⟩, hs, hf⟩ := Option.map_eq_some_iff.mp ht
  exact ⟨tr, s, .of_trace h (.start h₀) hs, hf⟩

end TransitionSystem
