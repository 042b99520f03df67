import CoinData.ExecutorInvariant

/-!
# Whom a signal is sent to

A signal is sent to the group of the child in `child_pid_`, by `execute`,
`send_signal` and `shutdown`, and by the thread of the timeout. `wait` reaps the child,
and leaves `child_pid_` as it is. `shutdown` reaps it too, and clears `child_pid_` a few
steps later, while the thread of the timeout may be about to send its signal. The
number of a child that was reaped may be that of another process then.

`throughout_safe_iff` says in which runs no signal is sent to a child that was reaped.
-/

namespace Executor

variable {s s' t : Executor} {l : ExecutorStep} {n : ℕ}

/-- **No signal was sent to a child that had been reaped.** -/
def Safe (s : Executor) : Prop := ∀ sig ∈ s.signals, sig.reaped = false

/-- **What keeps signals from children that were reaped.** Once `wait` has returned for
the child in `child_pid_`, `execute` does not get to its signal, and `send_signal`,
`shutdown`, `force_shutdown` and the destructor are not called. The thread of the
timeout sends its signal while `shutdown` is still in its `wait`, or after `child_pid_`
is cleared. -/
def SignalsInTime (s : Executor) : ExecutorStep → Prop
  | .caller => s.caller = .replace → ∀ n, s.childPid = .child n → s.waited = false
  | .sendSignal | .shutdown _ | .forceShutdown | .destroy =>
    ∀ n, s.childPid = .child n → s.waited = false
  | .monitor => s.monitor = some .kill → ∀ n, s.childPid = .child n →
      s.waited = false ∧ s.caller = .collect
  | _ => True

/-! ## Signals -/

/-- **The child in `child_pid_` is reaped** exactly if it has been waited for. -/
theorem isReaped_iff (hk : Known s) (hn : s.childPid = .child n) :
    isReaped s.procs n = true ↔ s.Gathered := by
  unfold isReaped
  constructor
  · intro hreaped
    by_contra hg
    split at hreaped
    case h_1 status hproc => exact hk.statuses.pending n hn hg status hproc
    case h_2 => cases hreaped
  · intro hg
    rw [hk.statuses.collected n hn hg]

/-- **A signal is in time** exactly if the child has not been waited for. -/
theorem safe_kill_iff (h : Safe s) (hk : Known s) (hsignals : t.signals = s.kill.signals) :
    Safe t ↔ ∀ n, s.childPid = .child n → ¬ s.Gathered := by
  unfold Safe
  rw [hsignals]
  unfold kill
  cases hpid : s.childPid with
  | child n =>
    have hreaped := isReaped_iff hk hpid
    dsimp only
    rw [List.forall_mem_append, List.forall_mem_singleton, ← Bool.not_eq_true, hreaped]
    refine (and_iff_right h).trans ?_
    constructor
    · rintro hnot m ⟨⟩
      exact hnot
    · exact fun hnot => hnot n rfl
  | failed => exact iff_of_true h fun n hn => by cases hn
  | none => exact iff_of_true h fun n hn => by cases hn

/-- Outside of `shutdown` only `wait` has waited for the child. -/
theorem gathered_iff (hc : s.caller.pastWait = false) : ¬ s.Gathered ↔ s.waited = false := by
  unfold Gathered
  rw [hc, or_iff_left Bool.false_ne_true, Bool.not_eq_true]

/-- **While the thread of the timeout is there**, the child has not been waited for
exactly if `wait` has not returned before, and `shutdown` is in its `wait`. -/
theorem gathered_iff_of_monitor (hk : Known s) (hm : s.monitor ≠ none)
    (hn : s.childPid = .child n) :
    ¬ s.Gathered ↔ s.waited = false ∧ s.caller = .collect := by
  have hin := hk.places.monitored hm
  have hat := hk.places.atPc
  cases hc : s.caller with
  | collect =>
    rw [gathered_iff (by rw [hc]; rfl)]
    exact (and_iff_left rfl).symm
  | report | stop | clear =>
    refine iff_of_false (not_not.mpr (.inr (by rw [hc]; rfl))) ?_
    rintro ⟨_, ⟨⟩⟩
  | joinWorker =>
    rw [hc] at hat
    cases hn.symm.trans hat
  | joinMonitor =>
    rw [hc] at hat
    cases hn.symm.trans hat.2
  | idle | join | replace | fork | wait | drain | destroyed =>
    rw [hc] at hin
    cases hin

/-! ## Steps that send nothing -/

/-- A call that goes on sends nothing, but where `execute` kills the old child. -/
theorem CallerMove.signals_eq (h : CallerMove s s') (hidle : s.caller ≠ .idle)
    (hc : s.caller ≠ .replace) : s'.signals = s.signals := by
  cases h with
  | signal hc' | shutdown hc' => exact absurd hc' hidle
  | replace hc' => exact absurd hc' hc
  | waited _ hg | collected _ hg =>
    obtain ⟨procs, code, _, rfl⟩ := hg.exists_eq
    rfl
  | begin | join | skipJoin | joined | fork | wait | collectedNone | report | stop | clear
  | joinWorker | joinMonitor | drain => rfl

theorem signals_of_callerStep (h : s.callerStep = some s') (hc : s.caller ≠ .replace) :
    s'.signals = s.signals := by
  refine (callerMove_of_callerStep h).signals_eq (fun hidle => ?_) hc
  rw [callerStep, hidle] at h
  cases h

theorem WorkerMove.signals_eq (h : WorkerMove s s') : s'.signals = s.signals := by
  cases h <;> rfl

theorem FailMove.signals_eq (h : FailMove s s') : s'.signals = s.signals := by
  cases h <;> rfl

theorem signals_of_monitorStep (h : s.monitorStep = some s') (hm : s.monitor ≠ some .kill) :
    s'.signals = s.signals := by
  unfold monitorStep at h
  split at h
  case h_1 | h_2 | h_3 =>
    cases h
    rfl
  case h_4 hkill => exact absurd hkill hm
  case h_5 | h_6 => cases h

theorem Safe.of_signals_eq (h : Safe s) (hsignals : s'.signals = s.signals) : Safe s' := by
  unfold Safe
  rw [hsignals]
  exact h

/-! ## Runs -/

/-- **A step leaves the signals safe** exactly if it meets the condition. -/
theorem safe_next_iff (h : Safe s) (hk : Known s) (hnext : s.next l = some s') :
    Safe s' ↔ s.SignalsInTime l := by
  have hquiet : s'.signals = s.signals → s.SignalsInTime l → (Safe s' ↔ s.SignalsInTime l) :=
    fun hsignals hcond => iff_of_true (h.of_signals_eq hsignals) hcond
  have hsent : s'.signals = s.kill.signals → s.caller.pastWait = false →
      (Safe s' ↔ ∀ n, s.childPid = .child n → s.waited = false) := by
    intro hsignals hpast
    rw [safe_kill_iff h hk hsignals]
    exact forall₂_congr fun _ _ => gathered_iff hpast
  cases l with
  | execute | wait | any | exits =>
    exact hquiet (records_of_silent hnext trivial).2 trivial
  | sendSignal | shutdown timeout | forceShutdown | destroy =>
    rw [next] at hnext
    obtain ⟨hc, rfl⟩ := beginCall_eq hnext
    exact hsent rfl (by rw [hc]; rfl)
  | caller =>
    by_cases hc : s.caller = .replace
    · have hsignals : s'.signals = s.kill.signals := by
        rw [next, callerStep, hc] at hnext
        cases hnext
        rfl
      refine (hsent hsignals (by rw [hc]; rfl)).trans ⟨fun hcond _ => hcond, ?_⟩
      exact fun hcond => hcond hc
    · exact hquiet (signals_of_callerStep hnext hc) fun hreplace => absurd hreplace hc
  | callerFails => exact hquiet (failMove_of_callerFails hnext).signals_eq trivial
  | worker => exact hquiet (workerMove_of_workerStep hnext).signals_eq trivial
  | workerFails => exact hquiet (failMove_of_workerFails hnext).signals_eq trivial
  | monitor =>
    by_cases hm : s.monitor = some .kill
    · have hsignals : s'.signals = s.kill.signals := by
        rw [next, monitorStep, hm] at hnext
        cases hnext
        rfl
      have hne : s.monitor ≠ none := by
        rw [hm]
        exact Option.some_ne_none _
      rw [safe_kill_iff h hk hsignals]
      constructor
      · exact fun hcond _ n hn => (gathered_iff_of_monitor hk hne hn).mp (hcond n hn)
      · exact fun hcond n hn => (gathered_iff_of_monitor hk hne hn).mpr (hcond hm n hn)
    · exact hquiet (signals_of_monitorStep hnext hm) fun hkill => absurd hkill hm

/-- **No signal is sent to a child that was reaped, throughout a run,** exactly if all
its steps meet the condition. -/
theorem throughout_safe_iff {tr : List (Executor × ExecutorStep)} {s : Executor}
    (hr : executorSystem.Run tr s) :
    TransitionSystem.Throughout Safe tr s ↔ TransitionSystem.Met SignalsInTime tr := by
  refine hr.forall_iff (J := Known) ?_ ?_ ?_
  · rintro _ rfl
    exact ⟨List.forall_mem_nil _, .new⟩
  · exact fun s l s' h hk hnext hcond =>
      ⟨(safe_next_iff h hk hnext).mpr hcond, hk.move (move_of_next hnext)⟩
  · exact fun s l s' h hk hnext hcond hs => hcond ((safe_next_iff h hk hnext).mp hs)

/-- A child is launched and sent a signal, exits, and is waited for. -/
theorem throughout_safe_wait : ∃ (tr : List (Executor × ExecutorStep)) (s : Executor),
    s.signals = [⟨0, false⟩] ∧ TransitionSystem.Throughout Safe tr s := by
  have hrun : executorSystem.Run [(_, .caller), (_, .wait), (_, .exits 0 7), (_, .sendSignal),
      (_, .caller), (_, .caller), (_, .execute ['a'])] _ :=
    .snoc (.snoc (.snoc (.snoc (.snoc (.snoc (.snoc (.start rfl) rfl) rfl) rfl) rfl) rfl) rfl) rfl
  refine ⟨_, _, rfl, (throughout_safe_iff hrun).mpr ?_⟩
  simp only [TransitionSystem.met_cons, SignalsInTime]
  exact ⟨(fun hc => by cases hc), trivial, trivial, fun _ _ => trivial,
    (fun hc => by cases hc), (fun _ n hn => by cases hn), trivial, TransitionSystem.met_nil _⟩

/-- A child that has exited and was waited for is sent a signal. -/
theorem throughout_safe_false : ¬ ∀ (tr : List (Executor × ExecutorStep)) (s : Executor),
    executorSystem.Run tr s → TransitionSystem.Throughout Safe tr s := by
  intro h
  have hrun : executorSystem.Run [(_, .sendSignal), (_, .caller), (_, .wait), (_, .exits 0 7),
      (_, .caller), (_, .caller), (_, .execute ['a'])] _ :=
    .snoc (.snoc (.snoc (.snoc (.snoc (.snoc (.snoc (.start rfl) rfl) rfl) rfl) rfl) rfl) rfl) rfl
  have hsafe := (h _ _ hrun).1 ⟨0, true⟩ List.mem_cons_self
  cases hsafe

end Executor
