import CoinData.ExecutorInvariant
import Mathlib.Data.List.Nodup

/-!
# Who reports the exit

The exit notification is called from two places, which do not know of each other.
`shutdown` calls it once it has waited, whether there is a child or not. The thread that
reads calls it when the terminal gives an error, which it does when the child has
exited, with what `exit_code_` holds then: that is the status of this child only if
somebody has waited for it already. And where the thread has not come to it,
`shutdown` reads once more itself.

`throughout_sound_iff` says in which runs each call is for a child, with the status that
was collected for it, and no two are for the same one.
-/

namespace Executor

variable {s s' t : Executor} {l : ExecutorStep} {n : ℕ} {child : Option ℕ}

/-- **The reports are right**: each is for a child, with the status collected for it,
and no two are for one child. -/
structure Sound (s : Executor) : Prop where
  collected : ∀ r ∈ s.reports, ∃ n, r.child = some n ∧ s.procs[n]? = some (.reaped r.status)
  once : (s.reports.map ExitReport.child).Nodup

/-- **What keeps them right.** `shutdown` reports a child, and no read has failed
before. Its last read does not fail. A read of the thread fails only when its child has
been waited for, and `shutdown` has not reported it. -/
def ReportsOnce (s : Executor) : ExecutorStep → Prop
  | .caller => s.caller = .report → (∃ n, s.childPid = .child n) ∧ ¬ s.ReadFailed
  | .callerFails => s.caller ≠ .drain
  | .workerFails =>
    (∃ n, s.childPid = .child n) ∧ s.Gathered ∧ s.caller.pastReport = false
  | _ => True

/-! ## Steps that report nothing -/

/-- **Only two places report**: nothing else does. -/
theorem CallerMove.reports_eq (h : CallerMove s s') (hc : s.caller ≠ .report) :
    s'.reports = s.reports := by
  cases h with
  | report hreport => exact absurd hreport hc
  | waited _ hg | collected _ hg =>
    obtain ⟨procs, code, _, rfl⟩ := hg.exists_eq
    rfl
  | begin | signal | join | skipJoin | joined | replace | fork | wait | shutdown | collectedNone
  | stop | clear | joinWorker | joinMonitor | drain => rfl

theorem WorkerMove.reports_eq (h : WorkerMove s s') : s'.reports = s.reports := by
  cases h <;> rfl

theorem MonitorMove.reports_eq (h : MonitorMove s s') : s'.reports = s.reports := by
  cases h <;> rfl

/-- A call that begins reports nothing. -/
theorem reports_of_beginCall {call : Executor → Executor} (h : s.beginCall call = some s')
    (hcall : (call s).reports = s.reports) : s'.reports = s.reports := by
  obtain ⟨_, rfl⟩ := beginCall_eq h
  exact hcall

/-- A `fork` that fails reports nothing. -/
theorem reports_of_callerFails (h : s.callerFails = some s') (hc : s.caller ≠ .drain) :
    s'.reports = s.reports := by
  unfold callerFails at h
  split at h
  case h_1 =>
    cases h
    rfl
  case h_2 hdrain _ => exact absurd hdrain hc
  case h_3 => cases h

/-- A collected status stays. -/
theorem Gather.reaped (h : Gather s t) {status : ℤ} (hn : s.procs[n]? = some (.reaped status)) :
    t.procs[n]? = some (.reaped status) := by
  cases h with
  | @exited m status' _ hproc | @other m status' _ hproc =>
    refine (List.getElem?_set_ne ?_).trans hn
    rintro rfl
    cases hproc.symm.trans hn
  | again | failed | foreign => exact hn

/-- **What is collected stays.** -/
theorem Move.reaped (h : Move s s') {status : ℤ} (hn : s.procs[n]? = some (.reaped status)) :
    s'.procs[n]? = some (.reaped status) := by
  cases h with
  | caller hmove =>
    cases hmove with
    | waited _ hg => exact hg.reaped hn
    | collected _ hg => exact hg.reaped hn
    | fork =>
      exact (List.getElem?_append_left (List.getElem?_eq_some_iff.mp hn).1).trans hn
    | begin | signal | join | skipJoin | joined | replace | wait | shutdown | collectedNone
    | report | stop | clear | joinWorker | joinMonitor | drain => exact hn
  | worker hmove => cases hmove <;> exact hn
  | fails hmove => cases hmove <;> exact hn
  | monitor hmove => cases hmove <;> exact hn
  | exits hproc =>
    refine (List.getElem?_set_ne ?_).trans hn
    rintro rfl
    cases hproc.symm.trans hn

/-- **A step that reports nothing** leaves the reports right. -/
theorem Sound.of_reports_eq (h : Sound s) (hmove : Move s s') (hreports : s'.reports = s.reports) :
    Sound s' := by
  refine ⟨fun r hr => ?_, ?_⟩
  · obtain ⟨n, hchild, hn⟩ := h.collected r (hreports ▸ hr)
    exact ⟨n, hchild, hmove.reaped hn⟩
  · rw [hreports]
    exact h.once

/-! ## Steps that report -/

theorem reported_iff_mem : s.Reported n ↔ some n ∈ s.reports.map ExitReport.child := by
  rw [List.mem_map]
  rfl

/-- **One report more** is right exactly if it is for a child that has not been reported,
with the status collected for it. -/
theorem sound_notifyExit_iff (h : Sound s) (hreports : t.reports = (s.notifyExit child).reports)
    (hprocs : t.procs = s.procs) :
    Sound t ↔ ∃ n, child = some n ∧ s.procs[n]? = some (.reaped s.exitCode)
      ∧ ¬ s.Reported n := by
  have hreports' : t.reports = s.reports ++ [⟨child, s.exitCode⟩] := hreports
  constructor
  · intro ht
    obtain ⟨n, hn, hproc⟩ := ht.collected ⟨child, s.exitCode⟩ (by rw [hreports']; simp)
    refine ⟨n, hn, hprocs ▸ hproc, fun hreported => ?_⟩
    have honce := ht.once
    rw [hreports', List.map_append, List.nodup_append] at honce
    exact honce.2.2 _ (reported_iff_mem.mp hreported) _ (by simp) hn.symm
  · rintro ⟨n, rfl, hproc, hnot⟩
    refine ⟨?_, ?_⟩
    · rw [hreports', hprocs]
      exact List.forall_mem_append.mpr
        ⟨h.collected, List.forall_mem_singleton.mpr ⟨n, rfl, hproc⟩⟩
    · rw [hreports', List.map_append, List.nodup_append]
      refine ⟨h.once, List.nodup_singleton _, fun c hc c' hc' heq => ?_⟩
      rw [List.map_singleton, List.mem_singleton] at hc'
      subst hc'
      subst heq
      exact hnot (reported_iff_mem.mpr hc)

/-- **The report of `shutdown`** is right exactly if there is a child, and no read has
failed. -/
theorem sound_report_iff (h : Sound s) (hk : Known s) (hc : s.caller = .report)
    (hnext : s.next .caller = some s') :
    Sound s' ↔ (∃ n, s.childPid = .child n) ∧ ¬ s.ReadFailed := by
  have hgathered : s.Gathered := .inr (by rw [hc]; rfl)
  have hpast : ¬ s.caller.pastReport = true := by
    rw [hc]
    exact Bool.false_ne_true
  have hstep : ∃ child, (∀ n, child = some n ↔ s.childPid = .child n)
      ∧ s'.reports = (s.notifyExit child).reports ∧ s'.procs = s.procs := by
    rw [next, callerStep, hc] at hnext
    cases hnext
    refine ⟨_, fun n => ?_, rfl, rfl⟩
    cases s.childPid <;> simp
  obtain ⟨child, hchild, hreports, hprocs⟩ := hstep
  rw [sound_notifyExit_iff h hreports hprocs]
  constructor
  · rintro ⟨n, hn, _, hnot⟩
    have hpid := (hchild n).mp hn
    exact ⟨⟨n, hpid⟩, fun hfailed => hnot ((hk.reports.reported n hpid).mpr (.inl hfailed))⟩
  · rintro ⟨⟨n, hpid⟩, hnot⟩
    refine ⟨n, (hchild n).mpr hpid, hk.statuses.collected n hpid hgathered, fun hreported => ?_⟩
    exact ((hk.reports.reported n hpid).mp hreported).elim hnot hpast

/-- **The report of a failed read** is right exactly if the child has been waited for,
and `shutdown` has not reported it. -/
theorem sound_workerFails_iff (h : Sound s) (hk : Known s)
    (hnext : s.next .workerFails = some s') :
    Sound s' ↔ (∃ n, s.childPid = .child n) ∧ s.Gathered ∧ s.caller.pastReport = false := by
  have hstep : ∃ w, s.worker = some w ∧ w.pc = .read
      ∧ s'.reports = (s.notifyExit w.child).reports ∧ s'.procs = s.procs := by
    rw [next, workerFails] at hnext
    split at hnext
    case h_1 w hw =>
      obtain ⟨hpc, hnext⟩ := Option.ite_none_right_eq_some.mp hnext
      cases hnext
      exact ⟨w, hw, hpc, rfl, rfl⟩
    case h_2 => cases hnext
  obtain ⟨w, hw, hpc, hreports, hprocs⟩ := hstep
  have howner := hk.reports.worker w hw
  have hopen : ¬ s.ReadFailed := by
    rintro (hm | ⟨w', hw', hpc'⟩)
    · exact hk.places.reading w hw hpc hm
    · cases hw.symm.trans hw'
      rw [hpc] at hpc'
      rcases hpc' with hpc' | hpc' <;> cases hpc'
  rw [sound_notifyExit_iff h hreports hprocs]
  unfold Owner at howner
  cases hpid : s.childPid with
  | child n =>
    rw [hpid] at howner
    have hreported : s.Reported n ↔ s.caller.pastReport = true :=
      (hk.reports.reported n hpid).trans (or_iff_right hopen)
    constructor
    · rintro ⟨m, hm, hproc, hnot⟩
      cases howner.symm.trans hm
      refine ⟨⟨n, rfl⟩, ?_, Bool.eq_false_iff.mpr fun hpast => hnot (hreported.mpr hpast)⟩
      by_contra hg
      exact hk.statuses.pending n hpid hg _ hproc
    · rintro ⟨_, hg, hpast⟩
      refine ⟨n, howner, hk.statuses.collected n hpid hg, fun hr => ?_⟩
      rw [hreported.mp hr] at hpast
      cases hpast
  | failed =>
    rw [hpid] at howner
    refine iff_of_false ?_ fun hc => by obtain ⟨⟨_, ⟨⟩⟩, _⟩ := hc
    rintro ⟨m, hm, _⟩
    cases howner.symm.trans hm
  | none =>
    rw [hpid] at howner
    refine iff_of_false ?_ fun hc => by obtain ⟨⟨_, ⟨⟩⟩, _⟩ := hc
    rintro ⟨m, hm, _, hnot⟩
    exact hnot (howner m hm)

/-- **The report of the last read** is one too many. -/
theorem not_sound_drainFails (h : Sound s) (hk : Known s) (hc : s.caller = .drain)
    (hnext : s.next .callerFails = some s') : ¬ Sound s' := by
  have hstep : ∃ child, s.master = some child
      ∧ s'.reports = (s.notifyExit child).reports ∧ s'.procs = s.procs := by
    rw [next, callerFails, hc] at hnext
    cases hm : s.master with
    | none =>
      rw [hm] at hnext
      cases hnext
    | some child =>
      rw [hm] at hnext
      cases hnext
      exact ⟨child, rfl, rfl, rfl⟩
  obtain ⟨child, hm, hreports, hprocs⟩ := hstep
  have hpid := (hc ▸ hk.places.atPc : s.AtPc .drain).2
  have howner := hk.reports.master (by rw [hc]; intro hfork; cases hfork) child hm
  unfold Owner at howner
  rw [hpid] at howner
  rw [sound_notifyExit_iff h hreports hprocs]
  rintro ⟨n, hn, _, hnot⟩
  exact hnot (howner n hn)

/-! ## Runs -/

/-- **A step leaves the reports right** exactly if it meets the condition. -/
theorem sound_next_iff (h : Sound s) (hk : Known s) (hnext : s.next l = some s') :
    Sound s' ↔ s.ReportsOnce l := by
  have hmove := move_of_next hnext
  have hquiet : s'.reports = s.reports → s.ReportsOnce l → (Sound s' ↔ s.ReportsOnce l) :=
    fun hreports hcond => iff_of_true (h.of_reports_eq hmove hreports) hcond
  cases l with
  | execute | wait | any | exits =>
    exact hquiet (records_of_silent hnext trivial).1 trivial
  | sendSignal | shutdown timeout | forceShutdown | destroy =>
    rw [next] at hnext
    exact hquiet (reports_of_beginCall hnext rfl) trivial
  | caller =>
    by_cases hc : s.caller = .report
    · exact (sound_report_iff h hk hc hnext).trans ⟨fun hcond _ => hcond, fun hcond => hcond hc⟩
    · exact hquiet ((callerMove_of_callerStep hnext).reports_eq hc) fun hreport => absurd hreport hc
  | callerFails =>
    by_cases hc : s.caller = .drain
    · exact iff_of_false (not_sound_drainFails h hk hc hnext) fun hne => hne hc
    · exact hquiet (reports_of_callerFails hnext hc) hc
  | worker => exact hquiet (workerMove_of_workerStep hnext).reports_eq trivial
  | workerFails => exact sound_workerFails_iff h hk hnext
  | monitor => exact hquiet (monitorMove_of_monitorStep hnext).reports_eq trivial

theorem Sound.new : Sound new := ⟨List.forall_mem_nil _, List.nodup_nil⟩

/-- **The reports are right throughout a run** exactly if all its steps meet the
condition. -/
theorem throughout_sound_iff {tr : List (Executor × ExecutorStep)} {s : Executor}
    (hr : executorSystem.Run tr s) :
    TransitionSystem.Throughout Sound tr s ↔ TransitionSystem.Met ReportsOnce tr := by
  refine hr.forall_iff (J := Known) ?_ ?_ ?_
  · rintro _ rfl
    exact ⟨.new, .new⟩
  · exact fun s l s' h hk hnext hcond =>
      ⟨(sound_next_iff h hk hnext).mpr hcond, hk.move (move_of_next hnext)⟩
  · exact fun s l s' h hk hnext hcond hs => hcond ((sound_next_iff h hk hnext).mp hs)

/-- A child is launched, exits with 7, and is reported by `shutdown`. -/
theorem throughout_sound_shutdown : ∃ (tr : List (Executor × ExecutorStep)) (s : Executor),
    s.reports = [⟨some 0, 7⟩] ∧ TransitionSystem.Throughout Sound tr s := by
  have hrun : executorSystem.Run [(_, .caller), (_, .caller), (_, .shutdown (-1)),
      (_, .exits 0 7), (_, .caller), (_, .caller), (_, .execute ['a'])] _ :=
    .snoc (.snoc (.snoc (.snoc (.snoc (.snoc (.snoc (.start rfl) rfl) rfl) rfl) rfl) rfl) rfl) rfl
  refine ⟨_, _, rfl, (throughout_sound_iff hrun).mpr ?_⟩
  simp only [TransitionSystem.met_cons, ReportsOnce]
  refine ⟨fun _ => ⟨⟨0, rfl⟩, ?_⟩, (fun hc => by cases hc), trivial, trivial,
    (fun hc => by cases hc), (fun hc => by cases hc), trivial, TransitionSystem.met_nil _⟩
  rintro (hm | ⟨w, ⟨⟩, hpc⟩)
  · cases hm
  · rcases hpc with hpc | hpc <;> cases hpc

/-- An executor that has launched nothing reports an exit when it is destroyed. -/
theorem throughout_sound_false : ¬ ∀ (tr : List (Executor × ExecutorStep)) (s : Executor),
    executorSystem.Run tr s → TransitionSystem.Throughout Sound tr s := by
  intro h
  have hrun : executorSystem.Run [(_, .caller), (_, .caller), (_, .destroy)] _ :=
    .snoc (.snoc (.snoc (.start rfl) rfl) rfl) rfl
  obtain ⟨n, hn, _⟩ := (h _ _ hrun).1.collected ⟨none, 0⟩ List.mem_cons_self
  cases hn

end Executor
