import CoinData.Executor

/-!
# What is known of an executor

In every state that is reached, what `child_pid_` says of the last child, what was
reported of it, and what `exit_code_` holds follow from where the threads are. The
child in `child_pid_` is reaped exactly if `wait` has returned since it was launched, or
a `shutdown` has got behind its `wait`. Its exit is reported exactly if a read has
failed, or a `shutdown` has got behind its report.
-/

namespace Executor

variable {s s' t : Executor} {n : ℕ} {w : Reader}

/-- **The child has been waited for**: `waitpid` has returned, in `wait`, or in a
`shutdown` that has not cleared `child_pid_` yet. -/
def Gathered (s : Executor) : Prop := s.waited = true ∨ s.caller.pastWait = true

/-- The exit of a child has been reported. -/
def Reported (s : Executor) (n : ℕ) : Prop := ∃ r ∈ s.reports, r.child = some n

/-- **A read has failed**, and the exit was reported then. -/
def ReadFailed (s : Executor) : Prop :=
  s.master = none ∨ ∃ w, s.worker = some w ∧ (w.pc = .stop ∨ w.pc = .close)

/-- A terminal is that of the child in `child_pid_`. Where this is cleared, the exit of
its child has been reported. -/
def Owner (s : Executor) (child : Option ℕ) : Prop :=
  match s.childPid with
  | .child n => child = some n
  | .failed => child = none
  | .none => ∀ n, child = some n → s.Reported n

/-- What is known at a place of the thread that uses the executor. -/
def AtPc (s : Executor) : CallerPc → Prop
  | .replace => s.worker = none
  | .fork => s.worker = none ∧ ∀ n, s.childPid ≠ .child n
  | .joinWorker => s.childPid = .none
  | .joinMonitor | .drain => s.worker = none ∧ s.childPid = .none
  | _ => True

/-- **Where the threads are.** -/
structure Places (s : Executor) : Prop where
  current : ∀ n, s.childPid = .child n → n + 1 = s.procs.length
  atPc : s.AtPc s.caller
  monitored : s.monitor ≠ none → s.caller.inShutdown = true
  reading : ∀ w, s.worker = some w → w.pc = .read → s.master ≠ none
  closed : ∀ w, s.worker = some w → w.pc = .close ∨ w.pc = .check ∧ s.master = none →
    s.isrunning = false

/-- **What is known of the status of the child in `child_pid_`.** -/
structure Statuses (s : Executor) : Prop where
  collected : ∀ n, s.childPid = .child n → s.Gathered → s.procs[n]? = some (.reaped s.exitCode)
  pending : ∀ n, s.childPid = .child n → ¬ s.Gathered →
    ∀ status, s.procs[n]? ≠ some (.reaped status)

/-- **What has been reported.** -/
structure Reports (s : Executor) : Prop where
  launched : ∀ r ∈ s.reports, ∀ n, r.child = some n → n < s.procs.length
  reported : ∀ n, s.childPid = .child n →
    (s.Reported n ↔ s.ReadFailed ∨ s.caller.pastReport = true)
  worker : ∀ w, s.worker = some w → s.Owner w.child
  master : s.caller ≠ .fork → ∀ child, s.master = some child → s.Owner child

/-- Collecting a status changes no more than what is known of the children. -/
theorem Gather.exists_eq (h : Gather s t) : ∃ procs code,
    procs.length = s.procs.length ∧ t = { s with procs := procs, exitCode := code } := by
  cases h with
  | exited => exact ⟨_, _, List.length_set, rfl⟩
  | again => exact ⟨_, _, rfl, rfl⟩
  | failed => exact ⟨_, _, rfl, rfl⟩
  | other => exact ⟨_, _, List.length_set, rfl⟩
  | foreign => exact ⟨_, _, rfl, rfl⟩

/-! ## Where the threads are -/

theorem Places.new : Places new where
  current _ h := by cases h
  atPc := trivial
  monitored h := absurd rfl h
  reading _ h := by cases h
  closed _ h := by cases h

/-- Outside of `shutdown` there is no thread of a timeout. -/
theorem Places.away (h : Places s) {pc : CallerPc} (hc : s.caller = pc)
    (hpc : pc.inShutdown = false) {P : Prop} : s.monitor ≠ none → P := by
  intro hm
  have hin := h.monitored hm
  rw [hc, hpc] at hin
  cases hin

theorem endShutdown_cases (s : Executor) : s.endShutdown = .destroyed ∨ s.endShutdown = .idle :=
  ite_eq_or_eq _ _ _

/-- At the end of `shutdown`, nothing is known but what is everywhere. -/
theorem Places.ended (h : Places s) (hc : s.caller = .drain) {t : Executor}
    (hpid : t.childPid = s.childPid) (hprocs : t.procs = s.procs)
    (hcaller : t.caller = s.endShutdown) (hmonitor : t.monitor = s.monitor)
    (hworker : t.worker = s.worker) : Places t := by
  have hnone : t.worker = none := hworker.trans (hc ▸ h.atPc : s.AtPc .drain).1
  refine ⟨?_, ?_, ?_, fun w hw => ?_, fun w hw => ?_⟩
  · rw [hpid, hprocs]
    exact h.current
  · rw [hcaller]
    rcases s.endShutdown_cases with he | he <;> rw [he] <;> trivial
  · rw [hmonitor]
    exact h.away hc rfl
  · cases hnone.symm.trans hw
  · cases hnone.symm.trans hw

/-- The thread that reads is at its beginning, and the terminal is open. -/
theorem closed_of_started {child owner : Option ℕ} {b : Bool} (w : Reader)
    (hw : some ⟨child, .check⟩ = some w) :
    w.pc = .close ∨ w.pc = .check ∧ some owner = none → b = false := by
  cases hw
  rintro (hpc | ⟨_, hm⟩)
  · cases hpc
  · cases hm

/-- **A call keeps the threads in their places.** -/
theorem Places.caller (h : Places s) (hmove : CallerMove s s') : Places s' := by
  cases hmove with
  | begin => exact h
  | signal => exact ⟨h.current, h.atPc, h.monitored, h.reading, h.closed⟩
  | join hc => exact ⟨h.current, trivial, h.away hc rfl, h.reading, fun _ _ _ => rfl⟩
  | skipJoin hc hw => exact ⟨h.current, hw, h.away hc rfl, h.reading, h.closed⟩
  | joined hc => exact ⟨h.current, rfl, h.away hc rfl, nofun, nofun⟩
  | replace hc hpid =>
    exact ⟨fun n hn => absurd hn (hpid n), ⟨(hc ▸ h.atPc : s.AtPc .replace), hpid⟩,
      h.away hc rfl, h.reading, h.closed⟩
  | fork hc =>
    refine ⟨fun n hn => ?_, trivial, h.away hc rfl, fun _ _ _ => Option.some_ne_none _,
      closed_of_started⟩
    cases hn
    exact (List.length_append : (s.procs ++ [ChildProc.running]).length = _).symm
  | wait hc => exact ⟨h.current, trivial, h.away hc rfl, h.reading, h.closed⟩
  | waited hc hg =>
    obtain ⟨procs, code, hlen, rfl⟩ := hg.exists_eq
    exact ⟨fun n hn => (h.current n hn).trans hlen.symm, trivial, h.away hc rfl, h.reading,
      h.closed⟩
  | shutdown => exact ⟨h.current, trivial, fun _ => rfl, h.reading, h.closed⟩
  | collected hc hg =>
    obtain ⟨procs, code, hlen, rfl⟩ := hg.exists_eq
    exact ⟨fun n hn => (h.current n hn).trans hlen.symm, trivial, fun _ => rfl, h.reading,
      h.closed⟩
  | collectedNone => exact ⟨h.current, trivial, fun _ => rfl, h.reading, h.closed⟩
  | report => exact ⟨h.current, trivial, fun _ => rfl, h.reading, h.closed⟩
  | stop => exact ⟨h.current, trivial, fun _ => rfl, h.reading, fun _ _ _ => rfl⟩
  | clear => exact ⟨nofun, rfl, fun _ => rfl, h.reading, h.closed⟩
  | joinWorker hc =>
    exact ⟨h.current, ⟨rfl, (hc ▸ h.atPc : s.AtPc .joinWorker)⟩, fun _ => rfl, nofun, nofun⟩
  | joinMonitor hc =>
    exact ⟨h.current, (hc ▸ h.atPc : s.AtPc .joinMonitor), fun hm => absurd rfl hm, h.reading,
      h.closed⟩
  | drain hc => exact h.ended hc rfl rfl rfl rfl rfl

/-- While the thread that reads is there, where it is says nothing of the caller. -/
theorem AtPc.of_worker {pc : CallerPc} (h : s.AtPc pc) (hw : s.worker = some w)
    (hpid : t.childPid = s.childPid) : t.AtPc pc := by
  have hne : s.worker ≠ none := by
    rw [hw]
    exact Option.some_ne_none w
  cases pc with
  | replace => exact absurd h hne
  | fork => exact absurd h.1 hne
  | joinWorker => exact hpid.trans h
  | joinMonitor => exact absurd h.1 hne
  | drain => exact absurd h.1 hne
  | idle | join | wait | collect | report | stop | clear | destroyed => trivial

/-- **The thread that reads keeps the threads in their places.** -/
theorem Places.worker (h : Places s) (hmove : WorkerMove s s') : Places s' := by
  cases hmove with
  | @check w hw hpc =>
    refine ⟨h.current, h.atPc.of_worker hw rfl, h.monitored, fun w' hw' hread hm => ?_, ?_⟩
    · -- `isrunning_` was loaded as true: the terminal is open.
      cases hw'
      rw [h.closed w hw (.inr ⟨hpc, hm⟩)] at hread
      cases hread
    · rintro w' ⟨⟩ hclosed
      cases hrunning : s.isrunning with
      | true =>
        rw [hrunning] at hclosed
        rcases hclosed with hpc' | ⟨hpc', _⟩ <;> cases hpc'
      | false => rfl
  | @read w hw hpc =>
    refine ⟨h.current, h.atPc.of_worker hw rfl, h.monitored, fun w' hw' hread => ?_, ?_⟩
    · cases hw'
      cases hread
    · rintro w' ⟨⟩ (hpc' | ⟨_, hm⟩)
      · cases hpc'
      · exact absurd hm (h.reading w hw hpc)
  | @stop w hw hpc =>
    refine ⟨h.current, h.atPc.of_worker hw rfl, h.monitored, fun w' hw' hread => ?_,
      fun _ _ _ => rfl⟩
    cases hw'
    cases hread
  | @close w hw hpc =>
    refine ⟨h.current, h.atPc.of_worker hw rfl, h.monitored, fun w' hw' hread => ?_,
      fun _ _ _ => h.closed w hw (.inl hpc)⟩
    cases hw'
    cases hread

/-- **What fails keeps the threads in their places.** -/
theorem Places.fails (h : Places s) (hmove : FailMove s s') : Places s' := by
  cases hmove with
  | forkFails hc =>
    exact ⟨nofun, trivial, h.away hc rfl, fun _ _ _ => Option.some_ne_none _,
      closed_of_started⟩
  | drainFails hc => exact h.ended hc rfl rfl rfl rfl rfl
  | @readFails w hw hpc =>
    refine ⟨h.current, h.atPc.of_worker hw rfl, h.monitored, fun w' hw' hread => ?_, ?_⟩
    · cases hw'
      cases hread
    · rintro w' ⟨⟩ (hpc' | ⟨hpc', _⟩) <;> cases hpc'

/-- **The thread of the timeout keeps the threads in their places.** -/
theorem Places.monitor (h : Places s) (hmove : MonitorMove s s') : Places s' := by
  cases hmove with
  | next hm => exact ⟨h.current, h.atPc, fun _ => h.monitored hm, h.reading, h.closed⟩
  | kill hm => exact ⟨h.current, h.atPc, fun _ => h.monitored hm, h.reading, h.closed⟩

/-- **The threads are kept in their places.** -/
theorem Places.move (h : Places s) (hmove : Move s s') : Places s' := by
  cases hmove with
  | caller hmove => exact h.caller hmove
  | worker hmove => exact h.worker hmove
  | fails hmove => exact h.fails hmove
  | monitor hmove => exact h.monitor hmove
  | exits =>
    exact ⟨fun n hn => (h.current n hn).trans List.length_set.symm, h.atPc, h.monitored,
      h.reading, h.closed⟩

/-! ## The status of the child -/

theorem Statuses.new : Statuses new where
  collected _ h := by cases h
  pending _ h := by cases h

/-- The statuses are about `child_pid_`, `exit_code_` and the children. -/
theorem Statuses.congr (h : Statuses s) (hpid : t.childPid = s.childPid)
    (hprocs : t.procs = s.procs) (hcode : t.exitCode = s.exitCode) (hwaited : t.waited = s.waited)
    (hcaller : t.caller.pastWait = s.caller.pastWait) : Statuses t := by
  refine ⟨fun n hn hg => ?_, fun n hn hg => ?_⟩
  · rw [Gathered, hwaited, hcaller] at hg
    rw [hprocs, hcode]
    exact h.collected n (hpid ▸ hn) hg
  · rw [Gathered, hwaited, hcaller] at hg
    rw [hprocs]
    exact h.pending n (hpid ▸ hn) hg

/-- Without a child in `child_pid_` there is nothing to know. -/
theorem Statuses.of_ne (h : ∀ n, s.childPid ≠ .child n) : Statuses s :=
  ⟨fun n hn => absurd hn (h n), fun n hn => absurd hn (h n)⟩

/-- **What `waitpid` has returned** is the status of the child. -/
theorem Statuses.gather (h : Statuses s) (hg : Gather s t) (n : ℕ) (hn : t.childPid = .child n) :
    t.procs[n]? = some (.reaped t.exitCode) := by
  cases hg with
  | @exited m status hpid hproc =>
    cases hpid.symm.trans hn
    exact List.getElem?_set_self (List.getElem?_eq_some_iff.mp hproc).1
  | @again m status hpid hproc =>
    cases hpid.symm.trans hn
    refine h.collected n hn ?_
    by_contra hnot
    exact h.pending n hn hnot status hproc
  | failed hpid => cases hpid.symm.trans hn
  | other hpid => cases hpid.symm.trans hn
  | foreign hpid => cases hpid.symm.trans hn

/-- **A call keeps what is known of the status.** -/
theorem Statuses.caller (h : Statuses s) (hplaces : Places s) (hmove : CallerMove s s') :
    Statuses s' := by
  cases hmove with
  | begin => exact h
  | signal => exact h.congr rfl rfl rfl rfl rfl
  | join hc => exact h.congr rfl rfl rfl rfl (by rw [hc]; rfl)
  | skipJoin hc => exact h.congr rfl rfl rfl rfl (by rw [hc]; rfl)
  | joined hc => exact h.congr rfl rfl rfl rfl (by rw [hc]; rfl)
  | replace hc hpid => exact .of_ne hpid
  | fork hc =>
    refine ⟨fun n hn hg => ?_, fun n hn _ status hproc => ?_⟩
    · rcases hg with hg | hg <;> cases hg
    · cases hn
      have hlast : (s.procs ++ [ChildProc.running])[s.procs.length]? = some .running :=
        List.getElem?_concat_length
      cases hlast.symm.trans hproc
  | wait hc => exact h.congr rfl rfl rfl rfl (by rw [hc]; rfl)
  | waited hc hg =>
    have hstatus := h.gather hg
    exact ⟨fun n hn _ => hstatus n hn, fun n hn hnot => absurd (.inl rfl) hnot⟩
  | shutdown hc => exact h.congr rfl rfl rfl rfl (by rw [hc]; rfl)
  | collected hc hg =>
    have hstatus := h.gather hg
    exact ⟨fun n hn _ => hstatus n hn, fun n hn hnot => absurd (.inr rfl) hnot⟩
  | collectedNone hc hpid => exact .of_ne fun n hn => by cases hpid.symm.trans hn
  | report hc => exact h.congr rfl rfl rfl rfl (by rw [hc]; rfl)
  | stop hc => exact h.congr rfl rfl rfl rfl (by rw [hc]; rfl)
  | clear => exact .of_ne nofun
  | joinWorker hc => exact h.congr rfl rfl rfl rfl (by rw [hc]; rfl)
  | joinMonitor hc => exact h.congr rfl rfl rfl rfl (by rw [hc]; rfl)
  | drain hc =>
    have hnone := (hc ▸ hplaces.atPc : s.AtPc .drain).2
    exact .of_ne fun n hn => by cases hnone.symm.trans hn

/-- **What fails keeps what is known of the status.** -/
theorem Statuses.fails (h : Statuses s) (hplaces : Places s) (hmove : FailMove s s') :
    Statuses s' := by
  cases hmove with
  | forkFails => exact .of_ne nofun
  | drainFails hc =>
    have hnone := (hc ▸ hplaces.atPc : s.AtPc .drain).2
    exact .of_ne fun n hn => by cases hnone.symm.trans hn
  | readFails => exact h.congr rfl rfl rfl rfl rfl

/-- **What is known of the status is kept.** -/
theorem Statuses.move (h : Statuses s) (hplaces : Places s) (hmove : Move s s') :
    Statuses s' := by
  cases hmove with
  | caller hmove => exact h.caller hplaces hmove
  | worker hmove => cases hmove <;> exact h.congr rfl rfl rfl rfl rfl
  | fails hmove => exact h.fails hplaces hmove
  | monitor hmove => cases hmove <;> exact h.congr rfl rfl rfl rfl rfl
  | @exits m status hproc =>
    refine ⟨fun n hn hg => ?_, fun n hn hg status' => ?_⟩
    · have hreaped := h.collected n hn hg
      have hne : m ≠ n := by
        rintro rfl
        cases hproc.symm.trans hreaped
      exact (List.getElem?_set_ne hne).trans hreaped
    · by_cases hmn : m = n
      · subst hmn
        have hset : (s.procs.set m (.exited status))[m]? = some (.exited status) :=
          List.getElem?_set_self (List.getElem?_eq_some_iff.mp hproc).1
        intro hreaped
        cases hset.symm.trans hreaped
      · intro hreaped
        exact h.pending n hn hg status' ((List.getElem?_set_ne hmn).symm.trans hreaped)

/-! ## What has been reported -/

theorem Reports.new : Reports new where
  launched _ h := by cases h
  reported _ h := by cases h
  worker _ h := by cases h
  master _ _ h := by cases h

/-- A terminal stays that of its child while more is reported. -/
theorem Owner.mono {child : Option ℕ} (h : s.Owner child) (hpid : t.childPid = s.childPid)
    (hreports : ∀ n, s.Reported n → t.Reported n) : t.Owner child := by
  unfold Owner at h ⊢
  rw [hpid]
  cases hs : s.childPid with
  | child n =>
    rw [hs] at h
    exact h
  | failed =>
    rw [hs] at h
    exact h
  | none =>
    rw [hs] at h
    exact fun n hn => hreports n (h n hn)

/-- Where `child_pid_` is no child, there is nothing to know of its report. -/
theorem Reports.of_ne (hpid : ∀ n, s.childPid ≠ .child n)
    (hlaunched : ∀ r ∈ s.reports, ∀ n, r.child = some n → n < s.procs.length)
    (hworker : ∀ w, s.worker = some w → s.Owner w.child)
    (hmaster : s.caller ≠ .fork → ∀ child, s.master = some child → s.Owner child) : Reports s :=
  ⟨hlaunched, fun n hn => absurd hn (hpid n), hworker, hmaster⟩

/-- **A call that reports nothing**, and leaves the terminal and who reads it. -/
theorem Reports.congr (h : Reports s) (hreports : t.reports = s.reports)
    (hprocs : t.procs.length = s.procs.length) (hpid : t.childPid = s.childPid)
    (hworker : t.worker = s.worker) (hmaster : t.master = s.master)
    (hpast : t.caller.pastReport = s.caller.pastReport) (hfork : s.caller ≠ .fork) :
    Reports t := by
  have hreported : ∀ n, t.Reported n ↔ s.Reported n := fun n => by
    rw [Reported, Reported, hreports]
  have howner : ∀ {child}, s.Owner child → t.Owner child := fun ho =>
    ho.mono hpid fun n => (hreported n).mpr
  refine ⟨?_, fun n hn => ?_, fun w hw => ?_, fun _ child hchild => ?_⟩
  · rw [hreports, hprocs]
    exact h.launched
  · rw [hreported, ReadFailed, hworker, hmaster, hpast]
    exact h.reported n (hpid.symm.trans hn)
  · exact howner (h.worker w (hworker.symm.trans hw))
  · exact howner (h.master hfork child (hmaster.symm.trans hchild))

/-- What is reported of a terminal is reported of a child that was launched. -/
theorem Reports.lt_of_owner (h : Reports s) (hplaces : Places s) {child : Option ℕ}
    (ho : s.Owner child) (hn : child = some n) : n < s.procs.length := by
  unfold Owner at ho
  cases hs : s.childPid with
  | child m =>
    rw [hs] at ho
    cases hn.symm.trans ho
    exact Nat.lt_of_succ_le (hplaces.current n hs).le
  | failed =>
    rw [hs] at ho
    cases hn.symm.trans ho
  | none =>
    rw [hs] at ho
    obtain ⟨r, hr, hchild⟩ := ho n hn
    exact h.launched r hr n hchild

theorem reported_notifyExit {child : Option ℕ} :
    (s.notifyExit child).Reported n ↔ s.Reported n ∨ child = some n := by
  unfold Reported notifyExit
  simp [or_and_right, exists_or]

theorem Reports.launched_notifyExit (h : Reports s) {child : Option ℕ}
    (hlt : ∀ n, child = some n → n < s.procs.length) :
    ∀ r ∈ (s.notifyExit child).reports, ∀ n, r.child = some n → n < s.procs.length :=
  List.forall_mem_append.mpr ⟨h.launched, List.forall_mem_singleton.mpr hlt⟩

/-- A child that is launched has not been reported. -/
theorem Reports.fork (h : Reports s) :
    Reports { s with
      childPid := .child s.procs.length
      master := some (some s.procs.length)
      isrunning := true
      worker := some ⟨some s.procs.length, .check⟩
      waited := false
      procs := s.procs ++ [.running]
      caller := .idle } := by
  refine ⟨fun r hr n hn => ?_, fun n hn => ?_, fun w hw => ?_, fun _ child hchild => ?_⟩
  · have hlt := h.launched r hr n hn
    rw [List.length_append]
    exact Nat.lt_succ_of_lt hlt
  · cases hn
    refine iff_of_false ?_ ?_
    · rintro ⟨r, hr, hchild⟩
      exact absurd (h.launched r hr _ hchild) (lt_irrefl _)
    · rintro ((hm | ⟨w, ⟨⟩, hpc⟩) | hpast)
      · cases hm
      · rcases hpc with hpc | hpc <;> cases hpc
      · cases hpast
  · cases hw
    rfl
  · cases hchild
    rfl

/-- When `child_pid_` is cleared, the exit of the child has been reported. -/
theorem Owner.clear {child : Option ℕ} (ho : s.Owner child) (h : Reports s)
    (hc : s.caller = .clear) :
    Owner { s with childPid := .none, caller := .joinWorker } child := by
  intro n hn
  unfold Owner at ho
  cases hs : s.childPid with
  | child m =>
    rw [hs] at ho
    cases hn.symm.trans ho
    refine (h.reported n hs).mpr (.inr ?_)
    rw [hc]
    rfl
  | failed =>
    rw [hs] at ho
    cases hn.symm.trans ho
  | none =>
    rw [hs] at ho
    exact ho n hn

/-- **A call keeps what is known of the reports.** -/
theorem Reports.caller (h : Reports s) (hplaces : Places s) (hmove : CallerMove s s') :
    Reports s' := by
  have hne : ∀ {pc}, s.caller = pc → pc ≠ .fork → s.caller ≠ .fork := by
    rintro pc rfl hpc
    exact hpc
  cases hmove with
  | begin => exact h
  | signal hc => exact h.congr rfl rfl rfl rfl rfl rfl (hne hc nofun)
  | join hc => exact h.congr rfl rfl rfl rfl rfl (by rw [hc]; rfl) (hne hc nofun)
  | skipJoin hc => exact h.congr rfl rfl rfl rfl rfl (by rw [hc]; rfl) (hne hc nofun)
  | joined hc hdone =>
    refine ⟨h.launched, fun n hn => ?_, nofun, fun _ => h.master (hne hc nofun)⟩
    have hold := h.reported n hn
    rw [hc] at hold
    refine hold.trans (or_congr ?_ Iff.rfl)
    constructor
    · rintro (hm | ⟨w, hw, hpc⟩)
      · exact .inl hm
      · rcases hpc with hpc | hpc <;> cases hpc.symm.trans (hdone w hw)
    · rintro (hm | ⟨w, ⟨⟩, _⟩)
      exact .inl hm
  | replace hc hpid =>
    have hnone : s.worker = none := (hc ▸ hplaces.atPc : s.AtPc .replace)
    exact .of_ne hpid h.launched (fun w hw => by cases hnone.symm.trans hw)
      fun hfork => absurd rfl hfork
  | fork => exact h.fork
  | wait hc => exact h.congr rfl rfl rfl rfl rfl (by rw [hc]; rfl) (hne hc nofun)
  | waited hc hg =>
    obtain ⟨procs, code, hlen, rfl⟩ := hg.exists_eq
    exact h.congr rfl hlen rfl rfl rfl (by rw [hc]; rfl) (hne hc nofun)
  | shutdown hc => exact h.congr rfl rfl rfl rfl rfl (by rw [hc]; rfl) (hne hc nofun)
  | collected hc hg =>
    obtain ⟨procs, code, hlen, rfl⟩ := hg.exists_eq
    exact h.congr rfl hlen rfl rfl rfl (by rw [hc]; rfl) (hne hc nofun)
  | collectedNone hc => exact h.congr rfl rfl rfl rfl rfl (by rw [hc]; rfl) (hne hc nofun)
  | @report child hc hchild =>
    have howner : ∀ {c}, s.Owner c → Owner { s.notifyExit child with caller := .stop } c :=
      fun ho => ho.mono rfl fun n hn => reported_notifyExit.mpr (.inl hn)
    refine ⟨h.launched_notifyExit fun n hn => ?_, fun n hn => ?_, fun w hw => ?_,
      fun _ c hc' => ?_⟩
    · exact Nat.lt_of_succ_le (hplaces.current n ((hchild n).mp hn)).le
    · exact iff_of_true (reported_notifyExit.mpr (.inr ((hchild n).mpr hn))) (.inr rfl)
    · exact howner (h.worker w hw)
    · exact howner (h.master (hne hc nofun) c hc')
  | stop hc => exact h.congr rfl rfl rfl rfl rfl (by rw [hc]; rfl) (hne hc nofun)
  | clear hc =>
    exact .of_ne nofun h.launched (fun w hw => (h.worker w hw).clear h hc)
      fun _ child hchild => (h.master (hne hc nofun) child hchild).clear h hc
  | joinWorker hc =>
    have hnone : s.childPid = .none := (hc ▸ hplaces.atPc : s.AtPc .joinWorker)
    exact .of_ne (fun n hn => by cases hnone.symm.trans hn) h.launched nofun
      fun _ => h.master (hne hc nofun)
  | joinMonitor hc => exact h.congr rfl rfl rfl rfl rfl (by rw [hc]; rfl) (hne hc nofun)
  | drain hc =>
    have hnone := (hc ▸ hplaces.atPc : s.AtPc .drain)
    exact .of_ne (fun n hn => by cases hnone.2.symm.trans hn) h.launched h.worker fun _ => nofun

/-- **The thread that reads keeps what is known of the reports.** -/
theorem Reports.worker_move (h : Reports s) (hmove : WorkerMove s s') : Reports s' := by
  -- As long as it reports nothing, it is only to be known whether a read has failed.
  have hquiet : ∀ {w : Reader}, s.worker = some w → ∀ {pc : ReaderPc} {m r},
      ((m = none ∨ pc = .stop ∨ pc = .close) ↔ s.ReadFailed) →
      (∀ child, m = some child → s.master = some child) →
      Reports { s with master := m, isrunning := r, worker := some { w with pc := pc } } := by
    intro w hw pc m r hfailed hm
    refine ⟨h.launched, fun n hn => ?_, ?_, fun hfork child hchild => ?_⟩
    · refine (h.reported n hn).trans (or_congr (hfailed.symm.trans (or_congr Iff.rfl ?_)) Iff.rfl)
      simp
    · rintro w' ⟨⟩
      exact h.worker w hw
    · exact h.master hfork child (hm child hchild)
  have hfailed : ∀ {w : Reader}, s.worker = some w →
      (s.ReadFailed ↔ s.master = none ∨ w.pc = .stop ∨ w.pc = .close) := by
    intro w hw
    unfold ReadFailed
    rw [hw]
    simp
  cases hmove with
  | @check w hw hpc =>
    refine hquiet hw ?_ fun _ => id
    rw [hfailed hw, hpc]
    split <;> simp
  | @read w hw hpc | @stop w hw hpc =>
    refine hquiet hw ?_ fun _ => id
    rw [hfailed hw, hpc]
    simp
  | @close w hw hpc =>
    refine hquiet hw ?_ nofun
    rw [hfailed hw, hpc]
    simp

/-- **What fails keeps what is known of the reports.** -/
theorem Reports.fails (h : Reports s) (hplaces : Places s) (hmove : FailMove s s') :
    Reports s' := by
  cases hmove with
  | forkFails hc =>
    refine .of_ne nofun h.launched (fun w hw => ?_) fun _ child hchild => ?_
    · cases hw
      rfl
    · cases hchild
      rfl
  | @drainFails child hc hm =>
    have hnone := (hc ▸ hplaces.atPc : s.AtPc .drain)
    refine .of_ne (fun n hn => by cases hnone.2.symm.trans hn) ?_
      (fun w hw => by cases hnone.1.symm.trans hw) fun _ => nofun
    exact h.launched_notifyExit fun n hn =>
      h.lt_of_owner hplaces (h.master (by rw [hc]; exact nofun) child hm) hn
  | @readFails w hw hpc =>
    have howner : ∀ {c}, s.Owner c →
        Owner { s.notifyExit w.child with worker := some { w with pc := .stop } } c :=
      fun ho => ho.mono rfl fun n hn => reported_notifyExit.mpr (.inl hn)
    refine ⟨h.launched_notifyExit fun n hn => ?_, fun n hn => ?_, ?_, fun hfork c hc => ?_⟩
    · exact h.lt_of_owner hplaces (h.worker w hw) hn
    · have hchild := h.worker w hw
      unfold Owner at hchild
      have hn' : s.childPid = .child n := hn
      rw [hn'] at hchild
      exact iff_of_true (reported_notifyExit.mpr (.inr hchild))
        (.inl (.inr ⟨_, rfl, .inl rfl⟩))
    · rintro w' ⟨⟩
      exact howner (h.worker w hw)
    · exact howner (h.master hfork c hc)

/-- **What is known of the reports is kept.** -/
theorem Reports.move (h : Reports s) (hplaces : Places s) (hmove : Move s s') : Reports s' := by
  cases hmove with
  | caller hmove => exact h.caller hplaces hmove
  | worker hmove => exact h.worker_move hmove
  | fails hmove => exact h.fails hplaces hmove
  | monitor hmove => cases hmove <;> exact ⟨h.launched, h.reported, h.worker, h.master⟩
  | exits =>
    refine ⟨fun r hr n hn => ?_, h.reported, h.worker, h.master⟩
    exact (h.launched r hr n hn).trans_eq List.length_set.symm

/-! ## Steps that leave no record -/

/-- The steps that neither report nor send. -/
def Silent : ExecutorStep → Prop
  | .execute _ | .wait | .any _ _ | .exits _ _ => True
  | _ => False

/-- **A silent step** adds nothing to what was reported and sent. -/
theorem records_of_silent {l : ExecutorStep} (hnext : s.next l = some s') (hl : Silent l) :
    s'.reports = s.reports ∧ s'.signals = s.signals := by
  cases l with
  | execute cmd =>
    rw [next] at hnext
    obtain ⟨_, rfl⟩ := beginCall_eq hnext
    split
    · exact ⟨rfl, rfl⟩
    · split <;> exact ⟨rfl, rfl⟩
  | wait =>
    rw [next] at hnext
    obtain ⟨_, rfl⟩ := beginCall_eq hnext
    split <;> exact ⟨rfl, rfl⟩
  | any n status =>
    obtain ⟨hpid, hnext⟩ := Option.ite_none_right_eq_some.mp hnext
    obtain ⟨t, ht, hnext⟩ := Option.bind_eq_some_iff.mp hnext
    obtain ⟨procs, code, _, rfl⟩ := (gather_of_waitpidAny hpid ht).exists_eq
    unfold returned at hnext
    split at hnext
    case h_1 | h_2 =>
      cases hnext
      exact ⟨rfl, rfl⟩
    case h_3 => cases hnext
  | exits n status =>
    obtain ⟨_, hnext⟩ := Option.ite_none_right_eq_some.mp hnext
    cases hnext
    exact ⟨rfl, rfl⟩
  | sendSignal | shutdown | forceShutdown | destroy | caller | callerFails | worker | workerFails
  | monitor => cases hl

/-! ## Every state that is reached -/

/-- **What is known of an executor.** -/
structure Known (s : Executor) : Prop where
  places : Places s
  statuses : Statuses s
  reports : Reports s

theorem Known.new : Known new := ⟨.new, .new, .new⟩

theorem Known.move (h : Known s) (hmove : Move s s') : Known s' :=
  ⟨h.places.move hmove, h.statuses.move h.places hmove, h.reports.move h.places hmove⟩

end Executor
