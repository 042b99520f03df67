import CoinData.AnyDataText
import CoinData.Runs

/-!
# Children of an executor

`execute` launches a child process on a terminal, and a thread that reads what it
writes there. `wait` and `shutdown` wait for the child to exit, and collect its status.
A third thread is started by a `shutdown` with a timeout.

The threads share `child_pid_`, `isrunning_`, `exit_code_` and `master_fd_` without a
lock, and every load and store of them that another thread may come in between is a
step here. `child_pid_` is cleared by `execute` and at the end of `shutdown`, and not by
`wait`, and the exit is reported by `shutdown` and by the thread that reads. Whom a
report or a signal is for is recorded with it.

What the public functions do is in the order of the code. A call of the system can fail
where the code looks at it, or misses to.
-/

/-- **`child_pid_`**: zero, -1 where `fork` has failed, or a child, by the number of
those launched before it. -/
inductive ChildPid where
  | none
  | failed
  | child (n : ℕ)
deriving DecidableEq, Repr

/-- What has become of a child. Its status is collected when it is reaped. -/
inductive ChildProc where
  | running
  | exited (status : ℤ)
  | reaped (status : ℤ)
deriving DecidableEq, Repr

/-- Where the thread is that reads the terminal. -/
inductive ReaderPc where
  /-- Next, `isrunning_` is loaded. -/
  | check
  /-- It is in `read_master_`. -/
  | read
  /-- The read has failed, and the exit was reported: next, `isrunning_` is cleared. -/
  | stop
  /-- Next, the terminal is closed. -/
  | close
  | done
deriving DecidableEq, Repr

/-- **`worker_`**, and the child whose terminal it reads. -/
structure Reader where
  child : Option ℕ
  pc : ReaderPc
deriving DecidableEq, Repr

/-- Where the thread is that `shutdown` starts for its timeout. -/
inductive TimeoutPc where
  | sleep
  /-- Next, `isrunning_` is loaded. -/
  | check
  /-- Next, `send_signal` loads `child_pid_`. -/
  | aim
  /-- Next, `child_pid_` is loaded again, and the signal sent. -/
  | kill
  | done
deriving DecidableEq, Repr

/-- Where the thread is that uses the executor. -/
inductive CallerPc where
  /-- In no call. -/
  | idle
  /-- `execute` waits for the thread that reads. -/
  | join
  /-- Next, `execute` kills the old child. -/
  | replace
  /-- Next, `execute` opens a terminal, and forks. -/
  | fork
  /-- `wait` is in `waitpid`. -/
  | wait
  /-- `shutdown` is in `wait`. -/
  | collect
  /-- Next, `shutdown` reports the exit. -/
  | report
  /-- Next, `shutdown` clears `isrunning_`. -/
  | stop
  /-- Next, `shutdown` clears `child_pid_`. -/
  | clear
  /-- `shutdown` waits for the thread that reads. -/
  | joinWorker
  /-- `shutdown` waits for the thread of the timeout. -/
  | joinMonitor
  /-- Next, `shutdown` reads the terminal once more, and closes it. -/
  | drain
  /-- The executor is destroyed. -/
  | destroyed
deriving DecidableEq, Repr

/-- The thread is in `shutdown`, up to where the thread of the timeout is joined. -/
def CallerPc.inShutdown : CallerPc → Bool
  | collect | report | stop | clear | joinWorker | joinMonitor => true
  | _ => false

/-- The `wait` of `shutdown` has returned, and `child_pid_` is still to be cleared. -/
def CallerPc.pastWait : CallerPc → Bool
  | report | stop | clear => true
  | _ => false

/-- `shutdown` has reported the exit, and `child_pid_` is still to be cleared. -/
def CallerPc.pastReport : CallerPc → Bool
  | stop | clear => true
  | _ => false

/-- A call of the exit notification: the child it is for, and what it is called with. -/
structure ExitReport where
  child : Option ℕ
  status : ℤ
deriving DecidableEq, Repr

/-- A signal that was sent to the group of a child. -/
structure ChildSignal where
  child : ℕ
  /-- The child was reaped before. -/
  reaped : Bool
deriving DecidableEq, Repr

/-- **An executor**, with its threads, the children it has launched, and what was
reported and sent. `master` is the terminal if `master_fd_` is not zero, with the child
on it; `waited` is that `wait` has returned from `waitpid` since the last launch. -/
structure Executor where
  childPid : ChildPid
  master : Option (Option ℕ)
  isrunning : Bool
  exitCode : ℤ
  worker : Option Reader
  monitor : Option TimeoutPc
  caller : CallerPc
  destroying : Bool
  waited : Bool
  procs : List ChildProc
  reports : List ExitReport
  signals : List ChildSignal

/-- Who takes a step. -/
inductive ExecutorStep where
  | execute (cmd : Text)
  | wait
  | sendSignal
  | shutdown (timeout : ℤ)
  | forceShutdown
  | destroy
  /-- The call goes on. -/
  | caller
  /-- `fork`, or the last read of `shutdown`, fails. -/
  | callerFails
  /-- `waitpid(-1, ...)` returns for a child of the executor, or another process. -/
  | any (n : Option ℕ) (status : ℤ)
  /-- The thread that reads goes on; what it reads is there, or there is nothing. -/
  | worker
  /-- Its read fails. -/
  | workerFails
  /-- The thread of the timeout goes on. -/
  | monitor
  | exits (n : ℕ) (status : ℤ)
deriving DecidableEq, Repr

namespace Executor

/-- `Executor()`. -/
def new : Executor where
  childPid := .none
  master := none
  isrunning := true
  exitCode := 0
  worker := none
  monitor := none
  caller := .idle
  destroying := false
  waited := false
  procs := []
  reports := []
  signals := []

/-- The child has been reaped. -/
def isReaped (procs : List ChildProc) (n : ℕ) : Bool :=
  match procs[n]? with
  | some (.reaped _) => true
  | _ => false

/-- `if(child_pid_ > 0) kill(-child_pid_, ...)`. -/
def kill (s : Executor) : Executor :=
  { s with
    signals := match s.childPid with
      | .child n => s.signals ++ [⟨n, isReaped s.procs n⟩]
      | _ => s.signals }

/-- `exit_notification_(exit_code_)`, for a child. -/
def notifyExit (s : Executor) (child : Option ℕ) : Executor :=
  { s with reports := s.reports ++ [⟨child, s.exitCode⟩] }

/-- **`waitpid(child_pid_, &exit_code_, 0)`.** It blocks while the child runs, and fails
for one that was reaped before, and so for -1, unless a process is found. -/
def waitpid (s : Executor) : Option Executor :=
  match s.childPid with
  | .child n =>
    match s.procs[n]? with
    | some (.exited status) =>
      some { s with procs := s.procs.set n (.reaped status), exitCode := status }
    | some (.reaped _) => some s
    | _ => none
  | .failed => some s
  | .none => none

/-- `waitpid(-1, &exit_code_, 0)` has found a process. -/
def waitpidAny (s : Executor) (n : Option ℕ) (status : ℤ) : Option Executor :=
  match n with
  | some n =>
    if s.procs[n]? = some (.exited status) then
      some { s with procs := s.procs.set n (.reaped status), exitCode := status }
    else none
  | none => some { s with exitCode := status }

/-- What follows `waitpid` in `wait`, and in the `wait` of `shutdown`. -/
def returned (s : Executor) : Option Executor :=
  match s.caller with
  | .wait => some { s with caller := .idle, waited := true }
  | .collect => some { s with caller := .report }
  | _ => none

/-- `shutdown` and the destructor, up to `wait`. -/
def beginShutdown (s : Executor) (timeout : ℤ) (destroying : Bool) : Executor :=
  { s.kill with
    monitor := if 0 < timeout then some .sleep else none
    destroying := destroying
    caller := .collect }

/-- Where `shutdown` leads. -/
def endShutdown (s : Executor) : CallerPc := if s.destroying then .destroyed else .idle

/-- `worker_->join()`, if there is one. -/
def joinWorker (s : Executor) : Option Executor :=
  match s.worker with
  | some w => if w.pc = .done then some { s with worker := none } else none
  | none => some s

/-- **The next step of a call.** -/
def callerStep (s : Executor) : Option Executor :=
  match s.caller with
  | .join => s.joinWorker.map fun s => { s with caller := .replace }
  | .replace =>
    some { s.kill with
      childPid := match s.childPid with | .child _ => .none | pid => pid
      caller := .fork }
  | .fork =>
    some { s with
      childPid := .child s.procs.length
      master := some (some s.procs.length)
      isrunning := true
      worker := some ⟨some s.procs.length, .check⟩
      waited := false
      procs := s.procs ++ [.running]
      caller := .idle }
  | .wait => s.waitpid.bind returned
  | .collect => if s.childPid = .none then s.returned else s.waitpid.bind returned
  | .report =>
    some { s.notifyExit (match s.childPid with | .child n => some n | _ => none) with
      caller := .stop }
  | .stop => some { s with isrunning := false, caller := .clear }
  | .clear => some { s with childPid := .none, caller := .joinWorker }
  | .joinWorker => s.joinWorker.map fun s => { s with caller := .joinMonitor }
  | .joinMonitor =>
    if s.monitor = none ∨ s.monitor = some .done then
      some { s with monitor := none, caller := .drain }
    else none
  | .drain => some { s with master := none, caller := s.endShutdown }
  | .idle | .destroyed => none

/-- **The next step of a call**, where the system fails. The last read of `shutdown`
reports the exit then, as any read does. -/
def callerFails (s : Executor) : Option Executor :=
  match s.caller, s.master with
  | .fork, _ =>
    some { s with
      childPid := .failed
      master := some none
      isrunning := true
      worker := some ⟨none, .check⟩
      waited := false
      caller := .idle }
  | .drain, some child =>
    some { s.notifyExit child with isrunning := false, master := none, caller := s.endShutdown }
  | _, _ => none

/-- **The next step of the thread that reads.** -/
def workerStep (s : Executor) : Option Executor :=
  match s.worker with
  | some w =>
    match w.pc with
    | .check =>
      some { s with worker := some { w with pc := if s.isrunning then .read else .done } }
    | .read => some { s with worker := some { w with pc := .check } }
    | .stop => some { s with isrunning := false, worker := some { w with pc := .close } }
    | .close => some { s with master := none, worker := some { w with pc := .check } }
    | .done => none
  | none => none

/-- Its read fails, which it reports. -/
def workerFails (s : Executor) : Option Executor :=
  match s.worker with
  | some w =>
    if w.pc = .read then some { s.notifyExit w.child with worker := some { w with pc := .stop } }
    else none
  | none => none

/-- **The next step of the thread of the timeout.** -/
def monitorStep (s : Executor) : Option Executor :=
  match s.monitor with
  | some .sleep => some { s with monitor := some .check }
  | some .check => some { s with monitor := some (if s.isrunning then .aim else .done) }
  | some .aim =>
    some { s with monitor := some (match s.childPid with | .child _ => .kill | _ => .done) }
  | some .kill => some { s.kill with monitor := some .done }
  | some .done | none => none

/-- A call begins. -/
def beginCall (s : Executor) (call : Executor → Executor) : Option Executor :=
  if s.caller = .idle then some (call s) else none

/-- **Take a step**, if it is possible. -/
def next (s : Executor) : ExecutorStep → Option Executor
  | .execute cmd => s.beginCall fun s =>
    if cmd = [] then s
    else if s.worker.isSome then { s with isrunning := false, caller := .join }
    else { s with caller := .replace }
  | .wait => s.beginCall fun s => if s.childPid = .none then s else { s with caller := .wait }
  | .sendSignal => s.beginCall kill
  | .shutdown timeout => s.beginCall fun s => s.beginShutdown timeout false
  | .forceShutdown => s.beginCall fun s => s.beginShutdown 100 false
  | .destroy => s.beginCall fun s => s.beginShutdown (-1) true
  | .caller => s.callerStep
  | .callerFails => s.callerFails
  | .any n status =>
    if s.childPid = .failed then (s.waitpidAny n status).bind returned else none
  | .worker => s.workerStep
  | .workerFails => s.workerFails
  | .monitor => s.monitorStep
  | .exits n status =>
    if s.procs[n]? = some .running then some { s with procs := s.procs.set n (.exited status) }
    else none

end Executor

/-- **The system of an executor**, with one thread that uses it. -/
def executorSystem : TransitionSystem Executor ExecutorStep where
  init s := s = Executor.new
  step s l s' := s.next l = some s'

namespace Executor

variable {s s' t : Executor} {l : ExecutorStep} {n : ℕ} {w : Reader}

/-! ## What a step does -/

/-- **What `waitpid` does**, where it returns. -/
inductive Gather (s : Executor) : Executor → Prop
  | exited {n : ℕ} {status : ℤ} : s.childPid = .child n →
      s.procs[n]? = some (.exited status) →
      Gather s { s with procs := s.procs.set n (.reaped status), exitCode := status }
  | again {n : ℕ} {status : ℤ} : s.childPid = .child n →
      s.procs[n]? = some (.reaped status) → Gather s s
  | failed : s.childPid = .failed → Gather s s
  | other {n : ℕ} {status : ℤ} : s.childPid = .failed →
      s.procs[n]? = some (.exited status) →
      Gather s { s with procs := s.procs.set n (.reaped status), exitCode := status }
  | foreign {status : ℤ} : s.childPid = .failed → Gather s { s with exitCode := status }

/-- **What a call does**, at its beginning and where it goes on. -/
inductive CallerMove (s : Executor) : Executor → Prop
  | begin : s.caller = .idle → CallerMove s s
  | signal : s.caller = .idle → CallerMove s s.kill
  | join : s.caller = .idle → CallerMove s { s with isrunning := false, caller := .join }
  | skipJoin : s.caller = .idle → s.worker = none → CallerMove s { s with caller := .replace }
  | joined : s.caller = .join → (∀ w, s.worker = some w → w.pc = .done) →
      CallerMove s { s with worker := none, caller := .replace }
  | replace {pid : ChildPid} : s.caller = .replace → (∀ n, pid ≠ .child n) →
      CallerMove s { s.kill with childPid := pid, caller := .fork }
  | fork : s.caller = .fork →
      CallerMove s { s with
        childPid := .child s.procs.length
        master := some (some s.procs.length)
        isrunning := true
        worker := some ⟨some s.procs.length, .check⟩
        waited := false
        procs := s.procs ++ [.running]
        caller := .idle }
  | wait : s.caller = .idle → CallerMove s { s with caller := .wait }
  | waited {t : Executor} : s.caller = .wait → Gather s t →
      CallerMove s { t with caller := .idle, waited := true }
  | shutdown {monitor : Option TimeoutPc} {destroying : Bool} : s.caller = .idle →
      CallerMove s { s.kill with
        monitor := monitor
        destroying := destroying
        caller := .collect }
  | collected {t : Executor} : s.caller = .collect → Gather s t →
      CallerMove s { t with caller := .report }
  | collectedNone : s.caller = .collect → s.childPid = .none →
      CallerMove s { s with caller := .report }
  | report {child : Option ℕ} : s.caller = .report →
      (∀ n, child = some n ↔ s.childPid = .child n) →
      CallerMove s { s.notifyExit child with caller := .stop }
  | stop : s.caller = .stop → CallerMove s { s with isrunning := false, caller := .clear }
  | clear : s.caller = .clear →
      CallerMove s { s with childPid := .none, caller := .joinWorker }
  | joinWorker : s.caller = .joinWorker →
      CallerMove s { s with worker := none, caller := .joinMonitor }
  | joinMonitor : s.caller = .joinMonitor →
      CallerMove s { s with monitor := none, caller := .drain }
  | drain : s.caller = .drain →
      CallerMove s { s with master := none, caller := s.endShutdown }

/-- **What the thread that reads does.** -/
inductive WorkerMove (s : Executor) : Executor → Prop
  | check {w : Reader} : s.worker = some w → w.pc = .check →
      WorkerMove s { s with
        worker := some { w with pc := if s.isrunning then .read else .done } }
  | read {w : Reader} : s.worker = some w → w.pc = .read →
      WorkerMove s { s with worker := some { w with pc := .check } }
  | stop {w : Reader} : s.worker = some w → w.pc = .stop →
      WorkerMove s { s with isrunning := false, worker := some { w with pc := .close } }
  | close {w : Reader} : s.worker = some w → w.pc = .close →
      WorkerMove s { s with master := none, worker := some { w with pc := .check } }

/-- **What a step does**, where the system fails. -/
inductive FailMove (s : Executor) : Executor → Prop
  | forkFails : s.caller = .fork →
      FailMove s { s with
        childPid := .failed
        master := some none
        isrunning := true
        worker := some ⟨none, .check⟩
        waited := false
        caller := .idle }
  | drainFails {child : Option ℕ} : s.caller = .drain → s.master = some child →
      FailMove s { s.notifyExit child with
        isrunning := false
        master := none
        caller := s.endShutdown }
  | readFails {w : Reader} : s.worker = some w → w.pc = .read →
      FailMove s { s.notifyExit w.child with worker := some { w with pc := .stop } }

/-- **What the thread of the timeout does.** -/
inductive MonitorMove (s : Executor) : Executor → Prop
  | next {pc : TimeoutPc} : s.monitor ≠ none → MonitorMove s { s with monitor := some pc }
  | kill : s.monitor ≠ none → MonitorMove s { s.kill with monitor := some .done }

/-- **What a step does.** -/
inductive Move (s : Executor) : Executor → Prop
  | caller {t : Executor} : CallerMove s t → Move s t
  | worker {t : Executor} : WorkerMove s t → Move s t
  | fails {t : Executor} : FailMove s t → Move s t
  | monitor {t : Executor} : MonitorMove s t → Move s t
  | exits {n : ℕ} {status : ℤ} : s.procs[n]? = some .running →
      Move s { s with procs := s.procs.set n (.exited status) }

theorem gather_of_waitpid (h : s.waitpid = some t) : Gather s t := by
  unfold waitpid at h
  split at h
  case h_1 n hpid =>
    split at h
    case h_1 status hproc =>
      cases h
      exact .exited hpid hproc
    case h_2 status hproc =>
      cases h
      exact .again hpid hproc
    case h_3 => cases h
  case h_2 hpid =>
    cases h
    exact .failed hpid
  case h_3 => cases h

theorem Gather.caller_eq (h : Gather s t) : t.caller = s.caller := by
  cases h <;> rfl

theorem callerMove_of_returned (h : Gather s t) (ht : t.returned = some s') :
    CallerMove s s' := by
  have hcaller := h.caller_eq
  unfold returned at ht
  split at ht
  case h_1 hwait =>
    cases ht
    exact .waited (hcaller.symm.trans hwait) h
  case h_2 hcollect =>
    cases ht
    exact .collected (hcaller.symm.trans hcollect) h
  case h_3 => cases ht

theorem joinWorker_eq (h : s.joinWorker = some t) :
    t = { s with worker := none } ∧ ∀ w, s.worker = some w → w.pc = .done := by
  unfold joinWorker at h
  split at h
  case h_1 w hw =>
    obtain ⟨hdone, h⟩ := Option.ite_none_right_eq_some.mp h
    refine ⟨(Option.some.inj h).symm, fun w' hw' => ?_⟩
    cases hw.symm.trans hw'
    exact hdone
  case h_2 hw =>
    cases h
    refine ⟨?_, fun w hw' => ?_⟩
    · cases s
      cases hw
      rfl
    · cases hw.symm.trans hw'

theorem callerMove_of_callerStep (h : s.callerStep = some s') : CallerMove s s' := by
  unfold callerStep at h
  split at h
  case h_1 hcaller =>
    obtain ⟨t, ht, rfl⟩ := Option.map_eq_some_iff.mp h
    obtain ⟨rfl, hdone⟩ := joinWorker_eq ht
    exact .joined hcaller hdone
  case h_2 hcaller =>
    cases h
    refine .replace hcaller fun n => ?_
    cases s.childPid <;> exact nofun
  case h_3 hcaller =>
    cases h
    exact .fork hcaller
  case h_4 hcaller =>
    obtain ⟨t, ht, h⟩ := Option.bind_eq_some_iff.mp h
    exact callerMove_of_returned (gather_of_waitpid ht) h
  case h_5 hcaller =>
    split at h
    case isTrue hpid =>
      unfold returned at h
      rw [hcaller] at h
      cases h
      exact .collectedNone hcaller hpid
    case isFalse =>
      obtain ⟨t, ht, h⟩ := Option.bind_eq_some_iff.mp h
      exact callerMove_of_returned (gather_of_waitpid ht) h
  case h_6 hcaller =>
    cases h
    refine .report hcaller fun n => ?_
    cases s.childPid <;> simp
  case h_7 hcaller =>
    cases h
    exact .stop hcaller
  case h_8 hcaller =>
    cases h
    exact .clear hcaller
  case h_9 hcaller =>
    obtain ⟨t, ht, rfl⟩ := Option.map_eq_some_iff.mp h
    obtain ⟨rfl, _⟩ := joinWorker_eq ht
    exact .joinWorker hcaller
  case h_10 hcaller =>
    obtain ⟨_, h⟩ := Option.ite_none_right_eq_some.mp h
    cases h
    exact .joinMonitor hcaller
  case h_11 hcaller =>
    cases h
    exact .drain hcaller
  case h_12 => cases h
  case h_13 => cases h

theorem failMove_of_callerFails (h : s.callerFails = some s') : FailMove s s' := by
  unfold callerFails at h
  split at h
  case h_1 hcaller =>
    cases h
    exact .forkFails hcaller
  case h_2 child hcaller hmaster =>
    cases h
    exact .drainFails hcaller hmaster
  case h_3 => cases h

theorem gather_of_waitpidAny {status : ℤ} {n : Option ℕ} (hpid : s.childPid = .failed)
    (h : s.waitpidAny n status = some t) : Gather s t := by
  unfold waitpidAny at h
  split at h
  case h_1 n =>
    obtain ⟨hproc, h⟩ := Option.ite_none_right_eq_some.mp h
    cases h
    exact .other hpid hproc
  case h_2 =>
    cases h
    exact .foreign hpid

theorem workerMove_of_workerStep (h : s.workerStep = some s') : WorkerMove s s' := by
  unfold workerStep at h
  split at h
  case h_1 w hw =>
    split at h
    case h_1 hpc =>
      cases h
      exact .check hw hpc
    case h_2 hpc =>
      cases h
      exact .read hw hpc
    case h_3 hpc =>
      cases h
      exact .stop hw hpc
    case h_4 hpc =>
      cases h
      exact .close hw hpc
    case h_5 => cases h
  case h_2 => cases h

theorem failMove_of_workerFails (h : s.workerFails = some s') : FailMove s s' := by
  unfold workerFails at h
  split at h
  case h_1 w hw =>
    obtain ⟨hpc, h⟩ := Option.ite_none_right_eq_some.mp h
    cases h
    exact .readFails hw hpc
  case h_2 => cases h

theorem monitorMove_of_monitorStep (h : s.monitorStep = some s') : MonitorMove s s' := by
  have hne : ∀ {pc}, s.monitor = some pc → s.monitor ≠ none := by
    intro pc hpc hnone
    rw [hpc] at hnone
    cases hnone
  unfold monitorStep at h
  split at h
  case h_1 hpc =>
    cases h
    exact .next (hne hpc)
  case h_2 hpc =>
    cases h
    exact .next (hne hpc)
  case h_3 hpc =>
    cases h
    exact .next (hne hpc)
  case h_4 hpc =>
    cases h
    exact .kill (hne hpc)
  case h_5 => cases h
  case h_6 => cases h

theorem beginCall_eq {call : Executor → Executor} (h : s.beginCall call = some s') :
    s.caller = .idle ∧ s' = call s := by
  obtain ⟨hcaller, h⟩ := Option.ite_none_right_eq_some.mp h
  exact ⟨hcaller, (Option.some.inj h).symm⟩

/-- **What a step does**, whoever takes it. -/
theorem move_of_next (h : s.next l = some s') : Move s s' := by
  cases l with
  | execute cmd =>
    rw [next] at h
    obtain ⟨hcaller, rfl⟩ := beginCall_eq h
    split
    · exact .caller (.begin hcaller)
    · split
      case isTrue => exact .caller (.join hcaller)
      case isFalse hw => exact .caller (.skipJoin hcaller (Option.not_isSome_iff_eq_none.mp hw))
  | wait =>
    rw [next] at h
    obtain ⟨hcaller, rfl⟩ := beginCall_eq h
    split
    · exact .caller (.begin hcaller)
    · exact .caller (.wait hcaller)
  | sendSignal =>
    rw [next] at h
    obtain ⟨hcaller, rfl⟩ := beginCall_eq h
    exact .caller (.signal hcaller)
  | shutdown timeout | forceShutdown | destroy =>
    rw [next] at h
    obtain ⟨hcaller, rfl⟩ := beginCall_eq h
    exact .caller (.shutdown hcaller)
  | caller => exact .caller (callerMove_of_callerStep h)
  | callerFails => exact .fails (failMove_of_callerFails h)
  | any n status =>
    obtain ⟨hpid, h⟩ := Option.ite_none_right_eq_some.mp h
    obtain ⟨t, ht, h⟩ := Option.bind_eq_some_iff.mp h
    exact .caller (callerMove_of_returned (gather_of_waitpidAny hpid ht) h)
  | worker => exact .worker (workerMove_of_workerStep h)
  | workerFails => exact .fails (failMove_of_workerFails h)
  | monitor => exact .monitor (monitorMove_of_monitorStep h)
  | exits n status =>
    obtain ⟨hproc, h⟩ := Option.ite_none_right_eq_some.mp h
    cases h
    exact .exits hproc

end Executor
