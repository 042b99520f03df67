import CoinData.Executor

/-!
# What a child writes

What a child writes comes to its terminal, is read from there in pieces of at
most 4096 bytes, and is handed on: to the callback if there is one, or else to
the buffer that `read_front` takes from if there is a notification, or else to
the standard output. The thread that reads does so until a read fails, and
`shutdown` reads once more when that thread has been joined. Who has read a
piece looks only then where it is to go.

A read fails when nobody has the other end of the terminal open any more, and
everything has been read; a read that is interrupted by a signal, and fails with
`EINTR`, is left out. A terminal that is closed before, because `execute`
opens a new one or `shutdown` ends, keeps what was not read.

The steps of the executor itself are those of its system.
-/

/-- A piece of output, with the child it is from. -/
structure Chunk where
  child : ℕ
  bytes : List UInt8
deriving DecidableEq, Repr

/-- Where a piece goes. -/
inductive Sink where
  | callback
  | buffer
  | stdout
deriving DecidableEq, Repr

/-- **An executor and its output.** `shown` is what has come to the terminal of a
child, `terminal` what is there to be read yet; `hand` is what was read and not
handed on yet. -/
structure ExecutorOutput where
  executor : Executor
  shown : ℕ → List UInt8
  terminal : ℕ → List UInt8
  /-- Nobody has the other end of the terminal open. -/
  hungUp : ℕ → Bool
  hand : Option Chunk
  hasCallback : Bool
  hasNotification : Bool
  buffer : List Chunk
  /-- What was handed on, and where. -/
  delivered : List (Sink × Chunk)
  /-- What `read_front` has returned. -/
  fronts : List (List UInt8)

/-- Who takes a step. -/
inductive OutputStep where
  | executor (l : ExecutorStep)
  /-- `read` returns as many bytes. -/
  | read (k : ℕ)
  | deliver
  /-- Something is written to the terminal of a child. -/
  | shows (n : ℕ) (bytes : List UInt8)
  | hangUp (n : ℕ)
  | readFront
  | setReceiveCallback (set : Bool)
  | setReceiveNotification (set : Bool)
deriving DecidableEq, Repr

namespace ExecutorOutput

/-- The thread that reads is in `read_master_`. -/
def workerReads (s : ExecutorOutput) : Bool :=
  match s.executor.worker with
  | some w => w.pc = .read
  | none => false

/-- The child whose terminal can be read, by the thread that reads or by
`shutdown`. -/
def reading (s : ExecutorOutput) : Option ℕ :=
  if s.workerReads = true ∨ s.executor.caller = .drain then s.executor.master.join else none

/-- There is nothing to read. -/
def Empty (s : ExecutorOutput) : Prop := s.hand = none ∧ ∀ n ∈ s.reading, s.terminal n = []

/-- A read fails. -/
def HungUp (s : ExecutorOutput) : Prop := s.Empty ∧ ∀ n ∈ s.reading, s.hungUp n = true

instance (s : ExecutorOutput) : Decidable s.Empty :=
  inferInstanceAs (Decidable (s.hand = none ∧ ∀ n ∈ s.reading, s.terminal n = []))

instance (s : ExecutorOutput) : Decidable s.HungUp :=
  inferInstanceAs (Decidable (s.Empty ∧ ∀ n ∈ s.reading, s.hungUp n = true))

/-- **When the executor goes on by itself**: it returns from `read_master_` without
a piece if there is none. -/
def Admits (s : ExecutorOutput) : ExecutorStep → Prop
  | .worker => s.workerReads = true → s.Empty
  | .workerFails => s.HungUp
  | .caller => s.executor.caller = .drain → s.Empty
  | .callerFails => s.executor.caller = .drain → s.HungUp
  | _ => True

instance (s : ExecutorOutput) : (l : ExecutorStep) → Decidable (s.Admits l)
  | .worker => inferInstanceAs (Decidable (s.workerReads = true → s.Empty))
  | .workerFails => inferInstanceAs (Decidable s.HungUp)
  | .caller => inferInstanceAs (Decidable (s.executor.caller = .drain → s.Empty))
  | .callerFails => inferInstanceAs (Decidable (s.executor.caller = .drain → s.HungUp))
  | .execute _ | .wait | .sendSignal | .shutdown _ | .forceShutdown | .destroy | .any .. | .monitor
  | .exits .. => inferInstanceAs (Decidable True)

/-- Where a piece goes that is handed on now. -/
def sink (s : ExecutorOutput) : Sink :=
  if s.hasCallback then .callback else if s.hasNotification then .buffer else .stdout

/-- How the executor goes on when a piece has been handed on. -/
def resume (s : ExecutorOutput) : Option Executor :=
  if s.workerReads then s.executor.next .worker else s.executor.next .caller

/-- **Take a step**, if it is possible. -/
def next (s : ExecutorOutput) : OutputStep → Option ExecutorOutput
  | .executor l =>
    if s.Admits l then (s.executor.next l).map fun e => { s with executor := e } else none
  | .read k =>
    match s.hand, s.reading with
    | none, some n =>
      if 0 < k ∧ k ≤ 4096 ∧ k ≤ (s.terminal n).length then
        some { s with
          hand := some ⟨n, (s.terminal n).take k⟩
          terminal := Function.update s.terminal n ((s.terminal n).drop k) }
      else none
    | _, _ => none
  | .deliver =>
    match s.hand with
    | some chunk => s.resume.map fun e =>
      { s with
        executor := e
        hand := none
        buffer := if s.sink = .buffer then s.buffer ++ [chunk] else s.buffer
        delivered := s.delivered ++ [(s.sink, chunk)] }
    | none => none
  | .shows n bytes =>
    if n < s.executor.procs.length ∧ s.hungUp n = false then
      some { s with
        shown := Function.update s.shown n (s.shown n ++ bytes)
        terminal := Function.update s.terminal n (s.terminal n ++ bytes) }
    else none
  | .hangUp n =>
    if n < s.executor.procs.length then some { s with hungUp := Function.update s.hungUp n true }
    else none
  | .readFront =>
    match s.buffer with
    | chunk :: buffer => some { s with buffer := buffer, fronts := s.fronts ++ [chunk.bytes] }
    | [] => some { s with fronts := s.fronts ++ [[]] }
  | .setReceiveCallback set => some { s with hasCallback := set }
  | .setReceiveNotification set => some { s with hasNotification := set }

/-- An executor that has launched nothing. -/
def new : ExecutorOutput :=
  ⟨.new, fun _ => [], fun _ => [], fun _ => false, none, false, false, [], [], []⟩

/-- What was read, in order. -/
def taken (s : ExecutorOutput) : List Chunk := s.delivered.map Prod.snd ++ s.hand.toList

/-- The bytes of a child among some pieces. -/
def bytesOf (n : ℕ) (chunks : List Chunk) : List UInt8 :=
  (chunks.filter fun chunk => chunk.child = n).flatMap Chunk.bytes

/-- What was handed on to a sink. -/
def received (s : ExecutorOutput) (sink : Sink) : List Chunk :=
  (s.delivered.filter fun e => e.1 = sink).map Prod.snd

end ExecutorOutput

/-- **The system of an executor and its output.** -/
def executorOutputSystem : TransitionSystem ExecutorOutput OutputStep where
  init s := s = ExecutorOutput.new
  step s l s' := s.next l = some s'

/-! ## The terminal -/

namespace Executor

variable {s s' : Executor} {l : ExecutorStep}

/-- `master_fd_` is the terminal of the last child. -/
def MasterLast (s : Executor) : Prop :=
  ∀ n, s.master = some (some n) → n + 1 = s.procs.length

theorem procs_gather {t : Executor} (h : Gather s t) :
    t.procs.length = s.procs.length ∧ t.master = s.master := by
  cases h with
  | exited _ _ | other _ _ => exact ⟨List.length_set, rfl⟩
  | again _ _ | failed _ | foreign _ => exact ⟨rfl, rfl⟩

/-- A step launches one child at most, and its terminal is then the one that is
open. -/
theorem MasterLast.move (h : s.MasterLast) (hmove : Move s s') :
    s'.MasterLast ∧ s.procs.length ≤ s'.procs.length := by
  cases hmove with
  | caller hcaller =>
    cases hcaller with
    | fork _ =>
      refine ⟨fun n hn => ?_, ?_⟩
      · cases hn
        show s.procs.length + 1 = (s.procs ++ [ChildProc.running]).length
        rw [List.length_append]
        rfl
      · rw [List.length_append]
        exact Nat.le_add_right _ _
    | drain _ => exact ⟨fun n hn => (by cases hn), le_rfl⟩
    | waited _ hg | collected _ hg =>
      obtain ⟨hlen, hmaster⟩ := procs_gather hg
      refine ⟨fun n hn => ?_, hlen.ge⟩
      show n + 1 = _
      rw [hlen]
      exact h n (hmaster ▸ hn)
    | begin _ | signal _ | join _ | skipJoin _ _ | joined _ _ | replace _ _ | wait _ | shutdown _
    | collectedNone _ _ | report _ _ | stop _ | clear _ | joinWorker _ | joinMonitor _ =>
      exact ⟨h, le_rfl⟩
  | worker hworker =>
    cases hworker with
    | close _ _ => exact ⟨fun n hn => (by cases hn), le_rfl⟩
    | check _ _ | read _ _ | stop _ _ => exact ⟨h, le_rfl⟩
  | fails hfails =>
    cases hfails with
    | forkFails _ | drainFails _ _ => exact ⟨fun n hn => (by cases hn), le_rfl⟩
    | readFails _ _ => exact ⟨h, le_rfl⟩
  | monitor hmonitor =>
    cases hmonitor with
    | next _ | kill _ => exact ⟨h, le_rfl⟩
  | exits _ => exact ⟨fun n hn => (h n hn).trans List.length_set.symm, List.length_set.ge⟩

end Executor

/-! ## What is read -/

namespace ExecutorOutput

variable {s s' : ExecutorOutput} {n : ℕ}

theorem bytesOf_append (n : ℕ) (chunks chunks' : List Chunk) :
    bytesOf n (chunks ++ chunks') = bytesOf n chunks ++ bytesOf n chunks' := by
  unfold bytesOf
  rw [List.filter_append, List.flatMap_append]

theorem bytesOf_singleton (n : ℕ) (chunk : Chunk) :
    bytesOf n [chunk] = if chunk.child = n then chunk.bytes else [] := by
  unfold bytesOf
  by_cases h : chunk.child = n <;> simp [h]

/-- **What holds of the output.** -/
structure Inv (s : ExecutorOutput) : Prop where
  shown : ∀ n, s.shown n = bytesOf n s.taken ++ s.terminal n
  sorted : (s.taken.map Chunk.child).Pairwise (· ≤ ·)
  launched : ∀ chunk ∈ s.taken, chunk.child < s.executor.procs.length
  size : ∀ chunk ∈ s.taken, chunk.bytes ≠ [] ∧ chunk.bytes.length ≤ 4096
  fronts : (s.received .buffer).map Chunk.bytes
    = s.fronts.filter (· ≠ []) ++ s.buffer.map Chunk.bytes
  last : s.executor.MasterLast

/-- The executor goes on. -/
theorem Inv.executor (h : s.Inv) {e : Executor} (hmove : s.executor.Move e) :
    ({ s with executor := e } : ExecutorOutput).Inv := by
  obtain ⟨hlast, hlen⟩ := h.last.move hmove
  exact ⟨h.shown, h.sorted, fun chunk hc => (h.launched chunk hc).trans_le hlen, h.size, h.fronts,
    hlast⟩

/-- What is handed on was read. -/
theorem mem_taken_of_received {sink : Sink} {chunk : Chunk} (h : chunk ∈ s.received sink) :
    chunk ∈ s.taken := by
  obtain ⟨e, he, rfl⟩ := List.mem_map.mp h
  exact List.mem_append_left _ (List.mem_map_of_mem (List.mem_filter.mp he).1)

/-- No piece in the buffer is empty. -/
theorem Inv.bytes_ne (h : s.Inv) {chunk : Chunk} (hc : chunk ∈ s.buffer) : chunk.bytes ≠ [] := by
  have hmem : chunk.bytes ∈ (s.received .buffer).map Chunk.bytes := by
    rw [h.fronts]
    exact List.mem_append_right _ (List.mem_map_of_mem hc)
  obtain ⟨chunk', hc', heq⟩ := List.mem_map.mp hmem
  rw [← heq]
  exact (h.size chunk' (mem_taken_of_received hc')).1

/-- **A piece is read.** -/
theorem Inv.read (h : s.Inv) {k : ℕ} (hhand : s.hand = none) (hread : s.reading = some n)
    (hk : 0 < k ∧ k ≤ 4096 ∧ k ≤ (s.terminal n).length) :
    ({ s with
      hand := some ⟨n, (s.terminal n).take k⟩
      terminal := Function.update s.terminal n ((s.terminal n).drop k) } : ExecutorOutput).Inv := by
  have hn : n + 1 = s.executor.procs.length := by
    unfold reading at hread
    split at hread
    · refine h.last n ?_
      cases hm : s.executor.master with
      | none =>
        rw [hm] at hread
        cases hread
      | some child =>
        rw [hm] at hread
        exact congrArg some hread
    · cases hread
  have htaken : ({ s with
      hand := some ⟨n, (s.terminal n).take k⟩
      terminal := Function.update s.terminal n ((s.terminal n).drop k) } : ExecutorOutput).taken
      = s.taken ++ [⟨n, (s.terminal n).take k⟩] := by
    unfold taken
    rw [hhand]
    simp
  refine ⟨fun m => ?_, ?_, fun chunk hc => ?_, fun chunk hc => ?_, h.fronts, h.last⟩
  · rw [htaken, bytesOf_append, bytesOf_singleton]
    show s.shown m = _ ++ Function.update s.terminal n _ m
    rw [h.shown m]
    by_cases hm : m = n
    · rw [hm, Function.update_self, if_pos rfl, List.append_assoc, List.take_append_drop]
    · rw [Function.update_of_ne hm, if_neg (Ne.symm hm), List.append_nil]
  · rw [htaken, List.map_append, List.pairwise_append]
    refine ⟨h.sorted, List.pairwise_singleton _ _, fun m hm n' hn' => ?_⟩
    obtain ⟨chunk, hc, rfl⟩ := List.mem_map.mp hm
    cases List.mem_singleton.mp hn'
    have hlt := h.launched chunk hc
    show chunk.child ≤ n
    omega
  · rw [htaken] at hc
    rcases List.mem_append.mp hc with hold | hnew
    · exact h.launched chunk hold
    · cases List.mem_singleton.mp hnew
      exact hn ▸ Nat.lt_succ_self n
  · rw [htaken] at hc
    rcases List.mem_append.mp hc with hold | hnew
    · exact h.size chunk hold
    · cases List.mem_singleton.mp hnew
      have hlen : ((s.terminal n).take k).length = k := by
        rw [List.length_take]
        omega
      refine ⟨fun hnil => ?_, hlen.trans_le hk.2.1⟩
      have hnil : (s.terminal n).take k = [] := hnil
      rw [hnil] at hlen
      have := hk.1
      simp at hlen
      omega

/-- **A piece is handed on.** -/
theorem Inv.deliver (h : s.Inv) {chunk : Chunk} (hhand : s.hand = some chunk) {e : Executor}
    (hmove : s.executor.Move e) :
    ({ s with
      executor := e
      hand := none
      buffer := if s.sink = .buffer then s.buffer ++ [chunk] else s.buffer
      delivered := s.delivered ++ [(s.sink, chunk)] } : ExecutorOutput).Inv := by
  obtain ⟨hlast, hlen⟩ := h.last.move hmove
  have htaken : ({ s with
      executor := e
      hand := none
      buffer := if s.sink = .buffer then s.buffer ++ [chunk] else s.buffer
      delivered := s.delivered ++ [(s.sink, chunk)] } : ExecutorOutput).taken = s.taken := by
    unfold taken
    rw [hhand]
    simp
  refine ⟨fun m => ?_, ?_, fun c hc => ?_, fun c hc => ?_, ?_, hlast⟩
  · rw [htaken]
    exact h.shown m
  · rw [htaken]
    exact h.sorted
  · rw [htaken] at hc
    exact (h.launched c hc).trans_le hlen
  · rw [htaken] at hc
    exact h.size c hc
  · have hfronts := h.fronts
    unfold received at hfronts ⊢
    dsimp only
    rw [List.filter_append, List.map_append, List.map_append, hfronts]
    by_cases hsink : s.sink = .buffer
    · rw [if_pos hsink, List.map_append, List.append_assoc]
      simp [hsink]
    · rw [if_neg hsink]
      simp [hsink]

/-- The executor goes on when a piece has been handed on. -/
theorem move_of_resume {e : Executor} (h : s.resume = some e) : s.executor.Move e := by
  unfold resume at h
  split at h <;> exact Executor.move_of_next h

/-- **A step keeps what holds of the output.** -/
theorem Inv.next (h : s.Inv) {l : OutputStep} (hs : s.next l = some s') : s'.Inv := by
  cases l with
  | executor l =>
    obtain ⟨_, hs⟩ := Option.ite_none_right_eq_some.mp hs
    obtain ⟨e, he, rfl⟩ := Option.map_eq_some_iff.mp hs
    exact h.executor (Executor.move_of_next he)
  | read k =>
    dsimp only [ExecutorOutput.next] at hs
    split at hs
    · next hhand hread =>
      obtain ⟨hk, hs⟩ := Option.ite_none_right_eq_some.mp hs
      cases hs
      exact h.read hhand hread hk
    · cases hs
  | deliver =>
    dsimp only [ExecutorOutput.next] at hs
    split at hs
    · next hhand =>
      obtain ⟨e, he, rfl⟩ := Option.map_eq_some_iff.mp hs
      exact h.deliver hhand (move_of_resume he)
    · cases hs
  | shows n bytes =>
    obtain ⟨_, hs⟩ := Option.ite_none_right_eq_some.mp hs
    cases hs
    refine ⟨fun m => ?_, h.sorted, h.launched, h.size, h.fronts, h.last⟩
    show Function.update s.shown n _ m = _ ++ Function.update s.terminal n _ m
    by_cases hm : m = n
    · rw [hm, Function.update_self, Function.update_self, ← List.append_assoc]
      exact congrArg (· ++ bytes) (h.shown n)
    · rw [Function.update_of_ne hm, Function.update_of_ne hm]
      exact h.shown m
  | hangUp n =>
    obtain ⟨_, hs⟩ := Option.ite_none_right_eq_some.mp hs
    cases hs
    exact ⟨h.shown, h.sorted, h.launched, h.size, h.fronts, h.last⟩
  | readFront =>
    dsimp only [ExecutorOutput.next] at hs
    split at hs
    · next chunk buffer hbuffer =>
      cases hs
      refine ⟨h.shown, h.sorted, h.launched, h.size, ?_, h.last⟩
      have hfronts := h.fronts
      rw [hbuffer] at hfronts
      show (s.received .buffer).map Chunk.bytes = _
      rw [hfronts, List.filter_append, List.map_cons, List.append_assoc]
      have hne : chunk.bytes ≠ [] := h.bytes_ne (by rw [hbuffer]; exact List.mem_cons_self)
      simp [hne]
    · next hbuffer =>
      cases hs
      refine ⟨h.shown, h.sorted, h.launched, h.size, ?_, h.last⟩
      have hfronts := h.fronts
      show (s.received .buffer).map Chunk.bytes = _
      rw [hfronts]
      simp
  | setReceiveCallback set | setReceiveNotification set =>
    cases hs
    exact ⟨h.shown, h.sorted, h.launched, h.size, h.fronts, h.last⟩

/-- **All of a terminal was read**, and nothing more comes to it. -/
structure Drained (s : ExecutorOutput) (n : ℕ) : Prop where
  terminal : s.terminal n = []
  hungUp : s.hungUp n = true
  hand : ∀ chunk, s.hand = some chunk → chunk.child ≠ n

theorem Drained.bytesOf_hand (h : s.Drained n) : bytesOf n s.hand.toList = [] := by
  cases hhand : s.hand with
  | none => rfl
  | some chunk => exact (bytesOf_singleton n chunk).trans (if_neg (h.hand chunk hhand))

/-- A read that fails leaves nothing behind. -/
theorem drained_of_fails {l : ExecutorStep} (hs : s.next (.executor l) = some s')
    (hl : l = .workerFails ∨ l = .callerFails ∧ s.executor.caller = .drain)
    (hn : s.reading = some n) : s'.Drained n ∧ s'.shown n = s.shown n := by
  obtain ⟨hadm, hs⟩ := Option.ite_none_right_eq_some.mp hs
  obtain ⟨e, _, rfl⟩ := Option.map_eq_some_iff.mp hs
  have hup : s.HungUp := by
    rcases hl with rfl | ⟨rfl, hdrain⟩
    · exact hadm
    · exact hadm hdrain
  obtain ⟨⟨hhand, hempty⟩, hup⟩ := hup
  refine ⟨⟨hempty n hn, hup n hn, fun chunk hc => ?_⟩, rfl⟩
  have hc : s.hand = some chunk := hc
  cases hhand.symm.trans hc

/-- It stays like that. -/
theorem Drained.next (h : s.Drained n) {l : OutputStep} (hs : s.next l = some s') :
    s'.Drained n ∧ s'.shown n = s.shown n := by
  cases l with
  | executor l =>
    obtain ⟨_, hs⟩ := Option.ite_none_right_eq_some.mp hs
    obtain ⟨e, _, rfl⟩ := Option.map_eq_some_iff.mp hs
    exact ⟨⟨h.terminal, h.hungUp, h.hand⟩, rfl⟩
  | read k =>
    dsimp only [ExecutorOutput.next] at hs
    split at hs
    · next m hhand hread =>
      obtain ⟨hk, hs⟩ := Option.ite_none_right_eq_some.mp hs
      cases hs
      have hm : m ≠ n := by
        rintro rfl
        rw [h.terminal] at hk
        simp only [List.length_nil] at hk
        omega
      refine ⟨⟨?_, h.hungUp, fun chunk hc => ?_⟩, rfl⟩
      · exact (Function.update_of_ne (Ne.symm hm) ..).trans h.terminal
      · cases hc
        exact hm
    · cases hs
  | deliver =>
    dsimp only [ExecutorOutput.next] at hs
    split at hs
    · obtain ⟨e, _, rfl⟩ := Option.map_eq_some_iff.mp hs
      exact ⟨⟨h.terminal, h.hungUp, fun chunk hc => by cases hc⟩, rfl⟩
    · cases hs
  | shows m bytes =>
    obtain ⟨⟨_, hopen⟩, hs⟩ := Option.ite_none_right_eq_some.mp hs
    cases hs
    have hm : m ≠ n := by
      rintro rfl
      cases hopen.symm.trans h.hungUp
    refine ⟨⟨?_, h.hungUp, h.hand⟩, ?_⟩
    · exact (Function.update_of_ne (Ne.symm hm) ..).trans h.terminal
    · exact Function.update_of_ne (Ne.symm hm) ..
  | hangUp m =>
    obtain ⟨_, hs⟩ := Option.ite_none_right_eq_some.mp hs
    cases hs
    refine ⟨⟨h.terminal, ?_, h.hand⟩, rfl⟩
    show Function.update s.hungUp m true n = true
    by_cases hm : n = m
    · rw [hm, Function.update_self]
    · rw [Function.update_of_ne hm]
      exact h.hungUp
  | readFront =>
    dsimp only [ExecutorOutput.next] at hs
    split at hs <;> cases hs <;> exact ⟨⟨h.terminal, h.hungUp, h.hand⟩, rfl⟩
  | setReceiveCallback set | setReceiveNotification set =>
    cases hs
    exact ⟨⟨h.terminal, h.hungUp, h.hand⟩, rfl⟩

theorem inv_of_reachable (h : executorOutputSystem.Reachable s) : s.Inv :=
  h.invariant (fun _ hs => hs ▸ ⟨fun _ => rfl, .nil, fun _ hc => (by cases hc),
    fun _ hc => (by cases hc), rfl, fun _ hn => (by cases hn)⟩) fun _ _ _ _ hinv hstep =>
    hinv.next hstep

end ExecutorOutput

open TransitionSystem

variable {tr : List (ExecutorOutput × OutputStep)} {s : ExecutorOutput}

/-- **Output is neither lost in between, nor doubled, nor out of order.** Whatever
the threads do: what has come to the terminal of a child is what was handed on of
it, followed by the piece which is just read, followed by what is there to be
read; all pieces of a child are handed on before any of a later one; no piece is
empty or longer than 4096 bytes; and `read_front` has returned the pieces that
went to the buffer, in order, up to those which are still there, and the empty
string when there were none. -/
theorem executor_output (h : executorOutputSystem.Reachable s) :
    (∀ n, s.shown n = ExecutorOutput.bytesOf n (s.delivered.map Prod.snd)
        ++ ExecutorOutput.bytesOf n s.hand.toList ++ s.terminal n)
    ∧ ((s.delivered.map Prod.snd).map Chunk.child).Pairwise (· ≤ ·)
    ∧ (∀ e ∈ s.delivered, e.2.bytes ≠ [] ∧ e.2.bytes.length ≤ 4096)
    ∧ (s.received .buffer).map Chunk.bytes
      = s.fronts.filter (· ≠ []) ++ s.buffer.map Chunk.bytes := by
  have hinv := ExecutorOutput.inv_of_reachable h
  refine ⟨fun n => ?_, ?_, fun e he => ?_, hinv.fronts⟩
  · rw [← ExecutorOutput.bytesOf_append]
    exact hinv.shown n
  · have hsorted := hinv.sorted
    unfold ExecutorOutput.taken at hsorted
    rw [List.map_append] at hsorted
    exact (List.pairwise_append.mp hsorted).1
  · exact hinv.size e.2 (List.mem_append_left _ (List.mem_map_of_mem he))

/-- Two bytes of three have been read, and `read_front` was called twice. -/
theorem executor_output_two : ∃ s, executorOutputSystem.Reachable s
    ∧ s.fronts = [[1, 2], []] ∧ s.shown 0 = [1, 2, 3]
    ∧ s.shown 0 = ExecutorOutput.bytesOf 0 (s.delivered.map Prod.snd)
        ++ ExecutorOutput.bytesOf 0 s.hand.toList ++ s.terminal 0 := by
  have htrace : (trace ExecutorOutput.next [] ExecutorOutput.new
      [.setReceiveNotification true, .executor (.execute ['a']), .executor .caller,
        .executor .caller, .executor .worker, .shows 0 [1, 2, 3], .read 2, .deliver, .readFront,
        .readFront]).map (fun e => (e.2.fronts, e.2.shown 0)) = some ([[1, 2], []], [1, 2, 3]) := by
    decide +kernel
  obtain ⟨tr, s, hr, heq⟩ :=
    Run.exists_of_trace (S := executorOutputSystem) (fun _ _ _ h => h) rfl htrace
  obtain ⟨hfronts, hshown⟩ := Prod.mk.inj heq
  exact ⟨s, hr.reachable, hfronts, hshown, (executor_output hr.reachable).1 0⟩

/-- **When a read has failed, all is handed on**, be it a read of the worker or the
last one of `shutdown`. From then on, whatever happens, all that came to the terminal
of the child has been handed on, and nothing more comes there. -/
theorem executor_output_complete (hr : executorOutputSystem.Run tr s) {s₀ : ExecutorOutput}
    {l : ExecutorStep} (he : (s₀, .executor l) ∈ tr)
    (hl : l = .workerFails ∨ l = .callerFails ∧ s₀.executor.caller = .drain) {n : ℕ}
    (hn : s₀.reading = some n) :
    s.shown n = s₀.shown n
      ∧ s.shown n = ExecutorOutput.bytesOf n (s.delivered.map Prod.snd) := by
  suffices h : s.Drained n ∧ s.shown n = s₀.shown n by
    obtain ⟨hd, hsame⟩ := h
    refine ⟨hsame, ?_⟩
    rw [(executor_output hr.reachable).1 n, hd.terminal, hd.bytesOf_hand, List.append_nil,
      List.append_nil]
  induction hr with
  | start _ => cases he
  | @snoc tr s₁ s l' hr hstep ih =>
    rcases List.mem_cons.mp he with heq | he
    · cases heq
      exact ExecutorOutput.drained_of_fails hstep hl hn
    · obtain ⟨hd, hsame⟩ := ih he
      obtain ⟨hd', hsame'⟩ := hd.next hstep
      exact ⟨hd', hsame'.trans hsame⟩

/-- A child writes three bytes and exits; the first two go to the buffer and the
third to the callback, which is set in between, and the next read fails. -/
theorem executor_output_complete_three : ∃ s, executorOutputSystem.Reachable s
    ∧ s.delivered = [(.buffer, ⟨0, [1, 2]⟩), (.callback, ⟨0, [3]⟩)]
    ∧ s.shown 0 = ExecutorOutput.bytesOf 0 (s.delivered.map Prod.snd) := by
  have htrace : (trace ExecutorOutput.next [] ExecutorOutput.new
      [.setReceiveNotification true, .executor (.execute ['a']), .executor .caller,
        .executor .caller, .executor .worker, .shows 0 [1, 2, 3], .read 2, .deliver,
        .executor .worker, .read 1, .setReceiveCallback true, .deliver, .hangUp 0,
        .executor .worker, .executor .workerFails, .executor .worker]).map
        (fun e => (e.2.delivered, e.1[1]?.map fun y => (y.2, y.1.reading)))
      = some ([(.buffer, ⟨0, [1, 2]⟩), (.callback, ⟨0, [3]⟩)],
        some (.executor .workerFails, some 0)) := by decide +kernel
  obtain ⟨tr, s, hr, heq⟩ :=
    Run.exists_of_trace (S := executorOutputSystem) (fun _ _ _ h => h) rfl htrace
  obtain ⟨hdelivered, hfails⟩ := Prod.mk.inj heq
  obtain ⟨⟨s₀, l⟩, hget, heq⟩ := Option.map_eq_some_iff.mp hfails
  obtain ⟨rfl, hreading⟩ := Prod.mk.inj heq
  exact ⟨s, hr.reachable, hdelivered,
    (executor_output_complete hr (List.mem_of_getElem? hget) (.inl rfl) hreading).2⟩
