import CoinData.Channal
import Mathlib.Logic.Relation

/-!
# Whether a spin comes to an end

`spin_once` calls the timer, which may check the connections, and then
serves the entries of `connected_list_` and of `work_list_`. Each loop takes
its iterator on, or erases what it points to, with one exception: an entry
of `work_list_` which is alive and not online is looked at forever.

An entry of `work_list_` is a service, whose flag is the one of its name.
So one such service is enough which has outlived another one of its name,
and it makes no difference whether that happened before the call, or in it:
callbacks and other threads drop handles meanwhile, and other processes
services of a name. What is served makes no communicators, and other threads
do no more to the names than complete the `create` they are in.
-/

namespace ChannalPc

/-- For whom a check is in progress. -/
def checksFor : ChannalPc → Option Caller
  | .readTime caller | .scan _ _ caller | .connect _ _ _ caller | .record _ caller
  | .restore _ caller | .check _ caller | .destroyLocal _ _ caller | .destroyShared _ _ caller =>
    some caller
  | .resume _ | .connectedLoop _ | .workLoop _ => none

/-- The timer of `spin_once` has been called, and has not returned. -/
def Timing (pc : ChannalPc) : Prop :=
  ∃ now, pc = .resume (.timer now) ∨ pc.checksFor = some (.timer now)

/-- `spin_once` is in its loops, or has come to its end. -/
def Serving : ChannalPc → Prop
  | .connectedLoop _ | .workLoop _ | .resume .idle | .resume (.connected _) | .resume (.work _) =>
    True
  | _ => False

end ChannalPc

/-- What a spin serves. -/
inductive Visit where
  | connected (c : Communicator)
  | work (c : Communicator)
deriving DecidableEq, Repr

namespace ChannalState

/-- What is served in a state of `spin_once`. -/
def visit (s : ChannalState) : List Visit :=
  match s.pc with
  | .resume (.connected j) => s.connected[j]?.toList.map .connected
  | .resume (.work k) => s.work[k]?.toList.map .work
  | _ => []

/-! ## How much is left to do -/

/-- What is left after the check of the connections. -/
def served (s : ChannalState) : ℕ := 2 * s.connected.length + 2 * s.work.length + 5

/-- **How many steps are left** at most. An entry that waits takes seven, as
it may have to be checked and served once it is connected. -/
def rank (s : ChannalState) : ℕ :=
  match s.pc with
  | .resume .idle => 0
  | .resume (.timer _) => 2 * s.connected.length + 2 * s.work.length + 4
  | .resume (.connected j) => 2 * (s.connected.length - (j + 1)) + 2 * s.work.length + 4
  | .resume (.work k) => 2 * (s.work.length - (k + 1)) + 2
  | .readTime _ => 7 * s.wait.length + 3 * s.connected.length + s.served + 4
  | .scan _ i _ => 7 * (s.wait.length - i) + 3 * s.connected.length + s.served + 3
  | .connect _ i _ _ => 7 * (s.wait.length - (i + 1)) + 3 * s.connected.length + s.served + 4
  | .record _ _ => 3 * s.connected.length + s.served + 2
  | .restore _ _ => 3 * s.connected.length + s.served + 1
  | .check j _ => 3 * (s.connected.length - j) + s.served
  | .destroyLocal j _ _ => 3 * (s.connected.length - (j + 1)) + s.served + 2
  | .destroyShared j _ _ => 3 * (s.connected.length - (j + 1)) + s.served + 1
  | .connectedLoop j => 2 * (s.connected.length - j) + 2 * s.work.length + 3
  | .workLoop k => 2 * (s.work.length - k) + 1

variable {s s' t : ChannalState} {found : Finding}

/-- The rank of what is done next after a check. -/
theorem rank_resume_lt (s : ChannalState) (caller : Caller) :
    ({ s with pc := .resume caller } : ChannalState).rank < s.served := by
  unfold rank served
  cases caller <;> dsimp only <;> omega

theorem lt_length_of_getElem? {l : List Communicator} {i : ℕ} {c : Communicator}
    (h : l[i]? = some c) : i < l.length := (List.getElem?_eq_some_iff.mp h).1

/-- **Every step of the thread leaves less to do**, unless it has found an
entry of `work_list_` that is alive and not online. -/
theorem Goes.rank_lt (hg : Goes s found s')
    (honline : ∀ k c, s.pc = .workLoop k → s.work[k]? = some c → c.id ∉ s.dropped →
      found.online = true) : s'.rank < s.rank := by
  cases hg with
  | timer _ hpc | nextConnected _ hpc | nextWork _ hpc | connectedEnd _ hpc _ | workEnd _ hpc _ =>
    simp only [rank, hpc]
    omega
  | updated _ hpc _ | current _ hpc _ | scanEnd _ _ _ hpc _ | restore _ _ hpc
  | destroyLocal _ _ _ _ hpc _ =>
    simp only [rank, served, hpc]
    omega
  | connect _ _ _ _ _ hpc _ | destroyShared _ _ _ _ hpc _ =>
    simp only [rank, served, hpc, List.length_eraseIdx]
    split <;> omega
  | scanExpired _ _ _ _ hpc hi _ | checkExpired _ _ _ hpc hi _ =>
    have hlt := lt_length_of_getElem? hi
    simp only [rank, served, hpc, List.length_eraseIdx_of_lt hlt]
    omega
  | scanFound _ _ _ _ hpc hi _ _ _ =>
    have hlt := lt_length_of_getElem? hi
    simp only [rank, served, hpc, List.length_append, List.length_singleton]
    omega
  | scanMissing _ _ _ _ hpc hi _ _ _ | online _ _ _ hpc hi _ _ | offline _ _ _ hpc hi _ _ =>
    have hlt := lt_length_of_getElem? hi
    simp only [rank, served, hpc]
    omega
  | record time caller hpc =>
    cases time with
    | none =>
      refine (rank_resume_lt { s with lastUpdateTime := s.shared.updateTime } caller).trans ?_
      simp only [rank, served, hpc]
      omega
    | some u =>
      simp only [rank, served, hpc]
      omega
  | checkEnd _ caller hpc _ =>
    refine (rank_resume_lt s caller).trans_le ?_
    simp only [rank, hpc]
    omega
  | connectedExpired _ _ hpc hi _ | workExpired _ _ hpc hi _ =>
    have hlt := lt_length_of_getElem? hi
    simp only [rank, hpc, List.length_eraseIdx_of_lt hlt]
    omega
  | connectedServed _ _ hpc hi _ | workServed _ _ hpc hi _ _ =>
    have hlt := lt_length_of_getElem? hi
    simp only [rank, hpc]
    omega
  | workStays k spt hpc hk halive hoffline =>
    exact absurd (hoffline.symm.trans (honline k spt hpc hk halive)) Bool.false_ne_true

/-! ## What a step leaves as it is -/

/-- **A step of a check** goes on with it, or is its last one. It leaves the
services alone. -/
theorem Goes.checks (hg : Goes s found s') {caller : Caller}
    (hpc : s.pc.checksFor = some caller) :
    (s'.pc = .resume caller ∨ s'.pc.checksFor = some caller) ∧ s'.work = s.work := by
  cases hg with
  | timer now h => rw [h] at hpc; cases hpc
  | nextConnected j h => rw [h] at hpc; cases hpc
  | nextWork k h => rw [h] at hpc; cases hpc
  | updated caller' h _ => rw [h] at hpc; exact ⟨Or.inr hpc, rfl⟩
  | current caller' h _ => rw [h] at hpc; exact ⟨Or.inr hpc, rfl⟩
  | scanEnd time i caller' h _ => rw [h] at hpc; exact ⟨Or.inr hpc, rfl⟩
  | scanExpired time i caller' spt h _ _ => exact ⟨Or.inr hpc, rfl⟩
  | scanFound time i caller' spt h _ _ _ _ => rw [h] at hpc; exact ⟨Or.inr hpc, rfl⟩
  | scanMissing time i caller' spt h _ _ _ _ => rw [h] at hpc; exact ⟨Or.inr hpc, rfl⟩
  | connect time i spt caller' shared h _ => rw [h] at hpc; exact ⟨Or.inr hpc, rfl⟩
  | record time caller' h =>
    rw [h] at hpc
    cases hpc
    cases time with
    | none => exact ⟨Or.inl rfl, rfl⟩
    | some u => exact ⟨Or.inr rfl, rfl⟩
  | restore u caller' h => rw [h] at hpc; exact ⟨Or.inr hpc, rfl⟩
  | checkEnd j caller' h _ =>
    rw [h] at hpc
    cases hpc
    exact ⟨Or.inl rfl, rfl⟩
  | checkExpired j caller' spt h _ _ => exact ⟨Or.inr hpc, rfl⟩
  | online j caller' spt h _ _ _ => rw [h] at hpc; exact ⟨Or.inr hpc, rfl⟩
  | offline j caller' spt h _ _ _ => rw [h] at hpc; exact ⟨Or.inr hpc, rfl⟩
  | destroyLocal j spt caller' shared h _ => rw [h] at hpc; exact ⟨Or.inr hpc, rfl⟩
  | destroyShared j spt caller' shared h _ => rw [h] at hpc; exact ⟨Or.inr hpc, rfl⟩
  | connectedEnd j h _ => rw [h] at hpc; cases hpc
  | connectedExpired j spt h _ _ => rw [h] at hpc; cases hpc
  | connectedServed j spt h _ _ => rw [h] at hpc; cases hpc
  | workEnd k h _ => rw [h] at hpc; cases hpc
  | workExpired k spt h _ _ => rw [h] at hpc; cases hpc
  | workServed k spt h _ _ _ => rw [h] at hpc; cases hpc
  | workStays k spt h _ _ _ => rw [h] at hpc; cases hpc

/-- The services are still the ones there were: entries have been removed
at most. -/
theorem Goes.work_sublist (hg : Goes s found s') : s'.work.Sublist s.work := by
  cases hg with
  | workExpired k spt _ _ _ => exact List.eraseIdx_sublist _ _
  | _ => exact List.Sublist.refl _

/-- The services have numbers of their own. -/
structure Numbered (s : ChannalState) : Prop where
  nodup : (s.work.map Communicator.id).Nodup
  lt : ∀ c ∈ s.work, c.id < s.nextId

theorem Numbered.made (h : s.Numbered) (name : String) :
    ((s.work ++ [s.made name]).map Communicator.id).Nodup := by
  rw [List.map_append]
  refine h.nodup.append (List.nodup_singleton _) fun id hid hnew => ?_
  obtain ⟨c, hc, rfl⟩ := List.mem_map.mp hid
  have heq : c.id = s.nextId := List.mem_singleton.mp hnew
  exact absurd (h.lt c hc) (heq ▸ lt_irrefl _)

theorem Numbered.step (h : s.Numbered) {l : ChannalStep} (hs : s.next l = some s') :
    s'.Numbered := by
  cases l with
  | insert name | record now | destroyLocal name | destroyShared name referenced now =>
    obtain ⟨shared, _, rfl⟩ := Option.map_eq_some_iff.mp hs
    exact ⟨h.nodup, h.lt⟩
  | drop id | checkStatus | spinOnce now =>
    simp only [next] at hs
    split at hs
    · cases hs
      exact ⟨h.nodup, h.lt⟩
    · cases hs
  | register name =>
    obtain ⟨caller, _, rfl⟩ := Option.map_eq_some_iff.mp hs
    exact ⟨h.nodup, fun c hc => Nat.lt_succ_of_lt (h.lt c hc)⟩
  | service name =>
    obtain ⟨caller, _, rfl⟩ := Option.map_eq_some_iff.mp hs
    refine ⟨h.made name, fun c hc => ?_⟩
    rcases List.mem_append.mp hc with hold | hnew
    · exact Nat.lt_succ_of_lt (h.lt c hold)
    · rw [List.mem_singleton.mp hnew]
      exact Nat.lt_succ_self s.nextId
  | checkImmediately =>
    obtain ⟨caller, _, rfl⟩ := Option.map_eq_some_iff.mp hs
    exact ⟨h.nodup, h.lt⟩
  | channal found =>
    have hg := goes_of_channalStep hs
    refine ⟨(hg.work_sublist.map _).nodup h.nodup, fun c hc => ?_⟩
    rw [hg.keeps.nextId]
    exact h.lt c (hg.work_sublist.subset hc)

/-- The entries somebody has a handle to, if it is these that are dropped. -/
def live (dropped : List ℕ) (l : List Communicator) : List Communicator :=
  l.filter fun c => c.id ∉ dropped

/-- **What there is to be served**, if it is these handles that are dropped. -/
def toServe (dropped : List ℕ) (s : ChannalState) : List Visit :=
  (live dropped s.connected).map .connected ++ (live dropped s.work).map .work

/-- **What is still to be served** by the loops. -/
def rest (dropped : List ℕ) (s : ChannalState) : List Visit :=
  match s.pc with
  | .connectedLoop j =>
    (live dropped (s.connected.drop j)).map .connected ++ (live dropped s.work).map .work
  | .resume (.connected j) =>
    s.connected[j]?.toList.map .connected
      ++ ((live dropped (s.connected.drop (j + 1))).map .connected
        ++ (live dropped s.work).map .work)
  | .workLoop k => (live dropped (s.work.drop k)).map .work
  | .resume (.work k) =>
    s.work[k]?.toList.map .work ++ (live dropped (s.work.drop (k + 1))).map .work
  | _ => []

variable {dropped dropped' : List ℕ}

theorem rest_of_loop (hpc : s.pc = .connectedLoop 0) : rest dropped s = toServe dropped s := by
  unfold rest
  rw [hpc]
  rfl

theorem drop_of_getElem?_none {l : List Communicator} {i : ℕ} (h : l[i]? = none) :
    l.drop i = [] := List.drop_eq_nil_of_le (List.getElem?_eq_none_iff.mp h)

theorem drop_of_getElem? {l : List Communicator} {i : ℕ} {c : Communicator} (h : l[i]? = some c) :
    l.drop i = c :: l.drop (i + 1) := by
  obtain ⟨hi, rfl⟩ := List.getElem?_eq_some_iff.mp h
  exact List.drop_eq_getElem_cons hi

/-- An entry that is erased is passed. -/
theorem drop_eraseIdx_self (l : List Communicator) (i : ℕ) :
    (l.eraseIdx i).drop i = l.drop (i + 1) := by
  rcases lt_or_ge i l.length with hi | hi
  · rw [List.eraseIdx_eq_take_drop_succ, List.drop_append, List.drop_take_self, List.length_take,
      Nat.min_eq_left hi.le, Nat.sub_self, List.drop_zero, List.nil_append]
  · rw [List.eraseIdx_of_length_le hi, List.drop_eq_nil_of_le hi,
      List.drop_eq_nil_of_le (hi.trans (Nat.le_succ i))]

theorem live_cons_of_mem {c : Communicator} (h : c.id ∈ dropped) (l : List Communicator) :
    live dropped (c :: l) = live dropped l :=
  List.filter_cons_of_neg fun hc => of_decide_eq_true hc h

theorem live_cons_of_notMem {c : Communicator} (h : c.id ∉ dropped) (l : List Communicator) :
    live dropped (c :: l) = c :: live dropped l :=
  List.filter_cons_of_pos (decide_eq_true h)

theorem live_cons_sublist (dropped : List ℕ) (c : Communicator) (l : List Communicator) :
    (live dropped (c :: l)).Sublist (c :: live dropped l) := by
  by_cases h : c.id ∈ dropped
  · rw [live_cons_of_mem h]
    exact List.sublist_cons_self _ _
  · rw [live_cons_of_notMem h]

/-- An entry that has expired is not waited for. -/
theorem live_drop_expired {l : List Communicator} {i : ℕ} {c : Communicator} (h : l[i]? = some c)
    (hc : c.id ∈ dropped) : live dropped (l.drop i) = live dropped ((l.eraseIdx i).drop i) := by
  rw [drop_of_getElem? h, live_cons_of_mem hc, drop_eraseIdx_self]

/-- The more handles are dropped, the fewer entries are alive. -/
theorem live_antitone (h : dropped ⊆ dropped') (l : List Communicator) :
    (live dropped' l).Sublist (live dropped l) :=
  List.monotone_filter_right l fun _ hc =>
    decide_eq_true fun hmem => of_decide_eq_true hc (h hmem)

theorem rest_antitone (h : dropped ⊆ dropped') (s : ChannalState) :
    (rest dropped' s).Sublist (rest dropped s) := by
  have hmap : ∀ (f : Communicator → Visit) (l : List Communicator),
      ((live dropped' l).map f).Sublist ((live dropped l).map f) :=
    fun f l => (live_antitone h l).map f
  unfold rest
  cases s.pc with
  | connectedLoop j => exact (hmap _ _).append (hmap _ _)
  | workLoop k => exact hmap _ _
  | resume caller =>
    cases caller with
    | connected j => exact (List.Sublist.refl _).append ((hmap _ _).append (hmap _ _))
    | work k => exact (List.Sublist.refl _).append (hmap _ _)
    | _ => exact List.Sublist.refl _
  | _ => exact List.Sublist.refl _

theorem rest_congr (hpc : s'.pc = s.pc) (hconn : s'.connected = s.connected)
    (hwork : s'.work = s.work) (dropped : List ℕ) : rest dropped s' = rest dropped s := by
  unfold rest
  rw [hpc, hconn, hwork]

/-- **What a step of the loops does**: what it has served was the next to
be served, however many handles will be dropped, and a service is about to be
served if it was found online. -/
structure Serves (found : Finding) (s s' : ChannalState) : Prop where
  serving : s'.pc.Serving
  rest : rest s.dropped s = s.visit ++ rest s.dropped s'
  least : ∀ dropped, s.dropped ⊆ dropped →
    (ChannalState.rest dropped s).Sublist (s.visit ++ ChannalState.rest dropped s')
  online : ∀ c, Visit.work c ∈ s'.visit →
    found.online = true ∧ ∃ k, s.pc = .workLoop k ∧ s.work[k]? = some c

/-- A step that neither serves an entry nor is about to. -/
theorem Serves.of_eq (hserving : s'.pc.Serving) (hvisit : s'.visit = [])
    (hrest : ∀ dropped, s.dropped ⊆ dropped →
      ChannalState.rest dropped s = s.visit ++ ChannalState.rest dropped s') :
    Serves found s s' :=
  ⟨hserving, hrest _ (List.Subset.refl _), fun dropped h => by rw [hrest dropped h],
    by rw [hvisit]; nofun⟩

theorem connectedStep_serves {j : ℕ} (hpc : s.pc = .connectedLoop j)
    (hs : s.connectedStep j = some s') : Serves found s s' := by
  have hvisit : s.visit = [] := by unfold visit; rw [hpc]
  have hrest : ∀ dropped, rest dropped s = (live dropped (s.connected.drop j)).map .connected
      ++ (live dropped s.work).map .work := fun dropped => by unfold rest; rw [hpc]
  obtain ⟨hj, rfl⟩ | ⟨spt, hj, ⟨hdrop, rfl⟩ | ⟨halive, rfl⟩⟩ := connectedStep_cases hs
  · refine .of_eq trivial rfl fun dropped _ => ?_
    rw [hvisit, hrest, drop_of_getElem?_none hj]
    rfl
  · refine .of_eq (by rw [hpc]; trivial) (by unfold visit; rw [hpc]) fun dropped hsub => ?_
    rw [hvisit, hrest, live_drop_expired hj (hsub hdrop)]
    unfold rest
    rw [hpc]
    rfl
  · have hnext : ∀ dropped, rest dropped { s with pc := .resume (.connected j) }
        = .connected spt :: ((live dropped (s.connected.drop (j + 1))).map .connected
          ++ (live dropped s.work).map .work) := by
      intro dropped
      unfold rest
      dsimp only
      rw [hj]
      rfl
    refine ⟨trivial, ?_, fun dropped _ => ?_, fun c hc => ?_⟩
    · rw [hvisit, hrest, hnext, drop_of_getElem? hj, live_cons_of_notMem halive]
      rfl
    · rw [hvisit, hrest, hnext, drop_of_getElem? hj]
      exact ((live_cons_sublist dropped spt _).map _).append (List.Sublist.refl _)
    · obtain ⟨d, -, hd⟩ := List.mem_map.mp hc
      cases hd

theorem workStep_serves {k : ℕ} (hpc : s.pc = .workLoop k)
    (hs : s.workStep k found = some s') : Serves found s s' := by
  have hvisit : s.visit = [] := by unfold visit; rw [hpc]
  have hrest : ∀ dropped, rest dropped s = (live dropped (s.work.drop k)).map .work :=
    fun dropped => by unfold rest; rw [hpc]
  obtain ⟨hk, rfl⟩ | ⟨spt, hk, ⟨hdrop, rfl⟩ | ⟨halive, honline, rfl⟩ | ⟨halive, honline, rfl⟩⟩ :=
    workStep_cases hs
  · refine .of_eq trivial rfl fun dropped _ => ?_
    rw [hvisit, hrest, drop_of_getElem?_none hk]
    rfl
  · refine .of_eq (by rw [hpc]; trivial) (by unfold visit; rw [hpc]) fun dropped hsub => ?_
    rw [hvisit, hrest, live_drop_expired hk (hsub hdrop)]
    unfold rest
    rw [hpc]
    rfl
  · have hnext : ∀ dropped, rest dropped { s with pc := .resume (.work k) }
        = .work spt :: (live dropped (s.work.drop (k + 1))).map .work := by
      intro dropped
      unfold rest
      dsimp only
      rw [hk]
      rfl
    refine ⟨trivial, ?_, fun dropped _ => ?_, fun c hc => ⟨honline, k, hpc, ?_⟩⟩
    · rw [hvisit, hrest, hnext, drop_of_getElem? hk, live_cons_of_notMem halive]
      rfl
    · rw [hvisit, hrest, hnext, drop_of_getElem? hk]
      exact (live_cons_sublist dropped spt _).map _
    · change Visit.work c ∈ s.work[k]?.toList.map Visit.work at hc
      rw [hk] at hc
      obtain rfl : c = spt := by simpa using hc
      exact hk
  · exact .of_eq (by rw [hpc]; trivial) hvisit fun dropped _ => by rw [hvisit, List.nil_append]

/-- **A step of the loops** serves what is next. -/
theorem channalStep_serves (hpc : s.pc.Serving) (hs : s.channalStep found = some s') :
    Serves found s s' := by
  unfold channalStep at hs
  cases h : s.pc with
  | resume caller =>
    rw [h] at hs hpc
    cases caller with
    | idle => cases hs
    | timer now => cases hpc
    | connected j | work k =>
      cases hs
      refine .of_eq trivial rfl fun dropped _ => ?_
      unfold rest visit
      rw [h]
  | connectedLoop j =>
    rw [h] at hs
    exact connectedStep_serves h hs
  | workLoop k =>
    rw [h] at hs
    exact workStep_serves h hs
  | _ => rw [h] at hpc; cases hpc

/-- **A step of the timer** serves nobody, and the loops are next when it
returns. -/
theorem channalStep_timing (hpc : s.pc.Timing) (hs : s.channalStep found = some s') :
    (s'.pc.Timing ∨ s'.pc = .connectedLoop 0) ∧ s'.work = s.work ∧ s.visit = [] := by
  obtain ⟨now, h | h⟩ := hpc
  · unfold channalStep at hs
    rw [h] at hs
    cases hs
    refine ⟨Or.inr rfl, rfl, ?_⟩
    unfold visit
    rw [h]
  · obtain ⟨hnext, hwork⟩ := (goes_of_channalStep hs).checks h
    refine ⟨Or.inl ⟨now, hnext⟩, hwork, ?_⟩
    unfold visit
    cases hpc : s.pc with
    | resume caller => rw [hpc] at h; cases h
    | _ => rfl

theorem not_timing_of_serving {pc : ChannalPc} (h : pc.Serving) : ¬ pc.Timing := by
  rintro ⟨now, rfl | hcheck⟩
  · exact h
  · cases pc <;> first | exact h | cases hcheck

end ChannalState

/-! ## The services of a process -/

/-- **The channel and the flags of its services**: `isOnline` is the flag of
the item of a name, which the services of the name share. -/
structure ServiceFlags where
  chan : ChannalState
  isOnline : String → Bool

namespace ServiceFlags

/-- The service a handle of which is dropped. -/
def droppedService (s : ServiceFlags) (id : ℕ) : Option Communicator :=
  if id ∈ s.chan.dropped then none else s.chan.work.find? fun c => c.id = id

/-- The service that is asked whether it is online. -/
def askedService (s : ServiceFlags) : Option Communicator :=
  match s.chan.pc with
  | .workLoop k => s.chan.work[k]?
  | _ => none

/-- Take a step, if it is possible: the constructor of a service sets the
flag, its destructor clears it. -/
def next (s : ServiceFlags) : ChannalStep → Option ServiceFlags
  | .service name =>
    (s.chan.next (.service name)).map fun chan =>
      ⟨chan, Function.update s.isOnline name true⟩
  | .drop id =>
    (s.chan.next (.drop id)).map fun chan =>
      match s.droppedService id with
      | some c => ⟨chan, Function.update s.isOnline c.name false⟩
      | none => ⟨chan, s.isOnline⟩
  | .channal found =>
    if ∀ c ∈ s.askedService, found.online = s.isOnline c.name then
      (s.chan.next (.channal found)).map fun chan => ⟨chan, s.isOnline⟩
    else none
  | l => (s.chan.next l).map fun chan => ⟨chan, s.isOnline⟩

/-- A process without services. -/
def start : ServiceFlags := ⟨.start, fun _ => false⟩

end ServiceFlags

/-- A step of another thread that creates or destroys an object. -/
def ChannalStep.OnNames : ChannalStep → Prop
  | .insert _ | .record _ | .destroyLocal _ | .destroyShared .. => True
  | _ => False

/-- **What may happen during a call of `spin_once`**: these handles are
dropped, in callbacks or by other threads, and of these names services are
dropped by other processes. -/
structure Meanwhile where
  dropped : ℕ → Prop
  cleared : String → Prop

namespace ServiceFlags

variable {m : Meanwhile} {s s' t : ServiceFlags} {found : Finding}

/-- **What others do** during the call: threads create and destroy objects,
handles are dropped, and other processes set and clear flags. -/
inductive Other (m : Meanwhile) (s : ServiceFlags) : ServiceFlags → Prop
  | names {l : ChannalStep} {s' : ServiceFlags} : l.OnNames → s.next l = some s' → Other m s s'
  | drop {id : ℕ} {s' : ServiceFlags} : m.dropped id → s.next (.drop id) = some s' → Other m s s'
  | flag {name : String} {b : Bool} : (b = false → m.cleared name) →
      Other m s ⟨s.chan, Function.update s.isOnline name b⟩

/-- **A part of a spin**: how many steps the thread of the channel has taken,
and what it has served, in order. -/
inductive Spin (m : Meanwhile) : ServiceFlags → ℕ → List Visit → ServiceFlags → Prop
  | refl {s : ServiceFlags} : Spin m s 0 [] s
  | channal {s s' t : ServiceFlags} {n : ℕ} {vs : List Visit} {found : Finding} :
      s.next (.channal found) = some s' → Spin m s' n vs t →
      Spin m s (n + 1) (s.chan.visit ++ vs) t
  | other {s s' t : ServiceFlags} {n : ℕ} {vs : List Visit} :
      Other m s s' → Spin m s' n vs t → Spin m s n vs t

theorem next_channal (hs : s.next (.channal found) = some s') :
    (∀ c ∈ s.askedService, found.online = s.isOnline c.name)
      ∧ s.chan.channalStep found = some s'.chan ∧ s'.isOnline = s.isOnline := by
  simp only [next] at hs
  split at hs
  · next hfound =>
    obtain ⟨chan, hchan, rfl⟩ := Option.map_eq_some_iff.mp hs
    exact ⟨hfound, hchan, rfl⟩
  · cases hs

/-- **What others do to names** leaves the rest as it is. -/
theorem next_names {l : ChannalStep} (hl : l.OnNames) (hs : s.next l = some s') :
    ∃ shared, s' = ⟨{ s.chan with shared := shared }, s.isOnline⟩ := by
  cases l with
  | insert name | record now | destroyLocal name | destroyShared name referenced now =>
    obtain ⟨chan, hchan, rfl⟩ := Option.map_eq_some_iff.mp hs
    obtain ⟨shared, _, rfl⟩ := Option.map_eq_some_iff.mp hchan
    exact ⟨shared, rfl⟩
  | _ => cases hl

/-- **A handle is dropped**: if it is one to a service, that clears its flag. -/
theorem next_drop {id : ℕ} (hs : s.next (.drop id) = some s') :
    s'.chan = { s.chan with dropped := id :: s.chan.dropped }
      ∧ s'.isOnline = (s.droppedService id).elim s.isOnline
        fun c => Function.update s.isOnline c.name false := by
  obtain ⟨chan, hchan, rfl⟩ := Option.map_eq_some_iff.mp hs
  simp only [ChannalState.next] at hchan
  split at hchan
  · cases hchan
    cases s.droppedService id <;> exact ⟨rfl, rfl⟩
  · cases hchan

/-- **What others leave as it is**: where the thread is, and the lists. -/
structure Keeps (s s' : ServiceFlags) : Prop where
  pc : s'.chan.pc = s.chan.pc
  connected : s'.chan.connected = s.chan.connected
  work : s'.chan.work = s.chan.work
  rank : s'.chan.rank = s.chan.rank
  dropped : s.chan.dropped ⊆ s'.chan.dropped

theorem Other.keeps (h : Other m s s') : Keeps s s' := by
  cases h with
  | names hl hs =>
    obtain ⟨shared, rfl⟩ := next_names hl hs
    exact ⟨rfl, rfl, rfl, rfl, List.Subset.refl _⟩
  | @drop id _ _ hs =>
    have hchan := (next_drop hs).1
    refine ⟨?_, ?_, ?_, ?_, ?_⟩ <;> rw [hchan]
    · rfl
    · exact List.subset_cons_self id _
  | flag _ => exact ⟨rfl, rfl, rfl, rfl, List.Subset.refl _⟩

theorem Spin.dropped_subset {n : ℕ} {vs : List Visit} (h : Spin m s n vs t) :
    s.chan.dropped ⊆ t.chan.dropped := by
  induction h with
  | refl => exact List.Subset.refl _
  | channal hs _ ih =>
    obtain ⟨_, hchan, _⟩ := next_channal hs
    rwa [← (ChannalState.goes_of_channalStep hchan).keeps.dropped]
  | other hother _ ih => exact List.Subset.trans hother.keeps.dropped ih

/-- **Once the loops have begun**, a spin serves no more than what is to be
served then, and no less than what is still alive in the end. -/
theorem Spin.serves {n : ℕ} {vs : List Visit} (h : Spin m s n vs t) (hpc : s.chan.pc.Serving)
    (ht : t.chan.pc = .resume .idle) :
    vs.Sublist (ChannalState.rest s.chan.dropped s.chan)
      ∧ (ChannalState.rest t.chan.dropped s.chan).Sublist vs := by
  induction h with
  | @refl s =>
    have hrest : ∀ dropped, ChannalState.rest dropped s.chan = [] := by
      intro dropped
      unfold ChannalState.rest
      rw [ht]
    rw [hrest]
    exact ⟨List.Sublist.refl _, List.Sublist.refl _⟩
  | @channal s s' t n vs found hs hspin ih =>
    obtain ⟨_, hchan, _⟩ := next_channal hs
    have hserves := ChannalState.channalStep_serves hpc hchan
    have hdropped := (ChannalState.goes_of_channalStep hchan).keeps.dropped
    obtain ⟨hmost, hleast⟩ := ih hserves.serving ht
    rw [hdropped] at hmost
    refine ⟨?_, ?_⟩
    · rw [hserves.rest]
      exact (List.Sublist.refl _).append hmost
    · refine (hserves.least _ ?_).trans ((List.Sublist.refl _).append hleast)
      rw [← hdropped]
      exact hspin.dropped_subset
  | other hother _ ih =>
    have hkeeps := hother.keeps
    obtain ⟨hmost, hleast⟩ := ih (by rwa [hkeeps.pc]) ht
    have hrest := ChannalState.rest_congr hkeeps.pc hkeeps.connected hkeeps.work
    rw [hrest] at hmost hleast
    exact ⟨hmost.trans (ChannalState.rest_antitone hkeeps.dropped _), hleast⟩

/-- Where `spin_once` begins: with the timer, or with the loops. -/
def Begins (s : ServiceFlags) : Prop := s.chan.pc.Timing ∨ s.chan.pc = .connectedLoop 0

/-- **What a spin serves**, from where it begins. -/
theorem Spin.visits {n : ℕ} {vs : List Visit} (h : Spin m s n vs t) (hbegins : s.Begins)
    (ht : t.chan.pc = .resume .idle) :
    ∃ k u, Spin m s k [] u ∧ u.chan.pc = .connectedLoop 0 ∧ u.chan.work = s.chan.work
      ∧ vs.Sublist (ChannalState.toServe u.chan.dropped u.chan)
      ∧ (ChannalState.toServe t.chan.dropped u.chan).Sublist vs := by
  have hloops : ∀ {s : ServiceFlags} {n : ℕ} {vs : List Visit}, Spin m s n vs t →
      s.chan.pc = .connectedLoop 0 →
      ∃ k u, Spin m s k [] u ∧ u.chan.pc = .connectedLoop 0 ∧ u.chan.work = s.chan.work
        ∧ vs.Sublist (ChannalState.toServe u.chan.dropped u.chan)
        ∧ (ChannalState.toServe t.chan.dropped u.chan).Sublist vs := by
    intro s n vs h hloop
    refine ⟨0, s, .refl, hloop, rfl, ?_⟩
    rw [← ChannalState.rest_of_loop hloop, ← ChannalState.rest_of_loop hloop]
    exact h.serves (by rw [hloop]; trivial) ht
  induction h with
  | @refl s =>
    have hserving : s.chan.pc.Serving := by rw [ht]; trivial
    rcases hbegins with htiming | hloop
    · exact absurd htiming (ChannalState.not_timing_of_serving hserving)
    · exact hloops .refl hloop
  | @channal s s' t n vs found hs hspin ih =>
    rcases hbegins with htiming | hloop
    · obtain ⟨_, hchan, _⟩ := next_channal hs
      obtain ⟨hbegins', hwork, hvisit⟩ := ChannalState.channalStep_timing htiming hchan
      obtain ⟨k, u, hu, hpcu, hworku, hvs⟩ := ih hbegins' ht hloops
      have hfirst : Spin m s (k + 1) (s.chan.visit ++ []) u := .channal hs hu
      rw [hvisit, List.nil_append] at hfirst
      rw [hvisit, List.nil_append]
      exact ⟨k + 1, u, hfirst, hpcu, hworku.trans hwork, hvs⟩
    · exact hloops (.channal hs hspin) hloop
  | @other s s' t n vs hother hspin ih =>
    have hkeeps := hother.keeps
    have hbegins' : s'.Begins := by
      unfold Begins
      rwa [hkeeps.pc]
    obtain ⟨k, u, hu, hpcu, hworku, hvs⟩ := ih hbegins' ht hloops
    exact ⟨k, u, .other hother hu, hpcu, hworku.trans hkeeps.work, hvs⟩

/-! ## A spin with a service which is not online -/

/-- **A service which is alive and not online is still to come.** -/
def Stuck (s : ServiceFlags) : Prop :=
  ∃ c, s.isOnline c.name = false ∧ c.id ∉ s.chan.dropped
    ∧ (s.chan.pc.Timing ∧ c ∈ s.chan.work
      ∨ s.chan.pc.Serving ∧ Visit.work c ∈ ChannalState.rest s.chan.dropped s.chan
        ∧ Visit.work c ∉ s.chan.visit)

/-- Where a spin begins, all the services are still to come. -/
theorem Begins.stuck (h : s.Begins) {c : Communicator} (hc : c ∈ s.chan.work)
    (halive : c.id ∉ s.chan.dropped) (hoffline : s.isOnline c.name = false) : s.Stuck := by
  refine ⟨c, hoffline, halive, ?_⟩
  rcases h with htiming | hloop
  · exact Or.inl ⟨htiming, hc⟩
  · refine Or.inr ⟨by rw [hloop]; trivial, ?_, ?_⟩
    · rw [ChannalState.rest_of_loop hloop]
      exact List.mem_append_right _
        (List.mem_map_of_mem (List.mem_filter.mpr ⟨hc, decide_eq_true halive⟩))
    · unfold ChannalState.visit
      rw [hloop]
      nofun

/-- **It is never passed**, as it is never served. -/
theorem Stuck.channal (h : s.Stuck) (hs : s.next (.channal found) = some s') : s'.Stuck := by
  obtain ⟨hfound, hchan, hflags⟩ := next_channal hs
  have hdropped := (ChannalState.goes_of_channalStep hchan).keeps.dropped
  obtain ⟨c, hoffline, halive, hcase⟩ := h
  rw [← hflags] at hoffline
  rw [← hdropped] at halive
  rcases hcase with ⟨htiming, hmem⟩ | ⟨hserving, hrest, hvisit⟩
  · obtain ⟨hbegins, hwork, -⟩ := ChannalState.channalStep_timing htiming hchan
    rw [← hwork] at hmem
    exact Begins.stuck hbegins hmem halive hoffline
  · have hserves := ChannalState.channalStep_serves hserving hchan
    refine ⟨c, hoffline, halive, Or.inr ⟨hserves.serving, ?_, fun hnext => ?_⟩⟩
    · rw [hserves.rest] at hrest
      rw [hdropped]
      exact (List.mem_append.mp hrest).resolve_left hvisit
    · obtain ⟨honline, k, hpc, hk⟩ := hserves.online c hnext
      have hasked : c ∈ s.askedService := by
        unfold askedService
        rw [hpc]
        exact hk
      rw [hfound c hasked, ← hflags, hoffline] at honline
      cases honline

end ServiceFlags

open TransitionSystem
