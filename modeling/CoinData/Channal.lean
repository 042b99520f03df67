import CoinData.Runs
import CoinData.SharedNames
import Mathlib.Data.List.Perm.Basic

/-!
# The channel of a process

Readers, subscribers and clients are put in `wait_connect_list_` when they
are made, move to `connected_list_` once there is an object of their name,
and back if it turns out not to be online. Services are in `work_list_`.
The lists hold weak pointers: an entry is removed when the loop over its
list finds that nobody has a handle to it any more.

`check_connect_immediately_` goes over those that wait; it is called by
whatever makes a communicator, and by `check_connect_status_` if objects
were created or removed since it did so last. `check_connect_status_` also
goes over those that are connected; the timer of `spin_once` calls it.
`spin_once` then serves who is connected, and the services, and what it
calls may make communicators itself.

Other threads create and destroy objects at any time, and handles to
communicators are dropped at any time. The lists are only used by the
thread of the channel.
-/

/-! ## The channel -/

/-- `Communicator`: a reader, a subscriber, a client or a service. -/
structure Communicator where
  id : ℕ
  name : String
deriving DecidableEq, Repr

/-- What goes on when a check is over. -/
inductive Caller where
  /-- Nothing: no call is in progress. -/
  | idle
  /-- `LoopTimer::exec` in `spin_once`, called at the time `now`. -/
  | timer (now : UInt64)
  /-- The callback of entry `j` of `connected_list_`, in `spin_once`. -/
  | connected (j : ℕ)
  /-- The callback of entry `k` of `work_list_`, in `spin_once`. -/
  | work (k : ℕ)
deriving DecidableEq, Repr

/-- Where the thread of the channel is. The `time` of the first loop is the
update time that `check_connect_status_` has read, if that has called it;
`spt` is the pointer locked. -/
inductive ChannalPc where
  | resume (caller : Caller)
  /-- `check_connect_status_` reads the update time. -/
  | readTime (caller : Caller)
  /-- The loop of `check_connect_immediately_`, at entry `i`. -/
  | scan (time : Option ℕ) (i : ℕ) (caller : Caller)
  /-- Entry `i` has been added to `connected_list_`, next is `connecte_to_`. -/
  | connect (time : Option ℕ) (i : ℕ) (spt : Communicator) (caller : Caller)
  /-- `check_connect_immediately_` sets `last_update_time_`. -/
  | record (time : Option ℕ) (caller : Caller)
  /-- `check_connect_status_` sets `last_update_time_`. -/
  | restore (time : ℕ) (caller : Caller)
  /-- The loop of `check_connect_status_`, at entry `j`. -/
  | check (j : ℕ) (caller : Caller)
  /-- Entry `j` has been added to `wait_connect_list_`, next is the first
  section of `destroy`, in `disconnect_`. -/
  | destroyLocal (j : ℕ) (spt : Communicator) (caller : Caller)
  | destroyShared (j : ℕ) (spt : Communicator) (caller : Caller)
  /-- The loops of `spin_once`. -/
  | connectedLoop (j : ℕ)
  | workLoop (k : ℕ)
deriving DecidableEq, Repr

/-- **The channel**: `registered` are the readers, subscribers and clients
made so far, `dropped` the identities of the communicators nobody has a
handle to. -/
structure ChannalState where
  shared : SharedNames
  wait : List Communicator
  connected : List Communicator
  work : List Communicator
  lastUpdateTime : ℕ
  lastInvoke : UInt64
  pc : ChannalPc
  registered : List Communicator
  nextId : ℕ
  dropped : List ℕ

/-- What the thread of the channel may find: whether who it asks is online,
whether the object it destroys is referenced, and what time it is. -/
structure Finding where
  online : Bool
  referenced : Bool
  now : ℕ
deriving DecidableEq, Repr

/-- Who takes a step. -/
inductive ChannalStep where
  /-- Another thread creates an object: it inserts the name. -/
  | insert (name : String)
  /-- It records the time. -/
  | record (now : ℕ)
  /-- Another thread destroys an object: the two sections. -/
  | destroyLocal (name : String)
  | destroyShared (name : String) (referenced : Bool) (now : ℕ)
  /-- The last handle to a communicator is dropped. -/
  | drop (id : ℕ)
  /-- `reader`, `subscriber` or `client` is called. -/
  | register (name : String)
  /-- `service` is called. -/
  | service (name : String)
  /-- `writer` or `publisher` is called. -/
  | checkImmediately
  /-- `check_connect_status_` is called. -/
  | checkStatus
  /-- `spin_once` is called at the time `now`. -/
  | spinOnce (now : UInt64)
  /-- The thread of the channel goes on. -/
  | channal (found : Finding)
deriving DecidableEq, Repr

namespace ChannalPc

/-- Who may call a factory: nobody, or a callback. -/
def user : ChannalPc → Option Caller
  | .resume (.timer _) => none
  | .resume caller => some caller
  | _ => none

end ChannalPc

namespace ChannalState

/-- The next step of the loop of `check_connect_immediately_`. -/
def scanStep (s : ChannalState) (time : Option ℕ) (i : ℕ) (caller : Caller) :
    Option ChannalState :=
  match s.wait[i]? with
  | none => some { s with pc := .record time caller }
  | some spt =>
    if spt.id ∈ s.dropped then some { s with wait := s.wait.eraseIdx i }
    else if s.shared.creating ≠ none then none
    else if s.shared.shmObjMap spt.name = true then
      some { s with connected := s.connected ++ [spt], pc := .connect time i spt caller }
    else some { s with pc := .scan time (i + 1) caller }

/-- The next step of the loop of `check_connect_status_`. -/
def checkStep (s : ChannalState) (j : ℕ) (caller : Caller) (found : Finding) :
    Option ChannalState :=
  match s.connected[j]? with
  | none => some { s with pc := .resume caller }
  | some spt =>
    if spt.id ∈ s.dropped then some { s with connected := s.connected.eraseIdx j }
    else if found.online = true then some { s with pc := .check (j + 1) caller }
    else some { s with wait := s.wait ++ [spt], pc := .destroyLocal j spt caller }

/-- The next step of the loops of `spin_once`. -/
def connectedStep (s : ChannalState) (j : ℕ) : Option ChannalState :=
  match s.connected[j]? with
  | none => some { s with pc := .workLoop 0 }
  | some spt =>
    if spt.id ∈ s.dropped then some { s with connected := s.connected.eraseIdx j }
    else some { s with pc := .resume (.connected j) }

def workStep (s : ChannalState) (k : ℕ) (found : Finding) : Option ChannalState :=
  match s.work[k]? with
  | none => some { s with pc := .resume .idle }
  | some spt =>
    if spt.id ∈ s.dropped then some { s with work := s.work.eraseIdx k }
    else if found.online = true then some { s with pc := .resume (.work k) }
    -- the iterator stays where it is
    else some s

/-- The next step of the thread of the channel. -/
def channalStep (s : ChannalState) (found : Finding) : Option ChannalState :=
  match s.pc with
  | .resume .idle => none
  | .resume (.timer now) => some { s with lastInvoke := now, pc := .connectedLoop 0 }
  | .resume (.connected j) => some { s with pc := .connectedLoop (j + 1) }
  | .resume (.work k) => some { s with pc := .workLoop (k + 1) }
  | .readTime caller =>
    some { s with
      pc := if s.lastUpdateTime ≠ s.shared.updateTime then
          .scan (some s.shared.updateTime) 0 caller
        else .check 0 caller }
  | .scan time i caller => s.scanStep time i caller
  | .connect time i spt caller =>
    (s.shared.create spt.name found.now).map fun shared =>
      { s with shared := shared, wait := s.wait.eraseIdx i, pc := .scan time i caller }
  | .record time caller =>
    some { s with
      lastUpdateTime := s.shared.updateTime
      pc := match time with
        | none => .resume caller
        | some u => .restore u caller }
  | .restore u caller => some { s with lastUpdateTime := u, pc := .check 0 caller }
  | .check j caller => s.checkStep j caller found
  | .destroyLocal j spt caller =>
    (s.shared.destroyLocal spt.name).map fun shared =>
      { s with shared := shared, pc := .destroyShared j spt caller }
  | .destroyShared j spt caller =>
    (s.shared.destroyShared spt.name found.referenced found.now).map fun shared =>
      { s with shared := shared, connected := s.connected.eraseIdx j, pc := .check j caller }
  | .connectedLoop j => s.connectedStep j
  | .workLoop k => s.workStep k found

/-- A new communicator of a given name. -/
def made (s : ChannalState) (name : String) : Communicator := ⟨s.nextId, name⟩

/-- Take a step, if it is possible. -/
def next (s : ChannalState) : ChannalStep → Option ChannalState
  | .insert name => (s.shared.insert name).map fun shared => { s with shared := shared }
  | .record now => (s.shared.record now).map fun shared => { s with shared := shared }
  | .destroyLocal name => (s.shared.destroyLocal name).map fun shared => { s with shared := shared }
  | .destroyShared name referenced now =>
    (s.shared.destroyShared name referenced now).map fun shared => { s with shared := shared }
  | .drop id => if id < s.nextId then some { s with dropped := id :: s.dropped } else none
  | .register name =>
    s.pc.user.map fun caller =>
      { s with
        wait := s.wait ++ [s.made name]
        registered := s.made name :: s.registered
        nextId := s.nextId + 1
        pc := .scan none 0 caller }
  | .service name =>
    s.pc.user.map fun caller =>
      { s with work := s.work ++ [s.made name], nextId := s.nextId + 1, pc := .scan none 0 caller }
  | .checkImmediately => s.pc.user.map fun caller => { s with pc := .scan none 0 caller }
  | .checkStatus => if s.pc = .resume .idle then some { s with pc := .readTime .idle } else none
  | .spinOnce now =>
    if s.pc = .resume .idle then
      -- the subtraction wraps around
      some { s with
        pc := if 100 < now - s.lastInvoke then .readTime (.timer now) else .connectedLoop 0 }
    else none
  | .channal found => s.channalStep found

/-- A channel without communicators. -/
def start : ChannalState where
  shared := .empty
  wait := []
  connected := []
  work := []
  lastUpdateTime := 0
  lastInvoke := 0
  pc := .resume .idle
  registered := []
  nextId := 0
  dropped := []

end ChannalState

/-- **The system of the channel of a process**, and of the threads that
create and destroy objects. -/
def channalSystem : TransitionSystem ChannalState ChannalStep where
  init s := s = ChannalState.start
  step s l s' := s.next l = some s'

/-! ## What a step does -/

namespace ChannalState

/-- **The steps of the thread of the channel**, one by one. -/
inductive Goes (s : ChannalState) (found : Finding) : ChannalState → Prop
  | timer (now : UInt64) : s.pc = .resume (.timer now) →
      Goes s found { s with lastInvoke := now, pc := .connectedLoop 0 }
  | nextConnected (j : ℕ) : s.pc = .resume (.connected j) →
      Goes s found { s with pc := .connectedLoop (j + 1) }
  | nextWork (k : ℕ) : s.pc = .resume (.work k) → Goes s found { s with pc := .workLoop (k + 1) }
  | updated (caller : Caller) : s.pc = .readTime caller →
      s.lastUpdateTime ≠ s.shared.updateTime →
      Goes s found { s with pc := .scan (some s.shared.updateTime) 0 caller }
  | current (caller : Caller) : s.pc = .readTime caller →
      s.lastUpdateTime = s.shared.updateTime → Goes s found { s with pc := .check 0 caller }
  | scanEnd (time : Option ℕ) (i : ℕ) (caller : Caller) : s.pc = .scan time i caller →
      s.wait[i]? = none → Goes s found { s with pc := .record time caller }
  | scanExpired (time : Option ℕ) (i : ℕ) (caller : Caller) (spt : Communicator) :
      s.pc = .scan time i caller → s.wait[i]? = some spt → spt.id ∈ s.dropped →
      Goes s found { s with wait := s.wait.eraseIdx i }
  | scanFound (time : Option ℕ) (i : ℕ) (caller : Caller) (spt : Communicator) :
      s.pc = .scan time i caller → s.wait[i]? = some spt → spt.id ∉ s.dropped →
      s.shared.creating = none → s.shared.shmObjMap spt.name = true →
      Goes s found { s with connected := s.connected ++ [spt], pc := .connect time i spt caller }
  | scanMissing (time : Option ℕ) (i : ℕ) (caller : Caller) (spt : Communicator) :
      s.pc = .scan time i caller → s.wait[i]? = some spt → spt.id ∉ s.dropped →
      s.shared.creating = none → s.shared.shmObjMap spt.name = false →
      Goes s found { s with pc := .scan time (i + 1) caller }
  | connect (time : Option ℕ) (i : ℕ) (spt : Communicator) (caller : Caller)
      (shared : SharedNames) : s.pc = .connect time i spt caller →
      s.shared.create spt.name found.now = some shared →
      Goes s found { s with
        shared := shared, wait := s.wait.eraseIdx i, pc := .scan time i caller }
  | record (time : Option ℕ) (caller : Caller) : s.pc = .record time caller →
      Goes s found { s with
        lastUpdateTime := s.shared.updateTime
        pc := match time with
          | none => .resume caller
          | some u => .restore u caller }
  | restore (u : ℕ) (caller : Caller) : s.pc = .restore u caller →
      Goes s found { s with lastUpdateTime := u, pc := .check 0 caller }
  | checkEnd (j : ℕ) (caller : Caller) : s.pc = .check j caller → s.connected[j]? = none →
      Goes s found { s with pc := .resume caller }
  | checkExpired (j : ℕ) (caller : Caller) (spt : Communicator) : s.pc = .check j caller →
      s.connected[j]? = some spt → spt.id ∈ s.dropped →
      Goes s found { s with connected := s.connected.eraseIdx j }
  | online (j : ℕ) (caller : Caller) (spt : Communicator) : s.pc = .check j caller →
      s.connected[j]? = some spt → spt.id ∉ s.dropped → found.online = true →
      Goes s found { s with pc := .check (j + 1) caller }
  | offline (j : ℕ) (caller : Caller) (spt : Communicator) : s.pc = .check j caller →
      s.connected[j]? = some spt → spt.id ∉ s.dropped → found.online = false →
      Goes s found { s with wait := s.wait ++ [spt], pc := .destroyLocal j spt caller }
  | destroyLocal (j : ℕ) (spt : Communicator) (caller : Caller) (shared : SharedNames) :
      s.pc = .destroyLocal j spt caller → s.shared.destroyLocal spt.name = some shared →
      Goes s found { s with shared := shared, pc := .destroyShared j spt caller }
  | destroyShared (j : ℕ) (spt : Communicator) (caller : Caller) (shared : SharedNames) :
      s.pc = .destroyShared j spt caller →
      s.shared.destroyShared spt.name found.referenced found.now = some shared →
      Goes s found { s with
        shared := shared, connected := s.connected.eraseIdx j, pc := .check j caller }
  | connectedEnd (j : ℕ) : s.pc = .connectedLoop j → s.connected[j]? = none →
      Goes s found { s with pc := .workLoop 0 }
  | connectedExpired (j : ℕ) (spt : Communicator) : s.pc = .connectedLoop j →
      s.connected[j]? = some spt → spt.id ∈ s.dropped →
      Goes s found { s with connected := s.connected.eraseIdx j }
  | connectedServed (j : ℕ) (spt : Communicator) : s.pc = .connectedLoop j →
      s.connected[j]? = some spt → spt.id ∉ s.dropped →
      Goes s found { s with pc := .resume (.connected j) }
  | workEnd (k : ℕ) : s.pc = .workLoop k → s.work[k]? = none →
      Goes s found { s with pc := .resume .idle }
  | workExpired (k : ℕ) (spt : Communicator) : s.pc = .workLoop k → s.work[k]? = some spt →
      spt.id ∈ s.dropped → Goes s found { s with work := s.work.eraseIdx k }
  | workServed (k : ℕ) (spt : Communicator) : s.pc = .workLoop k → s.work[k]? = some spt →
      spt.id ∉ s.dropped → found.online = true → Goes s found { s with pc := .resume (.work k) }
  | workStays (k : ℕ) (spt : Communicator) : s.pc = .workLoop k → s.work[k]? = some spt →
      spt.id ∉ s.dropped → found.online = false → Goes s found s

variable {s s' : ChannalState} {found : Finding}

theorem goes_of_scanStep {time : Option ℕ} {i : ℕ} {caller : Caller}
    (hpc : s.pc = .scan time i caller) (hs : s.scanStep time i caller = some s') :
    Goes s found s' := by
  unfold scanStep at hs
  cases hi : s.wait[i]? with
  | none =>
    rw [hi] at hs
    cases hs
    exact .scanEnd time i caller hpc hi
  | some spt =>
    rw [hi] at hs
    dsimp only at hs
    split at hs
    · next hdrop =>
      cases hs
      exact .scanExpired time i caller spt hpc hi hdrop
    · next halive =>
      split at hs
      · cases hs
      · next hidle =>
        have hidle := not_not.mp hidle
        split at hs
        · next hname =>
          cases hs
          exact .scanFound time i caller spt hpc hi halive hidle hname
        · next hname =>
          cases hs
          exact .scanMissing time i caller spt hpc hi halive hidle (Bool.eq_false_iff.mpr hname)

theorem goes_of_checkStep {j : ℕ} {caller : Caller} (hpc : s.pc = .check j caller)
    (hs : s.checkStep j caller found = some s') : Goes s found s' := by
  unfold checkStep at hs
  cases hj : s.connected[j]? with
  | none =>
    rw [hj] at hs
    cases hs
    exact .checkEnd j caller hpc hj
  | some spt =>
    rw [hj] at hs
    dsimp only at hs
    split at hs
    · next hdrop =>
      cases hs
      exact .checkExpired j caller spt hpc hj hdrop
    · next halive =>
      split at hs
      · next honline =>
        cases hs
        exact .online j caller spt hpc hj halive honline
      · next hoffline =>
        cases hs
        exact .offline j caller spt hpc hj halive (Bool.eq_false_iff.mpr hoffline)

theorem connectedStep_cases {j : ℕ} (hs : s.connectedStep j = some s') :
    (s.connected[j]? = none ∧ s' = { s with pc := .workLoop 0 })
    ∨ ∃ spt, s.connected[j]? = some spt
      ∧ (spt.id ∈ s.dropped ∧ s' = { s with connected := s.connected.eraseIdx j }
        ∨ spt.id ∉ s.dropped ∧ s' = { s with pc := .resume (.connected j) }) := by
  unfold connectedStep at hs
  cases hj : s.connected[j]? with
  | none =>
    rw [hj] at hs
    cases hs
    exact Or.inl ⟨rfl, rfl⟩
  | some spt =>
    rw [hj] at hs
    dsimp only at hs
    split at hs
    · next hdrop =>
      cases hs
      exact Or.inr ⟨spt, rfl, Or.inl ⟨hdrop, rfl⟩⟩
    · next halive =>
      cases hs
      exact Or.inr ⟨spt, rfl, Or.inr ⟨halive, rfl⟩⟩

theorem workStep_cases {k : ℕ} (hs : s.workStep k found = some s') :
    (s.work[k]? = none ∧ s' = { s with pc := .resume .idle })
    ∨ ∃ spt, s.work[k]? = some spt
      ∧ (spt.id ∈ s.dropped ∧ s' = { s with work := s.work.eraseIdx k }
        ∨ spt.id ∉ s.dropped ∧ found.online = true ∧ s' = { s with pc := .resume (.work k) }
        ∨ spt.id ∉ s.dropped ∧ found.online = false ∧ s' = s) := by
  unfold workStep at hs
  cases hk : s.work[k]? with
  | none =>
    rw [hk] at hs
    cases hs
    exact Or.inl ⟨rfl, rfl⟩
  | some spt =>
    rw [hk] at hs
    dsimp only at hs
    split at hs
    · next hdrop =>
      cases hs
      exact Or.inr ⟨spt, rfl, Or.inl ⟨hdrop, rfl⟩⟩
    · next halive =>
      split at hs
      · next honline =>
        cases hs
        exact Or.inr ⟨spt, rfl, Or.inr (Or.inl ⟨halive, honline, rfl⟩)⟩
      · next hoffline =>
        cases hs
        exact Or.inr ⟨spt, rfl, Or.inr (Or.inr ⟨halive, eq_false_of_ne_true hoffline, rfl⟩)⟩

theorem goes_of_connectedStep {j : ℕ} (hpc : s.pc = .connectedLoop j)
    (hs : s.connectedStep j = some s') : Goes s found s' := by
  obtain ⟨hj, rfl⟩ | ⟨spt, hj, ⟨hdrop, rfl⟩ | ⟨halive, rfl⟩⟩ := connectedStep_cases hs
  · exact .connectedEnd j hpc hj
  · exact .connectedExpired j spt hpc hj hdrop
  · exact .connectedServed j spt hpc hj halive

theorem goes_of_workStep {k : ℕ} (hpc : s.pc = .workLoop k)
    (hs : s.workStep k found = some s') : Goes s found s' := by
  obtain ⟨hk, rfl⟩ | ⟨spt, hk, ⟨hdrop, rfl⟩ | ⟨halive, honline, rfl⟩ | ⟨halive, hoffline, rfl⟩⟩ :=
    workStep_cases hs
  · exact .workEnd k hpc hk
  · exact .workExpired k spt hpc hk hdrop
  · exact .workServed k spt hpc hk halive honline
  · exact .workStays k spt hpc hk halive hoffline

/-- **Every step of the thread of the channel** is one of these. -/
theorem goes_of_channalStep (hs : s.channalStep found = some s') : Goes s found s' := by
  unfold channalStep at hs
  cases hpc : s.pc with
  | resume caller =>
    rw [hpc] at hs
    cases caller with
    | idle => cases hs
    | timer now => cases hs; exact .timer now hpc
    | connected j => cases hs; exact .nextConnected j hpc
    | work k => cases hs; exact .nextWork k hpc
  | readTime caller =>
    rw [hpc] at hs
    cases hs
    by_cases htime : s.lastUpdateTime = s.shared.updateTime
    · rw [if_neg (not_not.mpr htime)]
      exact .current caller hpc htime
    · rw [if_pos htime]
      exact .updated caller hpc htime
  | scan time i caller => rw [hpc] at hs; exact goes_of_scanStep hpc hs
  | connect time i spt caller =>
    rw [hpc] at hs
    obtain ⟨shared, hcreate, rfl⟩ := Option.map_eq_some_iff.mp hs
    exact .connect time i spt caller shared hpc hcreate
  | record time caller => rw [hpc] at hs; cases hs; exact .record time caller hpc
  | restore u caller => rw [hpc] at hs; cases hs; exact .restore u caller hpc
  | check j caller => rw [hpc] at hs; exact goes_of_checkStep hpc hs
  | destroyLocal j spt caller =>
    rw [hpc] at hs
    obtain ⟨shared, hd, rfl⟩ := Option.map_eq_some_iff.mp hs
    exact .destroyLocal j spt caller shared hpc hd
  | destroyShared j spt caller =>
    rw [hpc] at hs
    obtain ⟨shared, hd, rfl⟩ := Option.map_eq_some_iff.mp hs
    exact .destroyShared j spt caller shared hpc hd
  | connectedLoop j => rw [hpc] at hs; exact goes_of_connectedStep hpc hs
  | workLoop k => rw [hpc] at hs; exact goes_of_workStep hpc hs

end ChannalState

/-! ## Who is in the lists -/

/-- **What the lists together have to keep**: `entries` are registered, none
of them twice, and who is missing is not referred to any more. -/
structure Kept (entries registered : List Communicator) (dropped : List ℕ) : Prop where
  nodup : entries.Nodup
  subset : ∀ c ∈ entries, c ∈ registered
  expired : ∀ c ∈ registered, c ∉ entries → c.id ∈ dropped

namespace Kept

variable {entries entries' registered : List Communicator} {dropped : List ℕ} {c : Communicator}

theorem perm (h : Kept entries registered dropped) (hp : entries'.Perm entries) :
    Kept entries' registered dropped :=
  ⟨hp.nodup_iff.mpr h.nodup, fun c hc => h.subset c (hp.mem_iff.mp hc),
    fun c hc hnot => h.expired c hc fun hmem => hnot (hp.mem_iff.mpr hmem)⟩

/-- An entry which has expired is removed. -/
theorem remove (h : Kept (c :: entries) registered dropped) (hc : c.id ∈ dropped) :
    Kept entries registered dropped := by
  refine ⟨(List.nodup_cons.mp h.nodup).2, fun d hd => h.subset d (List.mem_cons_of_mem c hd),
    fun d hd hnot => ?_⟩
  by_cases hdc : d = c
  · rw [hdc]
    exact hc
  · exact h.expired d hd fun hmem => (List.mem_cons.mp hmem).elim hdc hnot

theorem drop (h : Kept entries registered dropped) (id : ℕ) :
    Kept entries registered (id :: dropped) :=
  ⟨h.nodup, h.subset, fun c hc hnot => List.mem_cons_of_mem id (h.expired c hc hnot)⟩

/-- A new communicator is registered. -/
theorem register (h : Kept entries registered dropped) (hc : c ∉ registered) :
    Kept (c :: entries) (c :: registered) dropped := by
  refine ⟨List.nodup_cons.mpr ⟨fun hmem => hc (h.subset c hmem), h.nodup⟩, fun d hd => ?_,
    fun d hd hnot => ?_⟩
  · exact List.mem_cons.mpr ((List.mem_cons.mp hd).imp_right (h.subset d))
  · obtain ⟨hne, hnot⟩ := not_or.mp (mt List.mem_cons.mpr hnot)
    exact h.expired d ((List.mem_cons.mp hd).resolve_left hne) hnot

/-- **Who is alive is there once.** -/
theorem count_eq_one (h : Kept entries registered dropped) (hc : c ∈ registered)
    (halive : c.id ∉ dropped) : entries.count c = 1 := by
  refine List.count_eq_one_of_mem h.nodup ?_
  by_contra hnot
  exact halive (h.expired c hc hnot)

end Kept

namespace ChannalPc

theorem eq_resume {pc : ChannalPc} {caller : Caller} (h : pc.user = some caller) :
    pc = .resume caller := by
  unfold user at h
  split at h
  · cases h
  · cases h
    rfl
  · cases h

/-- An entry has been added to one list, and is not yet erased from the
other one. -/
def Moving : ChannalPc → Prop
  | .connect .. | .destroyLocal .. | .destroyShared .. => True
  | _ => False

end ChannalPc

namespace ChannalState

variable {s s' : ChannalState}

/-- The entries of both lists, where one that moves counts only in the list
it moves to. -/
def entries (s : ChannalState) : List Communicator :=
  match s.pc with
  | .connect _ i _ _ => s.wait.eraseIdx i ++ s.connected
  | .destroyLocal j _ _ | .destroyShared j _ _ => s.wait ++ s.connected.eraseIdx j
  | _ => s.wait ++ s.connected

theorem entries_eq (h : ¬ s.pc.Moving) : s.entries = s.wait ++ s.connected := by
  unfold entries
  cases hpc : s.pc with
  | connect time i spt caller => exact absurd (by rw [hpc]; trivial) h
  | destroyLocal j spt caller => exact absurd (by rw [hpc]; trivial) h
  | destroyShared j spt caller => exact absurd (by rw [hpc]; trivial) h
  | _ => rfl

/-- What the channel knows of its communicators. -/
structure Inv (s : ChannalState) : Prop where
  kept : Kept s.entries s.registered s.dropped
  numbered : ∀ c ∈ s.registered, c.id < s.nextId

/-- An entry that is asked for, and the others. -/
theorem perm_of_getElem? {l : List Communicator} {i : ℕ} {c : Communicator} (h : l[i]? = some c) :
    l.Perm (c :: l.eraseIdx i) := by
  obtain ⟨hi, hc⟩ := List.getElem?_eq_some_iff.mp h
  rw [← hc]
  exact (List.getElem_cons_eraseIdx_perm hi).symm

/-- **What a step of the thread of the channel does to the lists**: the
entries are the same, or one that has expired is gone. -/
structure KeepsEntries (s s' : ChannalState) : Prop where
  registered : s'.registered = s.registered
  nextId : s'.nextId = s.nextId
  dropped : s'.dropped = s.dropped
  entries : s'.entries.Perm s.entries ∨ ∃ c, c.id ∈ s.dropped ∧ s.entries.Perm (c :: s'.entries)

theorem Inv.keeps (h : s.Inv) (hk : s.KeepsEntries s') : s'.Inv := by
  obtain ⟨hreg, hnext, hdrop, hent⟩ := hk
  refine ⟨?_, ?_⟩
  · rw [hreg, hdrop]
    rcases hent with hp | ⟨c, hc, hp⟩
    · exact h.kept.perm hp
    · exact (h.kept.perm hp.symm).remove hc
  · rw [hreg, hnext]
    exact h.numbered

/-- Nothing has happened to the lists. -/
theorem KeepsEntries.same (hreg : s'.registered = s.registered) (hnext : s'.nextId = s.nextId)
    (hdrop : s'.dropped = s.dropped) (hent : s'.entries = s.entries) : s.KeepsEntries s' :=
  ⟨hreg, hnext, hdrop, Or.inl (hent ▸ List.Perm.refl _)⟩

/-- A step outside of a move, which removes no entry. -/
theorem KeepsEntries.still (hpc : ¬ s.pc.Moving) (hpc' : ¬ s'.pc.Moving)
    (hreg : s'.registered = s.registered) (hnext : s'.nextId = s.nextId)
    (hdrop : s'.dropped = s.dropped) (hwait : s'.wait = s.wait)
    (hconn : s'.connected = s.connected) : s.KeepsEntries s' := by
  refine .same hreg hnext hdrop ?_
  rw [entries_eq hpc', entries_eq hpc, hwait, hconn]

/-- **A step of the thread of the channel** keeps the entries. -/
theorem Goes.keeps {found : Finding} (hg : Goes s found s') : s.KeepsEntries s' := by
  cases hg with
  | timer now hpc => exact .still (by rw [hpc]; exact id) id rfl rfl rfl rfl rfl
  | nextConnected j hpc => exact .still (by rw [hpc]; exact id) id rfl rfl rfl rfl rfl
  | nextWork k hpc => exact .still (by rw [hpc]; exact id) id rfl rfl rfl rfl rfl
  | updated caller hpc _ => exact .still (by rw [hpc]; exact id) id rfl rfl rfl rfl rfl
  | current caller hpc _ => exact .still (by rw [hpc]; exact id) id rfl rfl rfl rfl rfl
  | scanEnd time i caller hpc _ => exact .still (by rw [hpc]; exact id) id rfl rfl rfl rfl rfl
  | scanMissing time i caller spt hpc _ _ _ _ =>
    exact .still (by rw [hpc]; exact id) id rfl rfl rfl rfl rfl
  | record time caller hpc =>
    refine .still (by rw [hpc]; exact id) ?_ rfl rfl rfl rfl rfl
    cases time <;> exact id
  | restore u caller hpc => exact .still (by rw [hpc]; exact id) id rfl rfl rfl rfl rfl
  | checkEnd j caller hpc _ => exact .still (by rw [hpc]; exact id) id rfl rfl rfl rfl rfl
  | online j caller spt hpc _ _ _ => exact .still (by rw [hpc]; exact id) id rfl rfl rfl rfl rfl
  | connectedEnd j hpc _ => exact .still (by rw [hpc]; exact id) id rfl rfl rfl rfl rfl
  | connectedServed j spt hpc _ _ => exact .still (by rw [hpc]; exact id) id rfl rfl rfl rfl rfl
  | workEnd k hpc _ => exact .still (by rw [hpc]; exact id) id rfl rfl rfl rfl rfl
  | workExpired k spt hpc _ _ =>
    exact .still (by rw [hpc]; exact id) (by show ¬ s.pc.Moving; rw [hpc]; exact id) rfl rfl rfl rfl rfl
  | workServed k spt hpc _ _ _ => exact .still (by rw [hpc]; exact id) id rfl rfl rfl rfl rfl
  | workStays k spt hpc _ _ _ => exact .same rfl rfl rfl rfl
  | scanExpired time i caller spt hpc hi hdrop =>
    have hmoving : ¬ s.pc.Moving := by rw [hpc]; exact id
    refine ⟨rfl, rfl, rfl, Or.inr ⟨spt, hdrop, ?_⟩⟩
    rw [entries_eq hmoving, entries_eq (by exact hmoving)]
    exact (perm_of_getElem? hi).append_right s.connected
  | scanFound time i caller spt hpc hi _ _ _ =>
    refine ⟨rfl, rfl, rfl, Or.inl ?_⟩
    show (s.wait.eraseIdx i ++ (s.connected ++ [spt])).Perm s.entries
    rw [entries_eq (by rw [hpc]; exact id), ← List.append_assoc]
    refine (List.perm_append_singleton spt _).trans ?_
    exact ((perm_of_getElem? hi).append_right s.connected).symm
  | connect time i spt caller shared hpc _ | destroyLocal j spt caller shared hpc _
  | destroyShared j spt caller shared hpc _ =>
    refine .same rfl rfl rfl ?_
    unfold entries
    rw [hpc]
  | checkExpired j caller spt hpc hj hdrop | connectedExpired j spt hpc hj hdrop =>
    have hmoving : ¬ s.pc.Moving := by rw [hpc]; exact id
    refine ⟨rfl, rfl, rfl, Or.inr ⟨spt, hdrop, ?_⟩⟩
    rw [entries_eq hmoving, entries_eq (by exact hmoving)]
    exact ((perm_of_getElem? hj).append_left s.wait).trans List.perm_middle
  | offline j caller spt hpc hj _ _ =>
    refine ⟨rfl, rfl, rfl, Or.inl ?_⟩
    show ((s.wait ++ [spt]) ++ s.connected.eraseIdx j).Perm s.entries
    rw [entries_eq (by rw [hpc]; exact id), List.append_assoc]
    exact ((perm_of_getElem? hj).append_left s.wait).symm

/-- A call of a factory, or of a check, begins between the loops. -/
theorem entries_user {caller : Caller} (h : s.pc.user = some caller) :
    s.entries = s.wait ++ s.connected :=
  entries_eq (by rw [ChannalPc.eq_resume h]; exact id)

theorem start_inv : start.Inv := ⟨⟨.nil, nofun, nofun⟩, nofun⟩

theorem Inv.register (h : s.Inv) {name : String} (hs : s.next (.register name) = some s') :
    s'.Inv := by
  obtain ⟨caller, hpc, rfl⟩ := Option.map_eq_some_iff.mp hs
  have hnew : s.made name ∉ s.registered :=
    fun hmem => absurd (h.numbered (s.made name) hmem) (lt_irrefl s.nextId)
  have hent := entries_user hpc
  refine ⟨(h.kept.register hnew).perm ?_, fun c hc => ?_⟩
  · show ((s.wait ++ [s.made name]) ++ s.connected).Perm (s.made name :: s.entries)
    rw [hent, List.append_assoc]
    exact List.perm_middle
  · rcases List.mem_cons.mp hc with heq | hmem
    · rw [heq]
      exact Nat.lt_succ_self s.nextId
    · exact Nat.lt_succ_of_lt (h.numbered c hmem)

theorem Inv.service (h : s.Inv) {name : String} (hs : s.next (.service name) = some s') :
    s'.Inv := by
  obtain ⟨caller, hpc, rfl⟩ := Option.map_eq_some_iff.mp hs
  refine ⟨h.kept.perm (List.Perm.of_eq (entries_user hpc).symm), fun c hc => ?_⟩
  exact Nat.lt_succ_of_lt (h.numbered c hc)

theorem Inv.drop (h : s.Inv) {id : ℕ} (hs : s.next (.drop id) = some s') : s'.Inv := by
  simp only [next] at hs
  split at hs
  · cases hs
    exact ⟨h.kept.drop id, h.numbered⟩
  · cases hs

/-- What other threads do to the names is not seen in the lists. -/
theorem Inv.shared (h : s.Inv) (shared : SharedNames) :
    ({ s with shared := shared } : ChannalState).Inv := ⟨h.kept, h.numbered⟩

/-- A check or `spin_once` begins. -/
theorem Inv.call (h : s.Inv) {caller : Caller} (hpc : s.pc.user = some caller) {pc : ChannalPc}
    (hmoving : ¬ pc.Moving) : ({ s with pc := pc } : ChannalState).Inv := by
  refine h.keeps (.same rfl rfl rfl ?_)
  rw [entries_user hpc]
  exact entries_eq hmoving

theorem Inv.step (h : s.Inv) {l : ChannalStep} (hs : s.next l = some s') : s'.Inv := by
  cases l with
  | insert name =>
    obtain ⟨shared, _, rfl⟩ := Option.map_eq_some_iff.mp hs
    exact h.shared shared
  | record now =>
    obtain ⟨shared, _, rfl⟩ := Option.map_eq_some_iff.mp hs
    exact h.shared shared
  | destroyLocal name =>
    obtain ⟨shared, _, rfl⟩ := Option.map_eq_some_iff.mp hs
    exact h.shared shared
  | destroyShared name referenced now =>
    obtain ⟨shared, _, rfl⟩ := Option.map_eq_some_iff.mp hs
    exact h.shared shared
  | drop id => exact h.drop hs
  | register name => exact h.register hs
  | service name => exact h.service hs
  | checkImmediately =>
    obtain ⟨caller, hpc, rfl⟩ := Option.map_eq_some_iff.mp hs
    exact h.call hpc id
  | checkStatus =>
    simp only [next] at hs
    split at hs
    · next hpc =>
      cases hs
      have huser : s.pc.user = some .idle := by rw [hpc]; rfl
      exact h.call huser id
    · cases hs
  | spinOnce now =>
    simp only [next] at hs
    split at hs
    · next hpc =>
      cases hs
      have huser : s.pc.user = some .idle := by rw [hpc]; rfl
      refine h.call huser ?_
      split <;> exact id
    · cases hs
  | channal found => exact h.keeps (goes_of_channalStep hs).keeps

/-- **Every communicator is in its list**: one that is still referred to is
in `wait_connect_list_` or in `connected_list_`, and there once; who is in
neither is not referred to any more. -/
structure Listed (s : ChannalState) : Prop where
  once : ∀ c ∈ s.registered, c.id ∉ s.dropped → (s.wait ++ s.connected).count c = 1
  expired : ∀ c ∈ s.registered, c ∉ s.wait ++ s.connected → c.id ∈ s.dropped

theorem Inv.listed (h : s.Inv) (hpc : ¬ s.pc.Moving) : s.Listed := by
  have hkept := h.kept
  rw [entries_eq hpc] at hkept
  exact ⟨fun c => hkept.count_eq_one, hkept.expired⟩

theorem inv_of_reachable (hs : channalSystem.Reachable s) : s.Inv := by
  refine hs.invariant ?_ fun s l s' _ h hstep => h.step hstep
  rintro s rfl
  exact start_inv

end ChannalState

open TransitionSystem

/-- **No communicator is lost or doubled**: between the calls of the
channel, during the callbacks of `spin_once`, and anywhere within a loop
except while an entry moves from one list to the other. -/
theorem channalSystem_listed {s : ChannalState} (hs : channalSystem.Reachable s)
    (hpc : ¬ s.pc.Moving) : s.Listed :=
  (ChannalState.inv_of_reachable hs).listed hpc

/-- Three readers, one of which is connected, disconnected and waits again,
behind one made in the meantime, and one whose handle is dropped. -/
theorem channalSystem_listed_three : ∃ s, channalSystem.Reachable s
    ∧ s.pc = .resume .idle ∧ s.wait = [⟨2, "c"⟩, ⟨0, "a"⟩] ∧ s.connected = []
    ∧ s.registered = [⟨2, "c"⟩, ⟨1, "b"⟩, ⟨0, "a"⟩] ∧ s.dropped = [1] ∧ s.Listed := by
  have htrace : (trace ChannalState.next [] ChannalState.start
      (List.flatten [[.insert "a", .record 1, .register "a"],
        List.replicate 4 (.channal ⟨true, false, 2⟩), [.register "b"],
        List.replicate 3 (.channal ⟨true, false, 2⟩), [.drop 1, .register "c"],
        List.replicate 4 (.channal ⟨true, false, 2⟩), [.spinOnce 101],
        List.replicate 8 (.channal ⟨false, false, 2⟩)])).map
        (fun e => (e.2.pc, e.2.wait, e.2.connected, e.2.registered, e.2.dropped))
      = some (.resume .idle, [⟨2, "c"⟩, ⟨0, "a"⟩], [], [⟨2, "c"⟩, ⟨1, "b"⟩, ⟨0, "a"⟩], [1]) := by
    decide +kernel
  obtain ⟨tr, s, hr, heq⟩ := Run.exists_of_trace (S := channalSystem) (fun _ _ _ h => h) rfl htrace
  obtain ⟨hpc, heq⟩ := Prod.mk.inj heq
  obtain ⟨hwait, heq⟩ := Prod.mk.inj heq
  obtain ⟨hconn, heq⟩ := Prod.mk.inj heq
  obtain ⟨hreg, hdrop⟩ := Prod.mk.inj heq
  dsimp only at hpc
  exact ⟨s, hr.reachable, hpc, hwait, hconn, hreg, hdrop,
    channalSystem_listed hr.reachable (by rw [hpc]; exact id)⟩
