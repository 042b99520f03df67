import CoinData.Channal
import Mathlib.Data.List.InsertIdx

/-!
# Whether the channel hears of an object

The channel looks for those that wait only if the update time of the map is
not the one it has recorded last. That loses nobody as long as every object
that appears after an entry was looked for has a later time than the one
recorded then. `check_connect_status_` sees to it: it reads the time before
the loop, and records what it has read. `check_connect_immediately_` on its
own reads the time after the loop. An object which is created, and whose
time is recorded, after the loop has passed an entry of its name and before
the time is read is not looked for again, until some other object appears.

The invariant says of each entry that waits what the channel knows of its
name: the entries a loop has yet to come to are left out.
-/

open TransitionSystem

/-- The channel is in a loop over those that wait, or destroys an object. -/
def ChannalPc.Busy : ChannalPc → Prop
  | .scan .. | .connect .. | .record .. | .restore .. => True
  | .destroyLocal .. | .destroyShared .. => True
  | _ => False

namespace ChannalState

variable {s s' : ChannalState}

/-- The entries which have been looked for, and found not to be there; while
an object is destroyed, those of other names. -/
def left (s : ChannalState) : List Communicator :=
  match s.pc with
  | .scan _ i _ | .connect _ i _ _ => s.wait.take i
  | .destroyLocal _ spt _ | .destroyShared _ spt _ => s.wait.filter fun c => c.name ≠ spt.name
  | _ => s.wait

/-- The update time the channel goes by, or will: there is none while
`check_connect_immediately_` runs on its own. -/
def reference (s : ChannalState) : Option ℕ :=
  match s.pc with
  | .scan time _ _ | .connect time _ _ _ | .record time _ => time
  | .restore u _ => some u
  | _ => some s.lastUpdateTime

/-- What is known of a name, depending on the time. -/
def Known (shared : SharedNames) (time : Option ℕ) (name : String) : Prop :=
  match time with
  | some t => shared.Announced t name
  | none => shared.ToCome name

/-- **No entry is forgotten**: what has been looked for and was not there is
known, and the channel goes by no later time than the last one. -/
structure Watched (s : ChannalState) : Prop where
  time : ∀ t ∈ s.reference, t ≤ s.shared.updateTime
  known : ∀ c ∈ s.left, Known s.shared s.reference c.name
  distinct : s.reference = none → ∀ time i spt caller, s.pc = .connect time i spt caller →
    ∀ c ∈ s.left, c.name ≠ spt.name

/-- **A time is recorded in time**: not after `check_connect_immediately_`,
called on its own, has passed an entry of the name, and before it is
over. -/
def InTime (s : ChannalState) (l : ChannalStep) : Prop :=
  match l with
  | .record _ => s.reference = none → ∀ c ∈ s.left, s.shared.creating ≠ some c.name
  | _ => True

instance (s : ChannalState) (l : ChannalStep) : Decidable (s.InTime l) := by
  unfold InTime
  split <;> infer_instance

/-- **No connection is lost**: if no check and no `create` is under way, none
of those that wait is there, or the next check will look for them. -/
def NoneLost (s : ChannalState) : Prop :=
  ∀ caller, s.pc = .resume caller → s.shared.creating = none →
    (∀ c ∈ s.wait, s.shared.shmObjMap c.name = false)
      ∨ s.lastUpdateTime ≠ s.shared.updateTime

/-- What is watched, where the entries and the time are given. -/
theorem Watched.of_eq (h : s.Watched) {l : List Communicator} {time : Option ℕ}
    (hleft : s.left = l) (href : s.reference = time) :
    (∀ t ∈ time, t ≤ s.shared.updateTime) ∧ ∀ c ∈ l, Known s.shared time c.name := by
  rw [← hleft, ← href]
  exact ⟨h.time, h.known⟩

/-! ## What is known of a name -/

section Known

variable {shared shared' : SharedNames} {time : Option ℕ} {name : String} {now : ℕ}

theorem known_of_not (h : shared.shmObjMap name = false) : Known shared time name := by
  cases time with
  | none => exact SharedNames.toCome_of_not h
  | some t => exact (SharedNames.toCome_of_not h).announced

theorem Known.announced {t : ℕ} (h : Known shared none name) : Known shared (some t) name :=
  SharedNames.ToCome.announced h

theorem Known.untimed (h : Known shared time name) (hs : shared.Untimed shared') :
    Known shared' time name := by
  cases time with
  | none => exact SharedNames.ToCome.untimed h hs
  | some t => exact SharedNames.Announced.untimed h hs

theorem Known.record (h : Known shared time name) (ht : ∀ t ∈ time, t ≤ shared.updateTime)
    (hne : time = none → shared.creating ≠ some name) (hr : shared.record now = some shared') :
    Known shared' time name := by
  cases time with
  | none => exact SharedNames.ToCome.record h (hne rfl) hr
  | some t => exact (SharedNames.announced_record (ht t rfl) hr).2 name

theorem Known.create {other : String} (h : Known shared time name)
    (ht : ∀ t ∈ time, t ≤ shared.updateTime) (hne : time = none → name ≠ other)
    (hc : shared.create other now = some shared') : Known shared' time name := by
  cases time with
  | none => exact SharedNames.ToCome.create h (hne rfl) hc
  | some t => exact (SharedNames.Announced.create h (ht t rfl) hc).2

end Known

/-! ## Between the loops -/

/-- Everybody who waits is known with respect to the time recorded last. -/
structure Settled (s : ChannalState) : Prop where
  time : s.lastUpdateTime ≤ s.shared.updateTime
  known : ∀ c ∈ s.wait, s.shared.Announced s.lastUpdateTime c.name

/-- The channel goes by the time recorded last, for everybody who waits. -/
def AtEase (s : ChannalState) : Prop := s.left = s.wait ∧ s.reference = some s.lastUpdateTime

theorem atEase (h : ¬ s.pc.Busy) : s.AtEase := by
  unfold AtEase left reference
  cases hpc : s.pc with
  | scan time i caller => exact absurd (by rw [hpc]; trivial) h
  | connect time i spt caller => exact absurd (by rw [hpc]; trivial) h
  | record time caller => exact absurd (by rw [hpc]; trivial) h
  | restore u caller => exact absurd (by rw [hpc]; trivial) h
  | destroyLocal j spt caller => exact absurd (by rw [hpc]; trivial) h
  | destroyShared j spt caller => exact absurd (by rw [hpc]; trivial) h
  | _ => exact ⟨rfl, rfl⟩

theorem watched_iff_settled (h : s.AtEase) : s.Watched ↔ s.Settled := by
  obtain ⟨hleft, href⟩ := h
  constructor
  · intro hw
    obtain ⟨htime, hknown⟩ := hw.of_eq hleft href
    exact ⟨htime _ rfl, hknown⟩
  · intro hset
    refine ⟨fun t ht => ?_, ?_, fun hnone => ?_⟩
    · cases href.symm.trans ht
      exact hset.time
    · rw [hleft, href]
      exact hset.known
    · cases href.symm.trans hnone

/-- **What the invariant is for.** -/
theorem Watched.noneLost (h : s.Watched) : s.NoneLost := by
  intro caller hpc hidle
  have hease : s.AtEase := atEase (by rw [hpc]; exact id)
  have hset := (watched_iff_settled hease).mp h
  by_cases hall : ∀ c ∈ s.wait, s.shared.shmObjMap c.name = false
  · exact Or.inl hall
  · right
    obtain ⟨c, hc, hname⟩ : ∃ c ∈ s.wait, s.shared.shmObjMap c.name = true := by
      simpa using hall
    rcases hset.known c hc hname with hlt | hcreating
    · exact hlt.ne
    · cases hidle.symm.trans hcreating

/-- A step between the loops, in which nobody new waits. -/
theorem Watched.ease (h : s.Watched) (hs : s.AtEase) (hs' : s'.AtEase)
    (hshared : s'.shared = s.shared) (hlast : s'.lastUpdateTime = s.lastUpdateTime)
    (hwait : s'.wait = s.wait) : s'.Watched := by
  have hset := (watched_iff_settled hs).mp h
  refine (watched_iff_settled hs').mpr ⟨?_, ?_⟩
  · rw [hshared, hlast]
    exact hset.time
  · rw [hshared, hlast, hwait]
    exact hset.known

/-- The thread goes on between the loops. -/
theorem Watched.moveOn (h : s.Watched) (hpc : ¬ s.pc.Busy) {pc : ChannalPc} (hpc' : ¬ pc.Busy) :
    ({ s with pc := pc } : ChannalState).Watched :=
  h.ease (atEase hpc) (atEase hpc') rfl rfl rfl

/-- A loop over those that wait begins: nobody has been looked for. -/
theorem watched_of_begin {time : Option ℕ} {caller : Caller} (hpc : s.pc = .scan time 0 caller)
    (ht : ∀ t ∈ time, t ≤ s.shared.updateTime) : s.Watched := by
  have href : s.reference = time := by
    unfold reference
    rw [hpc]
  have hleft : s.left = [] := by
    unfold left
    rw [hpc]
    exact List.take_zero
  refine ⟨?_, ?_, fun _ time' i spt caller' hpc' => ?_⟩
  · rw [href]
    exact ht
  · rw [hleft]
    nofun
  · cases hpc.symm.trans hpc'

/-- `check_connect_immediately_` is called on its own. -/
theorem watched_of_direct {caller : Caller} (hpc : s.pc = .scan none 0 caller) : s.Watched := by
  refine watched_of_begin hpc fun t ht => ?_
  cases ht

theorem atEase_of_user {caller : Caller} (h : s.pc.user = some caller) : s.AtEase :=
  atEase (by rw [ChannalPc.eq_resume h]; exact id)

/-! ## Calls of other threads -/

/-- The names change, the channel takes no step. -/
theorem Watched.frame (h : s.Watched) {shared : SharedNames}
    (ht : ∀ t ∈ s.reference, t ≤ shared.updateTime)
    (hk : ∀ c ∈ s.left, Known s.shared s.reference c.name → Known shared s.reference c.name) :
    ({ s with shared := shared } : ChannalState).Watched :=
  ⟨ht, fun c hc => hk c hc (h.known c hc), h.distinct⟩

theorem Watched.untimed (h : s.Watched) {shared : SharedNames} (hs : s.shared.Untimed shared) :
    ({ s with shared := shared } : ChannalState).Watched :=
  h.frame (fun t ht => (h.time t ht).trans hs.time) fun _ _ hk => hk.untimed hs

theorem Watched.record (h : s.Watched) {shared : SharedNames} {now : ℕ}
    (hr : s.shared.record now = some shared) (hc : s.InTime (.record now)) :
    ({ s with shared := shared } : ChannalState).Watched := by
  refine h.frame (fun t ht => ?_) fun c hcl hk => hk.record h.time (fun hnone => hc hnone c hcl) hr
  exact (SharedNames.announced_record (h.time t ht) hr).1.le

/-! ## The loop over those that wait -/

/-- Those looked for so far, in the loop. -/
theorem Watched.scanning (h : s.Watched) {time : Option ℕ} {i : ℕ} {caller : Caller}
    (hpc : s.pc = .scan time i caller) : (∀ t ∈ time, t ≤ s.shared.updateTime)
      ∧ ∀ c ∈ s.wait.take i, Known s.shared time c.name := by
  have href : s.reference = time := by
    unfold reference
    rw [hpc]
  have hleft : s.left = s.wait.take i := by
    unfold left
    rw [hpc]
  exact h.of_eq hleft href

/-- The loop is over: everybody has been looked for. -/
theorem Watched.scanEnd (h : s.Watched) {time : Option ℕ} {i : ℕ} {caller : Caller}
    (hpc : s.pc = .scan time i caller) (hi : s.wait[i]? = none) :
    ({ s with pc := .record time caller } : ChannalState).Watched := by
  obtain ⟨htime, hknown⟩ := h.scanning hpc
  refine ⟨htime, fun c hc => hknown c ?_, fun _ _ _ _ _ hpc' => by cases hpc'⟩
  rw [List.take_of_length_le (List.getElem?_eq_none_iff.mp hi)]
  exact hc

/-- An entry is removed, and the loop stays at the same place. -/
theorem Watched.scanExpired (h : s.Watched) {time : Option ℕ} {i : ℕ} {caller : Caller}
    (hpc : s.pc = .scan time i caller) :
    ({ s with wait := s.wait.eraseIdx i } : ChannalState).Watched := by
  obtain ⟨htime, hknown⟩ := h.scanning hpc
  have href' : ({ s with wait := s.wait.eraseIdx i } : ChannalState).reference = time := by
    unfold reference
    rw [hpc]
  have hleft' : ({ s with wait := s.wait.eraseIdx i } : ChannalState).left = s.wait.take i := by
    unfold left
    dsimp only
    rw [hpc]
    exact List.take_eraseIdx_eq_take_of_le s.wait i i le_rfl
  refine ⟨?_, ?_, fun _ time' i' spt' caller' hpc' => ?_⟩
  · rw [href']
    exact htime
  · rw [href', hleft']
    exact hknown
  · cases hpc.symm.trans hpc'

/-- An entry is found: the ones before it were not there, and nobody is
creating their objects. -/
theorem Watched.scanFound (h : s.Watched) {time : Option ℕ} {i : ℕ} {caller : Caller}
    {spt : Communicator} (hpc : s.pc = .scan time i caller) (hidle : s.shared.creating = none)
    (hname : s.shared.shmObjMap spt.name = true) :
    ({ s with connected := s.connected ++ [spt], pc := .connect time i spt caller } :
      ChannalState).Watched := by
  obtain ⟨htime, hknown⟩ := h.scanning hpc
  refine ⟨htime, hknown, fun hnone time' i' spt' caller' hpc' c hc heq => ?_⟩
  cases hpc'
  have hk := hknown c hc
  change time = none at hnone
  rw [hnone] at hk
  cases (SharedNames.ToCome.not_mem hk hidle).symm.trans (heq ▸ hname)

/-- An entry is not found. -/
theorem Watched.scanMissing (h : s.Watched) {time : Option ℕ} {i : ℕ} {caller : Caller}
    {spt : Communicator} (hpc : s.pc = .scan time i caller) (hi : s.wait[i]? = some spt)
    (hname : s.shared.shmObjMap spt.name = false) :
    ({ s with pc := .scan time (i + 1) caller } : ChannalState).Watched := by
  obtain ⟨htime, hknown⟩ := h.scanning hpc
  refine ⟨htime, fun c hc => ?_, fun _ _ _ _ _ hpc' => by cases hpc'⟩
  change c ∈ s.wait.take (i + 1) at hc
  rw [List.take_add_one, hi] at hc
  rcases List.mem_append.mp hc with hold | hnew
  · exact hknown c hold
  · cases List.mem_singleton.mp hnew
    exact known_of_not hname

theorem Watched.connect (h : s.Watched) {time : Option ℕ} {i : ℕ} {spt : Communicator}
    {caller : Caller} {now : ℕ} {shared : SharedNames} (hpc : s.pc = .connect time i spt caller)
    (hc : s.shared.create spt.name now = some shared) :
    ({ s with shared := shared, wait := s.wait.eraseIdx i, pc := .scan time i caller } :
      ChannalState).Watched := by
  have href : s.reference = time := by
    unfold reference
    rw [hpc]
  have hleft : s.left = s.wait.take i := by
    unfold left
    rw [hpc]
  obtain ⟨htime, hknown⟩ := h.of_eq hleft href
  have hdist := h.distinct
  rw [hleft, href] at hdist
  have htake := List.take_eraseIdx_eq_take_of_le s.wait i i le_rfl
  refine ⟨fun t ht => ?_, fun c hmem => ?_, fun _ _ _ _ _ hpc' => by cases hpc'⟩
  · obtain ⟨_, rfl | ⟨hlt, rfl⟩⟩ := SharedNames.create_cases hc
    · exact htime t ht
    · exact (htime t ht).trans hlt.le
  · change c ∈ (s.wait.eraseIdx i).take i at hmem
    rw [htake] at hmem
    exact (hknown c hmem).create htime (fun hnone => hdist hnone time i spt caller hpc c hmem) hc

/-! ## The other steps of the channel -/

theorem Watched.recordTime (h : s.Watched) {time : Option ℕ} {caller : Caller} :
    s.pc = .record time caller → ({ s with
      lastUpdateTime := s.shared.updateTime
      pc := match time with
        | none => .resume caller
        | some u => .restore u caller } : ChannalState).Watched := by
  intro hpc
  have href : s.reference = time := by
    unfold reference
    rw [hpc]
  have hleft : s.left = s.wait := by
    unfold left
    rw [hpc]
  obtain ⟨htime, hknown⟩ := h.of_eq hleft href
  cases time with
  | none =>
    refine ⟨fun t ht => ?_, fun c hc => (hknown c hc).announced, nofun⟩
    cases ht
    exact le_rfl
  | some u => exact ⟨htime, hknown, nofun⟩

theorem Watched.restore (h : s.Watched) {u : ℕ} {caller : Caller} (hpc : s.pc = .restore u caller) :
    ({ s with lastUpdateTime := u, pc := .check 0 caller } : ChannalState).Watched := by
  have href : s.reference = some u := by
    unfold reference
    rw [hpc]
  have hleft : s.left = s.wait := by
    unfold left
    rw [hpc]
  obtain ⟨htime, hknown⟩ := h.of_eq hleft href
  exact ⟨htime, hknown, nofun⟩

/-- Who is not online waits, and the object of the name is destroyed next. -/
theorem Watched.offline (h : s.Watched) {j : ℕ} {caller : Caller} {spt : Communicator}
    (hpc : s.pc = .check j caller) :
    ({ s with wait := s.wait ++ [spt], pc := .destroyLocal j spt caller } :
      ChannalState).Watched := by
  have hease : s.AtEase := atEase (by rw [hpc]; exact id)
  have hset := (watched_iff_settled hease).mp h
  refine ⟨fun t ht => by cases ht; exact hset.time, fun c hc => ?_, nofun⟩
  change c ∈ (s.wait ++ [spt]).filter (fun c => c.name ≠ spt.name) at hc
  obtain ⟨hmem, hne⟩ := List.mem_filter.mp hc
  rcases List.mem_append.mp hmem with hold | hnew
  · exact hset.known c hold
  · rw [List.mem_singleton.mp hnew] at hne
    exact absurd rfl (of_decide_eq_true hne)

/-- While an object is destroyed, those of other names are known. -/
theorem Watched.destroying (h : s.Watched) {spt : Communicator}
    (hleft : s.left = s.wait.filter fun c => c.name ≠ spt.name)
    (href : s.reference = some s.lastUpdateTime) :
    s.lastUpdateTime ≤ s.shared.updateTime
      ∧ ∀ c ∈ s.wait, c.name ≠ spt.name → s.shared.Announced s.lastUpdateTime c.name := by
  obtain ⟨htime, hknown⟩ := h.of_eq hleft href
  exact ⟨htime _ rfl, fun c hc hne => hknown c (List.mem_filter.mpr ⟨hc, decide_eq_true hne⟩)⟩

theorem Watched.destroyLocal (h : s.Watched) {j : ℕ} {spt : Communicator} {caller : Caller}
    {shared : SharedNames} (hpc : s.pc = .destroyLocal j spt caller)
    (hd : s.shared.destroyLocal spt.name = some shared) :
    ({ s with shared := shared, pc := .destroyShared j spt caller } : ChannalState).Watched := by
  have href : s.reference = some s.lastUpdateTime := by
    unfold reference
    rw [hpc]
  have hleft : s.left = s.wait.filter fun c => c.name ≠ spt.name := by
    unfold left
    rw [hpc]
  have hw := h.untimed (SharedNames.destroyLocal_untimed hd)
  obtain ⟨htime, hknown⟩ := hw.destroying hleft href
  refine ⟨fun t ht => by cases ht; exact htime, fun c hc => ?_, nofun⟩
  obtain ⟨hmem, hne⟩ := List.mem_filter.mp hc
  exact hknown c hmem (of_decide_eq_true hne)

/-- **Who is disconnected waits** for an object which is not there. -/
theorem Watched.destroyShared (h : s.Watched) {j : ℕ} {spt : Communicator} {caller : Caller}
    {referenced : Bool} {now : ℕ} {shared : SharedNames} (hpc : s.pc = .destroyShared j spt caller)
    (hd : s.shared.destroyShared spt.name referenced now = some shared) :
    ({ s with shared := shared, connected := s.connected.eraseIdx j, pc := .check j caller } :
      ChannalState).Watched := by
  have href : s.reference = some s.lastUpdateTime := by
    unfold reference
    rw [hpc]
  have hleft : s.left = s.wait.filter fun c => c.name ≠ spt.name := by
    unfold left
    rw [hpc]
  have hw := h.untimed (SharedNames.destroyShared_untimed hd)
  obtain ⟨htime, hknown⟩ := hw.destroying hleft href
  refine ⟨fun t ht => by cases ht; exact htime, fun c hc => ?_, nofun⟩
  by_cases hne : c.name = spt.name
  · obtain ⟨_, _, _, hmap⟩ := SharedNames.destroyShared_cases hd
    refine known_of_not ?_
    show shared.shmObjMap c.name = false
    rw [hne, hmap, Function.update_self]
  · exact hknown c hc hne

/-- **A step of the thread of the channel** keeps the invariant. The loops of
`spin_once` leave those that wait alone. -/
theorem Watched.goes (h : s.Watched) {found : Finding} (hg : Goes s found s') : s'.Watched := by
  cases hg with
  | timer now hpc => exact h.ease (atEase (by rw [hpc]; exact id)) ⟨rfl, rfl⟩ rfl rfl rfl
  | nextConnected j hpc => exact h.moveOn (by rw [hpc]; exact id) id
  | nextWork k hpc => exact h.moveOn (by rw [hpc]; exact id) id
  | updated caller hpc _ =>
    refine watched_of_begin rfl fun t ht => ?_
    cases ht
    exact le_rfl
  | current caller hpc _ => exact h.moveOn (by rw [hpc]; exact id) id
  | scanEnd time i caller hpc hi => exact h.scanEnd hpc hi
  | scanExpired time i caller spt hpc _ _ => exact h.scanExpired hpc
  | scanFound time i caller spt hpc _ _ hidle hname => exact h.scanFound hpc hidle hname
  | scanMissing time i caller spt hpc hi _ _ hname => exact h.scanMissing hpc hi hname
  | connect time i spt caller shared hpc hc => exact h.connect hpc hc
  | record time caller hpc => exact h.recordTime hpc
  | restore u caller hpc => exact h.restore hpc
  | checkEnd j caller hpc _ => exact h.moveOn (by rw [hpc]; exact id) id
  | checkExpired j caller spt hpc _ _ =>
    have hease : s.AtEase := atEase (by rw [hpc]; exact id)
    exact h.ease hease hease rfl rfl rfl
  | online j caller spt hpc _ _ _ => exact h.moveOn (by rw [hpc]; exact id) id
  | offline j caller spt hpc _ _ _ => exact h.offline hpc
  | destroyLocal j spt caller shared hpc hd => exact h.destroyLocal hpc hd
  | destroyShared j spt caller shared hpc hd => exact h.destroyShared hpc hd
  | connectedEnd j hpc _ => exact h.moveOn (by rw [hpc]; exact id) id
  | connectedExpired j spt hpc _ _ =>
    have hease : s.AtEase := atEase (by rw [hpc]; exact id)
    exact h.ease hease hease rfl rfl rfl
  | connectedServed j spt hpc _ _ => exact h.moveOn (by rw [hpc]; exact id) id
  | workEnd k hpc _ => exact h.moveOn (by rw [hpc]; exact id) id
  | workExpired k spt hpc _ _ =>
    have hease : s.AtEase := atEase (by rw [hpc]; exact id)
    exact h.ease hease hease rfl rfl rfl
  | workServed k spt hpc _ _ _ => exact h.moveOn (by rw [hpc]; exact id) id
  | workStays k spt hpc _ _ _ => exact h

/-! ## Runs -/

theorem start_watched : start.Watched :=
  (watched_iff_settled ⟨rfl, rfl⟩).mpr ⟨le_rfl, nofun⟩

theorem Watched.step (h : s.Watched) {l : ChannalStep} (hs : s.next l = some s')
    (hc : s.InTime l) : s'.Watched := by
  cases l with
  | insert name =>
    obtain ⟨shared, hi, rfl⟩ := Option.map_eq_some_iff.mp hs
    exact h.untimed (SharedNames.insert_untimed hi)
  | record now =>
    obtain ⟨shared, hr, rfl⟩ := Option.map_eq_some_iff.mp hs
    exact h.record hr hc
  | destroyLocal name =>
    obtain ⟨shared, hd, rfl⟩ := Option.map_eq_some_iff.mp hs
    exact h.untimed (SharedNames.destroyLocal_untimed hd)
  | destroyShared name referenced now =>
    obtain ⟨shared, hd, rfl⟩ := Option.map_eq_some_iff.mp hs
    exact h.untimed (SharedNames.destroyShared_untimed hd)
  | drop id =>
    simp only [next] at hs
    split at hs
    · cases hs
      exact ⟨h.time, h.known, h.distinct⟩
    · cases hs
  | register name =>
    obtain ⟨caller, _, rfl⟩ := Option.map_eq_some_iff.mp hs
    exact watched_of_direct rfl
  | service name =>
    obtain ⟨caller, _, rfl⟩ := Option.map_eq_some_iff.mp hs
    exact watched_of_direct rfl
  | checkImmediately =>
    obtain ⟨caller, _, rfl⟩ := Option.map_eq_some_iff.mp hs
    exact watched_of_direct rfl
  | checkStatus =>
    simp only [next] at hs
    split at hs
    · next hpc =>
      cases hs
      have huser : s.pc.user = some .idle := by
        rw [hpc]
        rfl
      exact h.ease (atEase_of_user huser) ⟨rfl, rfl⟩ rfl rfl rfl
    · cases hs
  | spinOnce now =>
    simp only [next] at hs
    split at hs
    · next hpc =>
      cases hs
      have huser : s.pc.user = some .idle := by
        rw [hpc]
        rfl
      by_cases hdue : 100 < now - s.lastInvoke
      · rw [if_pos hdue]
        exact h.ease (atEase_of_user huser) ⟨rfl, rfl⟩ rfl rfl rfl
      · rw [if_neg hdue]
        exact h.ease (atEase_of_user huser) ⟨rfl, rfl⟩ rfl rfl rfl
    · cases hs
  | channal found => exact h.goes (goes_of_channalStep hs)

/-! ## Names whose time is recorded late -/

/-- **What the thread of the channel does to the names**: nothing, or a call
after which nobody is creating. -/
theorem Goes.shared {found : Finding} (hg : Goes s found s') :
    s'.shared = s.shared ∨ s'.shared.creating = none := by
  cases hg with
  | connect time i spt caller shared _ hc => exact Or.inr (SharedNames.create_idle hc)
  | destroyLocal j spt caller shared _ hd => exact Or.inr (SharedNames.destroyLocal_idle hd)
  | destroyShared j spt caller shared _ hd =>
    exact Or.inr (SharedNames.destroyShared_cases hd).2.1
  | _ => exact Or.inl rfl

theorem valid_step (h : s.shared.Valid) {l : ChannalStep} (hs : s.next l = some s') :
    s'.shared.Valid := by
  cases l with
  | insert name =>
    obtain ⟨shared, hi, rfl⟩ := Option.map_eq_some_iff.mp hs
    exact SharedNames.insert_valid hi
  | record now =>
    obtain ⟨shared, hr, rfl⟩ := Option.map_eq_some_iff.mp hs
    obtain ⟨_, rfl⟩ := SharedNames.record_cases hr
    exact SharedNames.valid_of_idle rfl
  | destroyLocal name =>
    obtain ⟨shared, hd, rfl⟩ := Option.map_eq_some_iff.mp hs
    exact SharedNames.valid_of_idle (SharedNames.destroyLocal_idle hd)
  | destroyShared name referenced now =>
    obtain ⟨shared, hd, rfl⟩ := Option.map_eq_some_iff.mp hs
    exact SharedNames.valid_of_idle (SharedNames.destroyShared_cases hd).2.1
  | drop id | checkStatus | spinOnce now =>
    simp only [next] at hs
    split at hs <;> cases hs
    exact h
  | register name =>
    obtain ⟨caller, _, rfl⟩ := Option.map_eq_some_iff.mp hs
    exact h
  | service name =>
    obtain ⟨caller, _, rfl⟩ := Option.map_eq_some_iff.mp hs
    exact h
  | checkImmediately =>
    obtain ⟨caller, _, rfl⟩ := Option.map_eq_some_iff.mp hs
    exact h
  | channal found =>
    rcases (goes_of_channalStep hs).shared with heq | hidle
    · rw [heq]
      exact h
    · exact SharedNames.valid_of_idle hidle

theorem valid_of_reachable (hs : channalSystem.Reachable s) : s.shared.Valid := by
  refine hs.invariant (I := fun s => s.shared.Valid) ?_ fun s l s' _ h hstep => valid_step h hstep
  rintro s rfl
  exact SharedNames.valid_of_idle rfl

variable {tr : List (ChannalState × ChannalStep)} {caller : Caller} {i : ℕ}

/-- The time of an object that has been missed is recorded. -/
theorem continues_of_record (hr : channalSystem.Run tr s) (hpc : s.pc = .record none caller)
    (hidle : s.shared.creating = none) (hc : ∃ c ∈ s.wait, s.shared.shmObjMap c.name = true) :
    channalSystem.Continues tr fun s => ¬ s.NoneLost := by
  have hstep : s.next (.channal ⟨true, false, 0⟩)
      = some { s with lastUpdateTime := s.shared.updateTime, pc := .resume caller } := by
    show s.channalStep _ = _
    unfold channalStep
    rw [hpc]
  refine .of_snoc ((Run.snoc hr hstep).continues fun h => ?_)
  obtain ⟨c, hmem, hname⟩ := hc
  rcases h caller rfl hidle with hnone | hne
  · cases (hnone c hmem).symm.trans hname
  · exact hne rfl

/-- An entry that is found is connected. -/
theorem exists_connect_step {spt : Communicator} (hpc : s.pc = .connect none i spt caller)
    (hidle : s.shared.creating = none) :
    ∃ shared found, s.next (.channal found) = some
        { s with shared := shared, wait := s.wait.eraseIdx i, pc := .scan none i caller }
      ∧ shared.creating = none
      ∧ ∀ name, s.shared.shmObjMap name = true → shared.shmObjMap name = true := by
  obtain ⟨shared, hcreate, hnames⟩ := s.shared.exists_create spt.name hidle
  refine ⟨shared, ⟨true, false, s.shared.updateTime + 1⟩, ?_, SharedNames.create_idle hcreate,
    hnames⟩
  show s.channalStep _ = _
  unfold channalStep
  rw [hpc]
  dsimp only
  rw [hcreate]
  rfl

theorem next_of_scan (hpc : s.pc = .scan none i caller) (found : Finding) :
    s.next (.channal found) = s.scanStep none i caller := by
  show s.channalStep found = _
  unfold channalStep
  rw [hpc]

/-- **The loop goes on past an object that has been missed.** -/
theorem continues_of_scan {k : ℕ} (hr : channalSystem.Run tr s) (hpc : s.pc = .scan none i caller)
    (hk : s.wait.length - i = k) (hidle : s.shared.creating = none)
    (hc : ∃ c ∈ s.wait.take i, s.shared.shmObjMap c.name = true) :
    channalSystem.Continues tr fun s => ¬ s.NoneLost := by
  obtain ⟨c, hmem, hname⟩ := hc
  -- each step of the loop leaves less of the list to go
  induction k generalizing tr s i with
  | zero =>
    have hstep : s.scanStep none i caller = some { s with pc := .record none caller } := by
      unfold scanStep
      rw [List.getElem?_eq_none (by omega)]
    have hr' := hr.snoc (S := channalSystem) ((next_of_scan hpc ⟨true, false, 0⟩).trans hstep)
    exact .of_snoc (continues_of_record hr' rfl hidle ⟨c, List.mem_of_mem_take hmem, hname⟩)
  | succ k ih =>
    have hi : i < s.wait.length := by omega
    have hspt := List.getElem?_eq_getElem hi
    have hlen := List.length_eraseIdx_of_lt hi
    have hmem' : c ∈ (s.wait.eraseIdx i).take i := by
      rw [List.take_eraseIdx_eq_take_of_le s.wait i i le_rfl]
      exact hmem
    set spt := s.wait[i]
    by_cases hdrop : spt.id ∈ s.dropped
    · have hstep : s.scanStep none i caller = some { s with wait := s.wait.eraseIdx i } := by
        unfold scanStep
        rw [hspt]
        exact if_pos hdrop
      have hr' := hr.snoc (S := channalSystem) ((next_of_scan hpc ⟨true, false, 0⟩).trans hstep)
      refine .of_snoc (ih hr' hpc ?_ hidle hmem' hname)
      show (s.wait.eraseIdx i).length - i = k
      omega
    · by_cases hthere : s.shared.shmObjMap spt.name = true
      · have hstep : s.scanStep none i caller = some
            { s with connected := s.connected ++ [spt], pc := .connect none i spt caller } := by
          unfold scanStep
          rw [hspt]
          dsimp only
          rw [if_neg hdrop, if_neg (not_not.mpr hidle), if_pos hthere]
        have hr' := hr.snoc (S := channalSystem) ((next_of_scan hpc ⟨true, false, 0⟩).trans hstep)
        obtain ⟨shared, found, hstep', hidle', hnames⟩ := exists_connect_step (s :=
          { s with connected := s.connected ++ [spt], pc := .connect none i spt caller }) rfl hidle
        refine .of_snoc (.of_snoc (ih (hr'.snoc hstep') rfl ?_ hidle' hmem' (hnames _ hname)))
        show (s.wait.eraseIdx i).length - i = k
        omega
      · have hstep : s.scanStep none i caller = some { s with pc := .scan none (i + 1) caller } := by
          unfold scanStep
          rw [hspt]
          dsimp only
          rw [if_neg hdrop, if_neg (not_not.mpr hidle), if_neg hthere]
        have hr' := hr.snoc (S := channalSystem) ((next_of_scan hpc ⟨true, false, 0⟩).trans hstep)
        refine .of_snoc (ih hr' rfl ?_ hidle ?_ hname)
        · show s.wait.length - (i + 1) = k
          omega
        · show c ∈ s.wait.take (i + 1)
          rw [List.take_add_one]
          exact List.mem_append_left _ hmem

end ChannalState

variable {tr : List (ChannalState × ChannalStep)} {s : ChannalState}

/-- **When no connection is lost**: as long as no time is recorded for a name
that `check_connect_immediately_`, called on its own, has already looked
for, before it is over. -/
theorem channalSystem_noneLost (hr : channalSystem.Run tr s)
    (hc : Met ChannalState.InTime tr) : Throughout ChannalState.NoneLost tr s := by
  have hw : Throughout ChannalState.Watched tr s := by
    refine hr.throughout_of_met ?_ (fun s l s' _ h hstep hl => h.step hstep hl) hc
    rintro s rfl
    exact ChannalState.start_watched
  exact ⟨hw.1.noneLost, fun e he => (hw.2 e he).noneLost⟩

/-- An object created while `check_connect_status_` is in the loop, after
the entry which waits for it: the next check will find it. -/
theorem channalSystem_noneLost_status : ∃ tr s, channalSystem.Run tr s
    ∧ s.pc = .resume .idle ∧ s.wait = [⟨0, "a"⟩] ∧ s.shared.shmObjMap "a" = true
    ∧ Throughout ChannalState.NoneLost tr s := by
  have htrace : (trace ChannalState.next [] ChannalState.start
      (List.flatten [[.register "a"], List.replicate 3 (.channal ⟨true, false, 0⟩),
        [.insert "b", .record 1, .checkStatus], List.replicate 2 (.channal ⟨true, false, 0⟩),
        [.insert "a", .record 2], List.replicate 4 (.channal ⟨true, false, 0⟩)])).map
        (fun e => (e.2.pc, e.2.wait, e.2.shared.shmObjMap "a",
          decide (Met ChannalState.InTime e.1)))
      = some (.resume .idle, [⟨0, "a"⟩], true, true) := by decide +kernel
  obtain ⟨tr, s, hr, heq⟩ := Run.exists_of_trace (S := channalSystem) (fun _ _ _ h => h) rfl htrace
  obtain ⟨hpc, heq⟩ := Prod.mk.inj heq
  obtain ⟨hwait, heq⟩ := Prod.mk.inj heq
  obtain ⟨hname, hmet⟩ := Prod.mk.inj heq
  exact ⟨tr, s, hr, hpc, hwait, hname, channalSystem_noneLost hr (of_decide_eq_true hmet)⟩

/-- **A connection which is lost**: a reader is made, an object of its name
is created after the loop has passed the reader, and then the channel
records the time of this object. -/
theorem channalSystem_not_noneLost : ∃ s, channalSystem.Reachable s
    ∧ s.pc = .resume .idle ∧ s.wait = [⟨0, "a"⟩] ∧ s.shared.shmObjMap "a" = true
    ∧ ¬ s.NoneLost := by
  have htrace : (trace ChannalState.next [] ChannalState.start
      [.register "a", .channal ⟨true, false, 0⟩, .insert "a", .record 1,
        .channal ⟨true, false, 0⟩, .channal ⟨true, false, 0⟩]).map
        (fun e => (e.2.pc, e.2.wait, e.2.shared.shmObjMap "a", e.2.shared.creating,
          decide (e.2.lastUpdateTime = e.2.shared.updateTime)))
      = some (.resume .idle, [⟨0, "a"⟩], true, none, true) := by decide +kernel
  obtain ⟨tr, s, hr, heq⟩ := Run.exists_of_trace (S := channalSystem) (fun _ _ _ h => h) rfl htrace
  obtain ⟨hpc, heq⟩ := Prod.mk.inj heq
  obtain ⟨hwait, heq⟩ := Prod.mk.inj heq
  obtain ⟨hname, heq⟩ := Prod.mk.inj heq
  obtain ⟨hidle, hlast⟩ := Prod.mk.inj heq
  dsimp only at hpc hwait hname hidle hlast
  refine ⟨s, hr.reachable, hpc, hwait, hname, fun h => ?_⟩
  rcases h .idle hpc hidle with hnone | hne
  · have hmem : (⟨0, "a"⟩ : Communicator) ∈ s.wait := by
      rw [hwait]
      exact List.mem_singleton.mpr rfl
    cases (hnone _ hmem).symm.trans hname
  · exact hne (of_decide_eq_true hlast)

/-- **The condition asks for no more than it has to**: after a time which is
recorded late, the run can go on until a connection is lost. -/
theorem exists_not_noneLost_of_late {now : ℕ} {s' : ChannalState}
    (hr : channalSystem.Run tr s) (hstep : s.next (.record now) = some s')
    (hl : ¬ s.InTime (.record now)) :
    channalSystem.Continues ((s, .record now) :: tr) fun s => ¬ s.NoneLost := by
  have hvalid := ChannalState.valid_of_reachable hr.reachable
  have hr' := hr.snoc (S := channalSystem) hstep
  obtain ⟨href, c, hc, hcreating⟩ : s.reference = none
      ∧ ∃ c ∈ s.left, s.shared.creating = some c.name := by
    simpa [ChannalState.InTime] using hl
  have hname := hvalid _ hcreating
  obtain ⟨shared, hrec, rfl⟩ := Option.map_eq_some_iff.mp hstep
  obtain ⟨_, rfl⟩ := SharedNames.record_cases hrec
  unfold ChannalState.left at hc
  unfold ChannalState.reference at href
  cases hpc : s.pc with
  | scan time i caller =>
    rw [hpc] at hc href
    cases href
    exact ChannalState.continues_of_scan hr' hpc rfl rfl ⟨c, hc, hname⟩
  | connect time i spt caller =>
    rw [hpc] at hc href
    cases href
    obtain ⟨shared, found, hstep', hidle', hnames⟩ := ChannalState.exists_connect_step (s :=
      { s with shared := { s.shared with updateTime := now, creating := none } }) hpc rfl
    have htake := List.take_eraseIdx_eq_take_of_le s.wait i i le_rfl
    exact .of_snoc (ChannalState.continues_of_scan (hr'.snoc hstep') rfl rfl hidle'
      ⟨c, htake.symm ▸ hc, hnames _ hname⟩)
  | record time caller =>
    rw [hpc] at hc href
    cases href
    exact ChannalState.continues_of_record hr' hpc rfl ⟨c, hc, hname⟩
  | _ =>
    rw [hpc] at href
    cases href
