import CoinData.Communicators
import CoinData.ObjectReset

/-!
# Who is connected

The readers, subscribers and clients of a process connect to an item by
`create`: the `data_buffer_` of each is the retention of the name, which
they share with each other, and with the writer, publisher or service whose
item it is. When `check_connect_status_` finds that one of them is not
online, this one destroys the object of the name, and the retention they
share has a null pointer from then on.

Here one thread of the process does everything: it constructs and destroys
writers, publishers and services, has readers, subscribers and clients made
for it, and calls `check_connect_status_`. A name may be used with different
types: `create` then returns a null pointer, which a subscriber dereferences
at once, and the others keep.
-/

open Maps

namespace ShmObjManager

open ShmSystemSharedInfo ExtNodeMapItem

/-! ## The channel -/

/-- Who connects to an item, with the types its messages have. -/
inductive LocalUser where
  | reader (data : String)
  | subscriber (data : String)
  | client (req ack : String)
deriving DecidableEq, Repr

/-- The `T` of the `create<T>` in `connecte_to_`. -/
def LocalUser.itemType : LocalUser → String
  | .reader data => (LocalEnd.writer data).itemType
  | .subscriber data => (LocalEnd.publisher data).itemType
  | .client req ack => (LocalEnd.service req ack).itemType

/-- Whether `connecte_to_` dereferences what `create` has returned. -/
def LocalUser.readsTail : LocalUser → Bool
  | .subscriber _ => true
  | _ => false

/-- A reader, a subscriber or a client. -/
structure LocalCommunicator where
  name : String
  user : LocalUser
  dataBuffer : Option ℕ := none
deriving DecidableEq, Repr

/-- **The channel of a process** with all it refers to: the items and whose
they are, the readers, subscribers and clients somebody has a handle to, and
the lists of weak pointers to them. -/
structure Connections where
  items : Communicators
  comm : ℕ → Option LocalCommunicator
  nextComm : ℕ
  waitConnectList : List ℕ
  connectedList : List ℕ
  lastUpdateTime : ℕ

namespace Connections

/-- The shared pointers to a retention which communicators have. -/
def handles (s : Connections) (r : ℕ) : ℕ :=
  (List.range s.nextComm).countP (fun id => (s.comm id).any fun c => c.dataBuffer = some r)
    + (List.range s.items.nextObject).countP fun id => (s.items.object id).any fun e => e.buffer = r

/-- `data_buffer_->get()`. -/
def get (s : Connections) (r : ℕ) : Except ObjectFault ℕ :=
  match (s.items.owner.retention r).ptr with
  | none => .error .nullDeref
  | some info => do
    let _ ← s.items.mem.deref info
    .ok info

/-- `is_online`, of a communicator with this `data_buffer_`. -/
def isOnline (s : Connections) : Option ℕ → Except ObjectFault Bool
  | none => .ok false
  | some r => do
    let info ← s.get r
    .ok (s.items.isOnline info)

/-- `connecte_to_`. -/
def connecteTo (id : ℕ) (c : LocalCommunicator) (now : ℕ) (s : Connections) :
    Except ObjectFault Connections :=
  let (ret, mem, owner) := create c.user.itemType c.name now s.items.mem s.items.owner
  let s := { s with
    items := { s.items with mem := mem, owner := owner }
    comm := Function.update s.comm id (some { c with dataBuffer := ret }) }
  if c.user.readsTail then
    match ret with
    | none => .error .nullDeref
    | some r => do
      let _ ← s.get r
      .ok s
  else .ok s

/-- `disconnect_`. -/
def disconnect (id : ℕ) (c : LocalCommunicator) (now : ℕ) (s : Connections) :
    Except ObjectFault Connections := do
  let owner := destroyLocal c.name s.handles s.items.owner
  let mem ← destroyShared c.name now s.items.mem
  .ok { s with
    items := { s.items with mem := mem, owner := owner }
    comm := Function.update s.comm id (some { c with dataBuffer := none }) }

/-- The loop of `check_connect_immediately_` over what is left of
`wait_connect_list_`; the entries it keeps are put back. `now id` is the
time when it comes to communicator `id`. -/
def connectLoop (now : ℕ → ℕ) : List ℕ → Connections → Except ObjectFault Connections
  | [], s => .ok s
  | id :: ids, s =>
    match s.comm id with
    | none => connectLoop now ids s
    | some c =>
      if (s.items.mem.shmObjMap[c.name]?).isSome then do
        let s ← connecteTo id c (now id) { s with connectedList := s.connectedList ++ [id] }
        connectLoop now ids s
      else connectLoop now ids { s with waitConnectList := s.waitConnectList ++ [id] }

/-- **`check_connect_immediately_`.** -/
def checkConnectImmediately (now : ℕ → ℕ) (s : Connections) : Except ObjectFault Connections := do
  let s ← connectLoop now s.waitConnectList { s with waitConnectList := [] }
  .ok { s with lastUpdateTime := s.items.mem.updateTime }

/-- The loop of `check_connect_status_` over what is left of
`connected_list_`; the entries it keeps are put back. -/
def statusLoop (now : ℕ → ℕ) : List ℕ → Connections → Except ObjectFault Connections
  | [], s => .ok s
  | id :: ids, s =>
    match s.comm id with
    | none => statusLoop now ids s
    | some c => do
      if ← s.isOnline c.dataBuffer then
        statusLoop now ids { s with connectedList := s.connectedList ++ [id] }
      else
        let s ← disconnect id c (now id) { s with waitConnectList := s.waitConnectList ++ [id] }
        statusLoop now ids s

/-- **`check_connect_status_`.** -/
def checkConnectStatus (now : ℕ → ℕ) (s : Connections) : Except ObjectFault Connections := do
  let updateTime := s.items.mem.updateTime
  let s ←
    if s.lastUpdateTime ≠ updateTime then do
      let s ← checkConnectImmediately now s
      .ok { s with lastUpdateTime := updateTime }
    else .ok s
  statusLoop now s.connectedList { s with connectedList := [] }

/-- A process before its first communicator. -/
def fresh (pid : ℕ) : Connections := ⟨.fresh pid, fun _ => none, 0, [], [], 0⟩

end Connections

/-- What the thread does. -/
inductive ConnectionStep where
  /-- `writer`, `publisher` or `service`. -/
  | construct (kind : LocalEnd) (name : String) (time : ℕ) (now : ℕ → ℕ)
  /-- What it has constructed is destroyed. -/
  | destruct (object : ℕ)
  /-- `reader`, `subscriber` or `client`. -/
  | register (user : LocalUser) (name : String) (now : ℕ → ℕ)
  /-- The last handle to one of these is dropped. -/
  | drop (id : ℕ)
  | checkConnectStatus (now : ℕ → ℕ)

namespace Connections

/-- Take a step, if it is possible and returns. -/
def next (s : Connections) : ConnectionStep → Option Connections
  | .construct kind name time now => do
    let items ← s.items.construct kind name time false
    (checkConnectImmediately now { s with items := items }).toOption
  | .destruct object => (s.items.destruct object).map fun items => { s with items := items }
  | .register user name now =>
    (checkConnectImmediately now { s with
      comm := Function.update s.comm s.nextComm (some ⟨name, user, none⟩)
      nextComm := s.nextComm + 1
      waitConnectList := s.waitConnectList ++ [s.nextComm] }).toOption
  | .drop id =>
    if (s.comm id).isSome then some { s with comm := Function.update s.comm id none } else none
  | .checkConnectStatus now => (s.checkConnectStatus now).toOption

end Connections

/-- **The system of the connections of process `pid`**, as long as it does
not crash. -/
def connectionSystem (pid : ℕ) : TransitionSystem Connections ConnectionStep where
  init s := s = Connections.fresh pid
  step s l s' := s.next l = some s'

namespace Connections

/-! ## What has to hold -/

/-- Who was connected to a name that is offline has been disconnected, and
waits again. -/
def OfflineWait (s s' : Connections) : Prop :=
  ∀ id ∈ s.connectedList, ∀ c ∈ s.comm id, ¬ s.items.Online c.name →
    id ∈ s'.waitConnectList ∧ id ∉ s'.connectedList
      ∧ s'.comm id = some { c with dataBuffer := none }

/-- **All who are connected to a name that is offline** are disconnected by
`check_connect_status_`, which returns, and wait again. -/
def DisconnectsOffline (s : Connections) (now : ℕ → ℕ) : Prop :=
  ∃ s', s.checkConnectStatus now = .ok s' ∧ OfflineWait s s'

/-- The item of the name of a communicator is there. -/
def found (s : Connections) (id : ℕ) : Bool :=
  (s.comm id).any fun c => (s.items.mem.shmObjMap[c.name]?).isSome

/-- Who is connected by `check_connect_status_` before it looks who is
online: those whose item is there, if objects were created or removed since
it did so last. -/
def joining (s : Connections) : List ℕ :=
  if s.lastUpdateTime ≠ s.items.mem.updateTime then s.waitConnectList.filter s.found else []

/-- What `create` returns to a communicator whose item is there. -/
def itemOf (s : Connections) (c : LocalCommunicator) : Option ℕ :=
  s.items.owner.objList[c.name]?.filter fun r =>
    (s.items.owner.retention r).type = some c.user.itemType

/-- The name of a communicator, and the `data_buffer_` it has or gets. -/
def cell (s : Connections) (id : ℕ) : Option (String × Option ℕ) :=
  (s.comm id).map fun c => (c.name, c.dataBuffer)

def joinCell (s : Connections) (id : ℕ) : Option (String × Option ℕ) :=
  (s.comm id).map fun c => (c.name, s.itemOf c)

/-- Who `check_connect_status_` asks whether they are online, in order. -/
def asked (s : Connections) : List (String × Option ℕ) :=
  s.connectedList.filterMap s.cell ++ s.joining.filterMap s.joinCell

/-- **A list of communicators whose items do not vanish** while they are
asked: each has an answer, and nobody who is not online comes before another
one of the name who has a `data_buffer_`. -/
structure Quiet (online : Option ℕ → Except ObjectFault Bool) (l : List (String × Option ℕ)) :
    Prop where
  answers : ∀ p ∈ l, (online p.2).isOk = true
  apart : l.Pairwise fun p q => p.1 = q.1 → online p.2 = .ok false → q.2 = none

/-- **The condition**: subscribers which are connected now find an item of
their type, and nobody's item vanishes. -/
structure Calm (s : Connections) : Prop where
  typed : ∀ id ∈ s.joining, ∀ c ∈ s.comm id, c.user.readsTail = true → s.itemOf c ≠ none
  quiet : Quiet s.isOnline s.asked

instance (online : Option ℕ → Except ObjectFault Bool) (l : List (String × Option ℕ)) :
    Decidable (Quiet online l) :=
  decidable_of_iff ((∀ p ∈ l, (online p.2).isOk = true)
      ∧ l.Pairwise fun p q => p.1 = q.1 → online p.2 = .ok false → q.2 = none)
    ⟨fun h => ⟨h.1, h.2⟩, fun h => ⟨h.answers, h.apart⟩⟩

instance (s : Connections) : Decidable s.Calm :=
  decidable_of_iff ((∀ id ∈ s.joining, ∀ c ∈ s.comm id, c.user.readsTail = true → s.itemOf c ≠ none)
      ∧ Quiet s.isOnline s.asked)
    ⟨fun h => ⟨h.1, h.2⟩, fun h => ⟨h.typed, h.quiet⟩⟩

end Connections

/-! ## Where a retention is -/

variable {mem : ShmSystemSharedInfo} {owner : ExtNodeMapItem} {name k : String} {r : ℕ}

/-- A retention which is kept has a pointer exactly if it is listed. -/
theorem Alone.listed_of_ptr (h : Alone mem owner) (hk : owner.Holds k r) {i : ℕ}
    (hptr : (owner.retention r).ptr = some i) : owner.objList[k]? = some r := by
  rcases hk with hlist | hwait
  · exact hlist
  · rw [(h.waiting k r hwait).2.1] at hptr
    cases hptr

/-- A retention which is kept under a name is not listed under another
one. -/
theorem Alone.holds_ne (h : Alone mem owner) (hk : owner.Holds k r) (hne : k ≠ name) :
    owner.objList[name]? ≠ some r := by
  intro hname
  rcases hk with hlist | hwait
  · exact hne (h.listOneKey k name r hlist hname)
  · exact h.ne_waiting hname hwait rfl

/-- `create` keeps every retention under its name. -/
theorem Alone.holds_create (h : Alone mem owner) (hk : owner.Holds k r) (type name : String)
    (now : ℕ) : (ShmObjManager.create type name now mem owner).2.2.Holds k r := by
  cases hname : owner.objList[name]? with
  | some r' =>
    rw [create_listed hname]
    exact hk
  | none =>
    obtain ⟨r', node, hcreate, hc⟩ := create_new hname (h.not_mapped hname) type now
    rw [hcreate]
    exact hc.holds hname hk

/-- `destroy` keeps every retention under its name, unless nobody has a
handle to it. -/
theorem Alone.holds_destroyLocal (h : Alone mem owner) (hk : owner.Holds k r) (name : String)
    {handles : ℕ → ℕ} (hpos : 0 < handles r) : (destroyLocal name handles owner).Holds k r := by
  refine hk.destroyLocal hpos fun r' hname => ?_
  cases hwait : owner.objRemovedList[name]? with
  | none => rfl
  | some r'' =>
    rw [(h.waiting name r'' hwait).2.2] at hname
    cases hname

namespace Connections

/-! ## The invariant -/

/-- **What holds of the items**: they are those of a process by itself, and
what a communicator has is kept under its name. -/
structure Linked (s : Connections) : Prop where
  alone : Alone s.items.mem s.items.owner
  held : ∀ id c r, s.comm id = some c → c.dataBuffer = some r → s.items.owner.Holds c.name r
  unborn : ∀ id, s.nextComm ≤ id → s.comm id = none

variable {s s' : Connections} {id : ℕ} {c : LocalCommunicator}

/-- What a communicator has is counted. -/
theorem Linked.handles_pos (hs : s.Linked) (hc : s.comm id = some c)
    (hr : c.dataBuffer = some r) : 0 < s.handles r := by
  refine Nat.add_pos_left (List.countP_pos_iff.mpr ⟨id, ?_, ?_⟩) _
  · rw [List.mem_range]
    by_contra hge
    rw [hs.unborn id (not_lt.mp hge)] at hc
    cases hc
  · rw [hc, Option.any_some, hr]
    exact decide_eq_true rfl

/-- **The pointer of what a communicator has** points to an object. -/
theorem get_eq (h : Alone s.items.mem s.items.owner) (r : ℕ) :
    s.get r = match (s.items.owner.retention r).ptr with
      | none => .error .nullDeref
      | some info => .ok info := by
  unfold get
  cases hptr : (s.items.owner.retention r).ptr with
  | none => rfl
  | some i =>
    obtain ⟨o, ho⟩ := h.pointed r i hptr
    dsimp only
    rw [deref_of_some ho]
    rfl

/-- **What `destroy` leaves of who is online**: a communicator of the name
has a null pointer now, and the others have what they had. -/
theorem isOnline_destroyed {mem' : ShmSystemSharedInfo} {handles : ℕ → ℕ}
    (h : Alone s.items.mem s.items.owner)
    (h' : Alone mem' (destroyLocal name handles s.items.owner))
    (hk : s.items.owner.Holds k r)
    (hk' : (destroyLocal name handles s.items.owner).Holds k r)
    (hs' : s'.items = { s.items with
      mem := mem', owner := destroyLocal name handles s.items.owner }) :
    s'.isOnline (some r) = if k = name then .error .nullDeref else s.isOnline (some r) := by
  have hget' : s'.get r = match ((destroyLocal name handles s.items.owner).retention r).ptr with
      | none => .error .nullDeref
      | some info => .ok info := by
    rw [get_eq (by rw [hs']; exact h'), hs']
  unfold isOnline
  dsimp only
  rw [hget', get_eq h]
  by_cases hkn : k = name
  · rw [if_pos hkn]
    cases hptr : ((destroyLocal name handles s.items.owner).retention r).ptr with
    | none => rfl
    | some i =>
      have hlist := h'.listed_of_ptr hk' hptr
      rw [destroyLocal_objList, if_pos hkn] at hlist
      cases hlist
  · rw [if_neg hkn, destroyLocal_retention (h.holds_ne hk hkn), hs']

/-- **What `disconnect_` does.** -/
structure Disconnected (s s' : Connections) (id : ℕ) (c : LocalCommunicator) : Prop where
  waitConnectList : s'.waitConnectList = s.waitConnectList
  connectedList : s'.connectedList = s.connectedList
  comm : s'.comm = Function.update s.comm id (some { c with dataBuffer := none })
  online : ∀ id' c', s.comm id' = some c' → s'.isOnline c'.dataBuffer =
    if c'.name = c.name ∧ c'.dataBuffer ≠ none then .error .nullDeref
    else s.isOnline c'.dataBuffer

/-- **`disconnect_` returns.** -/
theorem Linked.disconnect (hs : s.Linked) (hc : s.comm id = some c) (now : ℕ) :
    ∃ s', s.disconnect id c now = .ok s' ∧ s'.Linked ∧ Disconnected s s' id c
      ∧ s'.nextComm = s.nextComm := by
  obtain ⟨mem', hrun, halone⟩ := hs.alone.destroy c.name s.handles now
  have hholds : ∀ id' c' r, s.comm id' = some c' → c'.dataBuffer = some r →
      (destroyLocal c.name s.handles s.items.owner).Holds c'.name r := by
    intro id' c' r hc' hr
    exact hs.alone.holds_destroyLocal (hs.held id' c' r hc' hr) c.name (hs.handles_pos hc' hr)
  refine ⟨{ s with
      items := { s.items with mem := mem', owner := destroyLocal c.name s.handles s.items.owner }
      comm := Function.update s.comm id (some { c with dataBuffer := none }) },
    ?_, ⟨halone, fun id' c' r hc' hr => ?_, fun id' hid' => ?_⟩, ⟨rfl, rfl, rfl, ?_⟩, rfl⟩
  · unfold Connections.disconnect
    rw [hrun]
    rfl
  · change Function.update _ _ _ id' = _ at hc'
    by_cases hid : id' = id
    · rw [hid, Function.update_self] at hc'
      cases hc'
      cases hr
    · rw [Function.update_of_ne hid] at hc'
      exact hholds id' c' r hc' hr
  · have hne : id' ≠ id := by
      rintro rfl
      rw [hs.unborn id' hid'] at hc
      cases hc
    exact (Function.update_of_ne hne _ _).trans (hs.unborn id' hid')
  · intro id' c' hc'
    cases hr : c'.dataBuffer with
    | none =>
      rw [if_neg fun hand => hand.2 rfl]
      rfl
    | some r =>
      rw [isOnline_destroyed hs.alone halone (hs.held id' c' r hc' hr) (hholds id' c' r hc' hr) rfl]
      exact if_congr (and_iff_left (Option.some_ne_none r)).symm rfl rfl

/-! ## The loop of `check_connect_status_` -/

section Quiet

variable {f f' : Option ℕ → Except ObjectFault Bool} {p : String × Option ℕ}
  {l : List (String × Option ℕ)}

theorem quiet_cons : Quiet f (p :: l) ↔ (f p.2).isOk = true
    ∧ (∀ q ∈ l, p.1 = q.1 → f p.2 = .ok false → q.2 = none) ∧ Quiet f l := by
  constructor
  · rintro ⟨hans, hapart⟩
    obtain ⟨hp, hl⟩ := List.forall_mem_cons.mp hans
    obtain ⟨hq, hapart⟩ := List.pairwise_cons.mp hapart
    exact ⟨hp, hq, hl, hapart⟩
  · rintro ⟨hp, hq, hl, hapart⟩
    exact ⟨List.forall_mem_cons.mpr ⟨hp, hl⟩, List.pairwise_cons.mpr ⟨hq, hapart⟩⟩

theorem Quiet.congr (hl : Quiet f l) (h : ∀ q ∈ l, f' q.2 = f q.2) : Quiet f' l := by
  refine ⟨fun q hq => ?_, hl.apart.imp_of_mem fun {p q} hp _ himp hname => ?_⟩
  · rw [h q hq]
    exact hl.answers q hq
  · rw [h p hp]
    exact himp hname

/-- **After a name is destroyed**, a list is quiet if it was, and nobody of
this name in it has a `data_buffer_`. -/
theorem quiet_destroyed_iff {name : String}
    (h : ∀ q ∈ l, f' q.2 = if q.1 = name ∧ q.2 ≠ none then .error .nullDeref else f q.2) :
    Quiet f' l ↔ (∀ q ∈ l, name = q.1 → q.2 = none) ∧ Quiet f l := by
  have hsame : (∀ q ∈ l, name = q.1 → q.2 = none) → ∀ q ∈ l, f' q.2 = f q.2 := by
    intro hnone q hq
    rw [h q hq, if_neg]
    rintro ⟨hname, hne⟩
    exact hne (hnone q hq hname.symm)
  constructor
  · intro hl
    have hnone : ∀ q ∈ l, name = q.1 → q.2 = none := by
      intro q hq hname
      by_contra hne
      have hans := hl.answers q hq
      rw [h q hq, if_pos ⟨hname.symm, hne⟩] at hans
      cases hans
    exact ⟨hnone, hl.congr fun q hq => (hsame hnone q hq).symm⟩
  · rintro ⟨hnone, hl⟩
    exact hl.congr (hsame hnone)

end Quiet

/-- What a communicator answers when it is asked whether it is online. -/
def answer (s : Connections) (id : ℕ) : Option (Except ObjectFault Bool) :=
  (s.comm id).map fun c => s.isOnline c.dataBuffer

/-- Who is disconnected, and who stays. -/
def leaves (s : Connections) (id : ℕ) : Bool := s.answer id = some (.ok false)

def stays (s : Connections) (id : ℕ) : Bool := s.answer id = some (.ok true)

/-- **What the loop does** for some of the entries. -/
structure Checked (s s' : Connections) (ids : List ℕ) : Prop where
  waitConnectList : s'.waitConnectList = s.waitConnectList ++ ids.filter s.leaves
  connectedList : s'.connectedList = s.connectedList ++ ids.filter s.stays
  comm : ∀ id, s'.comm id = if id ∈ ids ∧ s.leaves id = true
    then (s.comm id).map fun c => { c with dataBuffer := none } else s.comm id
  nextComm : s'.nextComm = s.nextComm

/-- **One entry after the other.** -/
theorem Checked.cons {s₁ : Connections} {ids : List ℕ} (h₁ : Checked s s₁ [id])
    (h : Checked s₁ s' ids) (hid : id ∉ ids) (hans : ∀ id' ∈ ids, s₁.answer id' = s.answer id') :
    Checked s s' (id :: ids) := by
  have hleaves : ∀ id' ∈ ids, s₁.leaves id' = s.leaves id' := by
    intro id' hid'
    unfold leaves
    rw [hans id' hid']
  have hstays : ∀ id' ∈ ids, s₁.stays id' = s.stays id' := by
    intro id' hid'
    unfold stays
    rw [hans id' hid']
  refine ⟨?_, ?_, fun id' => ?_, h.nextComm.trans h₁.nextComm⟩
  · rw [h.waitConnectList, h₁.waitConnectList, List.filter_congr hleaves, List.append_assoc,
      ← List.filter_append, List.singleton_append]
  · rw [h.connectedList, h₁.connectedList, List.filter_congr hstays, List.append_assoc,
      ← List.filter_append, List.singleton_append]
  · rw [h.comm id']
    by_cases hmem : id' ∈ ids
    · have hcomm : s₁.comm id' = s.comm id' := by
        rw [h₁.comm id', if_neg]
        rintro ⟨hid', _⟩
        rw [List.mem_singleton.mp hid'] at hmem
        exact hid hmem
      rw [hcomm, hleaves id' hmem]
      exact if_congr (and_congr_left' (iff_of_true hmem (List.mem_cons_of_mem id hmem))) rfl rfl
    · rw [if_neg fun hand => hmem hand.1, h₁.comm id']
      refine if_congr (and_congr_left' ?_) rfl rfl
      rw [List.mem_singleton, List.mem_cons, or_iff_left hmem]

theorem leaves_eq (hc : s.comm id = some c) :
    s.leaves id = decide (s.isOnline c.dataBuffer = .ok false) := by
  unfold leaves answer
  rw [hc]
  exact decide_eq_decide.mpr Option.some_inj

theorem stays_eq (hc : s.comm id = some c) :
    s.stays id = decide (s.isOnline c.dataBuffer = .ok true) := by
  unfold stays answer
  rw [hc]
  exact decide_eq_decide.mpr Option.some_inj

/-- Nobody is left behind the pointer. -/
theorem Checked.expired (hc : s.comm id = none) : Checked s s [id] := by
  have hans : s.answer id = none := by
    unfold answer
    rw [hc]
    rfl
  have hleaves : s.leaves id = false := by
    unfold leaves
    rw [hans]
    rfl
  have hstays : s.stays id = false := by
    unfold stays
    rw [hans]
    rfl
  refine ⟨?_, ?_, fun id' => ?_, rfl⟩
  · rw [List.filter_singleton, hleaves]
    exact (List.append_nil _).symm
  · rw [List.filter_singleton, hstays]
    exact (List.append_nil _).symm
  · rw [if_neg]
    rintro ⟨hmem, hleaves'⟩
    rw [List.mem_singleton.mp hmem, hleaves] at hleaves'
    cases hleaves'

/-- Who is online stays. -/
theorem Checked.online (hc : s.comm id = some c) (hon : s.isOnline c.dataBuffer = .ok true) :
    Checked s { s with connectedList := s.connectedList ++ [id] } [id] := by
  have hleaves : s.leaves id = false := by
    rw [leaves_eq hc, hon]
    rfl
  have hstays : s.stays id = true := by
    rw [stays_eq hc, hon]
    rfl
  refine ⟨?_, ?_, fun id' => ?_, rfl⟩
  · rw [List.filter_singleton, hleaves]
    exact (List.append_nil _).symm
  · rw [List.filter_singleton, hstays]
    rfl
  · rw [if_neg]
    rintro ⟨hmem, hleaves'⟩
    rw [List.mem_singleton.mp hmem, hleaves] at hleaves'
    cases hleaves'

/-- Who is not is disconnected. -/
theorem Checked.offline {s₁ : Connections} (hc : s.comm id = some c)
    (hon : s.isOnline c.dataBuffer = .ok false)
    (hd : Disconnected { s with waitConnectList := s.waitConnectList ++ [id] } s₁ id c)
    (hnext : s₁.nextComm = s.nextComm) : Checked s s₁ [id] := by
  have hleaves : s.leaves id = true := by
    rw [leaves_eq hc, hon]
    rfl
  have hstays : s.stays id = false := by
    rw [stays_eq hc, hon]
    rfl
  refine ⟨?_, ?_, fun id' => ?_, hnext⟩
  · rw [List.filter_singleton, hleaves, hd.waitConnectList]
    rfl
  · rw [List.filter_singleton, hstays, hd.connectedList]
    exact (List.append_nil _).symm
  · rw [hd.comm]
    show Function.update s.comm id _ id' = _
    by_cases hid : id' = id
    · rw [hid, Function.update_self, if_pos ⟨List.mem_singleton_self id, hleaves⟩, hc]
      rfl
    · rw [Function.update_of_ne hid, if_neg fun hand => hid (List.mem_singleton.mp hand.1)]

/-- Who has a name and a `data_buffer_`. -/
theorem mem_cells {ids : List ℕ} {q : String × Option ℕ} :
    q ∈ ids.filterMap s.cell ↔ ∃ id ∈ ids, ∃ c, s.comm id = some c ∧ (c.name, c.dataBuffer) = q := by
  rw [List.mem_filterMap]
  refine exists_congr fun id => and_congr_right fun _ => ?_
  unfold cell
  exact Option.map_eq_some_iff

theorem cell_eq (hc : s.comm id = some c) : s.cell id = some (c.name, c.dataBuffer) := by
  unfold cell
  rw [hc]
  rfl

/-- **The entry that is asked is offline**: it is disconnected, and the
object of its name is destroyed, whoever else has connected to it. -/
theorem Linked.statusLoop_offline (hs : s.Linked) (hc : s.comm id = some c)
    (hon : s.isOnline c.dataBuffer = .ok false) (now : ℕ → ℕ) {ids : List ℕ} (hid : id ∉ ids) :
    ∃ s₁, statusLoop now (id :: ids) s = statusLoop now ids s₁ ∧ s₁.Linked ∧ Checked s s₁ [id]
      ∧ (∀ id' ∈ ids, s₁.comm id' = s.comm id')
      ∧ ∀ q ∈ ids.filterMap s.cell, s₁.isOnline q.2 =
        if q.1 = c.name ∧ q.2 ≠ none then .error .nullDeref else s.isOnline q.2 := by
  obtain ⟨s₁, hdis, hs₁, hd, hnext⟩ := Linked.disconnect
    (s := { s with waitConnectList := s.waitConnectList ++ [id] })
    ⟨hs.alone, hs.held, hs.unborn⟩ hc (now id)
  refine ⟨s₁, ?_, hs₁, .offline hc hon hd hnext, fun id' hid' => ?_, fun q hq => ?_⟩
  · rw [statusLoop, hc]
    dsimp only
    rw [hon]
    show (Connections.disconnect id c (now id) _ >>= _) = _
    rw [hdis]
    rfl
  · rw [hd.comm]
    refine Function.update_of_ne ?_ _ _
    rintro rfl
    exact hid hid'
  · obtain ⟨id', _, c', hc', rfl⟩ := mem_cells.mp hq
    exact hd.online id' c' hc'

/-- **The loop returns exactly if the list is quiet**, and does what it
should. -/
theorem statusLoop_spec (now : ℕ → ℕ) {ids : List ℕ} (hids : ids.Nodup) (hs : s.Linked) :
    (Quiet s.isOnline (ids.filterMap s.cell) →
      ∃ s', statusLoop now ids s = .ok s' ∧ s'.Linked ∧ Checked s s' ids)
      ∧ ∀ s', statusLoop now ids s = .ok s' → Quiet s.isOnline (ids.filterMap s.cell) := by
  induction ids generalizing s with
  | nil =>
    refine ⟨fun _ => ⟨s, rfl, hs, (List.append_nil _).symm, (List.append_nil _).symm,
      fun id => (if_neg ?_).symm, rfl⟩, fun _ _ => ⟨nofun, .nil⟩⟩
    rintro ⟨hmem, _⟩
    cases hmem
  | cons id ids ih =>
    obtain ⟨hid, hids⟩ := List.nodup_cons.mp hids
    cases hc : s.comm id with
    | none =>
      have hcell : s.cell id = none := by
        unfold cell
        rw [hc]
        rfl
      have hrun : statusLoop now (id :: ids) s = statusLoop now ids s := by
        rw [statusLoop, hc]
      obtain ⟨hok, hquiet⟩ := ih hids hs
      rw [List.filterMap_cons_none hcell, hrun]
      refine ⟨fun hq => ?_, hquiet⟩
      obtain ⟨s', hrun', hs', hch⟩ := hok hq
      exact ⟨s', hrun', hs', (Checked.expired hc).cons hch hid fun _ _ => rfl⟩
    | some c =>
      rw [List.filterMap_cons_some (cell_eq hc), quiet_cons]
      cases hon : s.isOnline c.dataBuffer with
      | error e =>
        have hrun : statusLoop now (id :: ids) s = .error e := by
          rw [statusLoop, hc]
          dsimp only
          rw [hon]
          rfl
        refine ⟨fun hq => ?_, fun s' hs' => ?_⟩
        · cases hq.1
        · rw [hrun] at hs'
          cases hs'
      | ok b =>
        cases b with
        | true =>
          have hrun : statusLoop now (id :: ids) s
              = statusLoop now ids { s with connectedList := s.connectedList ++ [id] } := by
            rw [statusLoop, hc]
            dsimp only
            rw [hon]
            rfl
          obtain ⟨hok, hquiet⟩ := ih (s := { s with connectedList := s.connectedList ++ [id] }) hids
            ⟨hs.alone, hs.held, hs.unborn⟩
          rw [hrun]
          refine ⟨fun hq => ?_, fun s' hs' => ⟨rfl, fun q _ _ hfalse => ?_, hquiet s' hs'⟩⟩
          · obtain ⟨s', hrun', hs', hch⟩ := hok hq.2.2
            exact ⟨s', hrun', hs', (Checked.online hc hon).cons hch hid fun _ _ => rfl⟩
          · cases hfalse
        | false =>
          obtain ⟨s₁, hrun, hs₁, hch₁, hcomm, honline⟩ := hs.statusLoop_offline hc hon now hid
          have hcells : ids.filterMap s₁.cell = ids.filterMap s.cell := by
            refine List.filterMap_congr fun id' hid' => ?_
            unfold cell
            rw [hcomm id' hid']
          obtain ⟨hok, hquiet⟩ := ih hids hs₁
          rw [hcells, quiet_destroyed_iff honline] at hok hquiet
          rw [hrun]
          refine ⟨fun ⟨_, hnone, hq⟩ => ?_, fun s' hs' => ?_⟩
          · have hnone : ∀ q ∈ ids.filterMap s.cell, c.name = q.1 → q.2 = none :=
              fun q hq hname => hnone q hq hname rfl
            obtain ⟨s', hrun', hs', hch⟩ := hok ⟨hnone, hq⟩
            refine ⟨s', hrun', hs', hch₁.cons hch hid fun id' hid' => ?_⟩
            unfold answer
            rw [hcomm id' hid']
            cases hc' : s.comm id' with
            | none => rfl
            | some c' =>
              have hmem := mem_cells.mpr ⟨id', hid', c', hc', rfl⟩
              refine congrArg some ((honline _ hmem).trans (if_neg ?_))
              rintro ⟨hname, hne⟩
              exact hne (hnone _ hmem hname.symm)
          · obtain ⟨hnone, hq⟩ := hquiet s' hs'
            exact ⟨rfl, fun q hq hname _ => hnone q hq hname, hq⟩

/-! ## The loop of `check_connect_immediately_` -/

theorem found_eq (hc : s.comm id = some c) :
    s.found id = (s.items.mem.shmObjMap[c.name]?).isSome := by
  unfold found
  rw [hc, Option.any_some]

/-- What a communicator is given is listed under its name. -/
theorem listed_of_itemOf (hr : s.itemOf c = some r) :
    s.items.owner.objList[c.name]? = some r :=
  (Option.filter_eq_some_iff.mp hr).1

/-- **`connecte_to_`**, if there is an item: a subscriber crashes if this is
not of its type. -/
theorem Linked.connecteTo (hs : s.Linked) (hc : s.comm id = some c) (hf : s.found id = true)
    (now : ℕ) : s.connecteTo id c now = if c.user.readsTail = true ∧ s.itemOf c = none
      then .error .nullDeref
      else .ok { s with
        comm := Function.update s.comm id (some { c with dataBuffer := s.itemOf c }) } := by
  rw [found_eq hc] at hf
  obtain ⟨i, hi⟩ := Option.isSome_iff_exists.mp hf
  obtain ⟨r, hr⟩ := hs.alone.mapped c.name i hi
  have hcreate : create c.user.itemType c.name now s.items.mem s.items.owner
      = (s.itemOf c, s.items.mem, s.items.owner) := by
    rw [create_listed hr]
    unfold itemOf
    rw [hr, Option.filter_some]
    refine congrArg (·, _) (if_congr decide_eq_true_iff.symm rfl rfl)
  unfold Connections.connecteTo
  rw [hcreate]
  dsimp only
  cases htail : c.user.readsTail with
  | false => exact (if_neg fun hand => Bool.false_ne_true hand.1).symm
  | true =>
    rw [if_pos rfl]
    cases hitem : s.itemOf c with
    | none => exact (if_pos ⟨rfl, rfl⟩).symm
    | some r =>
      obtain ⟨_, i, hptr, _⟩ := hs.alone.listed c.name r (listed_of_itemOf hitem)
      rw [if_neg fun hand => Option.some_ne_none r hand.2]
      dsimp only
      rw [get_eq (by exact hs.alone)]
      dsimp only
      rw [hptr]
      rfl

/-- **What the loop does** for some of the entries. -/
structure Joined (s s' : Connections) (ids : List ℕ) : Prop where
  items : s'.items = s.items
  waitConnectList : s'.waitConnectList =
    s.waitConnectList ++ ids.filter fun id => (s.comm id).isSome && !s.found id
  connectedList : s'.connectedList = s.connectedList ++ ids.filter s.found
  comm : ∀ id, s'.comm id = if id ∈ ids ∧ s.found id = true
    then (s.comm id).map fun c => { c with dataBuffer := s.itemOf c } else s.comm id
  nextComm : s'.nextComm = s.nextComm
  lastUpdateTime : s'.lastUpdateTime = s.lastUpdateTime

/-- Connecting keeps the invariant. -/
theorem Joined.linked {ids : List ℕ} (h : Joined s s' ids) (hs : s.Linked) : s'.Linked := by
  refine ⟨h.items ▸ hs.alone, fun id c r hc hr => ?_, fun id hid => ?_⟩
  · rw [h.items]
    rw [h.comm id] at hc
    split at hc
    · obtain ⟨c₀, _, rfl⟩ := Option.map_eq_some_iff.mp hc
      exact Or.inl (listed_of_itemOf hr)
    · exact hs.held id c r hc hr
  · rw [h.nextComm] at hid
    rw [h.comm id, hs.unborn id hid]
    exact ite_self _

/-- **One entry after the other.** -/
theorem Joined.cons {s₁ : Connections} {ids : List ℕ} (h₁ : Joined s s₁ [id])
    (h : Joined s₁ s' ids) (hid : id ∉ ids) : Joined s s' (id :: ids) := by
  have hcomm : ∀ id' ∈ ids, s₁.comm id' = s.comm id' := by
    intro id' hmem
    rw [h₁.comm id', if_neg]
    rintro ⟨hid', _⟩
    rw [List.mem_singleton.mp hid'] at hmem
    exact hid hmem
  have hfound : ∀ id' ∈ ids, s₁.found id' = s.found id' := by
    intro id' hmem
    unfold found
    rw [hcomm id' hmem, h₁.items]
  refine ⟨h.items.trans h₁.items, ?_, ?_, fun id' => ?_, h.nextComm.trans h₁.nextComm,
    h.lastUpdateTime.trans h₁.lastUpdateTime⟩
  · have hwait : ∀ id' ∈ ids, ((s₁.comm id').isSome && !s₁.found id')
        = ((s.comm id').isSome && !s.found id') := by
      intro id' hmem
      rw [hcomm id' hmem, hfound id' hmem]
    rw [h.waitConnectList, h₁.waitConnectList, List.append_assoc, List.filter_congr hwait,
      ← List.filter_append, List.singleton_append]
  · rw [h.connectedList, h₁.connectedList, List.filter_congr hfound, List.append_assoc,
      ← List.filter_append, List.singleton_append]
  · rw [h.comm id']
    by_cases hmem : id' ∈ ids
    · have hitem : ∀ c, s₁.itemOf c = s.itemOf c := by
        intro c
        unfold itemOf
        rw [h₁.items]
      simp only [hitem]
      rw [hcomm id' hmem, hfound id' hmem]
      exact if_congr (and_congr_left' (iff_of_true hmem (List.mem_cons_of_mem id hmem))) rfl rfl
    · rw [if_neg fun hand => hmem hand.1, h₁.comm id']
      refine if_congr (and_congr_left' ?_) rfl rfl
      rw [List.mem_singleton, List.mem_cons, or_iff_left hmem]

/-- An entry which is not found, or has expired. -/
theorem Joined.of_not_found {l : List ℕ} (hf : s.found id = false)
    (hl : l = [id].filter fun id => (s.comm id).isSome && !s.found id) :
    Joined s { s with waitConnectList := s.waitConnectList ++ l } [id] := by
  refine ⟨rfl, congrArg (_ ++ ·) hl, ?_, fun id' => (if_neg ?_).symm, rfl, rfl⟩
  · rw [List.filter_singleton, hf]
    exact (List.append_nil _).symm
  · rintro ⟨hmem, hf'⟩
    rw [List.mem_singleton.mp hmem, hf] at hf'
    cases hf'

/-- An entry which is found. -/
theorem Joined.of_found (hc : s.comm id = some c) (hf : s.found id = true) :
    Joined s { s with
      connectedList := s.connectedList ++ [id]
      comm := Function.update s.comm id (some { c with dataBuffer := s.itemOf c }) } [id] := by
  refine ⟨rfl, ?_, ?_, fun id' => ?_, rfl, rfl⟩
  · rw [List.filter_singleton, hf, Bool.not_true, Bool.and_false]
    exact (List.append_nil _).symm
  · rw [List.filter_singleton, hf]
    rfl
  · show Function.update s.comm id _ id' = _
    by_cases hid : id' = id
    · rw [hid, Function.update_self, if_pos ⟨List.mem_singleton_self id, hf⟩, hc]
      rfl
    · rw [Function.update_of_ne hid, if_neg fun hand => hid (List.mem_singleton.mp hand.1)]

/-- The subscribers whose item is there find one of their type. -/
def Typed (s : Connections) (ids : List ℕ) : Prop :=
  ∀ id ∈ ids, s.found id = true → ∀ c ∈ s.comm id, c.user.readsTail = true → s.itemOf c ≠ none

/-- **The loop returns exactly if subscribers find items of their type**, and
does what it should. -/
theorem connectLoop_spec (now : ℕ → ℕ) {ids : List ℕ} (hids : ids.Nodup) (hs : s.Linked) :
    (s.Typed ids → ∃ s', connectLoop now ids s = .ok s' ∧ Joined s s' ids)
      ∧ ∀ s', connectLoop now ids s = .ok s' → s.Typed ids := by
  induction ids generalizing s with
  | nil =>
    refine ⟨fun _ => ⟨s, rfl, rfl, (List.append_nil _).symm, (List.append_nil _).symm,
      fun id => (if_neg ?_).symm, rfl, rfl⟩, fun _ _ => nofun⟩
    rintro ⟨hmem, _⟩
    cases hmem
  | cons id ids ih =>
    obtain ⟨hid, hids⟩ := List.nodup_cons.mp hids
    -- what the rest of the loop says, once the first entry is done
    have hrest : ∀ s₁, connectLoop now (id :: ids) s = connectLoop now ids s₁ →
        Joined s s₁ [id] →
        (s.found id = true → ∀ c ∈ s.comm id, c.user.readsTail = true → s.itemOf c ≠ none) →
        (s.Typed (id :: ids) → ∃ s', connectLoop now (id :: ids) s = .ok s' ∧ Joined s s' (id :: ids))
          ∧ ∀ s', connectLoop now (id :: ids) s = .ok s' → s.Typed (id :: ids) := by
      intro s₁ hrun hj htyped
      obtain ⟨hok, hback⟩ := ih hids (hj.linked hs)
      have hiff : s₁.Typed ids ↔ ∀ id' ∈ ids, s.found id' = true → ∀ c ∈ s.comm id',
          c.user.readsTail = true → s.itemOf c ≠ none := by
        refine forall_congr' fun id' => forall_congr' fun hmem => ?_
        have hcomm : s₁.comm id' = s.comm id' := by
          rw [hj.comm id', if_neg]
          rintro ⟨hid', _⟩
          rw [List.mem_singleton.mp hid'] at hmem
          exact hid hmem
        unfold found itemOf
        rw [hcomm, hj.items]
      rw [hrun]
      refine ⟨fun h => ?_, fun s' hs' => ?_⟩
      · obtain ⟨s', hrun', hj'⟩ := hok (hiff.mpr fun id' hmem => h id' (List.mem_cons_of_mem id hmem))
        exact ⟨s', hrun', hj.cons hj' hid⟩
      · intro id' hmem
        rcases List.mem_cons.mp hmem with rfl | hmem
        · exact htyped
        · exact hiff.mp (hback s' hs') id' hmem
    cases hc : s.comm id with
    | none =>
      have hf : s.found id = false := by
        unfold found
        rw [hc]
        rfl
      refine hrest s ?_ ?_ fun hf' => ?_
      · rw [connectLoop, hc]
      · have hj := Joined.of_not_found (l := []) hf (by rw [List.filter_singleton, hc]; rfl)
        rw [List.append_nil] at hj
        exact hj
      · rw [hf] at hf'
        cases hf'
    | some c =>
      cases hf : s.found id with
      | false =>
        refine hrest _ ?_ (Joined.of_not_found (l := [id]) hf ?_) fun hf' => ?_
        · rw [connectLoop, hc]
          dsimp only
          rw [← found_eq hc, hf]
          rfl
        · rw [List.filter_singleton, hc, hf]
          rfl
        · rw [hf] at hf'
          cases hf'
      | true =>
        have hconnect : Connections.connecteTo id c (now id)
            { s with connectedList := s.connectedList ++ [id] }
              = if c.user.readsTail = true ∧ s.itemOf c = none then .error .nullDeref
                else .ok { s with
                  connectedList := s.connectedList ++ [id]
                  comm := Function.update s.comm id (some { c with dataBuffer := s.itemOf c }) } :=
          Linked.connecteTo (s := { s with connectedList := s.connectedList ++ [id] })
            ⟨hs.alone, hs.held, hs.unborn⟩ hc hf (now id)
        have hrun : connectLoop now (id :: ids) s =
            (Connections.connecteTo id c (now id)
              { s with connectedList := s.connectedList ++ [id] } >>= connectLoop now ids) := by
          rw [connectLoop, hc]
          dsimp only
          rw [← found_eq hc, hf]
          rfl
        rw [hconnect] at hrun
        by_cases hcrash : c.user.readsTail = true ∧ s.itemOf c = none
        · rw [if_pos hcrash] at hrun
          refine ⟨fun h => ?_, fun s' hs' => ?_⟩
          · exact absurd hcrash.2 (h id List.mem_cons_self hf c hc hcrash.1)
          · rw [hrun] at hs'
            cases hs'
        · rw [if_neg hcrash] at hrun
          refine hrest _ hrun (Joined.of_found hc hf) fun _ c' hc' htail hnone => ?_
          rw [Option.mem_def, hc] at hc'
          cases hc'
          exact hcrash ⟨htail, hnone⟩

/-! ## The checks -/

/-- **The invariant**: next to that of the items, nobody is in the lists
twice. -/
structure Inv (s : Connections) : Prop where
  linked : s.Linked
  nodup : (s.waitConnectList ++ s.connectedList).Nodup
  born : ∀ id ∈ s.waitConnectList ++ s.connectedList, id < s.nextComm

/-- A list some of which goes to one list, and some to another. -/
theorem nodup_moved {a b : List ℕ} {p q : ℕ → Bool} (h : (a ++ b).Nodup)
    (hpq : ∀ x, p x = true → q x = false) : (a ++ b.filter p ++ b.filter q).Nodup := by
  obtain ⟨ha, hb, hab⟩ := List.nodup_append.mp h
  refine List.nodup_append.mpr ⟨List.nodup_append.mpr ⟨ha, hb.filter p, ?_⟩, hb.filter q, ?_⟩
  · intro x hx y hy
    exact hab x hx y (List.mem_filter.mp hy).1
  · rintro x hx _ hy rfl
    obtain ⟨hxb, hxq⟩ := List.mem_filter.mp hy
    rcases List.mem_append.mp hx with hxa | hxp
    · exact hab x hxa x hxb rfl
    · rw [hpq x (List.mem_filter.mp hxp).2] at hxq
      cases hxq

theorem mem_moved {a b : List ℕ} {p q : ℕ → Bool} {x : ℕ}
    (hx : x ∈ a ++ b.filter p ++ b.filter q) : x ∈ a ++ b := by
  rcases List.mem_append.mp hx with hx | hx
  · rcases List.mem_append.mp hx with hx | hx
    · exact List.mem_append_left b hx
    · exact List.mem_append_right a (List.mem_filter.mp hx).1
  · exact List.mem_append_right a (List.mem_filter.mp hx).1

/-- **`check_connect_immediately_`** keeps the invariant. -/
theorem Inv.joined {s₁ : Connections} (h : s.Inv)
    (hj : Joined { s with waitConnectList := [] } s₁ s.waitConnectList) : s₁.Inv := by
  have hpq : ∀ id, s.found id = true → ((s.comm id).isSome && !s.found id) = false := by
    intro id hf
    rw [hf, Bool.not_true, Bool.and_false]
  have hlists : s₁.connectedList ++ s₁.waitConnectList =
      s.connectedList ++ s.waitConnectList.filter s.found
        ++ s.waitConnectList.filter fun id => (s.comm id).isSome && !s.found id := by
    rw [hj.connectedList, hj.waitConnectList]
    rfl
  refine ⟨hj.linked ⟨h.linked.alone, h.linked.held, h.linked.unborn⟩, ?_, fun id hid => ?_⟩
  · rw [List.nodup_append_comm, hlists]
    exact nodup_moved (List.nodup_append_comm.mp h.nodup) hpq
  · rw [hj.nextComm]
    have hmem : id ∈ s₁.connectedList ++ s₁.waitConnectList :=
      List.mem_append.mpr (List.mem_append.mp hid).symm
    rw [hlists] at hmem
    exact h.born id (List.mem_append.mpr (List.mem_append.mp (mem_moved hmem)).symm)

/-- **The loop of `check_connect_status_`** keeps the invariant. -/
theorem Inv.checked (h : s.Inv) (hs' : s'.Linked)
    (hch : Checked { s with connectedList := [] } s' s.connectedList) : s'.Inv := by
  have hpq : ∀ id, s.leaves id = true → s.stays id = false := by
    intro id hl
    unfold leaves at hl
    unfold stays
    rw [of_decide_eq_true hl]
    rfl
  have hlists : s'.waitConnectList ++ s'.connectedList =
      s.waitConnectList ++ s.connectedList.filter s.leaves ++ s.connectedList.filter s.stays := by
    rw [hch.connectedList, hch.waitConnectList]
    rfl
  refine ⟨hs', ?_, fun id hid => ?_⟩
  · rw [hlists]
    exact nodup_moved h.nodup hpq
  · rw [hch.nextComm]
    rw [hlists] at hid
    exact h.born id (mem_moved hid)

theorem isOnline_congr (h : s'.items = s.items) : s'.isOnline = s.isOnline := by
  funext b
  unfold isOnline get
  rw [h]

/-- **Who is connected to a name that is offline** has this for an answer,
if any. -/
theorem Linked.isOnline_of_offline (hs : s.Linked) (hc : s.comm id = some c)
    (hoff : ¬ s.items.Online c.name) (hok : (s.isOnline c.dataBuffer).isOk = true) :
    s.isOnline c.dataBuffer = .ok false := by
  cases hr : c.dataBuffer with
  | none => rfl
  | some r =>
    rw [hr] at hok
    unfold isOnline at hok ⊢
    dsimp only at hok ⊢
    rw [get_eq hs.alone] at hok ⊢
    cases hptr : (s.items.owner.retention r).ptr with
    | none =>
      rw [hptr] at hok
      cases hok
    | some i =>
      have hlist := hs.alone.listed_of_ptr (hs.held id c r hc hr) hptr
      have hitem : s.items.item c.name = some i := Option.bind_eq_some_iff.mpr ⟨r, hlist, hptr⟩
      cases hon : s.items.isOnline i with
      | true => exact absurd ⟨i, hitem, hon⟩ hoff
      | false => exact congrArg Except.ok hon

/-- The list which `check_connect_status_` goes over is the one foreseen. -/
theorem Joined.asked {s₁ : Connections} (h : s.Inv)
    (hj : Joined { s with waitConnectList := [] } s₁ s.waitConnectList) :
    s₁.connectedList.filterMap s₁.cell = s.connectedList.filterMap s.cell
      ++ (s.waitConnectList.filter s.found).filterMap s.joinCell := by
  have hdisjoint := (List.nodup_append.mp h.nodup).2.2
  rw [hj.connectedList, List.filterMap_append]
  refine congrArg₂ (· ++ ·) (List.filterMap_congr fun id hid => ?_)
    (List.filterMap_congr fun id hid => ?_)
  · unfold cell
    rw [hj.comm id, if_neg fun hand => hdisjoint id hand.1 id hid rfl]
  · obtain ⟨hmem, hf⟩ := List.mem_filter.mp hid
    unfold cell joinCell
    rw [hj.comm id, if_pos ⟨hmem, hf⟩, Option.map_map]
    rfl

/-- **What `check_connect_status_` does**, once it has connected who
waits. -/
theorem Inv.status (h : s.Inv) (now : ℕ → ℕ) :
    (Quiet s.isOnline (s.connectedList.filterMap s.cell) →
      ∃ s', statusLoop now s.connectedList { s with connectedList := [] } = .ok s' ∧ s'.Inv
        ∧ OfflineWait s s')
      ∧ ∀ s', statusLoop now s.connectedList { s with connectedList := [] } = .ok s' →
        Quiet s.isOnline (s.connectedList.filterMap s.cell) := by
  obtain ⟨hok, hback⟩ := statusLoop_spec (s := { s with connectedList := [] }) now
    (List.nodup_append.mp h.nodup).2.1 ⟨h.linked.alone, h.linked.held, h.linked.unborn⟩
  refine ⟨fun hq => ?_, hback⟩
  obtain ⟨s', hrun, hs', hch⟩ := hok hq
  refine ⟨s', hrun, h.checked hs' hch, fun id hid c hc hoff => ?_⟩
  have hon := h.linked.isOnline_of_offline hc hoff
    (hq.answers _ (mem_cells.mpr ⟨id, hid, c, hc, rfl⟩))
  have hleaves : s.leaves id = true := by
    rw [leaves_eq hc, hon]
    rfl
  have hstays : s.stays id = false := by
    rw [stays_eq hc, hon]
    rfl
  refine ⟨?_, ?_, ?_⟩
  · rw [hch.waitConnectList]
    exact List.mem_append_right _ (List.mem_filter.mpr ⟨hid, hleaves⟩)
  · rw [hch.connectedList]
    intro hmem
    obtain ⟨_, hmem⟩ := List.mem_filter.mp ((List.mem_append.mp hmem).resolve_left List.not_mem_nil)
    exact Bool.false_ne_true (hstays.symm.trans hmem)
  · rw [hch.comm id, if_pos ⟨hid, hleaves⟩]
    show (s.comm id).map _ = _
    rw [Option.mem_def.mp hc]
    rfl

/-- **What `check_connect_immediately_` does.** -/
theorem Inv.immediately (h : s.Inv) (now : ℕ → ℕ) :
    (s.Typed s.waitConnectList →
      ∃ s₁, connectLoop now s.waitConnectList { s with waitConnectList := [] } = .ok s₁ ∧ s₁.Inv
        ∧ Joined { s with waitConnectList := [] } s₁ s.waitConnectList)
      ∧ ∀ s₁, connectLoop now s.waitConnectList { s with waitConnectList := [] } = .ok s₁ →
        s.Typed s.waitConnectList := by
  obtain ⟨hok, hback⟩ := connectLoop_spec (s := { s with waitConnectList := [] }) now
    (List.nodup_append.mp h.nodup).1 ⟨h.linked.alone, h.linked.held, h.linked.unborn⟩
  refine ⟨fun ht => ?_, hback⟩
  obtain ⟨s₁, hrun, hj⟩ := hok ht
  exact ⟨s₁, hrun, h.joined hj, hj⟩

/-- The time of the last check is not in the invariant. -/
theorem Inv.withTime (h : s.Inv) (time : ℕ) : ({ s with lastUpdateTime := time } : Connections).Inv :=
  ⟨⟨h.linked.alone, h.linked.held, h.linked.unborn⟩, h.nodup, h.born⟩

/-- **What `check_connect_status_` does with those it has connected.** -/
theorem Inv.status_joined {s₁ : Connections} (h : s.Inv) (h₁ : s₁.Inv)
    (hj : Joined { s with waitConnectList := [] } s₁ s.waitConnectList)
    (hasked : s₁.connectedList.filterMap s₁.cell = s.asked) (now : ℕ → ℕ) (time : ℕ) :
    (Quiet s.isOnline s.asked → ∃ s', statusLoop now s₁.connectedList
        { s₁ with lastUpdateTime := time, connectedList := [] } = .ok s' ∧ s'.Inv ∧ OfflineWait s s')
      ∧ ∀ s', statusLoop now s₁.connectedList
        { s₁ with lastUpdateTime := time, connectedList := [] } = .ok s' →
        Quiet s.isOnline s.asked := by
  obtain ⟨hok, hback⟩ := (h₁.withTime time).status now
  have hdisjoint := (List.nodup_append.mp h.nodup).2.2
  have honline : s₁.isOnline = s.isOnline := isOnline_congr hj.items
  rw [← hasked, ← honline]
  refine ⟨fun hq => ?_, hback⟩
  obtain ⟨s', hrun', hs', hdis⟩ := hok hq
  refine ⟨s', hrun', hs', fun id hid c hc hoff => hdis id ?_ c ?_ ?_⟩
  · show id ∈ s₁.connectedList
    rw [hj.connectedList]
    exact List.mem_append_left _ hid
  · show s₁.comm id = some c
    rw [hj.comm id, if_neg fun hand => hdisjoint id hand.1 id hid rfl]
    exact hc
  · show ¬ s₁.items.Online c.name
    rw [hj.items]
    exact hoff

/-- **`check_connect_status_` is calm exactly if it returns**, and then does
what it should. -/
theorem Inv.checkConnectStatus (h : s.Inv) (now : ℕ → ℕ) :
    (s.Calm → ∃ s', s.checkConnectStatus now = .ok s' ∧ s'.Inv ∧ OfflineWait s s')
      ∧ ∀ s', s.checkConnectStatus now = .ok s' → s.Calm := by
  by_cases htime : s.lastUpdateTime = s.items.mem.updateTime
  · have hrun : s.checkConnectStatus now
        = statusLoop now s.connectedList { s with connectedList := [] } := by
      unfold Connections.checkConnectStatus
      dsimp only
      rw [if_neg (not_not.mpr htime)]
      rfl
    have hjoin : s.joining = [] := if_neg (not_not.mpr htime)
    have hasked : s.asked = s.connectedList.filterMap s.cell := by
      unfold asked
      rw [hjoin]
      exact List.append_nil _
    obtain ⟨hok, hback⟩ := h.status now
    rw [hrun]
    refine ⟨fun hcalm => hok (hasked ▸ hcalm.quiet), fun s' hs' => ⟨fun id hid => ?_, ?_⟩⟩
    · rw [hjoin] at hid
      cases hid
    · rw [hasked]
      exact hback s' hs'
  · have hrun : s.checkConnectStatus now
        = (connectLoop now s.waitConnectList { s with waitConnectList := [] } >>= fun s₁ =>
          statusLoop now s₁.connectedList { s₁ with
            lastUpdateTime := s.items.mem.updateTime, connectedList := [] }) := by
      unfold Connections.checkConnectStatus checkConnectImmediately
      dsimp only
      rw [if_pos htime]
      cases connectLoop now s.waitConnectList { s with waitConnectList := [] } with
      | error e => rfl
      | ok s₁ => rfl
    have hjoin : s.joining = s.waitConnectList.filter s.found := if_pos htime
    have htyped : s.Typed s.waitConnectList ↔ ∀ id ∈ s.joining, ∀ c ∈ s.comm id,
        c.user.readsTail = true → s.itemOf c ≠ none := by
      rw [hjoin]
      constructor
      · intro ht id hid
        obtain ⟨hmem, hf⟩ := List.mem_filter.mp hid
        exact ht id hmem hf
      · intro ht id hmem hf
        exact ht id (List.mem_filter.mpr ⟨hmem, hf⟩)
    have hasked : ∀ s₁, Joined { s with waitConnectList := [] } s₁ s.waitConnectList →
        s₁.connectedList.filterMap s₁.cell = s.asked := by
      intro s₁ hj
      unfold asked
      rw [hjoin]
      exact hj.asked h
    obtain ⟨hok, hback⟩ := h.immediately now
    rw [hrun]
    refine ⟨fun hcalm => ?_, fun s' hs' => ?_⟩
    · obtain ⟨s₁, hrun₁, h₁, hj⟩ := hok (htyped.mpr hcalm.typed)
      rw [hrun₁, Except.ok_bind]
      exact (h.status_joined h₁ hj (hasked s₁ hj) now _).1 hcalm.quiet
    · obtain ⟨s₁, hrun₁, hs'⟩ := Except.bind_eq_ok.mp hs'
      have ht := hback s₁ hrun₁
      obtain ⟨s₁', hrun₁', h₁, hj⟩ := hok ht
      cases hrun₁.symm.trans hrun₁'
      exact ⟨htyped.mp ht, (h.status_joined h₁ hj (hasked s₁ hj) now _).2 s' hs'⟩

/-! ## Runs -/

/-- A constructor which returns leaves the manager as `create` does. -/
theorem construct_items {items items' : Communicators} {kind : LocalEnd} {time : ℕ} {kept : Bool}
    (h : items.construct kind name time kept = some items') :
    items'.mem = (create kind.itemType name time items.mem items.owner).2.1
      ∧ items'.owner = (create kind.itemType name time items.mem items.owner).2.2 := by
  unfold Communicators.construct at h
  split at h
  · cases h
  · next ret mem owner heq =>
    obtain ⟨info, _, rfl⟩ := Option.map_eq_some_iff.mp h
    rw [heq]
    exact ⟨rfl, rfl⟩

/-- A destructor leaves the manager as it is. -/
theorem destruct_items {items items' : Communicators} {object : ℕ}
    (h : items.destruct object = some items') :
    items'.mem = items.mem ∧ items'.owner = items.owner := by
  unfold Communicators.destruct at h
  split at h
  · cases h
  · obtain ⟨info, _, rfl⟩ := Option.map_eq_some_iff.mp h
    exact ⟨rfl, rfl⟩

/-- The invariant of the items is about what the manager keeps. -/
theorem Inv.withItems (h : s.Inv) {items : Communicators} (halone : Alone items.mem items.owner)
    (hholds : ∀ k r, s.items.owner.Holds k r → items.owner.Holds k r) :
    ({ s with items := items } : Connections).Inv :=
  ⟨⟨halone, fun id c r hc hr => hholds c.name r (h.linked.held id c r hc hr), h.linked.unborn⟩,
    h.nodup, h.born⟩

/-- `check_connect_immediately_` keeps the invariant, if it returns. -/
theorem Inv.of_immediately (h : s.Inv) {now : ℕ → ℕ}
    (hrun : checkConnectImmediately now s = .ok s') : s'.Inv := by
  unfold checkConnectImmediately at hrun
  obtain ⟨s₁, hrun₁, hs'⟩ := Except.bind_eq_ok.mp hrun
  obtain ⟨hok, hback⟩ := h.immediately now
  obtain ⟨s₁', hrun₁', h₁, _⟩ := hok (hback s₁ hrun₁)
  cases hrun₁.symm.trans hrun₁'
  cases hs'
  exact h₁.withTime _

/-- A communicator is made, and waits. -/
theorem Inv.register (h : s.Inv) (user : LocalUser) (name : String) :
    ({ s with
      comm := Function.update s.comm s.nextComm (some ⟨name, user, none⟩)
      nextComm := s.nextComm + 1
      waitConnectList := s.waitConnectList ++ [s.nextComm] } : Connections).Inv := by
  refine ⟨⟨h.linked.alone, fun id c r hc hr => ?_, fun id hid => ?_⟩, ?_, fun id hid => ?_⟩
  · change Function.update _ _ _ id = _ at hc
    by_cases hn : id = s.nextComm
    · rw [hn, Function.update_self] at hc
      cases hc
      cases hr
    · rw [Function.update_of_ne hn] at hc
      exact h.linked.held id c r hc hr
  · have hlt : s.nextComm < id := hid
    exact (Function.update_of_ne hlt.ne' _ _).trans (h.linked.unborn id hlt.le)
  · show (s.waitConnectList ++ [s.nextComm] ++ s.connectedList).Nodup
    rw [List.append_assoc, List.singleton_append]
    refine List.nodup_middle.mpr (List.nodup_cons.mpr ⟨fun hmem => ?_, h.nodup⟩)
    exact lt_irrefl _ (h.born s.nextComm hmem)
  · change id ∈ s.waitConnectList ++ [s.nextComm] ++ s.connectedList at hid
    rw [List.append_assoc, List.singleton_append] at hid
    rcases List.mem_cons.mp (List.perm_middle.mem_iff.mp hid) with rfl | hid
    · exact Nat.lt_succ_self _
    · exact Nat.lt_succ_of_lt (h.born id hid)

/-- The last handle to a communicator is dropped. -/
theorem Inv.drop (h : s.Inv) (id : ℕ) :
    ({ s with comm := Function.update s.comm id none } : Connections).Inv := by
  have hcomm : ∀ id' c, Function.update s.comm id none id' = some c → s.comm id' = some c := by
    intro id' c hc
    by_cases hid : id' = id
    · rw [hid, Function.update_self] at hc
      cases hc
    · rw [Function.update_of_ne hid] at hc
      exact hc
  refine ⟨⟨h.linked.alone, fun id' c r hc hr => h.linked.held id' c r (hcomm id' c hc) hr,
    fun id' hid' => ?_⟩, h.nodup, h.born⟩
  show Function.update s.comm id none id' = none
  by_cases hid : id' = id
  · rw [hid, Function.update_self]
  · rw [Function.update_of_ne hid]
    exact h.linked.unborn id' hid'

theorem fresh_inv (pid : ℕ) : (fresh pid).Inv :=
  ⟨⟨.empty pid, nofun, fun _ _ => rfl⟩, List.nodup_nil, nofun⟩

/-- **Every step keeps the invariant.** -/
theorem Inv.next {l : ConnectionStep} (h : s.Inv) (hs : s.next l = some s') : s'.Inv := by
  cases l with
  | construct kind name time now =>
    obtain ⟨items, hcon, hrun⟩ := Option.bind_eq_some_iff.mp hs
    obtain ⟨hmem, howner⟩ := construct_items hcon
    refine Inv.of_immediately (h.withItems ?_ fun k r hk => ?_) (Except.toOption_eq_some.mp hrun)
    · rw [hmem, howner]
      exact h.linked.alone.create kind.itemType name time
    · rw [howner]
      exact h.linked.alone.holds_create hk kind.itemType name time
  | destruct object =>
    obtain ⟨items, hdes, rfl⟩ := Option.map_eq_some_iff.mp hs
    obtain ⟨hmem, howner⟩ := destruct_items hdes
    refine h.withItems ?_ fun k r hk => ?_
    · rw [hmem, howner]
      exact h.linked.alone
    · rw [howner]
      exact hk
  | register user name now =>
    exact (h.register user name).of_immediately (Except.toOption_eq_some.mp hs)
  | drop id =>
    obtain ⟨_, heq⟩ := Option.ite_none_right_eq_some.mp hs
    cases heq
    exact h.drop id
  | checkConnectStatus now =>
    have hrun := Except.toOption_eq_some.mp hs
    obtain ⟨hok, hback⟩ := h.checkConnectStatus now
    obtain ⟨s₁, hrun', h₁, _⟩ := hok (hback s' hrun)
    cases hrun.symm.trans hrun'
    exact h₁

end Connections

open TransitionSystem

/-- The item of a name says that nobody is online. -/
theorem Communicators.not_online {s : Communicators} {name : String}
    (h : (s.item name).map s.isOnline = some false) : ¬ s.Online name := by
  rintro ⟨i, hi, hon⟩
  rw [Option.mem_def.mp hi, Option.map_some, hon] at h
  cases h

theorem Connections.inv {pid : ℕ} {s : Connections} (hr : (connectionSystem pid).Reachable s) :
    s.Inv := by
  refine hr.invariant (I := Connections.Inv) ?_ fun s l s' _ h hstep => h.next hstep
  rintro s rfl
  exact Connections.fresh_inv pid

/-- **Disconnecting all who are connected to names that are offline**: a
process can do it exactly if none of their items vanishes before they are
all asked. -/
theorem disconnectsOffline_iff {pid : ℕ} {s : Connections}
    (hr : (connectionSystem pid).Reachable s) (now : ℕ → ℕ) :
    s.DisconnectsOffline now ↔ s.Calm := by
  obtain ⟨hok, hback⟩ := (Connections.inv hr).checkConnectStatus now
  refine ⟨fun ⟨s', hrun, _⟩ => hback s' hrun, fun hcalm => ?_⟩
  obtain ⟨s', hrun, _, hdis⟩ := hok hcalm
  exact ⟨s', hrun, hdis⟩

/-- A subscriber and a reader of two names which go offline. -/
theorem disconnectsOffline_two : ∃ s, (connectionSystem 7).Reachable s
    ∧ s.connectedList = [0, 1] ∧ ¬ s.items.Online "a" ∧ ¬ s.items.Online "b"
    ∧ s.DisconnectsOffline fun _ => 9 := by
  have htrace : (trace Connections.next [] (Connections.fresh 7)
      [.construct (.publisher "int") "a" 1 fun _ => 1, .construct (.writer "int") "b" 2 fun _ => 2,
        .register (.subscriber "int") "a" fun _ => 3, .register (.reader "int") "b" fun _ => 4,
        .destruct 0, .destruct 1]).map (fun e => (e.2.connectedList,
          (e.2.items.item "a").map e.2.items.isOnline, (e.2.items.item "b").map e.2.items.isOnline,
          decide e.2.Calm))
      = some ([0, 1], some false, some false, true) := by decide +kernel
  obtain ⟨tr, s, hr, heq⟩ :=
    Run.exists_of_trace (S := connectionSystem 7) (fun _ _ _ h => h) rfl htrace
  simp only [Prod.mk.injEq] at heq
  obtain ⟨hlist, ha, hb, hcalm⟩ := heq
  exact ⟨s, hr.reachable, hlist, Communicators.not_online ha, Communicators.not_online hb,
    (disconnectsOffline_iff hr.reachable _).mpr (of_decide_eq_true hcalm)⟩

/-- **Two subscribers of one name** which goes offline: the first one
destroys the object, and asking the second one whether it is online
dereferences null. -/
theorem two_subscribers_crash : ∃ s, (connectionSystem 7).Reachable s
    ∧ s.connectedList = [0, 1] ∧ ¬ s.items.Online "a"
    ∧ s.checkConnectStatus (fun _ => 9) = .error .nullDeref
    ∧ ¬ s.DisconnectsOffline fun _ => 9 := by
  have htrace : (trace Connections.next [] (Connections.fresh 7)
      [.construct (.publisher "int") "a" 1 fun _ => 1,
        .register (.subscriber "int") "a" fun _ => 2, .register (.subscriber "int") "a" fun _ => 3,
        .destruct 0]).map (fun e => (e.2.connectedList,
          (e.2.items.item "a").map e.2.items.isOnline,
          match e.2.checkConnectStatus fun _ => 9 with | .ok _ => none | .error f => some f))
      = some ([0, 1], some false, some .nullDeref) := by decide +kernel
  obtain ⟨tr, s, hr, heq⟩ :=
    Run.exists_of_trace (S := connectionSystem 7) (fun _ _ _ h => h) rfl htrace
  simp only [Prod.mk.injEq] at heq
  obtain ⟨hlist, ha, hfault⟩ := heq
  have hrun : s.checkConnectStatus (fun _ => 9) = .error .nullDeref := by
    cases hrun : s.checkConnectStatus fun _ => 9 with
    | ok s' =>
      rw [hrun] at hfault
      cases hfault
    | error f =>
      rw [hrun] at hfault
      exact congrArg Except.error (Option.some.inj hfault)
  refine ⟨s, hr.reachable, hlist, Communicators.not_online ha, hrun, ?_⟩
  rintro ⟨s', hs', _⟩
  rw [hrun] at hs'
  cases hs'

end ShmObjManager
