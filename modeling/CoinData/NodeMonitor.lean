import CoinData.AnyDataText
import CoinData.InverseMaps
import CoinData.Results
import CoinData.Runs

/-!
# Nodes that are watched, and nodes that are waited for

A `NodeMonitor` calls callbacks for the events of nodes. A node that exists is watched:
`inotify_map_` leads from its name to the descriptor of its events, and
`inotify_map_rev_` from there to a watcher, which has the callbacks. A node that does
not exist is waited for, and its callbacks are in `wait_node_callback_map_`. They are
moved to a watcher when the node is created, and back when it is destroyed.

So each name that was added is in one of the two, with its callbacks, until it is
removed. `throughout_intact_iff` says in which runs this is so. A node is not to be
removed by its descriptor, since `remove` goes on to read the watcher it has erased;
and a node without callbacks is not to have events.
-/

open InverseMaps

/-- What goes wrong. -/
inductive MonitorFault where
  /-- A watcher is read that is not there. -/
  | erasedNode
  /-- Callbacks are read, and there are none. -/
  | nullCallbacks
deriving DecidableEq, Repr

/-- `callback_map_t`: the callbacks for a node, by event. -/
abbrev CallbackMap (κ : Type) := Text → Option κ

/-- **A `NodeWatcher`.** Its pid and its path only lead to a descriptor. -/
structure NodeWatcher (κ : Type) where
  name : Text
  callbacks : Option (CallbackMap κ)

/-- **The maps of a `NodeMonitor`**, with the calls of callbacks that were made, latest
first. -/
structure NodeMonitor (κ : Type) where
  inotifyMap : Text → Option ℤ
  inotifyMapRev : ℤ → Option (NodeWatcher κ)
  waitNodeCallbackMap : Text → Option (Option (CallbackMap κ))
  called : List (κ × Text × Text)

/-- The events that are processed; other ones are passed over. -/
inductive InotifyEvent where
  /-- `IN_CREATE` in the root path. -/
  | create (name : Text)
  /-- `IN_CLOSE_NOWRITE`, with or without `IN_ISDIR`. -/
  | closeNowrite (wd : ℤ) (isDir : Bool) (name : Text)
deriving DecidableEq, Repr

namespace NodeMonitor

variable {κ : Type}

/-- The constructor. -/
def new : NodeMonitor κ where
  inotifyMap _ := none
  inotifyMapRev _ := none
  waitNodeCallbackMap _ := none
  called := []

/-- **`find`** of a name. -/
def find (m : NodeMonitor κ) (name : Text) : ℤ :=
  match m.inotifyMap name with
  | some wd => wd
  | none => -1

/-- **`add_`**. The callbacks are moved to the watcher at first, so that they are gone
where it returns `false`; `wd` is what `inotify_add_watch` returns. -/
def add_ (m : NodeMonitor κ) (name : Text) (callbacks : Option (CallbackMap κ)) (wd : ℤ) :
    Bool × NodeMonitor κ :=
  let node : NodeWatcher κ := ⟨name, callbacks⟩
  match m.inotifyMap name with
  | some _ => (false, m)
  | none =>
    if wd < 0 then (false, m)
    else
      (true, { m with
        inotifyMap := emplace m.inotifyMap name wd
        inotifyMapRev := emplace m.inotifyMapRev wd node })

/-- **`add`**. `read_pid_of_node` is taken to return: it waits for the pid in the
directory of the node, and `file_size` throws when the file is gone again. -/
def add (m : NodeMonitor κ) (name : Text) (callbacks : Option (CallbackMap κ))
    (isNodeExist : Bool) (wd : ℤ) : Bool × NodeMonitor κ :=
  if m.find name > -1 then (false, m)
  else if (m.waitNodeCallbackMap name).isSome then (false, m)
  else if !isNodeExist then
    (true, { m with waitNodeCallbackMap := emplace m.waitNodeCallbackMap name callbacks })
  else m.add_ name callbacks wd

/-- **`remove_`**. -/
def remove_ (m : NodeMonitor κ) (name : Text) : Bool × NodeMonitor κ :=
  match m.inotifyMap name with
  | none => (false, m)
  | some wd =>
    (true, { m with
      inotifyMap := erase m.inotifyMap name
      inotifyMapRev := erase m.inotifyMapRev wd })

/-- **`remove`** of a name. -/
def remove (m : NodeMonitor κ) (name : Text) : Bool × NodeMonitor κ :=
  let (_, m) := m.remove_ name
  (true, { m with waitNodeCallbackMap := erase m.waitNodeCallbackMap name })

/-- `node->name()`, where `node` refers to an entry of `inotify_map_rev_`. -/
def nodeName (m : NodeMonitor κ) (id : ℤ) : Except MonitorFault Text :=
  match m.inotifyMapRev id with
  | none => .error .erasedNode
  | some node => .ok node.name

/-- **`remove`** of a descriptor. -/
def removeId (m : NodeMonitor κ) (id : ℤ) : Except MonitorFault (Bool × NodeMonitor κ) :=
  match m.inotifyMapRev id with
  | none => .ok (false, m)
  | some _ => do
    let name ← m.nodeName id
    let m := { m with inotifyMap := erase m.inotifyMap name }
    let m := { m with inotifyMapRev := erase m.inotifyMapRev id }
    -- `node` refers to what has just been erased
    let name ← m.nodeName id
    .ok (true, { m with waitNodeCallbackMap := erase m.waitNodeCallbackMap name })

/-- **`on_event_notify_`**. -/
def onEventNotify (m : NodeMonitor κ) (node : NodeWatcher κ) (event : Text) :
    Except MonitorFault (NodeMonitor κ) :=
  match node.callbacks with
  | none => .error .nullCallbacks
  | some callbacks =>
    match callbacks event with
    | none => .ok m
    | some callback => .ok { m with called := (callback, node.name, event) :: m.called }

/-- `"destroy"`. -/
def destroy : Text := ['d', 'e', 's', 't', 'r', 'o', 'y']

/-- What is done when a node is destroyed: its callbacks are moved, and its watcher is
removed. -/
def nodeDestroyed (m : NodeMonitor κ) (id : ℤ) (node : NodeWatcher κ) : NodeMonitor κ :=
  let moved : NodeWatcher κ := { node with callbacks := none }
  let m := { m with
    waitNodeCallbackMap := emplace m.waitNodeCallbackMap node.name node.callbacks
    inotifyMapRev := Function.update m.inotifyMapRev id (some moved) }
  let (_, m) := m.remove_ node.name
  m

/-- **`work_task_`**, processing an event; `wd` is what `inotify_add_watch` returns. The
result says whether it goes on; else an exception leaves the thread. -/
def workTask (m : NodeMonitor κ) (wd : ℤ) : InotifyEvent →
    Except MonitorFault (Bool × NodeMonitor κ)
  | .create name =>
    if name = [] then .ok (true, m)
    else
      match m.waitNodeCallbackMap name with
      | some callbacks =>
        let (r, m) := m.add_ name callbacks wd
        .ok (r, { m with waitNodeCallbackMap := erase m.waitNodeCallbackMap name })
      | none => .ok (false, m)
  | .closeNowrite id isDir name =>
    if isDir then .ok (true, m)
    else
      match m.inotifyMapRev id with
      | none => .ok (true, m)
      | some node => do
        let m ← m.onEventNotify node name
        .ok (true, if name = destroy then m.nodeDestroyed id node else m)

end NodeMonitor

/-! ## The system -/

/-- **A run of the monitor so far**: the names that were added and not removed since,
with the callbacks they were added with, and whether an exception has left the thread. -/
structure MonitorSession (κ : Type) where
  monitor : NodeMonitor κ
  registered : Text → Option (Option (CallbackMap κ))
  terminated : Bool

/-- A call of the monitor, or an event, with what `inotify_add_watch` returns. -/
inductive MonitorStep (κ : Type) where
  | add (name : Text) (callbacks : Option (CallbackMap κ)) (isNodeExist : Bool) (wd : ℤ)
  | remove (name : Text)
  | removeId (id : ℤ)
  | event (event : InotifyEvent) (wd : ℤ)

namespace MonitorSession

variable {κ : Type}

/-- `inotify_add_watch` succeeds, with a descriptor that is not in use. -/
def Fresh (s : MonitorSession κ) (wd : ℤ) : Prop := 0 ≤ wd ∧ s.monitor.inotifyMapRev wd = none

/-- What may happen. -/
def Admits (s : MonitorSession κ) : MonitorStep κ → Prop
  | .add _ _ _ wd | .event _ wd => s.terminated = false ∧ s.Fresh wd
  | .remove _ | .removeId _ => s.terminated = false

/-- Perform a step. -/
def run (s : MonitorSession κ) : MonitorStep κ → Except MonitorFault (MonitorSession κ)
  | .add name callbacks isNodeExist wd =>
    let (r, monitor) := s.monitor.add name callbacks isNodeExist wd
    .ok { s with
      monitor := monitor
      registered := if r then Function.update s.registered name (some callbacks)
        else s.registered }
  | .remove name =>
    let (_, monitor) := s.monitor.remove name
    .ok { s with monitor := monitor, registered := erase s.registered name }
  | .removeId id => do
    let (_, monitor) ← s.monitor.removeId id
    .ok { s with
      monitor := monitor
      registered := match s.monitor.inotifyMapRev id with
        | none => s.registered
        | some node => erase s.registered node.name }
  | .event event wd => do
    let (r, monitor) ← s.monitor.workTask wd event
    .ok { s with monitor := monitor, terminated := !r }

end MonitorSession

variable {κ : Type}

/-- **The system of the monitor**: its states are the runs so far, until one goes
wrong. -/
def monitorSystem (κ : Type) :
    TransitionSystem (Except MonitorFault (MonitorSession κ)) (MonitorStep κ) where
  init σ := σ = .ok ⟨.new, fun _ => none, false⟩
  step σ l σ' := ∃ s, σ = .ok s ∧ s.Admits l ∧ σ' = s.run l

namespace NodeMonitor

/-- **A name is in exactly one of the maps**, with its callbacks. -/
def Holds (m : NodeMonitor κ) (name : Text) (callbacks : Option (CallbackMap κ)) : Prop :=
  (m.waitNodeCallbackMap name = none
      ∧ ∃ wd, m.inotifyMap name = some wd ∧ m.inotifyMapRev wd = some ⟨name, callbacks⟩)
    ∨ (m.inotifyMap name = none ∧ m.waitNodeCallbackMap name = some callbacks)

end NodeMonitor

/-- **What the maps are to be**: `inotify_map_` and `inotify_map_rev_` are mutually
inverse, no name is both watched and waited for, and the names that were added are one
of them, with their callbacks. -/
structure MonitorSession.Consistent (s : MonitorSession κ) : Prop where
  inverse : Inverse NodeWatcher.name s.monitor.inotifyMap s.monitor.inotifyMapRev
  disjoint : ∀ name, s.monitor.inotifyMap name = none ∨ s.monitor.waitNodeCallbackMap name = none
  holds : ∀ name callbacks, s.registered name = some callbacks → s.monitor.Holds name callbacks

/-- Nothing has gone wrong, and the maps are what they are to be. -/
def Intact (σ : Except MonitorFault (MonitorSession κ)) : Prop := ∃ s, σ = .ok s ∧ s.Consistent

/-- **What keeps the maps intact.** No node that is watched is removed by its
descriptor, and a node that is watched without callbacks has no events. -/
def Harmless (σ : Except MonitorFault (MonitorSession κ)) (l : MonitorStep κ) : Prop :=
  match σ, l with
  | .ok s, .removeId id => s.monitor.inotifyMapRev id = none
  | .ok s, .event (.closeNowrite id false _) _ =>
    ∀ node, s.monitor.inotifyMapRev id = some node → node.callbacks ≠ none
  | _, _ => True

/-! ## A change at one name -/

namespace NodeMonitor

variable {m m' m'' : NodeMonitor κ} {name a : Text} {callbacks callbacks' : Option (CallbackMap κ)}
  {wd : ℤ}

/-- **Other names are left as they are**, by what is done at a name. -/
structure Elsewhere (name : Text) (m m' : NodeMonitor κ) : Prop where
  watched : ∀ a ≠ name, m'.inotifyMap a = m.inotifyMap a
  waiting : ∀ a ≠ name, m'.waitNodeCallbackMap a = m.waitNodeCallbackMap a
  watchers : ∀ a ≠ name, ∀ wd, m.inotifyMap a = some wd →
    m'.inotifyMapRev wd = m.inotifyMapRev wd

theorem Elsewhere.trans (h : Elsewhere name m m') (h' : Elsewhere name m' m'') :
    Elsewhere name m m'' where
  watched a ha := (h'.watched a ha).trans (h.watched a ha)
  waiting a ha := (h'.waiting a ha).trans (h.waiting a ha)
  watchers a ha wd hwd :=
    (h'.watchers a ha wd ((h.watched a ha).trans hwd)).trans (h.watchers a ha wd hwd)

/-- Changing who is waited for leaves the others as they are. -/
theorem elsewhere_waiting {w : Text → Option (Option (CallbackMap κ))}
    (h : ∀ a ≠ name, w a = m.waitNodeCallbackMap a) :
    Elsewhere name m { m with waitNodeCallbackMap := w } :=
  ⟨fun _ _ => rfl, h, fun _ _ _ _ => rfl⟩

theorem Holds.elsewhere (h : m.Holds a callbacks) (he : Elsewhere name m m') (ha : a ≠ name) :
    m'.Holds a callbacks := by
  obtain ⟨hwait, wd, hwd, hnode⟩ | ⟨hwd, hwait⟩ := h
  · refine .inl ⟨(he.waiting a ha).trans hwait, wd, (he.watched a ha).trans hwd, ?_⟩
    exact (he.watchers a ha wd hwd).trans hnode
  · exact .inr ⟨(he.watched a ha).trans hwd, (he.waiting a ha).trans hwait⟩

/-- What a name that is waited for is held with. -/
theorem Holds.eq_of_waiting (h : m.Holds name callbacks)
    (hwait : m.waitNodeCallbackMap name = some callbacks') : callbacks = callbacks' := by
  obtain ⟨hnone, _⟩ | ⟨_, hsome⟩ := h
  · cases hnone.symm.trans hwait
  · exact Option.some.inj (hsome.symm.trans hwait)

/-- What a name that is watched is held with. -/
theorem Holds.eq_of_watched (h : m.Holds name callbacks) (hwd : m.inotifyMap name = some wd)
    (hnode : m.inotifyMapRev wd = some ⟨name, callbacks'⟩) : callbacks = callbacks' := by
  obtain ⟨_, wd', hwd', hnode'⟩ | ⟨hnone, _⟩ := h
  · cases Option.some.inj (hwd'.symm.trans hwd)
    cases Option.some.inj (hnode'.symm.trans hnode)
    rfl
  · cases hnone.symm.trans hwd

/-! ## What is done with a name -/

/-- The monitor that waits for a node, too. -/
def await (m : NodeMonitor κ) (name : Text) (callbacks : Option (CallbackMap κ)) :
    NodeMonitor κ :=
  { m with waitNodeCallbackMap := emplace m.waitNodeCallbackMap name callbacks }

theorem await_waiting (hname : m.waitNodeCallbackMap name = none)
    (callbacks : Option (CallbackMap κ)) :
    (m.await name callbacks).waitNodeCallbackMap name = some callbacks := by
  unfold await
  rw [emplace_of_none hname]
  exact Function.update_self ..

theorem elsewhere_await (hname : m.waitNodeCallbackMap name = none)
    (callbacks : Option (CallbackMap κ)) : Elsewhere name m (m.await name callbacks) := by
  unfold await
  rw [emplace_of_none hname]
  exact elsewhere_waiting fun a ha => Function.update_of_ne ha _ _

/-- The monitor that watches a node, too. -/
def watch (m : NodeMonitor κ) (name : Text) (callbacks : Option (CallbackMap κ)) (wd : ℤ) :
    NodeMonitor κ :=
  { m with
    inotifyMap := emplace m.inotifyMap name wd
    inotifyMapRev := emplace m.inotifyMapRev wd ⟨name, callbacks⟩ }

theorem add_eq_watch (hname : m.inotifyMap name = none) (hwd : 0 ≤ wd)
    (callbacks : Option (CallbackMap κ)) :
    m.add_ name callbacks wd = (true, m.watch name callbacks wd) := by
  unfold add_
  rw [hname]
  exact if_neg (not_lt.mpr hwd)

/-- `find` tells whether a name is watched, since descriptors are not negative. -/
theorem find_gt_iff (hm : ∀ wd, m.inotifyMap name = some wd → 0 ≤ wd) :
    m.find name > -1 ↔ m.inotifyMap name ≠ none := by
  unfold find
  cases hname : m.inotifyMap name with
  | none => exact iff_of_false (lt_irrefl _) (not_not.mpr rfl)
  | some wd =>
    have hwd := hm wd hname
    exact iff_of_true (by dsimp only; omega) (Option.some_ne_none _)

/-- **What `add` does**: nothing, if the name is in one of the maps or cannot be watched,
and else it is waited for or watched. -/
theorem add_cases (hm : ∀ wd, m.inotifyMap name = some wd → 0 ≤ wd)
    (callbacks : Option (CallbackMap κ)) (isNodeExist : Bool) (wd : ℤ) :
    m.add name callbacks isNodeExist wd = (false, m)
      ∨ (m.inotifyMap name = none ∧ m.waitNodeCallbackMap name = none
        ∧ (m.add name callbacks isNodeExist wd = (true, m.await name callbacks)
          ∨ 0 ≤ wd ∧ m.add name callbacks isNodeExist wd = (true, m.watch name callbacks wd))) := by
  by_cases hfind : m.find name > -1
  · exact .inl (if_pos hfind)
  have hname := not_not.mp (mt (find_gt_iff hm).mpr hfind)
  unfold add
  rw [if_neg hfind]
  cases hwait : m.waitNodeCallbackMap name with
  | some _ => exact .inl rfl
  | none =>
    cases isNodeExist with
    | false => exact .inr ⟨hname, rfl, .inl rfl⟩
    | true =>
      rcases lt_or_ge wd 0 with hwd | hwd
      · left
        show m.add_ name callbacks wd = _
        unfold add_
        rw [hname]
        exact if_pos hwd
      · exact .inr ⟨hname, rfl, .inr ⟨hwd, add_eq_watch hname hwd callbacks⟩⟩

theorem watch_inotifyMap (hname : m.inotifyMap name = none)
    (callbacks : Option (CallbackMap κ)) (wd : ℤ) :
    (m.watch name callbacks wd).inotifyMap name = some wd := by
  unfold watch
  rw [emplace_of_none hname]
  exact Function.update_self ..

theorem watch_inotifyMap_of_ne (hname : m.inotifyMap name = none)
    (callbacks : Option (CallbackMap κ)) (wd : ℤ) (ha : a ≠ name) :
    (m.watch name callbacks wd).inotifyMap a = m.inotifyMap a := by
  unfold watch
  rw [emplace_of_none hname]
  exact Function.update_of_ne ha _ _

theorem watch_inotifyMapRev (callbacks : Option (CallbackMap κ))
    (hwd : m.inotifyMapRev wd = none) :
    (m.watch name callbacks wd).inotifyMapRev wd = some ⟨name, callbacks⟩ := by
  unfold watch
  rw [emplace_of_none hwd]
  exact Function.update_self ..

section Watch

variable (hi : Inverse NodeWatcher.name m.inotifyMap m.inotifyMapRev)
  (hname : m.inotifyMap name = none) (hwd : m.inotifyMapRev wd = none)
  (callbacks : Option (CallbackMap κ))

include hi hname hwd

theorem inverse_watch : Inverse NodeWatcher.name (m.watch name callbacks wd).inotifyMap
    (m.watch name callbacks wd).inotifyMapRev :=
  Inverse.emplace (e := (⟨name, callbacks⟩ : NodeWatcher κ)) hi hname hwd

theorem elsewhere_watch : Elsewhere name m (m.watch name callbacks wd) := by
  unfold watch
  rw [emplace_of_none hname, emplace_of_none hwd]
  refine ⟨fun a ha => Function.update_of_ne ha _ _, fun a _ => rfl, fun a ha wd' hwd' => ?_⟩
  refine Function.update_of_ne ?_ _ _
  rintro rfl
  obtain ⟨e, he, _⟩ := (hi a wd').mp hwd'
  cases hwd.symm.trans he

end Watch

/-- Moving the callbacks away and removing the watcher is removing it, and waiting for
the node. -/
theorem nodeDestroyed_eq {node : NodeWatcher κ} (hname : m.inotifyMap node.name = some wd) :
    m.nodeDestroyed wd node = (m.remove_ node.name).2.await node.name node.callbacks := by
  unfold nodeDestroyed remove_
  dsimp only
  rw [hname]
  dsimp only
  rw [erase_update]
  rfl

/-- **What `remove_` does**: the name is not watched any more. -/
structure Unwatched (name : Text) (m m' : NodeMonitor κ) : Prop where
  inverse : Inverse NodeWatcher.name m'.inotifyMap m'.inotifyMapRev
  inotifyMap : m'.inotifyMap name = none
  waiting : m'.waitNodeCallbackMap = m.waitNodeCallbackMap
  elsewhere : Elsewhere name m m'

theorem unwatched_remove (hi : Inverse NodeWatcher.name m.inotifyMap m.inotifyMapRev)
    (name : Text) : Unwatched name m (m.remove_ name).2 := by
  unfold remove_
  cases hname : m.inotifyMap name with
  | none => exact ⟨hi, hname, rfl, fun _ _ => rfl, fun _ _ => rfl, fun _ _ _ _ => rfl⟩
  | some wd =>
    refine ⟨hi.erase hname, erase_self .., rfl, fun a ha => erase_of_ne _ ha, fun _ _ => rfl, ?_⟩
    intro a ha wd' hwd'
    refine erase_of_ne _ ?_
    rintro rfl
    exact ha (hi.key_eq hname hwd')

/-! ## What is done with an event -/

/-- A node is created that is not waited for: an exception leaves the thread. -/
theorem workTask_create_of_none (hempty : name ≠ []) (hwait : m.waitNodeCallbackMap name = none)
    (wd : ℤ) : m.workTask wd (.create name) = .ok (false, m) := by
  rw [workTask, if_neg hempty, hwait]

/-- A node is created that is waited for: it is watched from now on. -/
theorem workTask_create (hempty : name ≠ []) (hname : m.inotifyMap name = none)
    (hwait : m.waitNodeCallbackMap name = some callbacks) (hwd : 0 ≤ wd) :
    m.workTask wd (.create name) = .ok (true, { m.watch name callbacks wd with
      waitNodeCallbackMap := erase m.waitNodeCallbackMap name }) := by
  rw [workTask, if_neg hempty, hwait]
  dsimp only
  rw [add_eq_watch hname hwd]
  rfl

/-- A callback changes nothing in the maps. -/
theorem onEventNotify_eq {node : NodeWatcher κ} (hnode : node.callbacks ≠ none) (event : Text) :
    ∃ called, m.onEventNotify node event = .ok { m with called := called } := by
  unfold onEventNotify
  split
  · contradiction
  · split
    · exact ⟨m.called, rfl⟩
    · exact ⟨_, rfl⟩

/-- An event of a descriptor without a watcher. -/
theorem workTask_closeNowrite_of_none {id : ℤ} (hid : m.inotifyMapRev id = none) (isDir : Bool) :
    m.workTask wd (.closeNowrite id isDir name) = .ok (true, m) := by
  cases isDir with
  | true => rfl
  | false => rw [workTask, if_neg Bool.false_ne_true, hid]

/-- An event of a node that is watched: a callback may be called, and the node may be
destroyed. -/
theorem workTask_closeNowrite {id : ℤ} {node : NodeWatcher κ}
    (hid : m.inotifyMapRev id = some node) (hnode : node.callbacks ≠ none) (name : Text)
    (wd : ℤ) : ∃ called, m.workTask wd (.closeNowrite id false name) = .ok (true,
      if name = destroy then ({ m with called := called } : NodeMonitor κ).nodeDestroyed id node
      else { m with called := called }) := by
  obtain ⟨called, hcalled⟩ := onEventNotify_eq (m := m) hnode name
  refine ⟨called, ?_⟩
  rw [workTask, if_neg Bool.false_ne_true, hid]
  dsimp only
  rw [hcalled, Except.ok_bind]

/-- Callbacks that are not there are read. -/
theorem workTask_nullCallbacks {id : ℤ} {node : NodeWatcher κ}
    (hid : m.inotifyMapRev id = some node) (hnode : node.callbacks = none) :
    m.workTask wd (.closeNowrite id false name) = .error .nullCallbacks := by
  rw [workTask, if_neg Bool.false_ne_true, hid]
  dsimp only
  unfold onEventNotify
  rw [hnode]
  rfl

end NodeMonitor

/-! ## Runs -/

/-- **The invariant**: the maps are consistent, and descriptors are not negative, so
that `find` tells a name that is watched from one that is not. -/
structure MonitorSession.Sound (s : MonitorSession κ) : Prop extends s.Consistent where
  nonneg : ∀ name wd, s.monitor.inotifyMap name = some wd → 0 ≤ wd

namespace MonitorSession

open NodeMonitor

variable {s s' : MonitorSession κ} {name : Text} {callbacks : Option (CallbackMap κ)} {wd id : ℤ}

theorem sound_new : (⟨.new, fun _ => none, false⟩ : MonitorSession κ).Sound where
  inverse := .empty
  disjoint _ := .inl rfl
  holds _ _ h := by cases h
  nonneg _ _ h := by cases h

/-- **A change at one name** keeps the invariant, if it does so there. -/
theorem Sound.change (h : s.Sound) (name : Text)
    (hi : Inverse NodeWatcher.name s'.monitor.inotifyMap s'.monitor.inotifyMapRev)
    (he : Elsewhere name s.monitor s'.monitor)
    (hregistered : ∀ a ≠ name, s'.registered a = s.registered a)
    (hdisjoint : s'.monitor.inotifyMap name = none ∨ s'.monitor.waitNodeCallbackMap name = none)
    (hholds : ∀ callbacks, s'.registered name = some callbacks → s'.monitor.Holds name callbacks)
    (hnonneg : ∀ wd, s'.monitor.inotifyMap name = some wd → 0 ≤ wd) : s'.Sound where
  inverse := hi
  disjoint a := by
    by_cases ha : a = name
    · rw [ha]
      exact hdisjoint
    · rw [he.watched a ha, he.waiting a ha]
      exact h.disjoint a
  holds a callbacks hr := by
    by_cases ha : a = name
    · subst ha
      exact hholds callbacks hr
    · rw [hregistered a ha] at hr
      exact (h.holds a callbacks hr).elsewhere he ha
  nonneg a wd hwd := by
    by_cases ha : a = name
    · rw [ha] at hwd
      exact hnonneg wd hwd
    · rw [he.watched a ha] at hwd
      exact h.nonneg a wd hwd

/-- A session with the same maps. -/
theorem Sound.of_maps (h : s.Sound) (called : List (κ × Text × Text)) (terminated : Bool) :
    (⟨{ s.monitor with called := called }, s.registered, terminated⟩ : MonitorSession κ).Sound :=
  ⟨⟨h.inverse, h.disjoint, h.holds⟩, h.nonneg⟩

/-! ### Calls -/

theorem run_add {isNodeExist r : Bool} {m : NodeMonitor κ}
    (hadd : s.monitor.add name callbacks isNodeExist wd = (r, m)) :
    s.run (.add name callbacks isNodeExist wd) = .ok { s with
      monitor := m
      registered := if r then Function.update s.registered name (some callbacks)
        else s.registered } := by
  unfold run
  dsimp only
  rw [hadd]

theorem Sound.add (h : s.Sound) (hwd : s.Fresh wd) (name : Text)
    (callbacks : Option (CallbackMap κ)) (isNodeExist : Bool) :
    ∃ s', s.run (.add name callbacks isNodeExist wd) = .ok s' ∧ s'.Sound := by
  obtain hadd | ⟨hname, hwait, hadd⟩ := add_cases (h.nonneg name) callbacks isNodeExist wd
  · exact ⟨_, run_add hadd, h⟩
  have hregistered : ∀ a ≠ name,
      Function.update s.registered name (some callbacks) a = s.registered a :=
    fun a ha => Function.update_of_ne ha _ _
  have hown : ∀ {callbacks'},
      Function.update s.registered name (some callbacks) name = some callbacks' →
        callbacks' = callbacks := by
    intro callbacks' hc
    rw [Function.update_self] at hc
    exact (Option.some.inj hc).symm
  obtain hadd | ⟨-, hadd⟩ := hadd
  · refine ⟨_, run_add hadd, ?_⟩
    refine h.change name h.inverse (elsewhere_await hwait callbacks) hregistered
      (.inl hname) (fun callbacks' hc => ?_) fun wd' hwd' => ?_
    · cases hown hc
      exact .inr ⟨hname, await_waiting hwait callbacks⟩
    · cases hname.symm.trans hwd'
  · refine ⟨_, run_add hadd, ?_⟩
    have hmap := watch_inotifyMap hname callbacks wd
    refine h.change name (inverse_watch h.inverse hname hwd.2 callbacks)
      (elsewhere_watch h.inverse hname hwd.2 callbacks) hregistered (.inr hwait)
      (fun callbacks' hc => ?_) fun wd' hwd' => ?_
    · cases hown hc
      exact .inl ⟨hwait, wd, hmap, watch_inotifyMapRev callbacks hwd.2⟩
    · cases Option.some.inj (hmap.symm.trans hwd')
      exact hwd.1

theorem Sound.remove (h : s.Sound) (name : Text) :
    ∃ s', s.run (.remove name) = .ok s' ∧ s'.Sound := by
  refine ⟨_, rfl, ?_⟩
  have hu := unwatched_remove h.inverse name
  refine h.change name hu.inverse (hu.elsewhere.trans (elsewhere_waiting ?_))
    (fun a ha => erase_of_ne _ ha) (.inl hu.inotifyMap) ?_ ?_
  · exact fun a ha => erase_of_ne _ ha
  · intro callbacks hc
    cases (erase_self ..).symm.trans hc
  · intro wd hwd
    cases hu.inotifyMap.symm.trans hwd

/-- **A watched node that is removed by its descriptor** is read after it is erased. -/
theorem run_removeId {node : NodeWatcher κ} (hid : s.monitor.inotifyMapRev id = some node) :
    s.run (.removeId id) = .error .erasedNode := by
  have hread : s.monitor.nodeName id = .ok node.name := by
    unfold nodeName
    rw [hid]
  have herased : s.monitor.removeId id = .error .erasedNode := by
    unfold NodeMonitor.removeId
    rw [hid]
    dsimp only
    rw [hread, Except.ok_bind]
    unfold nodeName
    dsimp only
    rw [erase_self]
    rfl
  unfold run
  dsimp only
  rw [herased]
  rfl

/-- A descriptor without a watcher is not removed. -/
theorem run_removeId_of_none (hid : s.monitor.inotifyMapRev id = none) :
    s.run (.removeId id) = .ok s := by
  have hremove : s.monitor.removeId id = .ok (false, s.monitor) := by
    unfold NodeMonitor.removeId
    rw [hid]
  unfold run
  dsimp only
  rw [hremove, hid]
  rfl

theorem Sound.removeId (h : s.Sound) (hid : s.monitor.inotifyMapRev id = none) :
    ∃ s', s.run (.removeId id) = .ok s' ∧ s'.Sound :=
  ⟨s, run_removeId_of_none hid, h⟩

/-! ### Events -/

theorem run_event {event : InotifyEvent} {r : Bool} {m : NodeMonitor κ}
    (hevent : s.monitor.workTask wd event = .ok (r, m)) :
    s.run (.event event wd) = .ok { s with monitor := m, terminated := !r } := by
  unfold run
  dsimp only
  rw [hevent]
  rfl

/-- **A node is created**: it is watched from now on, if it was waited for. -/
theorem Sound.create (h : s.Sound) (hwd : s.Fresh wd) (name : Text) :
    ∃ s', s.run (.event (.create name) wd) = .ok s' ∧ s'.Sound := by
  by_cases hempty : name = []
  · exact ⟨_, run_event (if_pos hempty), h.of_maps _ _⟩
  cases hwait : s.monitor.waitNodeCallbackMap name with
  | none => exact ⟨_, run_event (workTask_create_of_none hempty hwait wd), h.of_maps _ _⟩
  | some callbacks =>
    have hname : s.monitor.inotifyMap name = none :=
      (h.disjoint name).resolve_right (by rw [hwait]; exact Option.some_ne_none _)
    refine ⟨_, run_event (workTask_create hempty hname hwait hwd.1), ?_⟩
    have hmap := watch_inotifyMap hname callbacks wd
    have herased : erase s.monitor.waitNodeCallbackMap name name = none := erase_self ..
    refine h.change name (inverse_watch h.inverse hname hwd.2 callbacks)
      ((elsewhere_watch h.inverse hname hwd.2 callbacks).trans (elsewhere_waiting ?_))
      (fun _ _ => rfl) (.inr herased) (fun callbacks' hc => ?_) fun wd' hwd' => ?_
    · exact fun a ha => erase_of_ne _ ha
    · -- the callbacks are those that were waiting
      cases (h.holds name callbacks' hc).eq_of_waiting hwait
      exact .inl ⟨herased, wd, hmap, watch_inotifyMapRev callbacks hwd.2⟩
    · cases Option.some.inj (hmap.symm.trans hwd')
      exact hwd.1

/-- **A node is destroyed**: it is waited for from now on. -/
theorem Sound.nodeDestroyed (h : s.Sound) {node : NodeWatcher κ}
    (hid : s.monitor.inotifyMapRev id = some node) :
    (⟨s.monitor.nodeDestroyed id node, s.registered, s.terminated⟩ : MonitorSession κ).Sound := by
  have hmap : s.monitor.inotifyMap node.name = some id := h.inverse.of_rev hid
  have hwait : s.monitor.waitNodeCallbackMap node.name = none :=
    (h.disjoint node.name).resolve_left (by rw [hmap]; exact Option.some_ne_none _)
  rw [nodeDestroyed_eq hmap]
  have hu := unwatched_remove h.inverse node.name
  have hname := hu.inotifyMap
  have hwait' := hwait
  rw [← hu.waiting] at hwait'
  refine h.change node.name hu.inverse
    (hu.elsewhere.trans (elsewhere_await hwait' node.callbacks)) (fun _ _ => rfl) (.inl hname)
    (fun callbacks hc => ?_) fun wd hwd => ?_
  · -- the callbacks are those of the watcher
    cases (h.holds node.name callbacks hc).eq_of_watched hmap hid
    exact .inr ⟨hname, await_waiting hwait' node.callbacks⟩
  · cases hname.symm.trans hwd

/-- **An event of a node.** -/
theorem Sound.closeNowrite (h : s.Sound) (isDir : Bool) (name : Text)
    (hid : isDir = false → ∀ node, s.monitor.inotifyMapRev id = some node →
      node.callbacks ≠ none) :
    ∃ s', s.run (.event (.closeNowrite id isDir name) wd) = .ok s' ∧ s'.Sound := by
  cases isDir with
  | true => exact ⟨_, run_event (m := s.monitor) (r := true) rfl, h.of_maps _ _⟩
  | false =>
    cases hnode : s.monitor.inotifyMapRev id with
    | none => exact ⟨_, run_event (workTask_closeNowrite_of_none hnode false), h.of_maps _ _⟩
    | some node =>
      obtain ⟨called, hevent⟩ := workTask_closeNowrite hnode (hid rfl node hnode) name wd
      refine ⟨_, run_event hevent, ?_⟩
      split
      · exact (h.of_maps called false).nodeDestroyed hnode
      · exact h.of_maps _ _

/-- **Callbacks that are not there** are read. -/
theorem run_closeNowrite {node : NodeWatcher κ} {name : Text}
    (hid : s.monitor.inotifyMapRev id = some node) (hnode : node.callbacks = none) :
    s.run (.event (.closeNowrite id false name) wd) = .error .nullCallbacks := by
  unfold run
  dsimp only
  rw [workTask_nullCallbacks hid hnode]
  rfl

/-! ### All steps -/

/-- **A step that is harmless** keeps the invariant. -/
theorem Sound.run (h : s.Sound) {l : MonitorStep κ} (hl : s.Admits l)
    (hcond : Harmless (.ok s) l) : ∃ s', s.run l = .ok s' ∧ s'.Sound := by
  cases l with
  | add name callbacks isNodeExist wd => exact h.add hl.2 name callbacks isNodeExist
  | remove name => exact h.remove name
  | removeId id => exact h.removeId hcond
  | event event wd =>
    cases event with
    | create name => exact h.create hl.2 name
    | closeNowrite id isDir name =>
      refine h.closeNowrite isDir name ?_
      rintro rfl
      exact hcond

/-- **A step that is not** goes wrong. -/
theorem run_of_not_harmless {l : MonitorStep κ} (hcond : ¬ Harmless (.ok s) l) :
    ∃ e, s.run l = .error e := by
  cases l with
  | add | remove => exact absurd trivial hcond
  | removeId id =>
    obtain ⟨node, hid⟩ := Option.ne_none_iff_exists'.mp hcond
    exact ⟨_, run_removeId hid⟩
  | event event wd =>
    cases event with
    | create name => exact absurd trivial hcond
    | closeNowrite id isDir name =>
      cases isDir with
      | true => exact absurd trivial hcond
      | false =>
        obtain ⟨node, hnode⟩ := not_forall.mp hcond
        obtain ⟨hid, hnull⟩ := Classical.not_imp.mp hnode
        exact ⟨_, run_closeNowrite hid (not_not.mp hnull)⟩

end MonitorSession

/-- **The maps are intact throughout a run** exactly if all its steps are harmless. -/
theorem throughout_intact_iff
    {tr : List (Except MonitorFault (MonitorSession κ) × MonitorStep κ)}
    {σ : Except MonitorFault (MonitorSession κ)} (hr : (monitorSystem κ).Run tr σ) :
    TransitionSystem.Throughout Intact tr σ ↔ TransitionSystem.Met Harmless tr := by
  refine hr.forall_iff (J := fun σ => ∃ s, σ = .ok s ∧ s.Sound) ?_ ?_ ?_
  · rintro _ rfl
    have hs := MonitorSession.sound_new (κ := κ)
    exact ⟨⟨_, rfl, hs.toConsistent⟩, _, rfl, hs⟩
  · rintro _ l _ _ ⟨s, rfl, hs⟩ ⟨_, ⟨⟩, hl, rfl⟩ hcond
    obtain ⟨s', hrun, hs'⟩ := hs.run hl hcond
    exact ⟨⟨s', hrun, hs'.toConsistent⟩, s', hrun, hs'⟩
  · rintro _ l _ _ ⟨s, rfl, _⟩ ⟨_, ⟨⟩, _, rfl⟩ hcond ⟨s', hrun, _⟩
    obtain ⟨e, herror⟩ := MonitorSession.run_of_not_harmless hcond
    cases herror.symm.trans hrun

/-- A node is added that does not exist. It is created, has an event and is destroyed,
and is waited for then, until it is removed by its name. -/
theorem throughout_intact_destroy : ∃ tr s, (monitorSystem ℕ).Run tr (.ok s)
    ∧ s.monitor.called = [(7, ['a'], ['x'])]
    ∧ TransitionSystem.Throughout Intact tr (.ok s) := by
  have hrun : (monitorSystem ℕ).Run [(.ok _, .remove ['a']),
      (.ok _, .event (.closeNowrite 3 false NodeMonitor.destroy) 4),
      (.ok _, .event (.closeNowrite 3 false ['x']) 4), (.ok _, .event (.create ['a']) 3),
      (.ok _, .add ['a'] (some fun e => if e = ['x'] then some 7 else none) false 3)]
      (.ok _) :=
    .snoc (.snoc (.snoc (.snoc (.snoc (.start rfl) ⟨_, rfl, ⟨rfl, by decide, rfl⟩, rfl⟩)
      ⟨_, rfl, ⟨rfl, by decide, rfl⟩, rfl⟩) ⟨_, rfl, ⟨rfl, by decide, rfl⟩, rfl⟩)
      ⟨_, rfl, ⟨rfl, by decide, rfl⟩, rfl⟩) ⟨_, rfl, rfl, rfl⟩
  refine ⟨_, _, hrun, rfl, (throughout_intact_iff hrun).mpr ?_⟩
  simp only [TransitionSystem.met_cons]
  refine ⟨trivial, ?_, ?_, trivial, trivial, TransitionSystem.met_nil _⟩
  · rintro node ⟨⟩
    exact Option.some_ne_none _
  · rintro node ⟨⟩
    exact Option.some_ne_none _

/-- A node that exists is added, and removed by its descriptor. -/
theorem throughout_intact_false : ¬ ∀ tr σ, (monitorSystem ℕ).Run tr σ →
    TransitionSystem.Throughout Intact tr σ := by
  intro h
  have hrun : (monitorSystem ℕ).Run [(.ok _, .removeId 3),
      (.ok _, .add ['a'] (some fun _ => none) true 3)] (.error .erasedNode) :=
    .snoc (.snoc (.start rfl) ⟨_, rfl, ⟨rfl, by decide, rfl⟩, rfl⟩) ⟨_, rfl, rfl, rfl⟩
  obtain ⟨s, hs, _⟩ := (h _ _ hrun).1
  cases hs
