import CoinData.NodeMonitor

/-!
# What a monitor hears of the nodes

A node is a process with a name. `ThisNode` makes a directory of this name, in which there
are the pid and, in the directory of the events, a file for each event. To notify of an
event is to open its file, and to close it again. The file of "destroy" is kept open, so
that it is closed by the destructor, or by the system when the process has ended otherwise.

A `NodeMonitor` that has been asked for a node waits for its directory to be made, and for
the pid to be written there; then it watches the directory of the events. What is closed in
there is put in a queue of the system, unless the last event which has not been read is the
same, and the thread reads as many as it likes of what is queued.

So what a node does is not heard before it is watched, and may be heard once for twice.
`notifications_heard_iff` says that nothing else is lost, over any number of lives of any
number of nodes. What is left out: a node whose name is taken; `add` and `remove` while the
nodes live; a queue without room; a process that notifies of "destroy" itself, or of what is
no name of a file; a pid that is used again; and that `file_size` throws when the file of the
pid is removed while the monitor waits for it, which is only when the node has ended unheard.
-/

/-- Where the process of a node is. -/
inductive NodeStage where
  /-- There is none. -/
  | absent
  /-- What was left of the last one has been removed: next, the directories are made. -/
  | cleared
  /-- Next, the pid is written. -/
  | made
  /-- Next, "create" is added. -/
  | named
  /-- Next, "destroy" is added. -/
  | begun
  /-- Next, the file of "destroy" is opened. -/
  | added
  /-- The constructor has returned. -/
  | running
  /-- The file of "destroy" has been closed: next, all is removed. -/
  | closed
deriving DecidableEq, Repr

/-- **A node**: its directory, by the pid and the files for events, and what it is watched
by. -/
structure NodeLife where
  stage : NodeStage
  dir : Option (ℕ × List Text)
  watch : Option ℤ
deriving DecidableEq, Repr

/-- Where the thread of the monitor is. -/
inductive WorkPc where
  | idle
  /-- In `read_pid_of_node`. -/
  | waiting (name : Text)
  /-- It has read the pid: next, `inotify_add_watch`. -/
  | found (name : Text) (pid : ℕ)
deriving DecidableEq, Repr

/-- **The nodes, and a monitor of them.** An event in a queue that is passed over is `none`;
`owner` is what a descriptor was made for. What the nodes have notified of is `made`, also
that they end, and `heard` are the calls of `on_event_notify_`, both in order. -/
structure WatchedNodes (κ : Type) where
  nodes : Text → NodeLife
  nextPid : ℕ
  queue : List (Option InotifyEvent)
  batch : List (Option InotifyEvent)
  nextWd : ℕ
  owner : ℤ → Option Text
  monitor : NodeMonitor κ
  pc : WorkPc
  terminated : Bool
  made : List (Text × Text)
  heard : List (Text × Text)

/-- Who takes a step. -/
inductive NodeWorldStep where
  /-- A process has found that the name is free, and removed what there was. -/
  | start (name : Text)
  /-- The next step of the constructor. -/
  | construct (name : Text)
  | addEvent (name event : Text)
  | notify (name event : Text)
  /-- Somebody has listed the directory of the events, as `remove_all` does, too. -/
  | list (name : Text)
  /-- The destructor closes the file of "destroy". -/
  | destroy (name : Text)
  /-- The destructor removes all. -/
  | removeAll (name : Text)
  /-- The process ends without its destructor. -/
  | crash (name : Text)
  /-- The thread reads what is queued. -/
  | read (count : ℕ)
  /-- It processes an event. -/
  | process
  /-- It has found the pid. -/
  | lookup
  /-- It watches the directory. -/
  | watch
deriving DecidableEq, Repr

namespace NodeLife

/-- Before its first life. -/
def absent : NodeLife := ⟨.absent, none, none⟩

/-- There is a file for the event. -/
def HasEvent (x : NodeLife) (event : Text) : Prop := ∃ d ∈ x.dir, event ∈ d.2

instance (x : NodeLife) (event : Text) : Decidable (x.HasEvent event) := by
  unfold HasEvent
  infer_instance

/-- The file for an event is made. -/
def withEvent (x : NodeLife) (event : Text) : NodeLife :=
  { x with dir := x.dir.map fun d => (d.1, event :: d.2) }

/-- The pid can be read, and the process is there. -/
def Readable (x : NodeLife) : Bool :=
  match x.stage with
  | .named | .begun | .added | .running | .closed => true
  | .absent | .cleared | .made => false

end NodeLife

/-- What the kernel does with an event. -/
def enqueue (queue : List (Option InotifyEvent)) (event : InotifyEvent) :
    List (Option InotifyEvent) :=
  if queue.getLast? = some (some event) then queue else queue ++ [some event]

namespace WatchedNodes

open NodeMonitor (destroy)

variable {κ : Type}

/-- "create". -/
def create : Text := ['c', 'r', 'e', 'a', 't', 'e']

/-- A monitor that has been asked for nodes. -/
def new (registered : Text → Option (CallbackMap κ)) : WatchedNodes κ where
  nodes _ := .absent
  nextPid := 1
  queue := []
  batch := []
  nextWd := 2
  owner _ := none
  monitor := { NodeMonitor.new with
    waitNodeCallbackMap := fun name => (registered name).map some }
  pc := .idle
  terminated := false
  made := []
  heard := []

/-- Change one node. -/
def setNode (s : WatchedNodes κ) (name : Text) (x : NodeLife) : WatchedNodes κ :=
  { s with nodes := Function.update s.nodes name x }

/-- A file in the directory of the events has been closed, or the directory itself. -/
def close (s : WatchedNodes κ) (name : Text) (isDir : Bool) (event : Text) : WatchedNodes κ :=
  { s with
    queue := (s.nodes name).watch.elim s.queue fun wd =>
      enqueue s.queue (.closeNowrite wd isDir event) }

/-- Something has happened in the directory of the events that is passed over. -/
def passOver (s : WatchedNodes κ) (name : Text) : WatchedNodes κ :=
  { s with
    queue := (s.nodes name).watch.elim s.queue fun _ => s.queue ++ [none] }

/-- A node has notified of an event. -/
def make (s : WatchedNodes κ) (name event : Text) : WatchedNodes κ :=
  { s with made := s.made ++ [(name, event)] }

/-- `add_event`, of an event which is not there. -/
def addFile (s : WatchedNodes κ) (name event : Text) : WatchedNodes κ :=
  (s.setNode name ((s.nodes name).withEvent event)).passOver name

/-- `close(destroy_node_fd_)`, by the process or by the system. -/
def closeDestroy (s : WatchedNodes κ) (name : Text) (stage : NodeStage) : WatchedNodes κ :=
  ((s.setNode name { s.nodes name with stage := stage }).close name false destroy).make
    name destroy

/-- **The next step of the constructor.** -/
def constructStep (s : WatchedNodes κ) (name : Text) : Option (WatchedNodes κ) :=
  let x := s.nodes name
  match x.stage with
  | .cleared => some { s.setNode name ⟨.made, some (s.nextPid, []), none⟩ with
      nextPid := s.nextPid + 1
      queue := enqueue s.queue (.create name) }
  | .made => some (s.setNode name { x with stage := .named })
  | .named => some ((s.setNode name { x with stage := .begun }).addFile name create)
  | .begun => some ((s.setNode name { x with stage := .added }).addFile name destroy)
  | .added => some (s.setNode name { x with stage := .running })
  | .absent | .running | .closed => none

/-- **A process ends without its destructor.** -/
def crash (s : WatchedNodes κ) (name : Text) : Option (WatchedNodes κ) :=
  let ended : WatchedNodes κ := s.setNode name { s.nodes name with stage := .absent }
  match (s.nodes name).stage with
  | .absent => none
  | .cleared | .closed => some ended
  | .made | .named | .begun | .added => some (ended.make name destroy)
  | .running => some (s.closeDestroy name .absent)

/-- `inotify_rm_watch`. -/
def rmWatch (s : WatchedNodes κ) (wd : ℤ) : WatchedNodes κ :=
  (s.owner wd).elim s fun name =>
    if (s.nodes name).watch = some wd then
      (s.passOver name).setNode name { s.nodes name with watch := none }
    else s

/-- **An event is processed**, up to where the pid of a node is read. -/
def processEvent (s : WatchedNodes κ) (event : InotifyEvent) : WatchedNodes κ :=
  match event, s.monitor.workTask 0 event with
  | _, .error _ => { s with terminated := true }
  | .create name, .ok (r, _) =>
    if name = [] then s
    else if (s.monitor.waitNodeCallbackMap name).isSome then { s with pc := .waiting name }
    else { s with terminated := !r }
  | .closeNowrite wd isDir event, .ok (_, m) =>
    let called := if isDir then none else s.monitor.inotifyMapRev wd
    let s : WatchedNodes κ := { s with
      monitor := m
      heard := s.heard ++ called.toList.map fun node => (node.name, event) }
    if called.isSome ∧ event = destroy then s.rmWatch wd else s

/-- **The thread of the monitor goes on** where it has read the pid of a node. -/
def addWatch (s : WatchedNodes κ) (name : Text) (pid : ℕ) : WatchedNodes κ :=
  let x := s.nodes name
  if ∃ d ∈ x.dir, d.1 = pid then
    let wd := x.watch.getD s.nextWd
    match s.monitor.workTask wd (.create name) with
    | .error _ => { s with terminated := true }
    | .ok (r, m) => { s.setNode name { x with watch := some wd } with
        monitor := m
        pc := .idle
        terminated := !r
        owner := Function.update s.owner wd (some name)
        nextWd := s.nextWd + 1 }
  else { s with terminated := true }

/-- **The next step of the monitor.** -/
def workStep (s : WatchedNodes κ) : NodeWorldStep → Option (WatchedNodes κ)
  | .read count =>
    if s.pc = .idle ∧ s.batch = [] ∧ 0 < count ∧ count ≤ s.queue.length then
      some { s with batch := s.queue.take count, queue := s.queue.drop count }
    else none
  | .process =>
    match s.pc, s.batch with
    | .idle, event :: batch =>
      let s : WatchedNodes κ := { s with batch := batch }
      some (event.elim s s.processEvent)
    | _, _ => none
  | .lookup =>
    match s.pc with
    | .waiting name =>
      if (s.nodes name).Readable then
        (s.nodes name).dir.map fun d => { s with pc := .found name d.1 }
      else none
    | _ => none
  | .watch =>
    match s.pc with
    | .found name pid => some (s.addWatch name pid)
    | _ => none
  | _ => none

/-- **Take a step**, if it is possible. -/
def next (registered : Text → Option (CallbackMap κ)) (s : WatchedNodes κ) :
    NodeWorldStep → Option (WatchedNodes κ)
  | .start name =>
    if (registered name).isSome ∧ name ≠ [] ∧ (s.nodes name).stage = .absent then
      some ((s.passOver name).setNode name ⟨.cleared, none, none⟩)
    else none
  | .construct name => s.constructStep name
  | .addEvent name event =>
    if (s.nodes name).stage = .running ∧ ¬ (s.nodes name).HasEvent event then
      some (s.addFile name event)
    else none
  | .notify name event =>
    if (s.nodes name).stage = .running ∧ (s.nodes name).HasEvent event ∧ event ≠ destroy then
      some ((s.close name false event).make name event)
    else none
  | .list name => if (s.nodes name).dir.isSome then some (s.close name true []) else none
  | .destroy name =>
    if (s.nodes name).stage = .running then some (s.closeDestroy name .closed) else none
  | .removeAll name =>
    if (s.nodes name).stage = .closed then some ((s.passOver name).setNode name .absent) else none
  | .crash name => s.crash name
  | .read count => if s.terminated then none else s.workStep (.read count)
  | .process => if s.terminated then none else s.workStep .process
  | .lookup => if s.terminated then none else s.workStep .lookup
  | .watch => if s.terminated then none else s.workStep .watch

end WatchedNodes

/-- **The system of nodes and a monitor** that has been asked for the nodes there will be. -/
def watchedNodesSystem {κ : Type} (registered : Text → Option (CallbackMap κ)) :
    TransitionSystem (WatchedNodes κ) NodeWorldStep where
  init s := s = .new registered
  step s l s' := s.next registered l = some s'

namespace WatchedNodes

open NodeMonitor (destroy)
open TransitionSystem

variable {κ : Type}

/-- What is to be heard of an event in a queue. -/
def notice (s : WatchedNodes κ) : Option InotifyEvent → Option (Text × Text)
  | some (.closeNowrite wd false event) => (s.owner wd).map fun name => (name, event)
  | _ => none

/-- The events which have not been processed. -/
def todo (s : WatchedNodes κ) : List (Option InotifyEvent) := s.batch ++ s.queue

/-- **All is heard**: what the nodes have notified of has been heard, or will be, in the
order in which they did; and the callbacks that there are for it were called. -/
structure Accounted (registered : Text → Option (CallbackMap κ)) (s : WatchedNodes κ) : Prop where
  goesOn : s.terminated = false
  heard : s.heard ++ s.todo.filterMap s.notice = s.made
  called : s.monitor.called.reverse = s.heard.filterMap fun e =>
    (registered e.1).bind fun callbacks => (callbacks e.2).map fun callback => (callback, e)

/-- The directory is watched, and the last event which has not been read is not the same. -/
def Queues (s : WatchedNodes κ) (name event : Text) : Prop :=
  (s.nodes name).watch.isSome ∧ ∀ wd ∈ (s.nodes name).watch,
    s.queue.getLast? ≠ some (some (.closeNowrite wd false event))

instance (s : WatchedNodes κ) (name event : Text) : Decidable (s.Queues name event) := by
  unfold Queues
  infer_instance

/-- **The monitor keeps pace with the nodes**: who notifies, or ends, is watched, and has not
just done the same. -/
def KeepsPace (s : WatchedNodes κ) : NodeWorldStep → Prop
  | .notify name event => s.Queues name event
  | .destroy name => s.Queues name destroy
  | .crash name =>
    match (s.nodes name).stage with
    | .running => s.Queues name destroy
    | .made | .named | .begun | .added => False
    | .absent | .cleared | .closed => True
  | _ => True

instance (s : WatchedNodes κ) (l : NodeWorldStep) : Decidable (s.KeepsPace l) := by
  unfold KeepsPace
  split
  · infer_instance
  · infer_instance
  · split <;> infer_instance
  · infer_instance

end WatchedNodes

variable {κ : Type}

/-! ## What the monitor knows, and what is so -/

/-- **What is known of a node**: that it is waited for, that its directory has been made, or
that it is watched. -/
inductive NodeView where
  | waiting
  | created
  | watched (wd : ℤ)
deriving DecidableEq

namespace NodeView

open NodeMonitor (destroy)

/-- What is known after an event of the node, if it is one that may come. -/
def after : NodeView → InotifyEvent → Option NodeView
  | v, .closeNowrite _ true _ => some v
  | .waiting, .create _ => some .created
  | .watched wd, .closeNowrite wd' false event =>
    if wd' = wd then some (if event = destroy then .waiting else .watched wd) else none
  | _, _ => none

variable {v w : NodeView} {wd : ℤ} {events : List InotifyEvent}

@[simp] theorem after_dir (v : NodeView) (wd : ℤ) (event : Text) :
    v.after (.closeNowrite wd true event) = some v := by
  cases v <;> rfl

theorem after_close {event : Text} (h : event ≠ destroy) :
    after (.watched wd) (.closeNowrite wd false event) = some (.watched wd) := by
  show (if wd = wd then _ else _) = _
  rw [if_pos rfl, if_neg h]

theorem after_destroy : after (.watched wd) (.closeNowrite wd false destroy) = some .waiting := by
  show (if wd = wd then _ else _) = _
  rw [if_pos rfl, if_pos rfl]

/-- Only a node that is waited for is created. -/
theorem eq_of_after_create {name : Text} (h : v.after (.create name) = some w) :
    v = .waiting ∧ w = .created := by
  cases v with
  | waiting => exact ⟨rfl, (Option.some.inj h).symm⟩
  | created | watched => cases h

/-- Only the files of a node that is watched are closed. -/
theorem eq_of_after_close {event : Text} (h : v.after (.closeNowrite wd false event) = some w) :
    v = .watched wd ∧ w = if event = destroy then .waiting else .watched wd := by
  cases v with
  | waiting | created => cases h
  | watched wd' =>
    have h : (if wd = wd' then some (if event = destroy then .waiting else .watched wd') else none)
        = some w := h
    obtain ⟨rfl, hw⟩ := Option.ite_none_right_eq_some.mp h
    exact ⟨rfl, (Option.some.inj hw).symm⟩

/-- **A node whose directory has been made** has no events but those of the directory, until
it is watched; and these do not matter then. -/
theorem foldlM_created (h : events.foldlM after .created = some v) :
    v = .created ∧ ∀ w : NodeView, events.foldlM after w = some w := by
  induction events with
  | nil => exact ⟨(Option.some.inj h).symm, fun _ => rfl⟩
  | cons event events ih =>
    rw [List.foldlM_cons] at h
    cases event with
    | create name => cases h
    | closeNowrite wd isDir event =>
      cases isDir with
      | false => cases h
      | true =>
        obtain ⟨hv, hw⟩ := ih h
        refine ⟨hv, fun w => ?_⟩
        rw [List.foldlM_cons, after_dir]
        exact hw w

/-- **A node that is waited for** is not watched before it is created and found. -/
theorem foldlM_waiting (h : events.foldlM after .waiting = some v) (wd : ℤ) : v ≠ .watched wd := by
  induction events with
  | nil =>
    cases Option.some.inj h
    exact NodeView.noConfusion
  | cons event events ih =>
    rw [List.foldlM_cons] at h
    cases event with
    | create name =>
      rw [(foldlM_created h).1]
      exact NodeView.noConfusion
    | closeNowrite wd' isDir event =>
      cases isDir with
      | false => cases h
      | true => exact ih h

end NodeView

/-- **What is so of a node.** -/
def NodeLife.view (x : NodeLife) : NodeView :=
  match x.stage with
  | .absent | .cleared | .closed => .waiting
  | .made | .named | .begun | .added | .running => x.watch.elim .created .watched

/-- Whose pid the thread of the monitor reads. -/
def WorkPc.name : WorkPc → Option Text
  | .idle => none
  | .waiting name | .found name _ => some name

namespace WatchedNodes

open NodeMonitor (destroy)
open TransitionSystem

/-- **What the monitor knows of a node.** -/
def view (s : WatchedNodes κ) (name : Text) : NodeView :=
  (s.monitor.inotifyMap name).elim (if s.pc.name = some name then .created else .waiting) .watched

/-- An event of the node. -/
def Of (s : WatchedNodes κ) (name : Text) : InotifyEvent → Bool
  | .create name' => name' = name
  | .closeNowrite wd _ _ => s.owner wd = some name

/-- The events of a node which have not been processed. -/
def todoOf (s : WatchedNodes κ) (name : Text) : List InotifyEvent :=
  (s.todo.filterMap id).filter (s.Of name)

/-- A node that the monitor has been asked for. -/
def Known (registered : Text → Option (CallbackMap κ)) (name : Text) : Prop :=
  name ≠ [] ∧ (registered name).isSome

/-- **What holds as long as the monitor keeps pace**: it knows what is so of a node once it
has processed what there is to do. -/
structure Inv (registered : Text → Option (CallbackMap κ)) (s : WatchedNodes κ) : Prop where
  sound : (⟨s.monitor, fun name => (registered name).map some, false⟩ : MonitorSession κ).Sound
  asked : ∀ name, s.monitor.inotifyMap name ≠ none → (registered name).isSome
  watcher : ∀ wd node, s.monitor.inotifyMapRev wd = some node → s.owner wd = some node.name
  fresh : ∀ wd name, s.owner wd = some name → wd < s.nextWd
  watch : ∀ name wd, (s.nodes name).watch = some wd → s.owner wd = some name
  owned : ∀ wd isDir event, some (.closeNowrite wd isDir event) ∈ s.todo → (s.owner wd).isSome
  created : ∀ name, some (.create name) ∈ s.todo → Known registered name
  leads : ∀ name, (s.todoOf name).foldlM NodeView.after (s.view name) = some (s.nodes name).view
  pc : ∀ name, s.pc.name = some name →
    name ≠ [] ∧ (s.monitor.waitNodeCallbackMap name).isSome
  found : ∀ name pid, s.pc = .found name pid → ∃ d ∈ (s.nodes name).dir, d.1 = pid
  dir : ∀ name, (s.nodes name).stage ≠ .absent → (s.nodes name).stage ≠ .cleared →
    (s.nodes name).dir.isSome
  known : ∀ name, (s.nodes name).stage ≠ .absent → Known registered name

theorem Inv.view_of_pc {registered : Text → Option (CallbackMap κ)} {s : WatchedNodes κ}
    {name : Text} (h : s.Inv registered) (hpc : s.pc.name = some name) :
    s.view name = .created := by
  have hunwatched : s.monitor.inotifyMap name = none := by
    refine (h.sound.disjoint name).resolve_right ?_
    exact Option.isSome_iff_ne_none.mp (h.pc name hpc).2
  unfold view
  rw [hunwatched]
  exact if_pos hpc

/-- **What a node does**: one node is changed, and events of it are queued. -/
structure NodeMove (registered : Text → Option (CallbackMap κ)) (s : WatchedNodes κ) (name : Text)
    (x : NodeLife) (events : List (Option InotifyEvent)) : Prop where
  view : (events.filterMap id).foldlM NodeView.after (s.nodes name).view = some x.view
  of : ∀ event, some event ∈ events → s.Of name event = true
  created : ∀ name', some (InotifyEvent.create name') ∈ events → Known registered name'
  watch : x.watch = none ∨ x.watch = (s.nodes name).watch
  dir : x.stage ≠ .absent → x.stage ≠ .cleared → x.dir.isSome
  kept : (s.nodes name).view = .created → x.dir.map Prod.fst = (s.nodes name).dir.map Prod.fst
  known : x.stage ≠ .absent → Known registered name

/-- The state after it. -/
def moved (s : WatchedNodes κ) (name : Text) (x : NodeLife) (events : List (Option InotifyEvent))
    (nextPid : ℕ) (made : List (Text × Text)) : WatchedNodes κ :=
  { s with
    nodes := Function.update s.nodes name x
    queue := s.queue ++ events
    nextPid := nextPid
    made := s.made ++ made }

section Moved

variable {s : WatchedNodes κ} {registered : Text → Option (CallbackMap κ)} {name name' : Text}
  {x : NodeLife} {events : List (Option InotifyEvent)} {nextPid : ℕ} {made : List (Text × Text)}

theorem todo_moved : (s.moved name x events nextPid made).todo = s.todo ++ events :=
  (List.append_assoc ..).symm

@[simp] theorem moved_self : (s.moved name x events nextPid made).nodes name = x :=
  Function.update_self ..

theorem moved_of_ne (h : name' ≠ name) :
    (s.moved name x events nextPid made).nodes name' = s.nodes name' :=
  Function.update_of_ne h _ _

theorem todoOf_moved : (s.moved name x events nextPid made).todoOf name'
    = s.todoOf name' ++ (events.filterMap id).filter (s.Of name') := by
  unfold todoOf
  rw [todo_moved, List.filterMap_append, List.filter_append]
  rfl

/-- An event is of one node. -/
theorem not_of_ne (hne : name' ≠ name) {event : InotifyEvent} (h : s.Of name event = true) :
    ¬ s.Of name' event = true := by
  cases event with
  | create name'' =>
    have h : name'' = name := of_decide_eq_true h
    rw [Of, decide_eq_true_eq, h]
    exact hne.symm
  | closeNowrite wd isDir event =>
    have h : s.owner wd = some name := of_decide_eq_true h
    rw [Of, decide_eq_true_eq, h]
    exact fun heq => hne (Option.some.inj heq).symm

/-- **What a node does keeps the invariant.** -/
theorem Inv.move (h : s.Inv registered) (hm : NodeMove registered s name x events) :
    (s.moved name x events nextPid made).Inv registered where
  sound := h.sound
  asked := h.asked
  watcher := h.watcher
  fresh := h.fresh
  watch name' wd hwd := by
    by_cases hname : name' = name
    · subst hname
      rw [moved_self] at hwd
      obtain hnone | hsame := hm.watch
      · cases hnone.symm.trans hwd
      · exact h.watch name' wd (hsame.symm.trans hwd)
    · rw [moved_of_ne hname] at hwd
      exact h.watch name' wd hwd
  owned wd isDir event hmem := by
    rw [todo_moved] at hmem
    obtain hmem | hmem := List.mem_append.mp hmem
    · exact h.owned wd isDir event hmem
    · have howner : s.owner wd = some name := of_decide_eq_true (hm.of _ hmem)
      exact Option.isSome_iff_exists.mpr ⟨name, howner⟩
  created name' hmem := by
    rw [todo_moved] at hmem
    obtain hmem | hmem := List.mem_append.mp hmem
    · exact h.created name' hmem
    · exact hm.created name' hmem
  leads name' := by
    rw [todoOf_moved, List.foldlM_append]
    have hview : (s.moved name x events nextPid made).view name' = s.view name' := rfl
    rw [hview, h.leads name']
    by_cases hname : name' = name
    · subst hname
      have hall : (events.filterMap id).filter (s.Of name') = events.filterMap id := by
        refine List.filter_eq_self.mpr fun event hmem => ?_
        obtain ⟨_, hmem, rfl⟩ := List.mem_filterMap.mp hmem
        exact hm.of event hmem
      rw [hall, moved_self]
      exact hm.view
    · have hnone : (events.filterMap id).filter (s.Of name') = [] := by
        refine List.filter_eq_nil_iff.mpr fun event hmem => ?_
        obtain ⟨_, hmem, rfl⟩ := List.mem_filterMap.mp hmem
        exact not_of_ne hname (hm.of event hmem)
      rw [hnone, moved_of_ne hname]
      rfl
  pc := h.pc
  found name' pid hpc := by
    obtain ⟨d, hd, hpid⟩ := h.found name' pid hpc
    by_cases hname : name' = name
    · subst hname
      have hcreated : (s.nodes name').view = .created := by
        have hleads := h.leads name'
        have hview : s.view name' = .created := h.view_of_pc (congrArg WorkPc.name hpc)
        rw [hview] at hleads
        exact (NodeView.foldlM_created hleads).1
      have hkept := hm.kept hcreated
      rw [Option.mem_def.mp hd, Option.map_some] at hkept
      obtain ⟨d', hd', heq⟩ := Option.map_eq_some_iff.mp hkept
      rw [moved_self]
      exact ⟨d', hd', heq.trans hpid⟩
    · rw [moved_of_ne hname]
      exact ⟨d, hd, hpid⟩
  dir name' := by
    by_cases hname : name' = name
    · subst hname
      rw [moved_self]
      exact hm.dir
    · rw [moved_of_ne hname]
      exact h.dir name'
  known name' := by
    by_cases hname : name' = name
    · subst hname
      rw [moved_self]
      exact hm.known
    · rw [moved_of_ne hname]
      exact h.known name'

/-! ## What nodes do -/

/-- What is queued when a file in the directory is closed, or the directory itself. -/
def closed (s : WatchedNodes κ) (name : Text) (isDir : Bool) (event : Text) :
    List (Option InotifyEvent) :=
  (s.nodes name).watch.elim [] fun wd =>
    if s.queue.getLast? = some (some (.closeNowrite wd isDir event)) then []
    else [some (.closeNowrite wd isDir event)]

/-- What is queued when something happens there that is passed over. -/
def passed (s : WatchedNodes κ) (name : Text) : List (Option InotifyEvent) :=
  (s.nodes name).watch.elim [] fun _ => [none]

theorem enqueue_eq (queue : List (Option InotifyEvent)) (event : InotifyEvent) :
    enqueue queue event
      = queue ++ if queue.getLast? = some (some event) then [] else [some event] := by
  unfold enqueue
  split
  · exact (List.append_nil queue).symm
  · rfl

theorem close_eq (name : Text) (isDir : Bool) (event : Text) :
    s.close name isDir event = { s with queue := s.queue ++ s.closed name isDir event } := by
  unfold close closed
  cases (s.nodes name).watch with
  | none => exact congrArg (fun q => { s with queue := q }) (List.append_nil s.queue).symm
  | some wd => exact congrArg (fun q => { s with queue := q }) (enqueue_eq ..)

theorem passOver_eq (name : Text) :
    s.passOver name = { s with queue := s.queue ++ s.passed name } := by
  unfold passOver passed
  cases (s.nodes name).watch with
  | none => exact congrArg (fun q => { s with queue := q }) (List.append_nil s.queue).symm
  | some wd => rfl

@[simp] theorem passed_filterMap : (s.passed name).filterMap id = [] := by
  unfold passed
  cases (s.nodes name).watch <;> rfl

theorem closed_of_queues {event : Text} (h : s.Queues name event) : ∃ wd,
    (s.nodes name).watch = some wd
      ∧ s.closed name false event = [some (.closeNowrite wd false event)] := by
  obtain ⟨hsome, hlast⟩ := h
  obtain ⟨wd, hwd⟩ := Option.isSome_iff_exists.mp hsome
  refine ⟨wd, hwd, ?_⟩
  unfold closed
  rw [hwd]
  exact if_neg (hlast wd hwd)

theorem closed_of_not_queues {event : Text} (h : ¬ s.Queues name event) :
    s.closed name false event = [] := by
  unfold closed
  cases hwd : (s.nodes name).watch with
  | none => rfl
  | some wd =>
    refine if_pos (not_not.mp fun hlast => h ⟨hwd ▸ rfl, fun wd' hwd' => ?_⟩)
    rw [hwd] at hwd'
    cases hwd'
    exact hlast

/-- **A directory that has just been made** is announced: the last event is not that it was
made before. -/
theorem Inv.last_ne_create (h : s.Inv registered) (hview : (s.nodes name).view = .waiting) :
    s.queue.getLast? ≠ some (some (.create name)) := by
  intro hlast
  obtain ⟨queue, hqueue⟩ := List.getLast?_eq_some_iff.mp hlast
  have htodo : s.todoOf name
      = ((s.batch ++ queue).filterMap id).filter (s.Of name) ++ [.create name] := by
    unfold todoOf todo
    rw [hqueue, ← List.append_assoc, List.filterMap_append, List.filter_append]
    refine congrArg _ ?_
    show [InotifyEvent.create name].filter (s.Of name) = _
    exact List.filter_eq_self.mpr fun event hmem => by
      rw [List.mem_singleton.mp hmem]
      exact decide_eq_true rfl
  have hleads := h.leads name
  rw [htodo, List.foldlM_append, hview] at hleads
  obtain ⟨v, _, hv⟩ := Option.bind_eq_some_iff.mp hleads
  rw [List.foldlM_cons] at hv
  obtain ⟨w, hw, heq⟩ := Option.bind_eq_some_iff.mp hv
  cases (NodeView.eq_of_after_create hw).2
  cases heq

/-- A move that queues nothing that is processed. -/
theorem NodeMove.of_none {x : NodeLife} {events : List (Option InotifyEvent)}
    (hevents : events.filterMap id = []) (hview : x.view = (s.nodes name).view)
    (hwatch : x.watch = none ∨ x.watch = (s.nodes name).watch)
    (hdir : x.stage ≠ .absent → x.stage ≠ .cleared → x.dir.isSome)
    (hkept : (s.nodes name).view = .created →
      x.dir.map Prod.fst = (s.nodes name).dir.map Prod.fst)
    (hknown : x.stage ≠ .absent → Known registered name) : NodeMove registered s name x events where
  view := by
    rw [hevents, hview]
    rfl
  of event hmem := by
    have hmem : event ∈ events.filterMap id := List.mem_filterMap.mpr ⟨_, hmem, rfl⟩
    rw [hevents] at hmem
    cases hmem
  created name' hmem := by
    have hmem : .create name' ∈ events.filterMap id := List.mem_filterMap.mpr ⟨_, hmem, rfl⟩
    rw [hevents] at hmem
    cases hmem
  watch := hwatch
  dir := hdir
  kept := hkept
  known := hknown

/-- A move that closes a file, or the directory. -/
theorem Inv.move_close (h : s.Inv registered) {x : NodeLife} {wd : ℤ} {isDir : Bool} {event : Text}
    (hwd : (s.nodes name).watch = some wd)
    (hview : (s.nodes name).view.after (.closeNowrite wd isDir event) = some x.view)
    (hwatch : x.watch = (s.nodes name).watch) (hdir : x.dir = (s.nodes name).dir)
    (hstage : x.stage ≠ .absent → x.stage ≠ .cleared → (s.nodes name).dir.isSome)
    (hknown : x.stage ≠ .absent → Known registered name) :
    NodeMove registered s name x [some (.closeNowrite wd isDir event)] where
  view := by
    show ([InotifyEvent.closeNowrite wd isDir event]).foldlM NodeView.after _ = _
    rw [List.foldlM_cons, hview]
    rfl
  of event' hmem := by
    cases List.mem_singleton.mp hmem
    exact decide_eq_true (h.watch name wd hwd)
  created name' hmem := by cases List.mem_singleton.mp hmem
  watch := .inr hwatch
  dir := hdir ▸ hstage
  kept _ := congrArg _ hdir
  known := hknown

end Moved

/-- **A node acts**: it moves, and notifies of what is queued. -/
def Acts (registered : Text → Option (CallbackMap κ)) (s s' : WatchedNodes κ) : Prop :=
  ∃ name x events nextPid, NodeMove registered s name x events
    ∧ s' = s.moved name x events nextPid (events.filterMap s.notice)

section Acts

variable {s s' : WatchedNodes κ} {registered : Text → Option (CallbackMap κ)} {name event : Text}
  {x : NodeLife}

@[simp] theorem passed_notice : (s.passed name).filterMap s.notice = [] := by
  unfold passed
  cases (s.nodes name).watch <;> rfl

theorem notice_close {wd : ℤ} (h : s.owner wd = some name) (event : Text) :
    s.notice (some (.closeNowrite wd false event)) = some (name, event) := by
  show (s.owner wd).map _ = _
  rw [h]
  rfl

/-- A move of which nothing is heard. -/
theorem Acts.of_silent {events : List (Option InotifyEvent)} (nextPid : ℕ)
    (hm : NodeMove registered s name x events) (hnotice : events.filterMap s.notice = [])
    (hs : s' = s.moved name x events nextPid []) : Acts registered s s' :=
  ⟨name, x, events, nextPid, hm, by rw [hnotice, hs]⟩

/-- A move that closes a file of an event. -/
theorem Inv.acts_close (h : s.Inv registered) (hq : s.Queues name event)
    (hrunning : (s.nodes name).stage = .running) (hwatch : x.watch = (s.nodes name).watch)
    (hdir : x.dir = (s.nodes name).dir)
    (hview : ∀ wd, (s.nodes name).watch = some wd →
      (NodeView.watched wd).after (.closeNowrite wd false event) = some x.view) :
    Acts registered s { s with
      nodes := Function.update s.nodes name x
      queue := s.queue ++ s.closed name false event
      made := s.made ++ [(name, event)] } := by
  obtain ⟨wd, hwd, hclosed⟩ := closed_of_queues hq
  have hold : (s.nodes name).view = .watched wd := by
    unfold NodeLife.view
    rw [hrunning, hwd]
    rfl
  have hknown := h.known name (by rw [hrunning]; exact NodeStage.noConfusion)
  have hsome := h.dir name (by rw [hrunning]; exact NodeStage.noConfusion)
    (by rw [hrunning]; exact NodeStage.noConfusion)
  have hm : NodeMove registered s name x [some (.closeNowrite wd false event)] :=
    h.move_close hwd (hold ▸ hview wd hwd) hwatch hdir (fun _ _ => hsome) fun _ => hknown
  refine ⟨name, x, _, s.nextPid, hm, ?_⟩
  rw [hclosed]
  unfold moved
  rw [List.filterMap_cons_some (notice_close (h.watch name wd hwd) event)]
  rfl

/-- A file for an event is made. -/
theorem Inv.acts_addFile (h : s.Inv registered) (hx : x.view = (s.nodes name).view)
    (hwatch : x.watch = (s.nodes name).watch) (hdir : x.dir = (s.nodes name).dir)
    (hstage : (s.nodes name).stage ≠ .absent) (hstage' : (s.nodes name).stage ≠ .cleared)
    (event : Text) : Acts registered s ((s.setNode name x).addFile name event) := by
  have hview : (x.withEvent event).view = (s.nodes name).view := hx
  have hpassed : (s.setNode name x).addFile name event
      = s.moved name (x.withEvent event) (s.passed name) s.nextPid [] := by
    unfold addFile
    rw [passOver_eq]
    unfold passed setNode moved
    dsimp only
    rw [Function.update_self, Function.update_idem, Function.update_self, List.append_nil]
    show _ = { s with nodes := _, queue := _ }
    rw [show (x.withEvent event).watch = (s.nodes name).watch from hwatch]
  have hfst : (x.withEvent event).dir.map Prod.fst = (s.nodes name).dir.map Prod.fst := by
    unfold NodeLife.withEvent
    rw [hdir, Option.map_map]
    rfl
  refine .of_silent s.nextPid (.of_none passed_filterMap hview (.inr hwatch) (fun _ _ => ?_)
    (fun _ => hfst) fun _ => h.known name hstage) passed_notice hpassed
  unfold NodeLife.withEvent
  rw [hdir, Option.isSome_map]
  exact h.dir name hstage hstage'

/-- The stage changes, and nothing else. -/
theorem Inv.acts_stage (h : s.Inv registered) (hx : x.view = (s.nodes name).view)
    (hwatch : x.watch = (s.nodes name).watch) (hdir : x.dir = (s.nodes name).dir)
    (hstage : x.stage ≠ .absent →
      (s.nodes name).stage ≠ .absent ∧ (s.nodes name).stage ≠ .cleared) :
    Acts registered s (s.setNode name x) := by
  refine .of_silent s.nextPid (.of_none (List.filterMap_nil) hx (.inr hwatch)
    (fun ha _ => ?_) (fun _ => congrArg _ hdir) fun ha => h.known name (hstage ha).1) rfl ?_
  · rw [hdir]
    exact h.dir name (hstage ha).1 (hstage ha).2
  · unfold setNode moved
    rw [List.append_nil, List.append_nil]

theorem Inv.acts_construct (h : s.Inv registered) (hn : s.constructStep name = some s') :
    Acts registered s s' := by
  unfold constructStep at hn
  dsimp only at hn
  cases hstage : (s.nodes name).stage with
  | cleared =>
    rw [hstage] at hn
    cases hn
    have hold : (s.nodes name).view = .waiting := by
      unfold NodeLife.view
      rw [hstage]
    have hknown := h.known name (by rw [hstage]; exact NodeStage.noConfusion)
    refine ⟨name, ⟨.made, some (s.nextPid, []), none⟩, [some (.create name)], s.nextPid + 1,
      ⟨?_, ?_, ?_, .inl rfl, fun _ _ => rfl, ?_, fun _ => hknown⟩, ?_⟩
    · rw [hold]
      rfl
    · rintro event hmem
      cases List.mem_singleton.mp hmem
      exact decide_eq_true rfl
    · rintro name' hmem
      cases List.mem_singleton.mp hmem
      exact hknown
    · rw [hold]
      exact fun heq => NodeView.noConfusion heq
    · have hsilent : [some (.create name)].filterMap s.notice = [] := rfl
      rw [enqueue_eq, if_neg (h.last_ne_create hold), hsilent]
      unfold setNode moved
      rw [List.append_nil s.made]
  | made =>
    rw [hstage] at hn
    cases hn
    have hold : (s.nodes name).view = (s.nodes name).watch.elim .created .watched := by
      unfold NodeLife.view
      rw [hstage]
    refine h.acts_stage hold.symm rfl rfl fun _ => ?_
    rw [hstage]
    exact ⟨NodeStage.noConfusion, NodeStage.noConfusion⟩
  | named =>
    rw [hstage] at hn
    cases hn
    have hview : ({ s.nodes name with stage := .begun } : NodeLife).view = (s.nodes name).view := by
      unfold NodeLife.view
      rw [hstage]
    refine h.acts_addFile hview rfl rfl ?_ ?_ _ <;> (rw [hstage]; exact NodeStage.noConfusion)
  | begun =>
    rw [hstage] at hn
    cases hn
    have hview : ({ s.nodes name with stage := .added } : NodeLife).view = (s.nodes name).view := by
      unfold NodeLife.view
      rw [hstage]
    refine h.acts_addFile hview rfl rfl ?_ ?_ _ <;> (rw [hstage]; exact NodeStage.noConfusion)
  | added =>
    rw [hstage] at hn
    cases hn
    have hold : (s.nodes name).view = (s.nodes name).watch.elim .created .watched := by
      unfold NodeLife.view
      rw [hstage]
    refine h.acts_stage hold.symm rfl rfl fun _ => ?_
    rw [hstage]
    exact ⟨NodeStage.noConfusion, NodeStage.noConfusion⟩
  | absent | running | closed =>
    rw [hstage] at hn
    cases hn

theorem closeDestroy_eq (stage : NodeStage) : s.closeDestroy name stage = { s with
    nodes := Function.update s.nodes name { s.nodes name with stage := stage }
    queue := s.queue ++ s.closed name false destroy
    made := s.made ++ [(name, destroy)] } := by
  unfold closeDestroy
  rw [close_eq]
  unfold make setNode closed
  dsimp only
  rw [Function.update_self]

theorem Inv.acts_closeDestroy (h : s.Inv registered) (hq : s.Queues name destroy)
    (hrunning : (s.nodes name).stage = .running) {stage : NodeStage}
    (hstage : stage = .absent ∨ stage = .closed) :
    Acts registered s (s.closeDestroy name stage) := by
  rw [closeDestroy_eq]
  refine h.acts_close hq hrunning rfl rfl fun wd _ => ?_
  rw [NodeView.after_destroy]
  unfold NodeLife.view
  obtain rfl | rfl := hstage <;> rfl

theorem Inv.acts_crash (h : s.Inv registered) (hn : s.crash name = some s')
    (hl : s.KeepsPace (.crash name)) : Acts registered s s' := by
  unfold crash at hn
  unfold KeepsPace at hl
  dsimp only at hn hl
  cases hstage : (s.nodes name).stage with
  | absent =>
    rw [hstage] at hn
    cases hn
  | made | named | begun | added =>
    rw [hstage] at hl
    cases hl
  | cleared | closed =>
    rw [hstage] at hn
    cases hn
    refine h.acts_stage ?_ rfl rfl fun ha => absurd rfl ha
    unfold NodeLife.view
    rw [hstage]
  | running =>
    rw [hstage] at hn hl
    cases hn
    exact h.acts_closeDestroy hl hstage (.inl rfl)

/-- All is removed. -/
theorem acts_remove {stage : NodeStage} (hold : (s.nodes name).view = .waiting)
    (hstage : stage = .absent ∨ stage = .cleared) (hknown : Known registered name) :
    Acts registered s ((s.passOver name).setNode name ⟨stage, none, none⟩) := by
  have hm : NodeMove registered s name ⟨stage, none, none⟩ (s.passed name) := by
    refine .of_none passed_filterMap ?_ (.inl rfl)
      (fun ha hc => absurd hstage (not_or.mpr ⟨ha, hc⟩)) ?_ fun _ => hknown
    · rw [hold]
      unfold NodeLife.view
      obtain rfl | rfl := hstage <;> rfl
    · rw [hold]
      exact fun heq => NodeView.noConfusion heq
  refine .of_silent s.nextPid hm passed_notice ?_
  rw [passOver_eq]
  unfold setNode moved
  rw [List.append_nil]

/-- The directory is listed. -/
theorem Inv.acts_list (h : s.Inv registered) (name : Text) :
    Acts registered s (s.close name true []) := by
  have hm : NodeMove registered s name (s.nodes name) (s.closed name true []) := by
    unfold closed
    cases hwd : (s.nodes name).watch with
    | none =>
      exact .of_none rfl rfl (.inr rfl) (h.dir name) (fun _ => rfl) (h.known name)
    | some wd =>
      dsimp only [Option.elim_some]
      split
      · exact .of_none rfl rfl (.inr rfl) (h.dir name) (fun _ => rfl) (h.known name)
      · exact h.move_close hwd (NodeView.after_dir ..) rfl rfl (h.dir name) (h.known name)
  refine .of_silent s.nextPid hm ?_ ?_
  · unfold closed
    cases (s.nodes name).watch with
    | none => rfl
    | some wd =>
      dsimp only [Option.elim_some]
      split <;> rfl
  · rw [close_eq]
    unfold moved
    rw [Function.update_eq_self, List.append_nil]

/-- **What a node does**, while the monitor keeps pace. -/
theorem Inv.acts (h : s.Inv registered) {l : NodeWorldStep} (hn : s.next registered l = some s')
    (hl : s.KeepsPace l) (hwork : s.workStep l = none) : Acts registered s s' := by
  cases l with
  | start name =>
    obtain ⟨⟨hreg, hne, hstage⟩, hs⟩ := Option.ite_none_right_eq_some.mp hn
    cases hs
    refine acts_remove ?_ (.inr rfl) ⟨hne, hreg⟩
    unfold NodeLife.view
    rw [hstage]
  | construct name => exact h.acts_construct hn
  | addEvent name event =>
    obtain ⟨⟨hstage, _⟩, hs⟩ := Option.ite_none_right_eq_some.mp hn
    cases hs
    have hself : s.addFile name event = (s.setNode name (s.nodes name)).addFile name event := by
      unfold setNode
      rw [Function.update_eq_self]
    rw [hself]
    refine h.acts_addFile rfl rfl rfl ?_ ?_ event <;> (rw [hstage]; exact NodeStage.noConfusion)
  | notify name event =>
    obtain ⟨⟨hstage, _, hne⟩, hs⟩ := Option.ite_none_right_eq_some.mp hn
    cases hs
    have hclose := h.acts_close (x := s.nodes name) hl hstage rfl rfl fun wd hwd => ?_
    · rw [Function.update_eq_self] at hclose
      rw [close_eq]
      exact hclose
    · rw [NodeView.after_close hne]
      unfold NodeLife.view
      rw [hstage, hwd]
      rfl
  | list name =>
    obtain ⟨_, hs⟩ := Option.ite_none_right_eq_some.mp hn
    cases hs
    exact h.acts_list name
  | destroy name =>
    obtain ⟨hstage, hs⟩ := Option.ite_none_right_eq_some.mp hn
    cases hs
    exact h.acts_closeDestroy hl hstage (.inr rfl)
  | removeAll name =>
    obtain ⟨hstage, hs⟩ := Option.ite_none_right_eq_some.mp hn
    cases hs
    refine acts_remove ?_ (.inl rfl) (h.known name ?_)
    · unfold NodeLife.view
      rw [hstage]
    · rw [hstage]
      exact NodeStage.noConfusion
  | crash name => exact h.acts_crash hn hl
  | read | process | lookup | watch =>
    obtain ⟨_, hs⟩ := Option.ite_none_left_eq_some.mp hn
    cases hwork.symm.trans hs

end Acts

/-! ## What the monitor does -/

section Work

variable {s s' : WatchedNodes κ} {registered : Text → Option (CallbackMap κ)} {name event : Text}
  {wd : ℤ} {rest : List (Option InotifyEvent)} {e : InotifyEvent}

/-- **Only what there is to do may be changed**, and that by events which are passed over. -/
theorem Inv.of_todo (h : s.Inv registered) {batch queue : List (Option InotifyEvent)}
    (hid : (batch ++ queue).filterMap id = s.todo.filterMap id) :
    ({ s with batch := batch, queue := queue } : WatchedNodes κ).Inv registered where
  sound := h.sound
  asked := h.asked
  watcher := h.watcher
  fresh := h.fresh
  watch := h.watch
  owned wd isDir event hmem := by
    have hmem : .closeNowrite wd isDir event ∈ (batch ++ queue).filterMap id :=
      List.mem_filterMap.mpr ⟨_, hmem, rfl⟩
    rw [hid] at hmem
    obtain ⟨_, hmem, rfl⟩ := List.mem_filterMap.mp hmem
    exact h.owned wd isDir event hmem
  created name hmem := by
    have hmem : .create name ∈ (batch ++ queue).filterMap id :=
      List.mem_filterMap.mpr ⟨_, hmem, rfl⟩
    rw [hid] at hmem
    obtain ⟨_, hmem, rfl⟩ := List.mem_filterMap.mp hmem
    exact h.created name hmem
  leads name := by
    have htodo : ({ s with batch := batch, queue := queue } : WatchedNodes κ).todoOf name
        = s.todoOf name := by
      unfold todoOf
      rw [← hid]
      rfl
    rw [htodo]
    exact h.leads name
  pc := h.pc
  found := h.found
  dir := h.dir
  known := h.known

/-- The events of a node, without the one that is processed. -/
theorem todoOf_cons (hbatch : s.batch = some e :: rest) (name : Text) :
    s.todoOf name = (if s.Of name e then [e] else [])
      ++ ({ s with batch := rest } : WatchedNodes κ).todoOf name := by
  unfold todoOf todo
  have hid : (some e :: rest ++ s.queue).filterMap id = e :: (rest ++ s.queue).filterMap id := rfl
  rw [hbatch, hid, List.filter_cons]
  split <;> rfl

/-- **An event is processed**: what is known of its node is what it leads to, and of the other
nodes it is the same. -/
theorem Inv.process (h : s.Inv registered) (hbatch : s.batch = some e :: rest)
    (hof : s.Of name e = true) {monitor : NodeMonitor κ} {pc : WorkPc}
    {heard : List (Text × Text)}
    (hs : s' = { s with batch := rest, monitor := monitor, pc := pc, heard := heard })
    (hview : (s.view name).after e = some (s'.view name))
    (hother : ∀ a ≠ name, s'.view a = s.view a)
    (hsound : (⟨monitor, fun name => (registered name).map some, false⟩ :
      MonitorSession κ).Sound)
    (hasked : ∀ a, monitor.inotifyMap a ≠ none → s.monitor.inotifyMap a ≠ none)
    (hwatcher : ∀ wd node, monitor.inotifyMapRev wd = some node →
      s.monitor.inotifyMapRev wd = some node)
    (hpc : ∀ a, pc.name = some a → a ≠ [] ∧ (monitor.waitNodeCallbackMap a).isSome)
    (hfound : ∀ a pid, pc ≠ .found a pid) : s'.Inv registered := by
  have htodo : ∀ o, o ∈ s'.todo → o ∈ s.todo := by
    intro o ho
    rw [hs] at ho
    unfold todo at ho ⊢
    rw [hbatch]
    exact List.mem_cons_of_mem _ ho
  have hleads : ∀ a, (s'.todoOf a).foldlM NodeView.after (s'.view a) = some (s.nodes a).view := by
    intro a
    have hold := h.leads a
    have hrest : ({ s with batch := rest } : WatchedNodes κ).todoOf a = s'.todoOf a := by
      rw [hs]
      rfl
    rw [todoOf_cons hbatch, hrest] at hold
    by_cases ha : a = name
    · subst ha
      rw [if_pos hof, List.singleton_append, List.foldlM_cons, hview] at hold
      exact hold
    · rw [if_neg (not_of_ne ha hof), List.nil_append] at hold
      rw [hother a ha]
      exact hold
  subst hs
  exact {
    sound := hsound
    asked := fun a ha => h.asked a (hasked a ha)
    watcher := fun wd node hrev => h.watcher wd node (hwatcher wd node hrev)
    fresh := h.fresh
    watch := h.watch
    owned := fun wd isDir event hmem => h.owned wd isDir event (htodo _ hmem)
    created := fun a hmem => h.created a (htodo _ hmem)
    leads := hleads
    pc := hpc
    found := fun a pid heq => absurd heq (hfound a pid)
    dir := h.dir
    known := h.known }

/-- A node that is waited for. -/
theorem Inv.waiting_of_view (h : s.Inv registered) (hknown : (registered name).isSome)
    (hview : s.view name = .waiting) : s.monitor.inotifyMap name = none
      ∧ s.monitor.waitNodeCallbackMap name = some (registered name) := by
  obtain ⟨callbacks, hcallbacks⟩ := Option.isSome_iff_exists.mp hknown
  have hholds := h.sound.holds name (some callbacks) (congrArg (Option.map some) hcallbacks)
  obtain ⟨_, wd, hwd, _⟩ | ⟨hnone, hwait⟩ := hholds
  · unfold view at hview
    rw [hwd] at hview
    cases hview
  · rw [hcallbacks]
    exact ⟨hnone, hwait⟩

/-- A node that is watched. -/
theorem Inv.watched_of_view (h : s.Inv registered) (hview : s.view name = .watched wd) :
    ∃ callbacks, registered name = some callbacks ∧ s.monitor.inotifyMap name = some wd
      ∧ s.monitor.inotifyMapRev wd = some ⟨name, some callbacks⟩ := by
  have hwd : s.monitor.inotifyMap name = some wd := by
    unfold view at hview
    cases hmap : s.monitor.inotifyMap name with
    | none =>
      rw [hmap] at hview
      dsimp only [Option.elim_none] at hview
      split at hview <;> cases hview
    | some wd' =>
      rw [hmap] at hview
      cases hview
      rfl
  have hasked := h.asked name (by rw [hwd]; exact Option.some_ne_none wd)
  obtain ⟨callbacks, hcallbacks⟩ := Option.isSome_iff_exists.mp hasked
  have hholds := h.sound.holds name (some callbacks) (congrArg (Option.map some) hcallbacks)
  obtain ⟨_, wd', hwd', hnode⟩ | ⟨hnone, _⟩ := hholds
  · cases Option.some.inj (hwd.symm.trans hwd')
    exact ⟨callbacks, hcallbacks, hwd, hnode⟩
  · cases hnone.symm.trans hwd

/-- The thread is not reading the pid of a node. -/
theorem view_of_idle (hpc : s.pc = .idle) (hname : s.monitor.inotifyMap name = none) :
    s.view name = .waiting := by
  unfold view
  rw [hname, hpc]
  rfl

/-- **A node has been created**: its pid is read next. -/
theorem Inv.process_create (h : s.Inv registered) (hpc : s.pc = .idle)
    (hbatch : s.batch = some (.create name) :: rest) :
    ({ s with batch := rest } : WatchedNodes κ).processEvent (.create name)
        = { s with batch := rest, pc := .waiting name }
      ∧ ({ s with batch := rest, pc := .waiting name } : WatchedNodes κ).Inv registered := by
  have hof : s.Of name (.create name) = true := decide_eq_true rfl
  obtain ⟨hne, hknown⟩ := h.created name (by
    unfold todo
    rw [hbatch]
    exact List.mem_cons_self)
  have hview : s.view name = .waiting := by
    have hleads := h.leads name
    rw [todoOf_cons hbatch, if_pos hof, List.singleton_append, List.foldlM_cons] at hleads
    obtain ⟨v, hv, _⟩ := Option.bind_eq_some_iff.mp hleads
    exact (NodeView.eq_of_after_create hv).1
  obtain ⟨hnone, hwait⟩ := h.waiting_of_view hknown hview
  have hsome : (s.monitor.waitNodeCallbackMap name).isSome := by
    rw [hwait]
    rfl
  constructor
  · unfold processEvent
    dsimp only
    rw [NodeMonitor.workTask, if_neg hne, hwait]
    dsimp only
    rw [if_neg hne, if_pos hsome]
  · refine h.process hbatch hof rfl ?_ (fun a ha => ?_) h.sound (fun _ => id) (fun _ _ => id)
      (fun a heq => ?_) fun a pid heq => by cases heq
    · rw [hview]
      unfold view
      dsimp only
      rw [hnone]
      exact congrArg some (if_pos rfl).symm
    · unfold view
      dsimp only
      rw [hpc]
      refine congrArg (fun v => (s.monitor.inotifyMap a).elim v NodeView.watched) ?_
      exact if_neg fun heq => ha (Option.some.inj heq).symm
    · cases heq
      exact ⟨hne, hsome⟩

/-- **A directory has been closed**, which is passed over. -/
theorem Inv.process_dir (h : s.Inv registered) (hpc : s.pc = .idle)
    (hbatch : s.batch = some (.closeNowrite wd true event) :: rest) :
    ({ s with batch := rest } : WatchedNodes κ).processEvent (.closeNowrite wd true event)
        = { s with batch := rest }
      ∧ ({ s with batch := rest } : WatchedNodes κ).Inv registered := by
  constructor
  · unfold processEvent
    dsimp only
    rw [show s.monitor.workTask 0 (.closeNowrite wd true event) = .ok (true, s.monitor) from rfl]
    dsimp only
    rw [if_neg (by rintro ⟨⟨⟩, _⟩)]
    exact congrArg (fun heard => { s with batch := rest, heard := heard })
      (List.append_nil s.heard)
  · obtain ⟨name, hname⟩ := Option.isSome_iff_exists.mp (h.owned wd true event (by
      unfold todo
      rw [hbatch]
      exact List.mem_cons_self))
    have hsame : ({ s with batch := rest } : WatchedNodes κ)
        = { s with batch := rest, monitor := s.monitor, pc := s.pc, heard := s.heard } := rfl
    refine h.process hbatch (decide_eq_true hname) hsame (NodeView.after_dir ..) (fun _ _ => rfl)
      h.sound (fun _ => id) (fun _ _ => id) h.pc ?_
    rw [hpc]
    exact fun _ _ heq => by cases heq

/-- The call of a callback. -/
def invoked (registered : Text → Option (CallbackMap κ)) (e : Text × Text) :
    Option (κ × Text × Text) :=
  (registered e.1).bind fun callbacks => (callbacks e.2).map fun callback => (callback, e)

/-- **A file of a node that is watched has been closed.** -/
theorem Inv.workTask_close (h : s.Inv registered) (hview : s.view name = .watched wd)
    (event : Text) : ∃ callbacks, s.monitor.inotifyMapRev wd = some ⟨name, callbacks⟩
      ∧ ∃ m : NodeMonitor κ, m = { s.monitor with
          called := (invoked registered (name, event)).toList ++ s.monitor.called }
        ∧ s.monitor.workTask 0 (.closeNowrite wd false event)
          = .ok (true, if event = destroy then m.nodeDestroyed wd ⟨name, callbacks⟩ else m) := by
  obtain ⟨callbacks, hcallbacks, _, hnode⟩ := h.watched_of_view hview
  refine ⟨some callbacks, hnode, _, rfl, ?_⟩
  have hnotify : s.monitor.onEventNotify ⟨name, some callbacks⟩ event = .ok { s.monitor with
      called := (invoked registered (name, event)).toList ++ s.monitor.called } := by
    unfold NodeMonitor.onEventNotify invoked
    rw [hcallbacks]
    dsimp only [Option.bind_some]
    cases callbacks event <;> rfl
  rw [NodeMonitor.workTask, if_neg Bool.false_ne_true, hnode]
  dsimp only
  rw [hnotify, Except.ok_bind]

/-- What is processed when a file of a node that is watched has been closed, but for the
descriptor. -/
def closedFile (s : WatchedNodes κ) (batch : List (Option InotifyEvent)) (monitor : NodeMonitor κ)
    (name event : Text) : WatchedNodes κ :=
  { s with batch := batch, monitor := monitor, heard := s.heard ++ [(name, event)] }

theorem Inv.process_close (h : s.Inv registered) (hpc : s.pc = .idle)
    (hbatch : s.batch = some (.closeNowrite wd false event) :: rest)
    (hname : s.owner wd = some name) : ∃ m : NodeMonitor κ,
      ({ s with batch := rest } : WatchedNodes κ).processEvent (.closeNowrite wd false event)
          = (if event = destroy then (s.closedFile rest m name event).rmWatch wd
            else s.closedFile rest m name event)
        ∧ (s.closedFile rest m name event).Inv registered
        ∧ m.called = (invoked registered (name, event)).toList ++ s.monitor.called
        ∧ (event = destroy → (s.closedFile rest m name event).view name = .waiting) := by
  have hof : s.Of name (.closeNowrite wd false event) = true := decide_eq_true hname
  obtain ⟨v, hv⟩ : ∃ v, (s.view name).after (.closeNowrite wd false event) = some v := by
    have hleads := h.leads name
    rw [todoOf_cons hbatch, if_pos hof, List.singleton_append, List.foldlM_cons] at hleads
    obtain ⟨v, hv, _⟩ := Option.bind_eq_some_iff.mp hleads
    exact ⟨v, hv⟩
  obtain ⟨hview, rfl⟩ := NodeView.eq_of_after_close hv
  obtain ⟨callbacks, hnode, m, hm, hwork⟩ := h.workTask_close hview event
  have hmap : s.monitor.inotifyMap name = some wd := h.sound.inverse.of_rev hnode
  have hprocess : ({ s with batch := rest } : WatchedNodes κ).processEvent
      (.closeNowrite wd false event)
        = (if event = destroy then
            (s.closedFile rest (m.nodeDestroyed wd ⟨name, callbacks⟩) name event).rmWatch wd
          else s.closedFile rest m name event) := by
    unfold processEvent
    dsimp only
    rw [hwork]
    dsimp only
    rw [if_neg Bool.false_ne_true, hnode]
    by_cases heq : event = destroy
    · rw [if_pos ⟨rfl, heq⟩, if_pos heq, if_pos heq]
      rfl
    · rw [if_neg fun h => heq h.2, if_neg heq, if_neg heq]
      rfl
  have hsame : (⟨m, fun name => (registered name).map some, false⟩ : MonitorSession κ).Sound := by
    rw [hm]
    exact h.sound.of_maps _ _
  by_cases heq : event = destroy
  · have hid : m.inotifyMapRev wd = some ⟨name, callbacks⟩ := by rw [hm]; exact hnode
    have hmap' : m.inotifyMap name = some wd := by rw [hm]; exact hmap
    have hnew : m.nodeDestroyed wd ⟨name, callbacks⟩ = (m.remove_ name).2.await name callbacks :=
      NodeMonitor.nodeDestroyed_eq hmap'
    have hu := NodeMonitor.unwatched_remove hsame.inverse name
    have hrev : (m.remove_ name).2.inotifyMapRev = InverseMaps.erase m.inotifyMapRev wd := by
      unfold NodeMonitor.remove_
      rw [hmap']
    have hcalled : (m.nodeDestroyed wd ⟨name, callbacks⟩).called = m.called := by
      rw [hnew]
      unfold NodeMonitor.await NodeMonitor.remove_
      rw [hmap']
    have hwaiting : (s.closedFile rest (m.nodeDestroyed wd ⟨name, callbacks⟩) name event).view name
        = .waiting := by
      refine view_of_idle hpc ?_
      show (m.nodeDestroyed wd ⟨name, callbacks⟩).inotifyMap name = none
      rw [hnew]
      exact hu.inotifyMap
    have hwait : ∀ a ≠ name, (m.nodeDestroyed wd ⟨name, callbacks⟩).inotifyMap a
        = s.monitor.inotifyMap a := by
      intro a ha
      rw [hnew]
      refine (hu.elsewhere.watched a ha).trans ?_
      rw [hm]
    refine ⟨m.nodeDestroyed wd ⟨name, callbacks⟩, by rw [if_pos heq]; rwa [if_pos heq] at hprocess,
      ?_, by rw [hcalled, hm], fun _ => hwaiting⟩
    refine h.process hbatch hof rfl ?_ (fun a ha => ?_) (hsame.nodeDestroyed hid) ?_ ?_ ?_ ?_
    · rw [hv, if_pos heq, hwaiting]
    · unfold view closedFile
      dsimp only
      rw [hwait a ha]
    · intro a ha
      by_cases hne : a = name
      · rw [hne, hmap]
        exact Option.some_ne_none wd
      · rwa [hwait a hne] at ha
    · intro wd' node hnode'
      rw [hnew] at hnode'
      have hnode' : (m.remove_ name).2.inotifyMapRev wd' = some node := hnode'
      rw [hrev] at hnode'
      have hold := (InverseMaps.of_erase hnode').2
      rwa [hm] at hold
    · rw [hpc]
      exact fun a ha => by cases ha
    · rw [hpc]
      exact fun _ _ ha => by cases ha
  · rw [if_neg heq] at hprocess
    refine ⟨m, by rw [if_neg heq]; exact hprocess, ?_, by rw [hm], fun hd => absurd hd heq⟩
    subst hm
    refine h.process hbatch hof rfl ?_ (fun a _ => rfl) hsame (fun _ => id) (fun _ _ => id) h.pc ?_
    · rw [hv, if_neg heq]
      exact congrArg some hview.symm
    · rw [hpc]
      exact fun _ _ ha => by cases ha

/-- **A watch that is not needed is removed.** -/
theorem Inv.rmWatch (h : s.Inv registered) (hname : s.owner wd = some name)
    (hview : s.view name = .waiting) : (s.rmWatch wd).Inv registered
      ∧ ∃ x events, s.rmWatch wd = s.moved name x events s.nextPid []
        ∧ events.filterMap s.notice = [] := by
  unfold WatchedNodes.rmWatch
  rw [hname, Option.elim_some]
  split
  · next hwd =>
    have hold : (s.nodes name).view = .waiting := by
      have hleads := h.leads name
      rw [hview] at hleads
      have hne := NodeView.foldlM_waiting hleads wd
      unfold NodeLife.view at hne ⊢
      rw [hwd] at hne ⊢
      cases hstage : (s.nodes name).stage <;> rw [hstage] at hne <;>
        first | rfl | exact absurd rfl hne
    have hnew : ({ s.nodes name with watch := none } : NodeLife).view = (s.nodes name).view := by
      rw [hold]
      unfold NodeLife.view at hold ⊢
      dsimp only
      rw [hwd] at hold
      cases hstage : (s.nodes name).stage <;> rw [hstage] at hold <;> first | rfl | cases hold
    have hm : NodeMove registered s name { s.nodes name with watch := none } (s.passed name) :=
      .of_none passed_filterMap hnew (.inl rfl) (h.dir name) (fun _ => rfl) (h.known name)
    have heq : (s.passOver name).setNode name { s.nodes name with watch := none }
        = s.moved name { s.nodes name with watch := none } (s.passed name) s.nextPid [] := by
      rw [passOver_eq]
      unfold setNode moved
      rw [List.append_nil]
    rw [heq]
    exact ⟨h.move hm, _, _, rfl, passed_notice⟩
  · have heq : s = s.moved name (s.nodes name) [] s.nextPid [] := by
      unfold moved
      rw [Function.update_eq_self, List.append_nil, List.append_nil]
    exact ⟨h, _, _, heq, rfl⟩

/-- **The pid has been found.** -/
theorem Inv.lookup (h : s.Inv registered) (hpc : s.pc = .waiting name) {d : ℕ × List Text}
    (hd : (s.nodes name).dir = some d) :
    ({ s with pc := .found name d.1 } : WatchedNodes κ).Inv registered where
  sound := h.sound
  asked := h.asked
  watcher := h.watcher
  fresh := h.fresh
  watch := h.watch
  owned := h.owned
  created := h.created
  leads a := by
    have hview : ({ s with pc := .found name d.1 } : WatchedNodes κ).view a = s.view a := by
      unfold view
      rw [hpc]
      rfl
    rw [hview]
    exact h.leads a
  pc a ha := h.pc a (by rw [hpc]; exact ha)
  found a pid ha := by
    cases ha
    exact ⟨d, hd, rfl⟩
  dir := h.dir
  known := h.known

/-- The node is watched, by a new descriptor. -/
def watchedAt (s : WatchedNodes κ) (name : Text) (monitor : NodeMonitor κ) : WatchedNodes κ :=
  { s with
    nodes := Function.update s.nodes name { s.nodes name with watch := some (s.nextWd : ℤ) }
    monitor := monitor
    pc := .idle
    terminated := false
    owner := Function.update s.owner s.nextWd (some name)
    nextWd := s.nextWd + 1 }

/-- A new descriptor is that of no event which has not been processed. -/
theorem Inv.owner_watchedAt (h : s.Inv registered) {isDir : Bool}
    (hmem : some (.closeNowrite wd isDir event) ∈ s.todo) (name : Text) (m : NodeMonitor κ) :
    (s.watchedAt name m).owner wd = s.owner wd := by
  obtain ⟨a, ha⟩ := Option.isSome_iff_exists.mp (h.owned wd isDir event hmem)
  exact Function.update_of_ne (ne_of_lt (h.fresh wd a ha)) _ _

theorem Inv.todoOf_watchedAt (h : s.Inv registered) (name a : Text) (m : NodeMonitor κ) :
    (s.watchedAt name m).todoOf a = s.todoOf a := by
  refine List.filter_congr fun e hmem => ?_
  obtain ⟨_, hmem, rfl⟩ := List.mem_filterMap.mp hmem
  cases e with
  | create _ => rfl
  | closeNowrite wd isDir event =>
    unfold Of
    dsimp only
    rw [h.owner_watchedAt hmem]

theorem Inv.notice_watchedAt (h : s.Inv registered) (name : Text) (m : NodeMonitor κ) :
    (s.watchedAt name m).todo.filterMap (s.watchedAt name m).notice
      = s.todo.filterMap s.notice := by
  refine List.filterMap_congr fun o hmem => ?_
  cases o with
  | none => rfl
  | some e =>
    cases e with
    | create _ => rfl
    | closeNowrite wd isDir event =>
      cases isDir with
      | true => rfl
      | false =>
        show ((s.watchedAt name m).owner wd).map _ = (s.owner wd).map _
        rw [h.owner_watchedAt hmem]

/-- **The node is watched**: what was to come of it before matters no more. -/
theorem Inv.watchedAt (h : s.Inv registered) {pid : ℕ} (hpc : s.pc = .found name pid)
    (hcreated : (s.nodes name).view = .created) {m : NodeMonitor κ}
    (hmap : m.inotifyMap name = some (s.nextWd : ℤ))
    (hother : ∀ a ≠ name, m.inotifyMap a = s.monitor.inotifyMap a)
    (hrev : ∀ wd node, m.inotifyMapRev wd = some node →
      wd = s.nextWd ∧ node.name = name ∨ s.monitor.inotifyMapRev wd = some node)
    (hsound : (⟨m, fun name => (registered name).map some, false⟩ : MonitorSession κ).Sound) :
    (s.watchedAt name m).Inv registered := by
  have howner : ∀ {wd a}, s.owner wd = some a → (s.watchedAt name m).owner wd = some a :=
    fun hwd => (Function.update_of_ne (ne_of_lt (h.fresh _ _ hwd)) _ _).trans hwd
  have hself : (s.watchedAt name m).owner s.nextWd = some name := Function.update_self ..
  have hnode : (s.watchedAt name m).nodes name
      = { s.nodes name with watch := some (s.nextWd : ℤ) } := Function.update_self ..
  have hnode' : ∀ {a}, a ≠ name → (s.watchedAt name m).nodes a = s.nodes a :=
    fun ha => Function.update_of_ne ha _ _
  have hknown : Known registered name := by
    refine h.known name fun hstage => ?_
    unfold NodeLife.view at hcreated
    rw [hstage] at hcreated
    cases hcreated
  exact {
    sound := hsound
    asked := fun a ha => by
      by_cases hname : a = name
      · rw [hname]
        exact hknown.2
      · refine h.asked a fun hnone => ha ((hother a hname).trans hnone)
    watcher := fun wd node hnode => by
      obtain ⟨rfl, rfl⟩ | hold := hrev wd node hnode
      · exact hself
      · exact howner (h.watcher wd node hold)
    fresh := fun wd a hwd => by
      by_cases heq : wd = s.nextWd
      · rw [heq]
        exact Int.ofNat_lt.mpr (Nat.lt_succ_self _)
      · have hold : s.owner wd = some a := (Function.update_of_ne heq _ _).symm.trans hwd
        exact (h.fresh wd a hold).trans (Int.ofNat_lt.mpr (Nat.lt_succ_self _))
    watch := fun a wd hwd => by
      by_cases hname : a = name
      · subst hname
        rw [hnode] at hwd
        cases hwd
        exact hself
      · rw [hnode' hname] at hwd
        exact howner (h.watch a wd hwd)
    owned := fun wd isDir event hmem => by
      rw [h.owner_watchedAt hmem]
      exact h.owned wd isDir event hmem
    created := h.created
    leads := fun a => by
      have hleads := h.leads a
      rw [h.todoOf_watchedAt]
      by_cases hname : a = name
      · subst hname
        have hview : (s.watchedAt a m).view a = .watched s.nextWd := by
          show (m.inotifyMap a).elim _ _ = _
          rw [hmap]
          rfl
        have hnew : ((s.watchedAt a m).nodes a).view = .watched s.nextWd := by
          rw [hnode]
          unfold NodeLife.view at hcreated ⊢
          cases hstage : (s.nodes a).stage <;> rw [hstage] at hcreated <;>
            first | rfl | cases hcreated
        rw [h.view_of_pc (congrArg WorkPc.name hpc)] at hleads
        rw [hview, hnew]
        exact (NodeView.foldlM_created hleads).2 _
      · have hview : (s.watchedAt name m).view a = s.view a := by
          show (m.inotifyMap a).elim _ _ = _
          rw [hother a hname]
          unfold view
          rw [hpc]
          refine congrArg (fun v => (s.monitor.inotifyMap a).elim v NodeView.watched) ?_
          exact (if_neg fun heq => hname (Option.some.inj heq).symm).symm
        rw [hview, hnode' hname]
        exact hleads
    pc := fun a ha => by cases ha
    found := fun a pid ha => by cases ha
    dir := fun a => by
      by_cases hname : a = name
      · subst hname
        rw [hnode]
        exact h.dir a
      · rw [hnode' hname]
        exact h.dir a
    known := fun a => by
      by_cases hname : a = name
      · subst hname
        rw [hnode]
        exact h.known a
      · rw [hnode' hname]
        exact h.known a }

/-- **The directory is watched.** -/
theorem Inv.addWatch (h : s.Inv registered) {pid : ℕ} (hpc : s.pc = .found name pid) :
    ∃ m : NodeMonitor κ, m.called = s.monitor.called ∧ s.addWatch name pid = s.watchedAt name m
      ∧ (s.watchedAt name m).Inv registered := by
  obtain ⟨hne, hwait⟩ := h.pc name (congrArg WorkPc.name hpc)
  obtain ⟨callbacks, hwait⟩ := Option.isSome_iff_exists.mp hwait
  have hview : s.view name = .created := h.view_of_pc (congrArg WorkPc.name hpc)
  have hleads := h.leads name
  rw [hview] at hleads
  obtain ⟨hcreated, hany⟩ := NodeView.foldlM_created hleads
  have hnone : s.monitor.inotifyMap name = none := by
    refine (h.sound.disjoint name).resolve_right ?_
    rw [hwait]
    exact Option.some_ne_none _
  have hfree : s.monitor.inotifyMapRev s.nextWd = none := by
    refine Option.eq_none_iff_forall_ne_some.mpr fun node hnode => ?_
    exact lt_irrefl _ (h.fresh _ _ (h.watcher _ node hnode))
  have hwatch : (s.nodes name).watch = none := by
    unfold NodeLife.view at hcreated
    cases hwd : (s.nodes name).watch with
    | none => rfl
    | some wd =>
      rw [hwd] at hcreated
      cases hstage : (s.nodes name).stage <;> rw [hstage] at hcreated <;> cases hcreated
  have hpos : (0 : ℤ) ≤ s.nextWd := Int.natCast_nonneg _
  have hwork := NodeMonitor.workTask_create hne hnone hwait hpos
  have hmap := NodeMonitor.watch_inotifyMap hnone callbacks s.nextWd
  obtain ⟨σ, hrun, hsound⟩ := h.sound.create ⟨hpos, hfree⟩ name
  cases (MonitorSession.run_event
    (s := ⟨s.monitor, fun name => (registered name).map some, false⟩) hwork).symm.trans hrun
  refine ⟨{ s.monitor.watch name callbacks s.nextWd with
      waitNodeCallbackMap := InverseMaps.erase s.monitor.waitNodeCallbackMap name }, rfl, ?_, ?_⟩
  · unfold WatchedNodes.addWatch
    dsimp only
    rw [if_pos (h.found name pid hpc), hwatch, Option.getD_none, hwork]
    rfl
  · refine h.watchedAt hpc hcreated hmap (fun a ha => ?_) (fun wd' node hnode => ?_) hsound
    · exact NodeMonitor.watch_inotifyMap_of_ne hnone callbacks s.nextWd ha
    · have hnode : InverseMaps.emplace s.monitor.inotifyMapRev s.nextWd ⟨name, callbacks⟩ wd'
          = some node := hnode
      rw [InverseMaps.emplace_of_none hfree] at hnode
      by_cases heq : wd' = s.nextWd
      · subst heq
        rw [Function.update_self] at hnode
        cases hnode
        exact .inl ⟨rfl, rfl⟩
      · rw [Function.update_of_ne heq] at hnode
        exact .inr hnode

end Work

/-! ## All is heard -/

section Account

variable {s s' : WatchedNodes κ} {registered : Text → Option (CallbackMap κ)} {name event : Text}
  {rest : List (Option InotifyEvent)} {o : Option InotifyEvent}

theorem todo_cons (hbatch : s.batch = o :: rest) :
    s.todo = o :: ({ s with batch := rest } : WatchedNodes κ).todo := by
  unfold todo
  rw [hbatch]
  rfl

/-- **What a node notifies of** is to be heard of next. -/
theorem Accounted.moved (ha : s.Accounted registered) (name : Text) (x : NodeLife)
    (events : List (Option InotifyEvent)) (nextPid : ℕ) :
    (s.moved name x events nextPid (events.filterMap s.notice)).Accounted registered where
  goesOn := ha.goesOn
  heard := by
    rw [todo_moved, List.filterMap_append, ← List.append_assoc]
    exact congrArg (· ++ events.filterMap s.notice) ha.heard
  called := ha.called

/-- An event is passed over. -/
theorem Accounted.skip (ha : s.Accounted registered) (hbatch : s.batch = o :: rest)
    (ho : s.notice o = none) :
    ({ s with batch := rest } : WatchedNodes κ).Accounted registered where
  goesOn := ha.goesOn
  heard := by
    have hheard := ha.heard
    rw [todo_cons hbatch, List.filterMap_cons_none ho] at hheard
    exact hheard
  called := ha.called

/-- **An event is heard of**, and its callback is called. -/
theorem Accounted.closedFile (ha : s.Accounted registered) (hbatch : s.batch = o :: rest)
    (ho : s.notice o = some (name, event)) {m : NodeMonitor κ}
    (hm : m.called = (invoked registered (name, event)).toList ++ s.monitor.called) :
    (s.closedFile rest m name event).Accounted registered where
  goesOn := ha.goesOn
  heard := by
    have hheard := ha.heard
    rw [todo_cons hbatch, List.filterMap_cons_some ho, List.append_cons] at hheard
    exact hheard
  called := by
    have hcalled := ha.called
    show m.called.reverse = (s.heard ++ [(name, event)]).filterMap (invoked registered)
    rw [hm, List.reverse_append, hcalled, List.filterMap_append]
    refine congrArg (s.heard.filterMap (invoked registered) ++ ·) ?_
    cases hi : invoked registered (name, event) with
    | none => rw [List.filterMap_cons_none hi]; rfl
    | some c => rw [List.filterMap_cons_some hi]; rfl

/-- **An event is processed.** -/
theorem Inv.processed (h : s.Inv registered) (ha : s.Accounted registered) (hpc : s.pc = .idle)
    (hbatch : s.batch = some e :: rest) :
    (({ s with batch := rest } : WatchedNodes κ).processEvent e).Accounted registered
      ∧ (({ s with batch := rest } : WatchedNodes κ).processEvent e).Inv registered := by
  cases e with
  | create name =>
    obtain ⟨heq, hinv⟩ := h.process_create hpc hbatch
    rw [heq]
    have hskip := ha.skip hbatch rfl
    exact ⟨⟨hskip.goesOn, hskip.heard, hskip.called⟩, hinv⟩
  | closeNowrite wd isDir event =>
    cases isDir with
    | true =>
      obtain ⟨heq, hinv⟩ := h.process_dir hpc hbatch
      rw [heq]
      exact ⟨ha.skip hbatch rfl, hinv⟩
    | false =>
      obtain ⟨name, hname⟩ := Option.isSome_iff_exists.mp (h.owned wd false event (by
        rw [todo_cons hbatch]
        exact List.mem_cons_self))
      obtain ⟨m, heq, hinv, hcalled, hview⟩ := h.process_close hpc hbatch hname
      have hclosed := ha.closedFile hbatch (notice_close hname event) hcalled
      rw [heq]
      by_cases hdestroy : event = destroy
      · rw [if_pos hdestroy]
        obtain ⟨hinv', x, events, hmoved, hsilent⟩ := hinv.rmWatch hname (hview hdestroy)
        have hmoved' := hclosed.moved name x events s.nextPid
        rw [hsilent] at hmoved'
        refine ⟨?_, hinv'⟩
        rw [hmoved]
        exact hmoved'
      · rw [if_neg hdestroy]
        exact ⟨hclosed, hinv⟩

/-- **What the monitor does.** -/
theorem Inv.works (h : s.Inv registered) (ha : s.Accounted registered) {l : NodeWorldStep}
    (hn : s.workStep l = some s') : s'.Accounted registered ∧ s'.Inv registered := by
  cases l with
  | read count =>
    obtain ⟨⟨_, hbatch, _⟩, hs⟩ := Option.ite_none_right_eq_some.mp hn
    cases hs
    have htodo : s.queue.take count ++ s.queue.drop count = s.todo := by
      unfold todo
      rw [List.take_append_drop, hbatch, List.nil_append]
    refine ⟨⟨ha.goesOn, ?_, ha.called⟩, h.of_todo (congrArg _ htodo)⟩
    show s.heard ++ (s.queue.take count ++ s.queue.drop count).filterMap s.notice = _
    rw [htodo]
    exact ha.heard
  | process =>
    unfold workStep at hn
    dsimp only at hn
    split at hn
    · next o rest hpc hbatch =>
      cases hn
      cases o with
      | none =>
        refine ⟨ha.skip hbatch rfl, h.of_todo ?_⟩
        unfold todo
        rw [hbatch]
        rfl
      | some e => exact h.processed ha hpc hbatch
    · cases hn
  | lookup =>
    unfold workStep at hn
    dsimp only at hn
    split at hn
    · next name hpc =>
      obtain ⟨_, hs⟩ := Option.ite_none_right_eq_some.mp hn
      obtain ⟨d, hd, rfl⟩ := Option.map_eq_some_iff.mp hs
      exact ⟨⟨ha.goesOn, ha.heard, ha.called⟩, h.lookup hpc hd⟩
    · cases hn
  | watch =>
    unfold workStep at hn
    dsimp only at hn
    split at hn
    · next name pid hpc =>
      cases hn
      obtain ⟨m, hcalled, heq, hinv⟩ := h.addWatch hpc
      rw [heq]
      refine ⟨⟨rfl, ?_, ?_⟩, hinv⟩
      · rw [h.notice_watchedAt]
        exact ha.heard
      · show m.called.reverse = _
        rw [hcalled]
        exact ha.called
    · cases hn
  | start | construct | addEvent | notify | list | destroy | removeAll | crash => cases hn

/-- **A step in which the monitor keeps pace.** -/
theorem Inv.step (h : s.Inv registered) (ha : s.Accounted registered) {l : NodeWorldStep}
    (hn : s.next registered l = some s') (hl : s.KeepsPace l) :
    s'.Accounted registered ∧ s'.Inv registered := by
  cases hwork : s.workStep l with
  | none =>
    obtain ⟨name, x, events, nextPid, hm, rfl⟩ := h.acts hn hl hwork
    exact ⟨ha.moved name x events nextPid, h.move hm⟩
  | some s'' =>
    cases l with
    | read | process | lookup | watch =>
      obtain ⟨_, hs⟩ := Option.ite_none_left_eq_some.mp hn
      exact h.works ha hs
    | start | construct | addEvent | notify | list | destroy | removeAll | crash => cases hwork

/-- **What is not queued is never heard.** -/
theorem Accounted.not_made (ha : s.Accounted registered) (e : Text × Text)
    (nodes : Text → NodeLife) :
    ¬ ({ s with nodes := nodes, made := s.made ++ [e] } : WatchedNodes κ).Accounted registered := by
  intro ha'
  have hheard : s.heard ++ s.todo.filterMap s.notice = s.made ++ [e] := ha'.heard
  rw [ha.heard] at hheard
  have hlength := congrArg List.length hheard
  rw [List.length_append] at hlength
  exact Nat.ne_of_lt (Nat.lt_succ_self _) hlength

theorem Accounted.not_close (ha : s.Accounted registered) (hq : ¬ s.Queues name event)
    (nodes : Text → NodeLife) :
    ¬ ({ s with
        nodes := nodes
        queue := s.queue ++ s.closed name false event
        made := s.made ++ [(name, event)] } : WatchedNodes κ).Accounted registered := by
  rw [closed_of_not_queues hq, List.append_nil]
  exact ha.not_made (name, event) nodes

/-- **A step in which it does not.** -/
theorem Accounted.not_step (ha : s.Accounted registered) {l : NodeWorldStep}
    (hn : s.next registered l = some s') (hl : ¬ s.KeepsPace l) : ¬ s'.Accounted registered := by
  cases l with
  | notify name event =>
    obtain ⟨_, hs⟩ := Option.ite_none_right_eq_some.mp hn
    cases hs
    rw [close_eq]
    exact ha.not_close hl s.nodes
  | destroy name =>
    obtain ⟨_, hs⟩ := Option.ite_none_right_eq_some.mp hn
    cases hs
    rw [closeDestroy_eq]
    exact ha.not_close hl _
  | crash name =>
    have hn : s.crash name = some s' := hn
    unfold crash at hn
    unfold KeepsPace at hl
    dsimp only at hn hl
    cases hstage : (s.nodes name).stage with
    | absent | cleared | closed =>
      rw [hstage] at hl
      exact absurd trivial hl
    | made | named | begun | added =>
      rw [hstage] at hn
      cases hn
      exact ha.not_made (name, destroy) _
    | running =>
      rw [hstage] at hn hl
      cases hn
      rw [closeDestroy_eq]
      exact ha.not_close hl _
  | start | construct | addEvent | list | removeAll | read | process | lookup | watch =>
    exact absurd trivial hl

theorem inv_new (registered : Text → Option (CallbackMap κ)) :
    (new registered).Inv registered where
  sound := ⟨⟨.empty, fun _ => .inl rfl, fun _ _ hname => .inr ⟨rfl, hname⟩⟩,
    fun _ _ hname => by cases hname⟩
  asked name hname := absurd rfl hname
  watcher wd node hnode := by cases hnode
  fresh wd name hname := by cases hname
  watch name wd hwd := by cases hwd
  owned wd isDir event hmem := by cases hmem
  created name hmem := by cases hmem
  leads name := rfl
  pc name hname := by cases hname
  found name pid hpc := by cases hpc
  dir name hstage := absurd rfl hstage
  known name hstage := absurd rfl hstage

end Account

/-- **All is heard of the nodes** exactly as long as the monitor keeps pace with them. -/
theorem notifications_heard_iff {registered : Text → Option (CallbackMap κ)}
    {tr : List (WatchedNodes κ × NodeWorldStep)} {s : WatchedNodes κ}
    (hr : (watchedNodesSystem registered).Run tr s) :
    Throughout (Accounted registered) tr s ↔ Met KeepsPace tr := by
  refine hr.forall_iff (J := Inv registered) ?_ ?_ ?_
  · rintro _ rfl
    exact ⟨⟨rfl, rfl, rfl⟩, inv_new registered⟩
  · exact fun s l s' ha h hn hl => h.step ha hn hl
  · exact fun s l s' ha _ hn hl => ha.not_step hn hl

/-- What the constructor takes. -/
def construction (name : Text) : List NodeWorldStep :=
  .start name :: List.replicate 5 (.construct name)

/-- A monitor that has been asked for one node, and has callbacks for two of its events. -/
def oneNode (name : Text) : Option (CallbackMap ℕ) :=
  if name = ['a'] then
    some fun event => if event = destroy then some 9 else if event = ['x'] then some 7 else none
  else none

/-- A node lives twice. It is heard of an event, and that it is destroyed; it is watched
again, and heard of that its process has ended. -/
theorem notifications_heard_iff_two : ∃ tr s, (watchedNodesSystem oneNode).Run tr s
    ∧ s.monitor.called.map Prod.fst = [9, 9, 7] ∧ Throughout (Accounted oneNode) tr s := by
  have htrace : (trace (next oneNode) [] (new oneNode) (construction ['a'] ++ [.read 1, .process,
      .lookup, .watch, .addEvent ['a'] ['x'], .notify ['a'] ['x'], .list ['a'], .destroy ['a'],
      .removeAll ['a']] ++ construction ['a'] ++ [.read 6, .process, .process, .process, .process,
      .process, .process, .lookup, .watch, .crash ['a'], .read 1, .process])).map
        (fun e => (e.2.monitor.called.map Prod.fst, decide (Met KeepsPace e.1)))
      = some ([9, 9, 7], true) := by decide +kernel
  obtain ⟨tr, s, hr, heq⟩ :=
    Run.exists_of_trace (S := watchedNodesSystem oneNode) (fun _ _ _ h => h) rfl htrace
  obtain ⟨hcalled, hmet⟩ := Prod.mk.inj heq
  exact ⟨tr, s, hr, hcalled, (notifications_heard_iff hr).mpr (of_decide_eq_true hmet)⟩

end WatchedNodes
