import CoinData.LockOrder
import Mathlib.Data.Prod.Lex
import Mathlib.Order.Bounds.Basic

/-!
# Which locks are taken within which

The locks of a process, and those that lie in shared memory, are taken in nested
sections: a call to the shared object manager locks `node_map_mutex_`, within it
the mutex of a map of objects, within that the mutex of an object, and any of
them may allocate. Below, each function is given by its sections; where they
depend on what is found, on what the destructor of an object does, or on a
callback, that is a parameter.

There is an order of all locks that every function keeps to (`CoinMutex.rank`), as
long as the code of the user does: a callback of a subscriber or of a service may
do anything but spin and call a service; constructors and destructors of shared
objects, and what is passed to `lock_object`, may use shared pointers, allocate
and add tasks, and not call the manager. Shared pointers that lie in what others
point to are locked within them (`depth`). Then no calls wait for each other in a
circle.

The locks with a timeout are taken to be got, no process dies, and nothing throws.
What waits without a lock of its own is taken to end: a client that polls for its
answer, `spin_once` of a channel with a service that is offline, and those who join
the threads of a pool or wait for them.
-/

/-- **The kinds of locks**, in their order. -/
inductive LockKind where
  /-- `g_init_funcs_mutex_`, `g_exit_funcs_mutex_` and `g_spin_funcs_mutex_`. -/
  | funcs
  /-- `buffer_mutex_` of a subscriber or a service. -/
  | buffer
  /-- `event_deque_mutex_`. -/
  | events
  /-- `redirect_mutex_`. -/
  | redirect
  /-- `node_map_mutex_` of a `LocalChannal`. -/
  | channal
  /-- `node_map_mutex_` of a `ShmObjManager`. -/
  | nodeMap
  /-- `lock_` of a retention. -/
  | retention
  /-- `shm_obj_map_mutex`. -/
  | shmObjMap
  /-- `obj_mutex`. -/
  | object
  /-- `mutex` of a `CommunicatorItem`. -/
  | item
  /-- `mutex_` of a `SharedCircularBuffer`. -/
  | ring
  /-- `mutex_` of a `ShmSharedPtr`. -/
  | pointer
  /-- `lock` of a `buddy_head_t`. -/
  | buddy
  /-- `ready_task_deque_mutex_`. -/
  | ready
  /-- `worker_lock_`. -/
  | workers
  /-- `mtx` of a worker. -/
  | worker
  /-- `g_ok_funcs_mutex_`. -/
  | okFuncs
  /-- The `flock` of a key file. -/
  | keyFile
deriving DecidableEq, Repr

namespace LockKind

theorem ctorIdx_injective : Function.Injective LockKind.ctorIdx := by
  intro k k' h
  cases k <;> cases k' <;> first | rfl | cases h

instance : LinearOrder LockKind := LinearOrder.lift' LockKind.ctorIdx ctorIdx_injective

end LockKind

/-- A lock: of the process, the object or the file `id`. -/
structure CoinMutex where
  kind : LockKind
  id : ℕ
deriving DecidableEq, Repr

/-- Where a lock lies in the order. -/
abbrev LockLevel : Type := LockKind ×ₗ ℕ

/-- The lowest level of a kind. -/
def LockKind.level (k : LockKind) : LockLevel := toLex (k, 0)

theorem LockKind.level_le {k k' : LockKind} (h : k ≤ k') : k.level ≤ k'.level :=
  Prod.Lex.toLex_le_toLex.mpr (h.lt_or_eq.imp_right fun heq => ⟨heq, le_rfl⟩)

namespace CoinMutex

variable (depth : ℕ → ℕ)

/-- **The rank of a lock.** `depth` says how deep a shared pointer lies in others. -/
def rank (m : CoinMutex) : LockLevel :=
  toLex (m.kind, match m.kind with
    | .pointer => depth m.id
    | _ => 0)

/-- All above a lock. -/
def above (m : CoinMutex) : LockLevel :=
  toLex (m.kind, match m.kind with
    | .pointer => depth m.id + 1
    | _ => 1)

variable {depth} {m : CoinMutex} {k : LockKind}

theorem level_le_rank : m.kind.level ≤ m.rank depth :=
  Prod.Lex.toLex_le_toLex.mpr (.inr ⟨rfl, Nat.zero_le _⟩)

theorem rank_lt_above : m.rank depth < m.above depth := by
  refine Prod.Lex.toLex_lt_toLex.mpr (.inr ⟨rfl, ?_⟩)
  dsimp only
  split <;> exact Nat.lt_succ_self _

theorem above_le_level (h : m.kind < k) : m.above depth ≤ k.level :=
  (Prod.Lex.toLex_lt_toLex.mpr (.inl h)).le

end CoinMutex

/-! ## Sections -/

/-- **Sections in the order of the locks**, all of level `l` or higher. -/
def Sections (depth : ℕ → ℕ) (l : LockLevel) : Type :=
  { p : Nested CoinMutex // p.Ordered (CoinMutex.rank depth)
    ∧ p.Takes fun m => l ≤ m.rank depth }

/-- Sections of a kind of locks, or higher. -/
abbrev SectionsFrom (depth : ℕ → ℕ) (k : LockKind) : Type := Sections depth k.level

namespace Sections

variable {depth : ℕ → ℕ} {l l' : LockLevel} {k : LockKind}

def none : Sections depth l := ⟨.done, trivial, trivial⟩

/-- A lock, and what is done within it. -/
def hold (m : CoinMutex) (inner : Sections depth (m.above depth)) :
    Sections depth (m.rank depth) :=
  ⟨.one m inner.1,
    ⟨inner.2.2.mono fun _ h => CoinMutex.rank_lt_above.trans_le h, inner.2.1, trivial⟩,
    le_rfl, inner.2.2.mono fun _ h => CoinMutex.rank_lt_above.le.trans h, trivial⟩

/-- One after the other. -/
def seq (p q : Sections depth l) : Sections depth l :=
  ⟨p.1.seq q.1, q.2.1.seq p.2.1, q.2.2.seq p.2.2⟩

/-- Several, one after the other. -/
def all (ps : List (Sections depth l)) : Sections depth l := ps.foldr seq none

/-- Where lower locks may be taken too. -/
def lower (p : Sections depth l') (h : l ≤ l') : Sections depth l :=
  ⟨p.1, p.2.1, p.2.2.mono fun _ h' => h.trans h'⟩

/-- Within a lock of a lower kind. -/
def under (k' : LockKind) (id : ℕ) (p : SectionsFrom depth k) (h : k' < k) :
    SectionsFrom depth k' :=
  (hold ⟨k', id⟩ (p.lower (CoinMutex.above_le_level h))).lower
    (CoinMutex.level_le_rank (m := ⟨k', id⟩))

/-- A lock within which no other is taken. -/
def alone (k : LockKind) (id : ℕ) : SectionsFrom depth k :=
  (hold ⟨k, id⟩ none).lower (CoinMutex.level_le_rank (m := ⟨k, id⟩))

/-- Sections of a higher kind. -/
def down (p : SectionsFrom depth k) (k' : LockKind) (h : k' ≤ k) : SectionsFrom depth k' :=
  p.lower (LockKind.level_le h)

end Sections

/-! ## What each function locks -/

namespace LockSections

variable {depth : ℕ → ℕ}

/-- `buddy_alloc` in the memory of process `n`. -/
def malloc (n : ℕ) : SectionsFrom depth .buddy := .alone .buddy n

/-- `buddy_free` in the memory of process `n`. -/
def free (n : ℕ) : SectionsFrom depth .buddy := .alone .buddy n

/-- What is allocated for the `k` parts of a container, or freed. -/
def parts (n k : ℕ) : SectionsFrom depth .buddy := .all (List.replicate k (malloc n))

/-! ### Shared pointers -/

/-- A handle that is given up: of which pointer, and, if it is the last one, what
the destructor of the object does. -/
structure Handle (depth : ℕ → ℕ) where
  ptr : ℕ
  last : Option (Sections depth (CoinMutex.above depth ⟨.pointer, ptr⟩))

/-- `lock_`, `decreace_` and `unlock`. The mutex of the last handle is unlocked
before it is freed. -/
def decreace (n : ℕ) (h : Handle depth) : Sections depth (CoinMutex.rank depth ⟨.pointer, h.ptr⟩) :=
  match h.last with
  | none => .hold ⟨.pointer, h.ptr⟩ .none
  | some destroy =>
    have hlt : CoinMutex.above depth ⟨.pointer, h.ptr⟩ ≤ LockKind.level .buddy :=
      CoinMutex.above_le_level (show LockKind.pointer < .buddy by decide)
    .seq (.hold ⟨.pointer, h.ptr⟩ (destroy.seq ((parts n 2).lower hlt)))
      ((free n).lower (CoinMutex.rank_lt_above.le.trans hlt))

/-- The destructor and `reset`. A null handle locks nothing. -/
def giveUp (n : ℕ) : Option (Handle depth) → SectionsFrom depth .pointer
  | none => .none
  | some h => (decreace n h).lower (CoinMutex.level_le_rank (m := ⟨.pointer, h.ptr⟩))

/-- The copy and the move constructor. -/
def copyPtr : Option ℕ → SectionsFrom depth .pointer
  | none => .none
  | some k => .alone .pointer k

/-- Both `operator =`. A null handle is ignored. -/
def assign (n : ℕ) (old : Option (Handle depth)) : Option ℕ → SectionsFrom depth .pointer
  | none => .none
  | some k => .seq (giveUp n old) (copyPtr k)

/-- `makeShmShared`: the object, its mutex and its counter. -/
def makeShmShared {k : LockKind} (n : ℕ) (construct : SectionsFrom depth k) (h : k ≤ .buddy) :
    SectionsFrom depth k :=
  .all [(malloc n).down k h, construct, (parts n 2).down k h]

/-! ### The ring -/

/-- `head`, `tail`, `size` and `operator []`. -/
def look (i : ℕ) : SectionsFrom depth .ring := .alone .ring i

def pushBack (n i : ℕ) (old : Option (Handle depth)) (val : Option ℕ) : SectionsFrom depth .ring :=
  .under .ring i (assign n old val) (by decide)

def copy (i : ℕ) (val : Option ℕ) : SectionsFrom depth .ring :=
  .under .ring i (copyPtr val) (by decide)

/-! ### The shared object manager -/

/-- What `create` finds. -/
inductive Created (depth : ℕ → ℕ) where
  /-- In `obj_list`. -/
  | known
  /-- In the map of objects only. -/
  | present
  /-- Nowhere: the object is constructed. -/
  | fresh (construct : SectionsFrom depth .object) (k : ℕ)

def create (n : ℕ) : Created depth → SectionsFrom depth .nodeMap
  | .known => .alone .nodeMap n
  | .present => .under .nodeMap n (.alone .shmObjMap n) (by decide)
  | .fresh construct k =>
    .under .nodeMap n (.under .shmObjMap n
      (construct.seq ((parts n k).down .object (by decide))) (by decide)) (by decide)

/-- `destroy` of what is in `obj_list`, and in the map of objects: there, the removed
objects that nobody uses any more are released, and maybe the object. -/
def destroy (n : ℕ) (retention : Option ℕ) (object : Option (ℕ × SectionsFrom depth .item × ℕ)) :
    SectionsFrom depth .nodeMap :=
  .seq
    (match retention with
      | none => .alone .nodeMap n
      | some r => .under .nodeMap n (.alone .retention r) (by decide))
    (.down
      (match object with
        | none => .alone .shmObjMap n
        | some (i, release, k) =>
          .under .shmObjMap n
            (.seq (.under .object i release (by decide)) ((parts n k).down .object (by decide)))
            (by decide))
      .nodeMap (by decide))

def hasSharedObject (n : ℕ) : SectionsFrom depth .shmObjMap := .alone .shmObjMap n

/-- A file of a node: the key files that are locked to attach, and, if the owner
is alive, whose map is searched and the object found there. -/
structure NodeFile where
  keyFiles : List ℕ
  found : Option (ℕ × Option ℕ)

def discoveryShm (files : List NodeFile) : SectionsFrom depth .shmObjMap :=
  .all (files.map fun file =>
    .seq (.down (.all (file.keyFiles.map (.alone .keyFile))) .shmObjMap (by decide))
      (match file.found with
        | none => .none
        | some (n, none) => .alone .shmObjMap n
        | some (n, some i) => .under .shmObjMap n (.alone .object i) (by decide)))

/-- `discovery`; nothing is searched if the retention is known. -/
def discovery (n : ℕ) (files : List NodeFile) : SectionsFrom depth .nodeMap :=
  .under .nodeMap n (discoveryShm files) (by decide)

/-- A round of `node_monitor_`, with the objects of dead owners. -/
def nodeMonitor (n : ℕ) (dead : List ℕ) : SectionsFrom depth .nodeMap :=
  .under .nodeMap n (.all (dead.map (.alone .object))) (by decide)

/-- `inotify_shared_object_monitor_`, with the searches for what was removed, and the
objects that are destroyed. -/
def inotifySharedObjectMonitor (n : ℕ) (searches : List (List NodeFile)) (destroyed : List ℕ) :
    SectionsFrom depth .nodeMap :=
  .under .nodeMap n
    (.seq (.all (searches.map discoveryShm))
      (.down (.all (destroyed.map (.alone .object))) .shmObjMap (by decide)))
    (by decide)

/-- `lock_object_`, with what is done if the object is there. -/
def lockObject (r i : ℕ) : Option (SectionsFrom depth .item) → SectionsFrom depth .retention
  | none => .alone .retention r
  | some func => .under .retention r (.under .object i func (by decide)) (by decide)

def make (n : ℕ) (construct : SectionsFrom depth .object) (k : ℕ) : SectionsFrom depth .shmObjMap :=
  .under .shmObjMap n (construct.seq ((parts n k).down .object (by decide))) (by decide)

def reset (n : ℕ) (destroy : SectionsFrom depth .object) (k : ℕ) : SectionsFrom depth .shmObjMap :=
  .under .shmObjMap n (destroy.seq ((parts n k).down .object (by decide))) (by decide)

/-- `init`: the memory is attached, the maps are allocated. -/
def initManager (n : ℕ) (keyFiles : List ℕ) (k : ℕ) : SectionsFrom depth .nodeMap :=
  .all [.down (.all (keyFiles.map (.alone .keyFile))) .nodeMap (by decide),
    (parts n k).down .nodeMap (by decide), .alone .nodeMap n]

/-! ### Communicators -/

/-- `write` of a `LocalWriter`. -/
def write (n i : ℕ) (old : Option (Handle depth)) (data : Option ℕ) : SectionsFrom depth .item :=
  .under .item i (assign n old data) (by decide)

/-- `read` of a `LocalReader`. -/
def read (i : ℕ) (data : Option ℕ) : SectionsFrom depth .item :=
  .under .item i (copyPtr data) (by decide)

/-- `publish` of a `LocalPublisher`. -/
def publish (n i : ℕ) (old : Option (Handle depth)) (data : Option ℕ) : SectionsFrom depth .ring :=
  pushBack n i old data

/-- The destructors of a `LocalPublisher` and a `LocalService`, which look at the ends
of the ring before each element. -/
def clearRing (n i : ℕ) (handles : List (Option (Handle depth))) : SectionsFrom depth .ring :=
  .all (.cons (look i) (.cons (look i) (handles.map fun h =>
    .all [look i, (giveUp n h).down .ring (by decide), look i])))

/-- The destructor of a `LocalSubscriber`. -/
def clearSubscriber (n : ℕ) (handles : List (Option (Handle depth))) (k : ℕ) :
    SectionsFrom depth .pointer :=
  .seq (.all (handles.map (giveUp n))) ((parts n k).down .pointer (by decide))

/-- `is_ready_` of a subscriber or a service, which may have fallen `behind`. -/
def isReady (i : ℕ) (behind : Bool) : SectionsFrom depth .ring :=
  .all (List.replicate (if behind then 3 else 2) (look i))

/-- `invoke_` of a subscriber: what is copied from the ring goes into the buffer, from
which the oldest may fall out. -/
def invoke (n b i : ℕ) (it : Handle depth) (k : ℕ) (popped : Option (Handle depth)) :
    SectionsFrom depth .buffer :=
  .all [(copy i it.ptr).down .buffer (by decide),
    .under .buffer b
      (.all [copyPtr it.ptr, (parts n k).down .pointer (by decide), giveUp n popped]) (by decide),
    (giveUp n it).down .buffer (by decide)]

/-- What a callback is given, what it does, and the two handles that go after it. -/
structure Called (depth : ℕ → ℕ) where
  data : Option ℕ
  callback : SectionsFrom depth .events
  passed : Option (Handle depth)
  front : Option (Handle depth)

/-- `spin_` of a subscriber. -/
def subscriberSpin (n b : ℕ) : Option (Called depth) → SectionsFrom depth .buffer
  | none => .alone .buffer b
  | some c =>
    .under .buffer b
      (.all [(copyPtr c.data).down .events (by decide), c.callback,
        (giveUp n c.passed).down .events (by decide), (giveUp n c.front).down .events (by decide)])
      (by decide)

/-- `spin_` of a service. -/
def serviceSpin (b i : ℕ) (behind : Bool) (callback : Option (SectionsFrom depth .events)) :
    SectionsFrom depth .buffer :=
  .under .buffer b
    (.seq ((isReady i behind).down .events (by decide))
      (match callback with
        | none => .none
        | some callback => .seq ((look i).down .events (by decide)) callback))
    (by decide)

/-- `connecte_to_` of a reader, a client or a subscriber, which looks at its ring. -/
def connecteTo (n : ℕ) (found : Created depth) (subscribed : Option ℕ) :
    SectionsFrom depth .nodeMap :=
  .seq (create n found)
    (match subscribed with
      | none => .none
      | some i => (look i).down .nodeMap (by decide))

/-- `check_connect_immediately_`: each communicator that waits connects if its object is
there. -/
def checkConnectImmediately (n : ℕ) (waiting : List (Option (Created depth × Option ℕ))) :
    SectionsFrom depth .nodeMap :=
  .all (waiting.map fun w =>
    .seq ((hasSharedObject n).down .nodeMap (by decide))
      (match w with
        | none => .none
        | some (found, subscribed) => connecteTo n found subscribed))

/-- `check_connect_status_`: what is offline is destroyed. -/
def checkConnectStatus (n : ℕ) (updated : Option (List (Option (Created depth × Option ℕ))))
    (offline : List (Option ℕ × Option (ℕ × SectionsFrom depth .item × ℕ))) :
    SectionsFrom depth .nodeMap :=
  .seq
    (match updated with
      | none => .none
      | some waiting => checkConnectImmediately n waiting)
    (.all (offline.map fun o => destroy n o.1 o.2))

/-- A communicator of `connected_list_`. -/
inductive Connected (depth : ℕ → ℕ) where
  /-- A reader or a client. -/
  | passive
  | subscriber (b i : ℕ) (behind : Bool)
      (ready : Option (Handle depth × ℕ × Option (Handle depth))) (called : Option (Called depth))

def Connected.spin (n : ℕ) : Connected depth → SectionsFrom depth .buffer
  | .passive => .none
  | .subscriber b i behind ready called =>
    .all [(isReady i behind).down .buffer (by decide),
      match ready with
      | none => .none
      | some (it, k, popped) => invoke n b i it k popped,
      subscriberSpin n b called]

/-- A service of `work_list_`. -/
structure Working (depth : ℕ → ℕ) where
  b : ℕ
  i : ℕ
  behind : Bool
  callback : Option (SectionsFrom depth .events)

/-- `LocalChannal::spin_once`. -/
def spinOnce (n : ℕ) (status : SectionsFrom depth .nodeMap) (connected : List (Connected depth))
    (working : List (Working depth)) : SectionsFrom depth .buffer :=
  .all [status.down .buffer (by decide), .all (connected.map (Connected.spin n)),
    .all (working.map fun w => serviceSpin w.b w.i w.behind w.callback)]

/-- The constructor of a `LocalChannal`: `init`, `init_node_map_`, and the name of the node. -/
def channalInit (n : ℕ) (keyFiles : List ℕ) (k : ℕ) (nodes : Created depth) (name : ℕ) :
    SectionsFrom depth .channal :=
  .all [(initManager n keyFiles k).down .channal (by decide),
    .under .channal n (create n nodes) (by decide),
    .under .channal n (parts n name) (by decide)]

/-- The destructor of a `LocalChannal`. -/
def channalExit (n k : ℕ) : SectionsFrom depth .channal := .under .channal n (parts n k) (by decide)

/-- `writer`, `reader`, `publisher`, `subscriber`, `service` and `client` of a
`LocalChannal`. The first, the third and the fifth create an object, and the fifth looks
at its ring. -/
def communicator (n : ℕ) (created : Option (Created depth)) (looked : Option ℕ)
    (waiting : List (Option (Created depth × Option ℕ))) : SectionsFrom depth .nodeMap :=
  .seq
    (match created with
      | none => .none
      | some found => connecteTo n found looked)
    (checkConnectImmediately n waiting)

/-- `write`, `read`, `publish`, `redirect` and `disconnect` of the mutable communicators:
what they do to the one they refer to is done under `redirect_mutex_`. -/
def mutable (id : ℕ) (p : SectionsFrom depth .channal) : SectionsFrom depth .redirect :=
  .under .redirect id p (by decide)

/-! ### Tasks -/

/-- `add_task_to`, within the bounds. -/
def addTaskTo (pool worker : ℕ) : SectionsFrom depth .workers :=
  .under .workers pool (.alone .worker worker) (by decide)

/-- `spin_once` of a pool, with the workers that are waked up. -/
def poolSpinOnce (pool : ℕ) (waiting : List ℕ) : SectionsFrom depth .workers :=
  .under .workers pool (.all (waiting.map (.alone .worker))) (by decide)

/-- A round of `task_watcher_`. -/
def taskWatcher (pool : ℕ) : SectionsFrom depth .workers := .alone .workers pool

/-- The destructor of a pool wakes up all workers. -/
def poolExit (workers : List ℕ) : SectionsFrom depth .worker := .all (workers.map (.alone .worker))

def pushEvent (pool : ℕ) : SectionsFrom depth .events := .alone .events pool

/-- `EventPool::spin_once`: each event is asked, and the task of an event that is
there is ready. -/
def eventSpinOnce (pool : ℕ) (events : List (SectionsFrom depth .redirect × Bool)) :
    SectionsFrom depth .events :=
  .under .events pool
    (.all (events.map fun e =>
      if e.2 then e.1.seq (.down (.alone .ready pool) .redirect (by decide)) else e.1))
    (by decide)

def runAndClearAllReadyTask (pool : ℕ) (tasks : List ℕ) : SectionsFrom depth .ready :=
  .under .ready pool (.all (tasks.map (addTaskTo pool))) (by decide)

def clearAllReadyTask (pool : ℕ) : SectionsFrom depth .ready := .alone .ready pool

/-! ### Functions that are registered -/

/-- `coin::init`, `coin::shutdown` and `coin::spin_once`, each with its own mutex, call
what is registered. -/
def callRegistered (id : ℕ) (funcs : List (SectionsFrom depth .buffer)) :
    SectionsFrom depth .funcs :=
  .under .funcs id (.all funcs) (by decide)

/-- `register_init`, `register_exit` and `register_spin_once`. -/
def registerFunc (id : ℕ) : SectionsFrom depth .funcs := .alone .funcs id

/-- `coin::ok` and `register_ok`. -/
def ok : SectionsFrom depth .okFuncs := .alone .okFuncs 0

end LockSections

/-! ## No deadlock -/

open LockSections in
/-- **The calls**, with what they lock. -/
inductive CoinCall (depth : ℕ → ℕ) : {k : LockKind} → SectionsFrom depth k → Prop
  | malloc (n) : CoinCall depth (malloc n)
  | free (n) : CoinCall depth (free n)
  | giveUp (n h) : CoinCall depth (giveUp n h)
  | copyPtr (p) : CoinCall depth (copyPtr p)
  | assign (n old p) : CoinCall depth (assign n old p)
  | makeShmShared {k : LockKind} (n) (construct : SectionsFrom depth k) (h : k ≤ .buddy) :
      CoinCall depth (makeShmShared n construct h)
  | create (n found) : CoinCall depth (create n found)
  | destroy (n retention object) : CoinCall depth (destroy n retention object)
  | hasSharedObject (n) : CoinCall depth (hasSharedObject n)
  | discovery (n files) : CoinCall depth (discovery n files)
  | nodeMonitor (n dead) : CoinCall depth (nodeMonitor n dead)
  | inotifySharedObjectMonitor (n searches destroyed) :
      CoinCall depth (inotifySharedObjectMonitor n searches destroyed)
  | lockObject (r i func) : CoinCall depth (lockObject r i func)
  | make (n construct k) : CoinCall depth (make n construct k)
  | reset (n destroy k) : CoinCall depth (reset n destroy k)
  | channalInit (n keyFiles k nodes name) : CoinCall depth (channalInit n keyFiles k nodes name)
  | channalExit (n k) : CoinCall depth (channalExit n k)
  | communicator (n created looked waiting) :
      CoinCall depth (communicator n created looked waiting)
  | write (n i old data) : CoinCall depth (write n i old data)
  | read (i data) : CoinCall depth (read i data)
  | publish (n i old data) : CoinCall depth (publish n i old data)
  | clearRing (n i handles) : CoinCall depth (clearRing n i handles)
  | clearSubscriber (n handles k) : CoinCall depth (clearSubscriber n handles k)
  | spinOnce (n status connected working) : CoinCall depth (spinOnce n status connected working)
  | mutable (id p) : CoinCall depth (mutable id p)
  | addTaskTo (pool worker) : CoinCall depth (addTaskTo pool worker)
  | poolSpinOnce (pool waiting) : CoinCall depth (poolSpinOnce pool waiting)
  | taskWatcher (pool) : CoinCall depth (taskWatcher pool)
  | poolExit (workers) : CoinCall depth (poolExit workers)
  | pushEvent (pool) : CoinCall depth (pushEvent pool)
  | eventSpinOnce (pool events) : CoinCall depth (eventSpinOnce pool events)
  | runAndClearAllReadyTask (pool tasks) : CoinCall depth (runAndClearAllReadyTask pool tasks)
  | clearAllReadyTask (pool) : CoinCall depth (clearAllReadyTask pool)
  | callRegistered (id funcs) : CoinCall depth (callRegistered id funcs)
  | registerFunc (id) : CoinCall depth (registerFunc id)
  | ok : CoinCall depth ok

/-- Only these calls are made. -/
def CoinCalls {ι : Type*} (depth : ℕ → ℕ) (_ : LockState ι CoinMutex) :
    LockStep ι CoinMutex → Prop
  | .call _ p => ∃ k, ∃ q : SectionsFrom depth k, CoinCall depth q ∧ p = q.1
  | .turn _ => True

open TransitionSystem in
/-- **No calls wait for each other in a circle**: whatever calls the threads of all
processes are in, and whichever goes on, all of them come to their end, with every
lock free. -/
theorem calls_end {ι : Type*} [DecidableEq ι] [Fintype ι] {depth : ℕ → ℕ}
    {tr : List (LockState ι CoinMutex × LockStep ι CoinMutex)} {s : LockState ι CoinMutex}
    (hr : (lockSystem ι CoinMutex).Run tr s) (hc : Met (CoinCalls depth) tr) :
    (turnSystem ι CoinMutex).Inevitably (fun s => s.Idle ∧ ∀ m, s.owner m = none) s := by
  have hordered : Met (LockState.CallsOrdered (CoinMutex.rank depth)) tr := by
    rintro ⟨s', l⟩ he
    have hcall := hc _ he
    cases l with
    | turn i => trivial
    | call i p =>
      obtain ⟨_, q, _, rfl⟩ := hcall
      exact q.2.1
  obtain ⟨held, h⟩ := LockState.exists_inv hr hordered
  exact h.idle

open TransitionSystem in
/-- One thread publishes, and is in the ring, when another one monitors the nodes. -/
theorem calls_end_two : ∃ s : LockState (Fin 2) CoinMutex,
    s.todo 0 = [.acquire ⟨.pointer, 3⟩, .release ⟨.pointer, 3⟩, .release ⟨.ring, 7⟩]
    ∧ s.todo 1 = [.acquire ⟨.nodeMap, 5⟩, .acquire ⟨.object, 4⟩, .release ⟨.object, 4⟩,
      .release ⟨.nodeMap, 5⟩]
    ∧ (turnSystem (Fin 2) CoinMutex).Inevitably (fun s => s.Idle ∧ ∀ m, s.owner m = none) s := by
  have hr : (lockSystem (Fin 2) CoinMutex).Run [] ⟨fun _ => [], fun _ => none⟩ :=
    .start ⟨fun _ => rfl, fun _ => rfl⟩
  have hr := hr.snoc (LockState.Step.call (i := 0)
    (p := (@LockSections.publish (fun _ => 0) 5 7 none (some 3)).1) rfl)
  have hr := hr.snoc (LockState.Step.call (i := 1)
    (p := (@LockSections.nodeMonitor (fun _ => 0) 5 [4]).1) rfl)
  have hr := hr.snoc (LockState.Step.acquire (i := 0) rfl rfl)
  refine ⟨_, rfl, rfl, @calls_end _ _ _ (fun _ => 0) _ _ hr ?_⟩
  intro e he
  simp only [List.mem_cons, List.not_mem_nil, or_false] at he
  rcases he with rfl | rfl | rfl
  · trivial
  · exact ⟨_, _, .nodeMonitor 5 [4], rfl⟩
  · exact ⟨_, _, .publish 5 7 none (some 3), rfl⟩
