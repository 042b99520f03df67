import CoinData.Inevitability
import CoinData.ObjectSystem
import Mathlib.Algebra.Order.BigOperators.Group.Finset

/-!
# When the owner of a node dies

The shared memory of a node outlives the process that owns it, as long as
others are attached. Each of them has a thread that looks every second
whether the owners of its nodes are alive (`node_monitor_`). When one is
not, it marks each object it has listed as destroyed, gives its reference
up, moves the retention to the `obj_removed_list`, where it waits for a new
owner, and in the end lets go of the shared memory, with which the weak
pointers of all retentions expire.

The owner dies between two sections, and holds no mutex then. Those who are
left still discover, are notified and lock objects. An object may be marked by
another process before the own thread comes to it, and be given up by
`inotify_shared_object_monitor_` instead: **each reference is given up
once**, by one of the two.

`discovery_shm_` finds the owner dead, and removes his files; but it attaches
to his memory first. In a process which is attached to it already `shmat`
fails, and the constructor of `Shm` destroys the memory and throws: the call of
`discovery` ends with the exception, which changes no table, and the thread of
`inotify_shared_object_monitor_`, which catches nothing, ends its process. That
is all that can go wrong as long as the file is there. When it is gone and a
process detaches, `get_key_` makes it anew, with nothing in it, and whoever
looks there then reads a file that cannot be mapped (`KeyFile`,
`Abandoned.searches`). The address at which the memory is wanted is taken to be
free in a process that is not attached.

Nobody releases anything any more, and so the invariant of references is
that of a node whose `shm_obj_map` is empty: what the owner held of each
object stays in its count (`ShmSystemSharedInfo.abandoned`).
-/

open Maps TransitionSystem

namespace ShmObjManager

/-! ## The sections of those who are left -/

namespace ExtNodeMapItem

/-- Reset the weak pointers of a retention. -/
def expire (node : ExtNodeMapItem) (ret : ℕ) : ExtNodeMapItem :=
  { node with
    retention := Function.update node.retention ret
      { node.retention ret with attached := false } }

/-- `shared_info` and `shm_manager` of the node are reset: with them all weak
pointers expire. -/
def reset (node : ExtNodeMapItem) : ExtNodeMapItem :=
  { node with retention := fun ret => { node.retention ret with attached := false } }

end ExtNodeMapItem

/-- The loop of `node_monitor_` at one key of the `obj_list`: give up the
reference to an object whose owner is dead. -/
def nodeMonitorListed (key : String) (mem : ShmSystemSharedInfo) (node : ExtNodeMapItem) :
    Except ObjectFault (ShmSystemSharedInfo × ExtNodeMapItem) :=
  match node.objList[key]? with
  | none => .ok (mem, node)
  | some ret =>
    match (node.retention ret).ptr with
    | none => .error .nullDeref
    | some info => do
      let o ← mem.deref info
      .ok (mem.set info { o with refCnt := o.refCnt - 1, isDestroy := true },
        { node.expire ret with
          objRemovedList := node.objRemovedList.insertIfNew key ret
          objList := node.objList.erase key })

/-- **The key file of a dead owner**, by which `discovery_shm_` comes to his
shared memory. -/
inductive KeyFile where
  /-- As he left it. -/
  | whole
  /-- Removed, and the memory with it. -/
  | gone
  /-- Made anew by `get_key_`, with nothing in it. -/
  | empty
deriving DecidableEq

/-- `discovery_shm_` gets past the file. -/
def KeyFile.Passed (file : KeyFile) (attached : Bool) : Prop :=
  file = .gone ∨ file = .whole ∧ attached = false

instance (file : KeyFile) (attached : Bool) : Decidable (file.Passed attached) :=
  inferInstanceAs (Decidable (_ ∨ _))

/-- **`discovery_shm_` at the file of a dead process**, by a process that is
attached to his memory or not: it attaches to the memory, removes the files and
goes on. -/
def discoveryShmDead : KeyFile → Bool → Except ObjectFault KeyFile
  | .gone, _ | .whole, false => .ok .gone
  | .whole, true => .error (.runtimeError "create memory is not match")
  | .empty, _ => .error .mapFailed

/-- `discovery<T>`, where `discovery_shm_` finds the owner dead. -/
def discoveryDead (type key : String) (file : KeyFile) (attached : Bool) (node : ExtNodeMapItem) :
    Except ObjectFault (ℕ × KeyFile × ExtNodeMapItem) :=
  match discoveryExtMap key node with
  | some ret => .ok (ret, file, node)
  | none => do
    let file ← discoveryShmDead file attached
    let (ret, node) := node.makeShared (some type) none
    .ok (ret, file, { node with objRemovedList := node.objRemovedList.insertIfNew key ret })

/-- **A process that is left.** `pass` holds the keys which `node_monitor_` has
still to look at, `setup` says that the node has its `shared_info` and its
`shm_manager`, and with them that the process is attached: a function that runs
under `lock_object` keeps the memory until it returns, and is one step with it. -/
structure Survivor where
  node : ExtNodeMapItem
  monitor : Monitor
  pass : Option (List String)
  setup : Bool

namespace Survivor

/-- Nobody holds `node_map_mutex_`. -/
def Free (p : Survivor) : Prop := p.monitor = .idle ∧ p.pass = none

instance (p : Survivor) : Decidable p.Free := inferInstanceAs (Decidable (_ ∧ _))

/-- **The next step of `node_monitor_`.** -/
def nodeMonitorStep (p : Survivor) (mem : ShmSystemSharedInfo) :
    Except ObjectFault (ShmSystemSharedInfo × Survivor) :=
  match p.pass with
  | none => .ok (mem, { p with pass := some p.node.objList.keys })
  | some (key :: keys) => do
    let (mem, node) ← nodeMonitorListed key mem p.node
    .ok (mem, { p with node := node, pass := some keys })
  | some [] => .ok (mem, { p with node := p.node.reset, pass := none, setup := false })

/-- The next step of `inotify_shared_object_monitor_`. `discovery_shm_` finds
nothing for those that wait. -/
def monitorStep (p : Survivor) (file : KeyFile) (mem : ShmSystemSharedInfo) :
    Except ObjectFault (KeyFile × ShmSystemSharedInfo × Survivor) :=
  match p.monitor with
  | .idle => .ok (file, mem, p)
  | .removed (_ :: keys) => do
    let file ← discoveryShmDead file p.setup
    .ok (file, mem, { p with monitor := .removed keys })
  | .removed [] => .ok (file, mem, { p with monitor := .listed p.node.objList.keys })
  | .listed (key :: keys) => do
    let (mem, node) ← monitorListed key mem p.node
    .ok (file, mem, { p with node := node, monitor := .listed keys })
  | .listed [] => .ok (file, mem, { p with monitor := .idle })

/-- The next step of `inotify_shared_object_monitor_` calls `discovery_shm_`. -/
def searches (p : Survivor) : Bool :=
  match p.monitor with
  | .removed (_ :: _) => true
  | _ => false

end Survivor

/-- **A node whose owner is dead.** -/
structure Abandoned (C : Type) where
  mem : ShmSystemSharedInfo
  process : C → Survivor
  file : KeyFile

/-- What those do who are left. -/
inductive AbandonedStep (C : Type) where
  /-- `node_monitor_` starts, or goes on. -/
  | nodeMonitor (c : C)
  | notify (c : C)
  | monitor (c : C)
  | discovery (c : C) (type key : String)
  | lockObject (c : C) (ret : ℕ)
  /-- The key file is removed, or made anew, by a process that detaches or whose
  attach throws. -/
  | keyFile (file : KeyFile)
deriving DecidableEq

namespace Abandoned

variable {C : Type}

/-- What the processes keep. -/
def nodes (s : Abandoned C) (c : C) : ExtNodeMapItem := (s.process c).node

/-- The mutex of a process excludes one section while another one is at
work, and `node_monitor_` passes over a node which is not set up. -/
def Admits (s : Abandoned C) : AbandonedStep C → Prop
  | .nodeMonitor c =>
    (s.process c).monitor = .idle ∧ ((s.process c).pass = none → (s.process c).setup = true)
  | .notify c | .discovery c _ _ => (s.process c).Free
  | .monitor c => (s.process c).monitor ≠ .idle
  | .lockObject c r => r < (s.nodes c).nextRetention
  | .keyFile file => s.file = .whole ∧ file = .gone ∨ s.file = .gone ∧ file = .empty

instance (s : Abandoned C) : (l : AbandonedStep C) → Decidable (s.Admits l)
  | .nodeMonitor c => inferInstanceAs (Decidable ((s.process c).monitor = .idle
      ∧ ((s.process c).pass = none → (s.process c).setup = true)))
  | .notify c | .discovery c _ _ => inferInstanceAs (Decidable (s.process c).Free)
  | .monitor c => inferInstanceAs (Decidable ((s.process c).monitor ≠ .idle))
  | .lockObject c r => inferInstanceAs (Decidable (r < (s.nodes c).nextRetention))
  | .keyFile file =>
    inferInstanceAs (Decidable (s.file = .whole ∧ file = .gone ∨ s.file = .gone ∧ file = .empty))

/-- **The process for which a section calls `discovery_shm_`.** -/
def searches (s : Abandoned C) : AbandonedStep C → Option C
  | .discovery c _ key => if discoveryExtMap key (s.nodes c) = none then some c else none
  | .monitor c => if (s.process c).searches then some c else none
  | _ => none

variable [DecidableEq C]

/-- Change one process, and the file. -/
def modify (s : Abandoned C) (c : C) (file : KeyFile) (mem : ShmSystemSharedInfo) (p : Survivor) :
    Abandoned C :=
  ⟨mem, Function.update s.process c p, file⟩

/-- Perform a section. -/
def run (s : Abandoned C) : AbandonedStep C → Except ObjectFault (Abandoned C)
  | .nodeMonitor c => do
    let (mem, p) ← (s.process c).nodeMonitorStep s.mem
    .ok (s.modify c s.file mem p)
  | .notify c =>
    .ok (s.modify c s.file s.mem
      { s.process c with monitor := .removed (s.nodes c).objRemovedList.keys })
  | .monitor c => do
    let (file, mem, p) ← (s.process c).monitorStep s.file s.mem
    .ok (s.modify c file mem p)
  | .discovery c type key => do
    let (_, file, node) ← discoveryDead type key s.file (s.process c).setup (s.nodes c)
    .ok (s.modify c file s.mem { s.process c with node := node })
  | .lockObject c r => do
    let _ ← lockObject r s.mem (s.nodes c)
    .ok s
  | .keyFile file => .ok { s with file := file }

/-- Perform a section that is admitted and returns. -/
def next (s : Abandoned C) (l : AbandonedStep C) : Option (Abandoned C) :=
  if s.Admits l then (s.run l).toOption else none

end Abandoned

/-- The node as its owner leaves it. -/
def Manager.abandon {C : Type} (s : Manager C) (setup : C → Bool) : Abandoned C where
  mem := s.mem
  process c := ⟨s.nodes c, (s.process c).monitor, none, setup c⟩
  file := .whole

/-- A process that has nothing of the node listed, and no retention attached to
it, need not have the node set up. -/
def Manager.SetUp {C : Type} (s : Manager C) (setup : C → Bool) : Prop :=
  ∀ c, setup c = false → (∀ k : String, (s.nodes c).objList[k]? = none)
    ∧ ∀ r, ((s.nodes c).retention r).attached = false

/-! ## The invariant of references, without the owner -/

section

variable {mem mem' : ShmSystemSharedInfo} {node : ExtNodeMapItem} {key : String} {info r : ℕ}
  {o : ObjectInfo}

/-- What the owner held of an object. -/
def ShmSystemSharedInfo.owned (mem : ShmSystemSharedInfo) (info : ℕ) : ℤ :=
  if HasValue mem.shmObjMap info then 1 else 0

/-- **The shared memory without its owner**: nothing is found by name, and the
counts are without what the owner held. -/
def ShmSystemSharedInfo.abandoned (mem : ShmSystemSharedInfo) : ShmSystemSharedInfo :=
  { mem with
    shmObjMap := ∅
    infos := fun i => (mem.infos i).map fun o => { o with refCnt := o.refCnt - mem.owned i } }

theorem ShmSystemSharedInfo.abandoned_infos (ho : mem.infos info = some o) :
    mem.abandoned.infos info = some { o with refCnt := o.refCnt - mem.owned info } :=
  congrArg (Option.map _) ho

theorem ShmSystemSharedInfo.exists_of_abandoned (ho : mem.abandoned.infos info = some o) :
    ∃ o', mem.infos info = some o' ∧ { o' with refCnt := o'.refCnt - mem.owned info } = o :=
  Option.map_eq_some_iff.mp ho

theorem ShmSystemSharedInfo.abandoned_map (k : String) : mem.abandoned.shmObjMap[k]? = none :=
  Std.TreeMap.getElem?_emptyc

/-- Writing to an object. -/
theorem ShmSystemSharedInfo.abandoned_set (mem : ShmSystemSharedInfo) (info : ℕ) (o : ObjectInfo) :
    (mem.set info o).abandoned
      = mem.abandoned.set info { o with refCnt := o.refCnt - mem.owned info } := by
  unfold abandoned set
  congr 1
  funext i
  by_cases hi : i = info
  · subst hi
    simp only [Function.update_self]
    rfl
  · simp only [Function.update_of_ne hi]
    rfl

/-- What a process keeps, when nothing is found by name any more. -/
theorem ExtNodeMapItem.Follows.abandoned (h : node.Follows mem) : node.Follows mem.abandoned := by
  refine h.frame le_rfl (fun k i hk => absurd hk (empty_ne_some k i)) ?_
  rintro i ⟨k, r, hk, hptr⟩
  obtain ⟨_, _, i', hptr', _, o, ho⟩ := h.listed k r hk
  rw [hptr] at hptr'
  cases hptr'
  exact ⟨_, ShmSystemSharedInfo.abandoned_infos ho⟩

theorem ShmSystemSharedInfo.Sound.abandoned (h : mem.Sound) : mem.abandoned.Sound where
  unborn i hi := by
    show (mem.infos i).map _ = none
    rw [h.unborn i hi]
    rfl
  created i o ho := by
    obtain ⟨o', ho', rfl⟩ := exists_of_abandoned ho
    exact h.created i o' ho'
  mapped k i hk := absurd hk (empty_ne_some k i)
  removed k i hk := by
    obtain ⟨o, ho, hdes⟩ := h.removed k i hk
    exact ⟨_, abandoned_infos ho, hdes⟩
  mapOneKey := oneKey_empty
  removedOneKey := h.removedOneKey

/-- Marking an object that is not found by name. -/
theorem ShmSystemSharedInfo.Sound.mark (h : mem.Sound) (hmap : ¬ HasValue mem.shmObjMap info)
    (ho : mem.infos info = some o) : (mem.set info { o with isDestroy := true }).Sound where
  unborn i hi := by
    have hnone := h.unborn i hi
    rw [set_infos, Function.update_of_ne, hnone]
    rintro rfl
    rw [hnone] at ho
    cases ho
  created i o' ho' := by
    by_cases hi : i = info
    · rw [hi, set_infos, Function.update_self] at ho'
      cases ho'
      exact h.created info o ho
    · rw [set_infos, Function.update_of_ne hi] at ho'
      exact h.created i o' ho'
  mapped k i hk := by
    obtain ⟨o', ho', hlive⟩ := h.mapped k i hk
    have hi : i ≠ info := by
      rintro rfl
      exact hmap ⟨k, hk⟩
    exact ⟨o', by rw [set_infos, Function.update_of_ne hi, ho'], hlive⟩
  removed k i hk := by
    by_cases hi : i = info
    · exact ⟨_, by rw [hi, set_infos, Function.update_self], rfl⟩
    · obtain ⟨o', ho', hdes⟩ := h.removed k i hk
      exact ⟨o', by rw [set_infos, Function.update_of_ne hi, ho'], hdes⟩
  mapOneKey := h.mapOneKey
  removedOneKey := h.removedOneKey

/-- The pointer stays. -/
theorem ExtNodeMapItem.expire_ptr (node : ExtNodeMapItem) (r r' : ℕ) :
    ((node.expire r).retention r').ptr = (node.retention r').ptr := by
  by_cases hr : r' = r
  · subst hr
    show (Function.update node.retention r' _ r').ptr = _
    rw [Function.update_self]
  · exact congrArg SharedObjectRetention.ptr (Function.update_of_ne hr ..)

theorem ExtNodeMapItem.refersTo_expire {i : ℕ} : (node.expire r).RefersTo i ↔ node.RefersTo i := by
  unfold RefersTo
  simp only [expire_ptr]
  rfl

/-- The weak pointers of a retention that is not listed do not matter. -/
theorem ExtNodeMapItem.Follows.expire (h : node.Follows mem) (hnot : ¬ HasValue node.objList r) :
    (node.expire r).Follows mem := by
  have hptr := node.expire_ptr r
  have hatt (r' : ℕ) (hr : ((node.expire r).retention r').attached = true) :
      (node.retention r').attached = true := by
    by_cases hr' : r' = r
    · subst hr'
      have hself : (node.expire r').retention r' = { node.retention r' with attached := false } :=
        Function.update_self ..
      rw [hself] at hr
      cases hr
    · have hother : (node.expire r).retention r' = node.retention r' :=
        Function.update_of_ne hr' ..
      rwa [hother] at hr
  refine ⟨h.keysApart, fun k r' hk => ?_, h.waiting, h.waitingOneKey, fun k k' r₁ r₂ i hk hk' => ?_,
    fun k k' r' i hk => ?_, fun r' i => ?_, fun r' i hr hi => ?_, fun r' hr => ?_⟩
  · obtain ⟨hlt, hv, i, hi, hattached, ho⟩ := h.listed k r' hk
    refine ⟨hlt, hv, i, (hptr r').trans hi, ?_, ho⟩
    have hne : r' ≠ r := by
      rintro rfl
      exact hnot ⟨k, hk⟩
    have hother : (node.expire r).retention r' = node.retention r' := Function.update_of_ne hne ..
    rwa [hother]
  · rw [hptr, hptr]
    exact h.oneEntry k k' r₁ r₂ i hk hk'
  · rw [hptr]
    exact h.sameKey k k' r' i hk
  · rw [hptr]
    exact h.known r' i
  · rw [hptr] at hi
    exact h.backed r' i (hatt r' hr) hi
  · by_contra hne
    have hunmade := h.unmade r' hr
    rw [hatt r' (Bool.not_eq_false _ ▸ hne)] at hunmade
    cases hunmade

/-- **A process that has nothing listed can let go of the shared memory.** -/
theorem ExtNodeMapItem.Follows.reset (h : node.Follows mem)
    (hnone : ∀ k : String, node.objList[k]? = none) : node.reset.Follows mem where
  keysApart := h.keysApart
  listed k r hk := by
    have hk : node.objList[k]? = some r := hk
    rw [hnone k] at hk
    cases hk
  waiting := h.waiting
  waitingOneKey := h.waitingOneKey
  oneEntry := h.oneEntry
  sameKey := h.sameKey
  known := h.known
  backed r i hatt := by cases hatt
  unmade _ _ := rfl

end

section

variable {C : Type} [Fintype C] {mem : ShmSystemSharedInfo} {nodes : C → ExtNodeMapItem}

/-- **The invariant of references survives the owner**, without what he held. -/
theorem References.abandoned (h : References mem nodes) : References mem.abandoned nodes where
  sound := h.sound.abandoned
  follows c := (h.follows c).abandoned
  count i o ho := by
    obtain ⟨o', ho', rfl⟩ := ShmSystemSharedInfo.exists_of_abandoned ho
    have hnot : ¬ HasValue mem.abandoned.shmObjMap i := fun ⟨k, hk⟩ => empty_ne_some k i hk
    rw [if_neg hnot]
    show o'.refCnt - mem.owned i = _
    rw [h.count i o' ho', ShmSystemSharedInfo.owned]
    omega

/-- Marking an object that is not found by name keeps the invariant. -/
theorem References.mark {info : ℕ} {o : ObjectInfo} (h : References mem nodes)
    (hmap : ¬ HasValue mem.shmObjMap info) (ho : mem.infos info = some o) :
    References (mem.set info { o with isDestroy := true }) nodes where
  sound := h.sound.mark hmap ho
  follows c := (h.follows c).set_refCnt _
  count i o' ho' := by
    show o'.refCnt = (if HasValue mem.shmObjMap i then 1 else 0) + _
    by_cases hi : i = info
    · rw [hi, ShmSystemSharedInfo.set_infos, Function.update_self] at ho'
      cases ho'
      rw [hi]
      exact h.count info o ho
    · rw [ShmSystemSharedInfo.set_infos, Function.update_of_ne hi] at ho'
      exact h.count i o' ho'

theorem ShmSystemSharedInfo.set_set (mem : ShmSystemSharedInfo) (info : ℕ) (o o' : ObjectInfo) :
    (mem.set info o).set info o' = mem.set info o' := by
  unfold set
  rw [Function.update_idem]

/-- Nothing is found by name. -/
theorem abandoned_not_hasValue (mem : ShmSystemSharedInfo) (info : ℕ) :
    ¬ HasValue mem.abandoned.shmObjMap info := fun ⟨k, hk⟩ => empty_ne_some k info hk

variable [DecidableEq C] {c : C} {key : String}

/-- **`node_monitor_` gives up a reference**, whatever the others have done to
the object before. -/
theorem References.nodeMonitorListed (h : References mem.abandoned nodes) (c : C) (key : String) :
    ∃ mem' node', ShmObjManager.nodeMonitorListed key mem (nodes c) = .ok (mem', node')
      ∧ mem'.shmObjMap = mem.shmObjMap
      ∧ References mem'.abandoned (Function.update nodes c node')
      ∧ node'.objList[key]? = none := by
  have hf := h.follows c
  unfold ShmObjManager.nodeMonitorListed
  cases hlist : (nodes c).objList[key]? with
  | none =>
    refine ⟨mem, nodes c, rfl, rfl, ?_, hlist⟩
    rw [Function.update_eq_self]
    exact h
  | some r =>
    obtain ⟨info, o, hptr, hrefs, ho⟩ := hf.refersTo_of_listed hlist
    obtain ⟨o', ho', rfl⟩ := ShmSystemSharedInfo.exists_of_abandoned ho
    dsimp only
    rw [hptr]
    dsimp only
    rw [ShmSystemSharedInfo.deref_of_some ho', Except.ok_bind]
    refine ⟨_, _, rfl, rfl, ?_, ?_⟩
    · obtain ⟨hr, hv, _⟩ := hf.listed key r hlist
      have hnotlisted : ¬ HasValue ((nodes c).objList.erase key) r := by
        rintro ⟨k, hk⟩
        obtain ⟨hne, hk⟩ := erase_some hk
        exact hne (hf.listOneKey k key r hk hlist)
      have hfollows := ((hf.delist hlist hptr (abandoned_not_hasValue mem info)).await
        ((getElem?_erase ..).trans (if_pos rfl)) hr hnotlisted hv).expire hnotlisted
      have hgive := h.give ho hfollows hrefs fun i =>
        ExtNodeMapItem.refersTo_expire.trans (hf.refersTo_delist hlist hptr)
      have hmark := hgive.mark (abandoned_not_hasValue mem info)
        (Function.update_self info _ mem.abandoned.infos)
      rw [ShmSystemSharedInfo.set_set] at hmark
      rw [ShmSystemSharedInfo.abandoned_set]
      have hcnt : o'.refCnt - 1 - mem.owned info = o'.refCnt - mem.owned info - 1 := by omega
      dsimp only
      rw [hcnt]
      exact hmark
    · exact (getElem?_erase ..).trans (if_pos rfl)

section

variable {type : String} {file file' : KeyFile} {attached : Bool} {node node' : ExtNodeMapItem}
  {ret : ℕ}

omit [Fintype C] [DecidableEq C] in
theorem exists_discoveryShmDead_iff :
    (∃ file', discoveryShmDead file attached = .ok file') ↔ file.Passed attached := by
  cases file <;> cases attached <;> simp [discoveryShmDead, KeyFile.Passed]

omit [Fintype C] [DecidableEq C] in
/-- `discovery` returns, unless `discovery_shm_` is called and throws. -/
theorem exists_discoveryDead_iff :
    (∃ x, discoveryDead type key file attached node = .ok x)
      ↔ (discoveryExtMap key node = none → file.Passed attached) := by
  rw [← exists_discoveryShmDead_iff]
  unfold discoveryDead
  cases discoveryExtMap key node with
  | some r => simp
  | none =>
    refine ⟨fun ⟨x, hx⟩ _ => ?_, fun h => ?_⟩
    · obtain ⟨file', hfile, _⟩ := Except.bind_eq_ok.mp hx
      exact ⟨file', hfile⟩
    · obtain ⟨file', hfile⟩ := h rfl
      dsimp only
      rw [hfile, Except.ok_bind]
      exact ⟨_, rfl⟩

omit [Fintype C] [DecidableEq C] in
/-- **A `discovery` that returns** is one that finds nothing by name. -/
theorem discovery_abandoned (mem : ShmSystemSharedInfo)
    (h : discoveryDead type key file attached node = .ok (ret, file', node')) :
    ShmObjManager.discovery type key mem.abandoned node = .ok (ret, mem.abandoned, node') := by
  unfold discoveryDead at h
  unfold ShmObjManager.discovery
  cases hext : discoveryExtMap key node with
  | some r =>
    rw [hext] at h
    cases h
    rfl
  | none =>
    rw [hext] at h
    obtain ⟨_, _, h⟩ := Except.bind_eq_ok.mp h
    cases h
    dsimp only
    rw [discoveryShm_none (mem.abandoned_map key)]
    rfl

/-- **`discovery` of a dead process keeps the invariant.** -/
theorem References.discoveryDead (h : References mem.abandoned nodes) (c : C)
    (hrun : ShmObjManager.discoveryDead type key file attached (nodes c)
      = .ok (ret, file', node')) :
    References mem.abandoned (Function.update nodes c node') := by
  obtain ⟨r, mem', node₁, hdiscovery, href, _⟩ := h.discovery c type key
  rw [discovery_abandoned mem hrun] at hdiscovery
  cases hdiscovery
  exact href

end

omit [Fintype C] [DecidableEq C] in
/-- The second loop of the monitor does not look for anything by name. -/
theorem monitorListed_abandoned {mem' : ShmSystemSharedInfo} {node node' : ExtNodeMapItem}
    (h : monitorListed key mem.abandoned node = .ok (mem', node')) :
    ∃ mem₁, monitorListed key mem node = .ok (mem₁, node') ∧ mem₁.abandoned = mem'
      ∧ mem₁.shmObjMap = mem.shmObjMap := by
  unfold monitorListed at h ⊢
  split at h
  · cases h
    exact ⟨mem, rfl, rfl, rfl⟩
  · split at h
    · cases h
    · next info hptr =>
      obtain ⟨o, ho, h⟩ := Except.bind_eq_ok.mp h
      obtain ⟨o', ho', rfl⟩ :=
        ShmSystemSharedInfo.exists_of_abandoned (ShmSystemSharedInfo.some_of_deref ho)
      rw [ShmSystemSharedInfo.deref_of_some ho', Except.ok_bind]
      dsimp only at h
      split at h
      · next hdes =>
        cases h
        refine ⟨_, if_pos hdes, ?_, rfl⟩
        rw [ShmSystemSharedInfo.abandoned_set]
        have hcnt : o'.refCnt - 1 - mem.owned info = o'.refCnt - mem.owned info - 1 := by omega
        dsimp only
        rw [hcnt]
      · next hdes =>
        cases h
        exact ⟨mem, if_neg hdes, rfl, rfl⟩

/-- **The monitor keeps the invariant.** -/
theorem References.monitorListedDead (h : References mem.abandoned nodes) (c : C)
    (key : String) : ∃ mem' node', ShmObjManager.monitorListed key mem (nodes c) = .ok (mem', node')
      ∧ mem'.shmObjMap = mem.shmObjMap
      ∧ References mem'.abandoned (Function.update nodes c node') := by
  obtain ⟨mem', node', hrun, href, _⟩ := h.monitorListed c key
  obtain ⟨mem₁, hrun₁, rfl, hmap⟩ := monitorListed_abandoned hrun
  exact ⟨mem₁, node', hrun₁, hmap, href⟩

end

/-! ## What is left of the lists -/

namespace ExtNodeMapItem

variable {node node' : ExtNodeMapItem} {mem mem' : ShmSystemSharedInfo} {key : String}

/-- **The process lists less**, and keeps each retention under its name. -/
structure Shrinks (node node' : ExtNodeMapItem) : Prop where
  listed : ∀ k : String, node.objList[k]? = none → node'.objList[k]? = none
  expired : ∀ r, (node.retention r).attached = false → (node'.retention r).attached = false
  holds : ∀ k r, node.Holds k r → node'.Holds k r

theorem Shrinks.refl (node : ExtNodeMapItem) : node.Shrinks node :=
  ⟨fun _ h => h, fun _ h => h, fun _ _ h => h⟩

theorem Shrinks.reset (node : ExtNodeMapItem) : node.Shrinks node.reset :=
  ⟨fun _ h => h, fun _ _ => rfl, fun _ _ h => h⟩

/-- A retention that is moved to the `obj_removed_list` is kept. -/
theorem holds_moved {r r' : ℕ} {k : String} (hkey : node.objList[key]? = some r)
    (hremoved : node.objRemovedList[key]? = none) (h : node.Holds k r') :
    ({ node with
      objRemovedList := node.objRemovedList.insertIfNew key r
      objList := node.objList.erase key } : ExtNodeMapItem).Holds k r' := by
  unfold Holds
  rw [insertIfNew_of_none hremoved, getElem?_erase]
  by_cases hk : k = key
  · subst hk
    rw [if_pos rfl, if_pos rfl]
    refine .inr ?_
    rcases h with hlisted | hwaiting
    · exact hkey.symm.trans hlisted
    · rw [hremoved] at hwaiting
      cases hwaiting
  · rwa [if_neg hk, if_neg hk]

/-- A retention is moved to the `obj_removed_list`. -/
theorem Shrinks.moved {r : ℕ} {retention : ℕ → SharedObjectRetention}
    (hkey : node.objList[key]? = some r) (hremoved : node.objRemovedList[key]? = none)
    (hexpired : ∀ r, (node.retention r).attached = false → (retention r).attached = false) :
    node.Shrinks { node with
      retention := retention
      objRemovedList := node.objRemovedList.insertIfNew key r
      objList := node.objList.erase key } where
  listed k hk := by
    rw [getElem?_erase]
    split
    · rfl
    · exact hk
  expired := hexpired
  holds _ _ := holds_moved hkey hremoved

theorem Shrinks.nodeMonitorListed {m : ShmSystemSharedInfo} (hf : node.Follows m)
    (h : ShmObjManager.nodeMonitorListed key mem node = .ok (mem', node')) :
    node.Shrinks node' := by
  unfold ShmObjManager.nodeMonitorListed at h
  split at h
  · cases h
    exact .refl node
  next ret hlist =>
  split at h
  · cases h
  next info hptr =>
  obtain ⟨o, _, h⟩ := Except.bind_eq_ok.mp h
  cases h
  refine .moved hlist (hf.keysApart key ret hlist) fun r hr => ?_
  by_cases hret : r = ret
  · subst hret
    show (Function.update node.retention r _ r).attached = false
    rw [Function.update_self]
  · show (Function.update node.retention ret _ r).attached = false
    rwa [Function.update_of_ne hret]

theorem Shrinks.monitorListed {m : ShmSystemSharedInfo} (hf : node.Follows m)
    (h : ShmObjManager.monitorListed key mem node = .ok (mem', node')) : node.Shrinks node' := by
  rcases monitorListed_cases h with
    ⟨_, _, rfl⟩ | ⟨r, info, o, hlist, _, _, ⟨_, _, rfl⟩ | ⟨_, _, rfl⟩⟩
  · exact .refl _
  · exact .refl _
  · exact .moved hlist (hf.keysApart key r hlist) fun _ hr => hr

theorem Shrinks.discoveryDead {type : String} {file file' : KeyFile} {attached : Bool} {ret : ℕ}
    (h : ShmObjManager.discoveryDead type key file attached node = .ok (ret, file', node')) :
    node.Shrinks node' := by
  unfold ShmObjManager.discoveryDead at h
  cases hext : discoveryExtMap key node with
  | some r =>
    rw [hext] at h
    cases h
    exact .refl node
  | none =>
    rw [hext] at h
    obtain ⟨_, _, h⟩ := Except.bind_eq_ok.mp h
    cases h
    obtain ⟨_, hremoved⟩ := discoveryExtMap_none hext
    refine ⟨fun _ hk => hk, fun r hr => ?_, fun k r hk => hk.imp id fun hwaiting => ?_⟩
    · show (Function.update node.retention node.nextRetention _ r).attached = false
      by_cases hnew : r = node.nextRetention
      · rw [hnew, Function.update_self]
      · rwa [Function.update_of_ne hnew]
    · show (node.objRemovedList.insertIfNew key _)[k]? = some r
      rw [insertIfNew_of_none hremoved, if_neg, hwaiting]
      rintro rfl
      rw [hremoved] at hwaiting
      cases hwaiting

end ExtNodeMapItem

/-! ## The node -/

/-- **What holds of a process that is left**: what is listed is still to be
looked at by the pass, and a node that is not set up has nothing listed and no
retention attached. -/
structure Survivor.Inv (p : Survivor) : Prop where
  pass : ∀ keys, p.pass = some keys → ∀ k : String, p.node.objList[k]? ≠ none → k ∈ keys
  idle : p.setup = false → p.pass = none
  unlisted : p.setup = false → ∀ k : String, p.node.objList[k]? = none
  expired : p.setup = false → ∀ r, (p.node.retention r).attached = false

/-- A process that lists less. -/
theorem Survivor.Inv.shrinks {p p' : Survivor} (h : p.Inv) (hnode : p.node.Shrinks p'.node)
    (hpass : p'.pass = p.pass) (hsetup : p'.setup = p.setup) : p'.Inv where
  pass keys hkeys k hk := h.pass keys (hpass ▸ hkeys) k fun hnone => hk (hnode.listed k hnone)
  idle hs := hpass.trans (h.idle (hsetup ▸ hs))
  unlisted hs k := hnode.listed k (h.unlisted (hsetup ▸ hs) k)
  expired hs r := hnode.expired r (h.expired (hsetup ▸ hs) r)

theorem Survivor.searches_iff {p : Survivor} :
    p.searches = true ↔ ∃ key keys, p.monitor = .removed (key :: keys) := by
  unfold searches
  split
  · next key keys hmonitor => simp [hmonitor]
  · next hnot => simpa using hnot

namespace Abandoned

variable {C : Type} {s s' : Abandoned C}

/-- **What holds of a node whose owner is dead.** -/
structure Inv [Fintype C] (s : Abandoned C) : Prop where
  references : References s.mem.abandoned s.nodes
  process : ∀ c, (s.process c).Inv

/-- **What a section does**: names stay in `shm_obj_map`, and the lists get
smaller. -/
structure Effect (s s' : Abandoned C) : Prop where
  shmObjMap : s'.mem.shmObjMap = s.mem.shmObjMap
  shrinks : ∀ c, (s.nodes c).Shrinks (s'.nodes c)

/-- **`discovery_shm_` gets past the file**, if the section calls it. -/
def Passes (s : Abandoned C) (l : AbandonedStep C) : Prop :=
  ∀ c, s.searches l = some c → s.file.Passed (s.process c).setup

variable [DecidableEq C] {c : C} {file : KeyFile} {mem : ShmSystemSharedInfo} {p : Survivor}

theorem nodes_modify (s : Abandoned C) (c : C) (file : KeyFile) (mem : ShmSystemSharedInfo)
    (p : Survivor) : (s.modify c file mem p).nodes = Function.update s.nodes c p.node := by
  funext d
  show (Function.update s.process c p d).node = _
  by_cases hd : d = c
  · rw [hd, Function.update_self, Function.update_self]
  · rw [Function.update_of_ne hd, Function.update_of_ne hd]
    rfl

/-- **One process changes.** -/
theorem Inv.modify [Fintype C] (h : s.Inv)
    (href : References mem.abandoned (Function.update s.nodes c p.node)) (hp : p.Inv)
    (hmap : mem.shmObjMap = s.mem.shmObjMap) (hnode : (s.nodes c).Shrinks p.node) :
    (s.modify c file mem p).Inv ∧ s.Effect (s.modify c file mem p) := by
  refine ⟨⟨?_, fun d => ?_⟩, ⟨hmap, fun d => ?_⟩⟩
  · rw [nodes_modify]
    exact href
  · show (Function.update s.process c p d).Inv
    by_cases hd : d = c
    · rwa [hd, Function.update_self]
    · rw [Function.update_of_ne hd]
      exact h.process d
  · rw [nodes_modify]
    by_cases hd : d = c
    · rwa [hd, Function.update_self]
    · rw [Function.update_of_ne hd]
      exact .refl _

/-- What a process keeps does not change. -/
theorem Inv.same [Fintype C] (h : s.Inv) (c : C) :
    References s.mem.abandoned (Function.update s.nodes c (s.nodes c)) := by
  rw [Function.update_eq_self]
  exact h.references

/-- **`node_monitor_` returns.** -/
theorem Inv.nodeMonitor [Fintype C] (h : s.Inv) (c : C)
    (hsetup : (s.process c).pass = none → (s.process c).setup = true) :
    ∃ s', s.run (.nodeMonitor c) = .ok s' ∧ s'.Inv ∧ s.Effect s' := by
  have hp := h.process c
  dsimp only [run, Survivor.nodeMonitorStep]
  match hpass : (s.process c).pass with
  | none =>
    refine ⟨_, rfl, h.modify (h.same c) ⟨?_, ?_, ?_, ?_⟩ rfl (.refl _)⟩
    · rintro keys ⟨⟩ k hk
      exact Std.TreeMap.mem_keys.mpr
        (Std.TreeMap.mem_iff_isSome_getElem?.mpr (Option.isSome_iff_ne_none.mpr hk))
    · intro hs
      cases (hsetup hpass).symm.trans hs
    · exact hp.unlisted
    · exact hp.expired
  | some (key :: keys) =>
    obtain ⟨mem, node, hrun, hmap, href, hkey⟩ := h.references.nodeMonitorListed c key
    have hnode : (s.nodes c).Shrinks node := .nodeMonitorListed (h.references.follows c) hrun
    dsimp only
    rw [show (s.process c).node = s.nodes c from rfl, hrun]
    refine ⟨_, rfl, h.modify href ⟨?_, ?_, ?_, ?_⟩ hmap hnode⟩
    · rintro keys' ⟨⟩ k hk
      have hne : k ≠ key := by
        rintro rfl
        exact hk hkey
      have hmem : k ∈ key :: keys := hp.pass _ hpass k fun hnone => hk (hnode.listed k hnone)
      exact (List.mem_cons.mp hmem).resolve_left hne
    · intro hs
      cases hpass.symm.trans (hp.idle hs)
    · exact fun hs k => hnode.listed k (hp.unlisted hs k)
    · exact fun hs r => hnode.expired r (hp.expired hs r)
  | some [] =>
    have hnone (k : String) : (s.nodes c).objList[k]? = none := by
      by_contra hne
      exact List.not_mem_nil (hp.pass [] hpass k hne)
    have hfollows : (s.nodes c).reset.Follows s.mem.abandoned :=
      (h.references.follows c).reset hnone
    refine ⟨_, rfl, h.modify (h.references.update hfollows fun i => Iff.rfl)
      ⟨?_, fun _ => rfl, fun _ => hnone, fun _ _ => rfl⟩ rfl (.reset _)⟩
    rintro keys ⟨⟩

/-- **The monitor returns**, unless `discovery_shm_` is called and throws. -/
theorem Inv.monitor [Fintype C] (h : s.Inv) (c : C) (hpass : s.Passes (.monitor c)) :
    ∃ s', s.run (.monitor c) = .ok s' ∧ s'.Inv ∧ s.Effect s' := by
  have hp := h.process c
  have hrest (file : KeyFile) (m : Monitor) :
      (s.modify c file s.mem { s.process c with monitor := m }).Inv
        ∧ s.Effect (s.modify c file s.mem { s.process c with monitor := m }) :=
    h.modify (h.same c) (hp.shrinks (.refl _) rfl rfl) rfl (.refl _)
  dsimp only [run, Survivor.monitorStep]
  match hmonitor : (s.process c).monitor with
  | .idle =>
    refine ⟨_, rfl, ?_⟩
    have hidle := hrest s.file .idle
    rw [← hmonitor] at hidle
    exact hidle
  | .removed (_ :: keys) =>
    obtain ⟨file, hfile⟩ := exists_discoveryShmDead_iff.mpr
      (hpass c (if_pos (by rw [Survivor.searches, hmonitor])))
    dsimp only
    rw [hfile]
    exact ⟨_, rfl, hrest ..⟩
  | .removed [] => exact ⟨_, rfl, hrest ..⟩
  | .listed (key :: keys) =>
    obtain ⟨mem, node, hrun, hmap, href⟩ := h.references.monitorListedDead c key
    have hnode : (s.nodes c).Shrinks node := .monitorListed (h.references.follows c) hrun
    dsimp only
    rw [show (s.process c).node = s.nodes c from rfl, hrun]
    exact ⟨_, rfl, h.modify href (hp.shrinks hnode rfl rfl) hmap hnode⟩
  | .listed [] => exact ⟨_, rfl, hrest ..⟩

/-- **Every section but `lock_object` returns**, unless `discovery_shm_` is
called and throws. -/
theorem Inv.run [Fintype C] (h : s.Inv) {l : AbandonedStep C} (hadm : s.Admits l)
    (hl : ∀ c r, l ≠ .lockObject c r) (hpass : s.Passes l) :
    ∃ s', s.run l = .ok s' ∧ s'.Inv ∧ s.Effect s' := by
  cases l with
  | nodeMonitor c => exact h.nodeMonitor c hadm.2
  | monitor c => exact h.monitor c hpass
  | notify c =>
    exact ⟨_, rfl, h.modify (h.same c) ((h.process c).shrinks (.refl _) rfl rfl) rfl (.refl _)⟩
  | discovery c type key =>
    have hreturns : discoveryExtMap key (s.nodes c) = none → s.file.Passed (s.process c).setup :=
      fun hext => hpass c (if_pos hext)
    obtain ⟨⟨ret, file, node⟩, hrun⟩ :
        ∃ x, discoveryDead type key s.file (s.process c).setup (s.nodes c) = .ok x :=
      exists_discoveryDead_iff.mpr hreturns
    have hnode : (s.nodes c).Shrinks node := .discoveryDead hrun
    dsimp only [Abandoned.run]
    rw [hrun]
    exact ⟨_, rfl, h.modify (h.references.discoveryDead c hrun)
      ((h.process c).shrinks hnode rfl rfl) rfl hnode⟩
  | lockObject c r => exact absurd rfl (hl c r)
  | keyFile file => exact ⟨_, rfl, ⟨h.references, h.process⟩, rfl, fun c => .refl _⟩

/-- What a section that returns has got past. -/
theorem passes_of_run {l : AbandonedStep C} (hrun : s.run l = .ok s') : s.Passes l := by
  intro c hc
  cases l with
  | nodeMonitor d | notify d | lockObject d r | keyFile file => cases hc
  | monitor d =>
    obtain ⟨x, hx, _⟩ := Except.bind_eq_ok.mp hrun
    dsimp only [searches] at hc
    split at hc
    · next hsearches =>
      cases hc
      obtain ⟨key, keys, hmonitor⟩ := Survivor.searches_iff.mp hsearches
      dsimp only [Survivor.monitorStep] at hx
      rw [hmonitor] at hx
      obtain ⟨file, hfile, _⟩ := Except.bind_eq_ok.mp hx
      exact exists_discoveryShmDead_iff.mp ⟨file, hfile⟩
    · cases hc
  | discovery d type key =>
    obtain ⟨x, hx, _⟩ := Except.bind_eq_ok.mp hrun
    dsimp only [searches] at hc
    split at hc
    · next hext =>
      cases hc
      exact exists_discoveryDead_iff.mp ⟨x, hx⟩ hext
    · cases hc

omit [DecidableEq C] in
/-- **The node as its owner leaves it.** -/
theorem abandon_inv [Fintype C] {s₀ : Manager C} {setup : C → Bool} (h : References s₀.mem s₀.nodes)
    (hsetup : s₀.SetUp setup) : (s₀.abandon setup).Inv where
  references := h.abandoned
  process c :=
    { pass := fun keys hkeys => by cases hkeys
      idle := fun _ => rfl
      unlisted := fun hs => (hsetup c hs).1
      expired := fun hs => (hsetup c hs).2 }

omit [DecidableEq C] in
/-- The count of an object. -/
theorem Inv.refCnt [Fintype C] (h : s.Inv) {i : ℕ} {o : ObjectInfo} (ho : s.mem.infos i = some o) :
    o.refCnt = (if HasValue s.mem.shmObjMap i then 1 else 0) + referrers s.nodes i := by
  have hcnt := h.references.count i _ (ShmSystemSharedInfo.abandoned_infos ho)
  rw [if_neg (abandoned_not_hasValue s.mem i)] at hcnt
  have hcnt : o.refCnt - s.mem.owned i = 0 + referrers s.nodes i := hcnt
  unfold ShmSystemSharedInfo.owned at hcnt
  omega

omit [DecidableEq C] in
/-- A process that has let go of the shared memory does not touch it. -/
theorem Inv.lockObject_false [Fintype C] (h : s.Inv) (hsetup : (s.process c).setup = false)
    (r : ℕ) : lockObject r s.mem (s.nodes c) = .ok false := by
  have hexpired : ((s.nodes c).retention r).attached = false := (h.process c).expired hsetup r
  unfold lockObject
  rw [hexpired]
  rfl

end Abandoned

/-! ## All notice it -/

/-- How often the file can change yet. -/
def KeyFile.rank : KeyFile → ℕ
  | .whole => 2
  | .gone => 1
  | .empty => 0

theorem KeyFile.rank_discoveryShmDead {file file' : KeyFile} {attached : Bool}
    (h : discoveryShmDead file attached = .ok file') : file'.rank ≤ file.rank := by
  unfold discoveryShmDead at h
  split at h <;> cases h <;> decide

namespace Survivor

variable {p p' : Survivor} {file file' : KeyFile} {mem mem' : ShmSystemSharedInfo}

/-- How much the monitor has to do yet. -/
def monitorRank (p : Survivor) : ℕ :=
  match p.monitor with
  | .idle => 0
  | .removed keys => keys.length + p.node.objList.size + 2
  | .listed keys => keys.length + 1

/-- How much `node_monitor_` has to do yet. -/
def passRank (p : Survivor) : ℕ :=
  match p.pass with
  | some keys => keys.length + 1
  | none => if p.setup then p.node.objList.size + 2 else 0

/-- **How far a process is from having noticed.** -/
def rank (p : Survivor) : ℕ := p.monitorRank + p.passRank

/-- **The process will not be thrown at**: while it is attached, its
`inotify_shared_object_monitor_` does not call `discovery_shm_`. -/
def Quiet (p : Survivor) : Prop := p.setup = true → p.searches = false

/-- **A step of `node_monitor_`** comes nearer, and leaves the monitor alone. -/
theorem nodeMonitorStep_settles (hidle : p.monitor = .idle)
    (hsetup : p.pass = none → p.setup = true) (h : p.nodeMonitorStep mem = .ok (mem', p')) :
    p'.rank < p.rank ∧ p'.monitor = .idle := by
  unfold nodeMonitorStep at h
  split at h
  · next hpass =>
    cases h
    simp [rank, monitorRank, passRank, hidle, hpass, hsetup hpass]
  · next key keys hpass =>
    obtain ⟨⟨mem₁, node₁⟩, _, h⟩ := Except.bind_eq_ok.mp h
    cases h
    simp [rank, monitorRank, passRank, hidle, hpass]
  · next hpass =>
    cases h
    simp [rank, monitorRank, passRank, hidle, hpass]

theorem size_monitorListed {key : String} {node node' : ExtNodeMapItem}
    (h : monitorListed key mem node = .ok (mem', node')) :
    node'.objList.size ≤ node.objList.size := by
  rcases monitorListed_cases h with ⟨_, _, rfl⟩ | ⟨r, info, o, _, _, _, ⟨_, _, rfl⟩ | ⟨_, _, rfl⟩⟩
  · exact le_rfl
  · exact le_rfl
  · exact Std.TreeMap.size_erase_le

theorem rank_monitorStep (hbusy : p.monitor ≠ .idle)
    (h : p.monitorStep file mem = .ok (file', mem', p')) :
    p'.rank < p.rank ∧ file'.rank ≤ file.rank := by
  unfold monitorStep at h
  split at h
  · next hidle => exact absurd hidle hbusy
  · next key keys hmonitor =>
    obtain ⟨file₁, hfile, h⟩ := Except.bind_eq_ok.mp h
    cases h
    refine ⟨?_, KeyFile.rank_discoveryShmDead hfile⟩
    simp [rank, monitorRank, passRank, hmonitor]
  · next hmonitor =>
    cases h
    simp [rank, monitorRank, passRank, hmonitor, Std.TreeMap.length_keys]
  · next key keys hmonitor =>
    obtain ⟨⟨mem₁, node₁⟩, hlist, h⟩ := Except.bind_eq_ok.mp h
    cases h
    refine ⟨?_, le_rfl⟩
    have hsize := size_monitorListed hlist
    simp only [rank, monitorRank, passRank, hmonitor, List.length_cons]
    split
    · omega
    · split <;> omega
  · next hmonitor =>
    cases h
    simp [rank, monitorRank, passRank, hmonitor]

theorem Quiet.of_not_searches (h : p.searches = false) : p.Quiet := fun _ => h

/-- A monitor that does not search will not come to it before the next
notification. -/
theorem Quiet.monitorStep (hquiet : p.Quiet)
    (h : p.monitorStep file mem = .ok (file', mem', p')) : p'.Quiet := by
  unfold Survivor.monitorStep at h
  split at h
  · cases h
    exact hquiet
  · next key keys hmonitor =>
    obtain ⟨file₁, hfile, h⟩ := Except.bind_eq_ok.mp h
    cases h
    intro hsetup
    cases (hquiet hsetup).symm.trans (searches_iff.mpr ⟨key, keys, hmonitor⟩)
  · cases h
    exact .of_not_searches rfl
  · obtain ⟨⟨mem₁, node₁⟩, _, h⟩ := Except.bind_eq_ok.mp h
    cases h
    exact .of_not_searches rfl
  · cases h
    exact .of_not_searches rfl

end Survivor

/-- **What goes on in the background**: the threads of those who are left, and
what becomes of the file. -/
def backgroundSystem (C : Type) [DecidableEq C] :
    TransitionSystem (Abandoned C) (AbandonedStep C) where
  init _ := True
  step s l s' := ((∃ c, l = .nodeMonitor c ∨ l = .monitor c) ∨ ∃ file, l = .keyFile file)
    ∧ s.Admits l ∧ s.run l = .ok s'

namespace Abandoned

variable {C : Type} {s s' : Abandoned C}

/-- **No process will be thrown at** by its own monitor. -/
def Quiet (s : Abandoned C) : Prop := ∀ c, (s.process c).Quiet

variable [Fintype C]

/-- **All have noticed**: the counts are what the owner held. -/
def Settled (s : Abandoned C) : Prop :=
  (∀ c, (s.process c).setup = false)
    ∧ ∀ i o, s.mem.infos i = some o → o.refCnt = if HasValue s.mem.shmObjMap i then 1 else 0

/-- How far all are from having noticed. -/
def rank (s : Abandoned C) : ℕ := ∑ c, (s.process c).rank + s.file.rank

theorem Inv.settled (h : s.Inv) (hsetup : ∀ c, (s.process c).setup = false) : s.Settled := by
  refine ⟨hsetup, fun i o ho => ?_⟩
  have hnone : referrers s.nodes i = 0 := by
    refine Finset.card_eq_zero.mpr (Finset.filter_eq_empty_iff.mpr fun c _ => ?_)
    rintro ⟨k, r, hk, _⟩
    have hunlisted : (s.nodes c).objList[k]? = none := (h.process c).unlisted (hsetup c) k
    rw [hunlisted] at hk
    cases hk
  rw [h.refCnt ho, hnone]
  exact add_zero _

variable [DecidableEq C] {c : C} {p : Survivor}

/-- One process comes nearer, and the file does not go back. -/
theorem rank_modify_lt {file : KeyFile} {mem : ShmSystemSharedInfo}
    (hp : p.rank < (s.process c).rank) (hfile : file.rank ≤ s.file.rank) :
    (s.modify c file mem p).rank < s.rank :=
  Nat.add_lt_add_of_lt_of_le (sum_update_lt Survivor.rank (Finset.mem_univ c) hp) hfile

omit [Fintype C] in
theorem Quiet.modify {file : KeyFile} {mem : ShmSystemSharedInfo} (h : s.Quiet) (hp : p.Quiet) :
    (s.modify c file mem p).Quiet := by
  intro d
  show (Function.update s.process c p d).Quiet
  by_cases hd : d = c
  · rwa [hd, Function.update_self]
  · rw [Function.update_of_ne hd]
    exact h d

/-- **The threads in the background get on with it.** -/
theorem Quiet.background {l : AbandonedStep C} (h : s.Quiet)
    (hstep : (backgroundSystem C).step s l s') : s'.Quiet ∧ s'.rank < s.rank := by
  obtain ⟨⟨c, rfl | rfl⟩ | ⟨file, rfl⟩, hadm, hrun⟩ := hstep
  · obtain ⟨⟨mem, p⟩, hp, hrun⟩ := Except.bind_eq_ok.mp hrun
    cases hrun
    obtain ⟨hrank, hidle⟩ := Survivor.nodeMonitorStep_settles hadm.1 hadm.2 hp
    exact ⟨h.modify (.of_not_searches (by rw [Survivor.searches, hidle])),
      rank_modify_lt hrank le_rfl⟩
  · obtain ⟨⟨file, mem, p⟩, hp, hrun⟩ := Except.bind_eq_ok.mp hrun
    cases hrun
    obtain ⟨hrank, hfile⟩ := Survivor.rank_monitorStep hadm hp
    exact ⟨h.modify ((h c).monitorStep hp), rank_modify_lt hrank hfile⟩
  · cases hrun
    have hfile : file.rank < s.file.rank := by
      rcases hadm with ⟨hfile, rfl⟩ | ⟨hfile, rfl⟩ <;> rw [hfile] <;> decide
    exact ⟨h, Nat.add_lt_add_left hfile _⟩

omit [Fintype C] [DecidableEq C] in
/-- The monitor of a process that is attached does not search. -/
theorem Quiet.passes (h : s.Quiet) (hsetup : (s.process c).setup = true) :
    s.Passes (.monitor c) := by
  intro d hd
  have hnot : s.searches (.monitor c) = none :=
    if_neg (by rw [h c hsetup]; exact Bool.false_ne_true)
  rw [hnot] at hd
  cases hd

/-- Somebody can go on until all have noticed. -/
theorem Inv.exists_background (h : s.Inv) (hquiet : s.Quiet) (hnot : ¬ s.Settled) :
    ∃ l s', (backgroundSystem C).step s l s' := by
  obtain ⟨c, hc⟩ : ∃ c, (s.process c).setup = true := by
    by_contra hall
    exact hnot (h.settled fun c => Bool.eq_false_iff.mpr fun hc => hall ⟨c, hc⟩)
  by_cases hidle : (s.process c).monitor = .idle
  · obtain ⟨s', hrun, _⟩ := h.nodeMonitor c fun _ => hc
    exact ⟨_, s', .inl ⟨c, .inl rfl⟩, ⟨hidle, fun _ => hc⟩, hrun⟩
  · obtain ⟨s', hrun, _⟩ := h.monitor c (hquiet.passes hc)
    exact ⟨_, s', .inl ⟨c, .inr rfl⟩, hidle, hrun⟩

theorem Inv.background (h : s.Inv) {l : AbandonedStep C}
    (hstep : (backgroundSystem C).step s l s') :
    s'.Inv ∧ s'.mem.shmObjMap = s.mem.shmObjMap := by
  obtain ⟨hl, hadm, hrun⟩ := hstep
  obtain ⟨s₁, hrun₁, hinv, heffect⟩ := h.run hadm
    (by rcases hl with ⟨c, rfl | rfl⟩ | ⟨file, rfl⟩ <;> simp) (passes_of_run hrun)
  rw [hrun] at hrun₁
  cases hrun₁
  exact ⟨hinv, heffect.shmObjMap⟩

/-- **All come to notice it**, in whatever order they go on, and what the owner
had stays as he left it. -/
theorem Inv.settles (h : s.Inv) (hquiet : s.Quiet) :
    (backgroundSystem C).Inevitably
      (fun t => t.Settled ∧ t.mem.shmObjMap = s.mem.shmObjMap) s := by
  refine .of_rank rank (I := fun t => t.Inv ∧ t.Quiet ∧ t.mem.shmObjMap = s.mem.shmObjMap)
    ?_ ?_ ⟨h, hquiet, rfl⟩
  · rintro t ⟨ht, hq, hmap⟩ hnot
    exact ht.exists_background hq fun hsettled => hnot ⟨hsettled, hmap⟩
  · rintro t l t' ⟨ht, hq, hmap⟩ _ hstep
    obtain ⟨ht', hmap'⟩ := ht.background hstep
    obtain ⟨hq', hrank⟩ := hq.background hstep
    exact ⟨⟨ht', hq', hmap'.trans hmap⟩, hrank⟩

end Abandoned

end ShmObjManager
