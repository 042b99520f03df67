import Mathlib.Data.Int.Notation
import Mathlib.Data.Nat.Notation
import Mathlib.Logic.Function.Basic
import Mathlib.Order.Basic
import Std.Data.TreeMap

/-!
# The shared object manager

Objects in the shared memory of a node are found by name. The process that
owns the node keeps `shm_obj_map`, from names to `ObjectInfo`s, in the
shared memory; each process, the owner included, keeps its **retentions**
in its own memory: what the shared pointers given to callers point to, and
what itself points to an `ObjectInfo`. A retention whose object is there is
listed in the `obj_list` of the node, one that waits for its object in the
`obj_removed_list`.

How long an `ObjectInfo` lives is decided by `ref_cnt`, which the owner
holds once and every other process that lists the object once more. An
object destroyed while others still refer to it moves to
`shm_obj_removed_map`, and is released by a later `destroy`, once nobody
refers to it.

Addresses of `ObjectInfo`s, and of retentions, are modelled by the number
of their creation: they are names of objects, and not used again after a
release. Where it matters that a block may be given again, the number is
chosen by who makes the object (`TypedCall.create`). A released `ObjectInfo`
is one that is gone from `infos`; dereferencing a pointer to it is a fault.
The count is an integer here, so that an underflow would show.
-/

/-- How a call of the manager stops without returning. -/
inductive ObjectFault where
  /-- An `ObjectInfo` is dereferenced which has been released. -/
  | released (info : ℕ)
  /-- A null pointer to an `ObjectInfo` is dereferenced. -/
  | nullDeref
  /-- A file is read which could not be mapped. -/
  | mapFailed
  /-- The exception thrown. -/
  | runtimeError (what : String)
deriving DecidableEq, Repr

/-- `std::map` with names as keys. -/
abbrev NameMap (α : Type) : Type := Std.TreeMap String α compare

namespace ShmObjManager

/-! ## Data -/

/-- What the shared memory says about an object: `release_func_addr` is
given as the type whose function it is the address of, a null one as
`none`. -/
structure ObjectInfo where
  refCnt : ℤ
  isDestroy : Bool
  type : String
  createdPid : ℕ
  releaseFuncAddr : Option String
deriving DecidableEq, Repr

/-- The shared memory of a node, as its manager uses it. -/
structure ShmSystemSharedInfo where
  selfPid : ℕ
  shmObjMap : NameMap ℕ
  shmObjRemovedMap : NameMap ℕ
  updateTime : ℕ
  /-- The `ObjectInfo`s that are allocated. -/
  infos : ℕ → Option ObjectInfo
  /-- The number of the next one. -/
  nextInfo : ℕ

/-- `SharedObjectRetentionBase`. Its weak pointers to the shared memory of
the node are set together, when it is attached, and the node outlives them.
`type` is the `T` of a `SharedObjectRetention<T>`, and `none` for the base
class. -/
structure SharedObjectRetention where
  ptr : Option ℕ := none
  attached : Bool := false
  type : Option String := none
deriving DecidableEq, Repr

/-- What a process keeps about a node, and the retentions it has created. -/
structure ExtNodeMapItem where
  objList : NameMap ℕ
  objRemovedList : NameMap ℕ
  retention : ℕ → SharedObjectRetention
  nextRetention : ℕ

/-- A node without objects, owned by process `pid`. -/
def ShmSystemSharedInfo.empty (pid : ℕ) : ShmSystemSharedInfo :=
  ⟨pid, ∅, ∅, 0, fun _ => none, 0⟩

/-- A node nothing is known about. -/
def ExtNodeMapItem.empty : ExtNodeMapItem := ⟨∅, ∅, fun _ => {}, 0⟩

/-! ## Objects and retentions -/

namespace ShmSystemSharedInfo

variable (mem : ShmSystemSharedInfo)

/-- The `ObjectInfo` behind a pointer. -/
def deref (info : ℕ) : Except ObjectFault ObjectInfo :=
  match mem.infos info with
  | some o => .ok o
  | none => .error (.released info)

/-- Write to an `ObjectInfo`. -/
def set (info : ℕ) (o : ObjectInfo) : ShmSystemSharedInfo :=
  { mem with infos := Function.update mem.infos info (some o) }

/-- `ObjectInfo::create`. -/
def create (type : String) (releaseFunc : Option String) : ℕ × ShmSystemSharedInfo :=
  (mem.nextInfo,
    { mem with
      infos := Function.update mem.infos mem.nextInfo
        (some ⟨1, false, type, mem.selfPid, releaseFunc⟩)
      nextInfo := mem.nextInfo + 1 })

/-- Release the object, and `ObjectInfo::destroy`. -/
def destroy (info : ℕ) : ShmSystemSharedInfo :=
  { mem with infos := Function.update mem.infos info none }

end ShmSystemSharedInfo

namespace ExtNodeMapItem

variable (node : ExtNodeMapItem)

/-- Make a retention. -/
def makeShared (type : Option String) (info : Option ℕ) : ℕ × ExtNodeMapItem :=
  (node.nextRetention,
    { node with
      retention := Function.update node.retention node.nextRetention ⟨info, false, type⟩
      nextRetention := node.nextRetention + 1 })

/-- Point a retention to an `ObjectInfo`, and set its weak pointers. -/
def attach (ret info : ℕ) : ExtNodeMapItem :=
  { node with
    retention := Function.update node.retention ret
      { node.retention ret with ptr := some info, attached := true } }

/-- Reset the weak pointers of a retention, and its pointer. -/
def detach (ret : ℕ) : ExtNodeMapItem :=
  { node with
    retention := Function.update node.retention ret
      { node.retention ret with ptr := none, attached := false } }

/-- `use_count()` of a listed retention, of which callers hold `handles`. -/
def useCount (handles ret : ℕ) : ℕ :=
  handles + (node.objList.toList.filter (fun e => e.2 = ret)).length
    + (node.objRemovedList.toList.filter (fun e => e.2 = ret)).length

end ExtNodeMapItem

/-! ## The owner -/

/-- **`create<T>`**, in one section: it holds `node_map_mutex_`, and
`shm_obj_map_mutex` inside it. The second `emplace` of the source cannot
find the name, which it has just looked for. -/
def create (type name : String) (now : ℕ) (mem : ShmSystemSharedInfo) (node : ExtNodeMapItem) :
    Option ℕ × ShmSystemSharedInfo × ExtNodeMapItem :=
  match node.objList[name]? with
  | some ret =>
    -- `dynamic_pointer_cast` to `SharedObjectRetention<T>`
    (if (node.retention ret).type = some type then some ret else none, mem, node)
  | none =>
    match mem.shmObjMap[name]? with
    | some _ => (none, mem, node)
    | none =>
      let (info, mem) := mem.create type (some type)
      let mem := { mem with shmObjMap := mem.shmObjMap.insertIfNew name info, updateTime := now }
      let (ret, node) :=
        match node.objRemovedList[name]? with
        | some ret => (ret, { node with objRemovedList := node.objRemovedList.erase name })
        | none => node.makeShared (some type) (some info)
      let node := node.attach ret info
      (some ret, mem, { node with objList := node.objList.insertIfNew name ret })

/-- **The first section of `destroy<T>`**, under `node_map_mutex_` and `lock_`
of the retention: it is detached, and remembered if callers still hold it. If
nobody else does, `obj_list.erase` frees it with its `lock_`, which is held. -/
def destroyLocal (name : String) (handles : ℕ → ℕ) (node : ExtNodeMapItem) : ExtNodeMapItem :=
  match node.objList[name]? with
  | none => node
  | some ret =>
    let node := node.detach ret
    let removed :=
      if 1 < node.useCount (handles ret) ret then node.objRemovedList.insertIfNew name ret
      else node.objRemovedList
    { node with objList := node.objList.erase name, objRemovedList := removed }

/-- The loop of `clear_shm_obj_remove_map_` over the items of
`shm_obj_removed_map`. -/
def clearLoop : List (String × ℕ) → ShmSystemSharedInfo → Except ObjectFault ShmSystemSharedInfo
  | [], mem => .ok mem
  | (key, info) :: items, mem => do
    let o ← mem.deref info
    if o.refCnt = 0 then
      if o.createdPid ≠ mem.selfPid then
        .error (.runtimeError "release object created by other process")
      else if o.releaseFuncAddr = none then
        .error (.runtimeError "release object has no release function")
      else
        clearLoop items
          { mem.destroy info with shmObjRemovedMap := mem.shmObjRemovedMap.erase key }
    else
      clearLoop items mem

/-- `clear_shm_obj_remove_map_`: release what nobody refers to any more. -/
def clearShmObjRemoveMap (mem : ShmSystemSharedInfo) : Except ObjectFault ShmSystemSharedInfo :=
  clearLoop mem.shmObjRemovedMap.toList mem

/-- Release an object if the last reference is the owner's, or move it to
`shm_obj_removed_map`, under its name and the time. -/
def releaseOrRemove (name : String) (now info : ℕ) (o : ObjectInfo)
    (mem : ShmSystemSharedInfo) : ShmSystemSharedInfo :=
  if o.refCnt = 1 then mem.destroy info
  else
    { mem.set info { o with refCnt := o.refCnt - 1 } with
      updateTime := now
      shmObjRemovedMap := mem.shmObjRemovedMap.insertIfNew (name ++ toString now) info }

/-- **The second section of `destroy<T>`**, under `shm_obj_map_mutex`: the
object is marked, the removed ones are cleared, and it is released itself
unless others refer to it. -/
def destroyShared (name : String) (now : ℕ) (mem : ShmSystemSharedInfo) :
    Except ObjectFault ShmSystemSharedInfo :=
  match mem.shmObjMap[name]? with
  | none => .ok mem
  | some info => do
    let o ← mem.deref info
    let mem ← clearShmObjRemoveMap (mem.set info { o with isDestroy := true })
    let o ← mem.deref info
    let mem := releaseOrRemove name now info o mem
    .ok { mem with shmObjMap := mem.shmObjMap.erase name }

/-! ## Other processes -/

/-- `discovery_ext_map_`: look for a retention there is already. -/
def discoveryExtMap (key : String) (node : ExtNodeMapItem) : Option ℕ :=
  match node.objList[key]? with
  | some ret => some ret
  | none => node.objRemovedList[key]?

/-- **`discovery_shm_`**: look for the object in the shared memory, and have
`ptr`, or a new retention of the base class, refer to it. -/
def discoveryShm (key : String) (ptr : Option ℕ) (mem : ShmSystemSharedInfo)
    (node : ExtNodeMapItem) :
    Except ObjectFault (Option (ℕ × ShmSystemSharedInfo × ExtNodeMapItem)) :=
  match mem.shmObjMap[key]? with
  | none => .ok none
  | some info => do
    let o ← mem.deref info
    let mem := mem.set info { o with refCnt := o.refCnt + 1 }
    let (ret, node) :=
      match ptr with
      | none => node.makeShared none (some info)
      | some ret => (ret, node)
    let node := node.attach ret info
    .ok (some (ret, mem, { node with objList := node.objList.insertIfNew key ret }))

/-- **`discovery<T>`**, under `node_map_mutex_`. -/
def discovery (type key : String) (mem : ShmSystemSharedInfo) (node : ExtNodeMapItem) :
    Except ObjectFault (ℕ × ShmSystemSharedInfo × ExtNodeMapItem) :=
  match discoveryExtMap key node with
  | some ret => .ok (ret, mem, node)
  | none => do
    match ← discoveryShm key none mem node with
    | some found => .ok found
    | none =>
      let (ret, node) := node.makeShared (some type) none
      .ok (ret, mem, { node with objRemovedList := node.objRemovedList.insertIfNew key ret })

/-- The first loop of `inotify_shared_object_monitor_`, at one key of the
`obj_removed_list`: is its object there (again)? -/
def monitorRemoved (key : String) (mem : ShmSystemSharedInfo) (node : ExtNodeMapItem) :
    Except ObjectFault (ShmSystemSharedInfo × ExtNodeMapItem) :=
  match node.objRemovedList[key]? with
  | none => .ok (mem, node)
  | some ret => do
    match ← discoveryShm key (some ret) mem node with
    | some (_, mem, node) =>
      .ok (mem, { node with objRemovedList := node.objRemovedList.erase key })
    | none => .ok (mem, node)

/-- The second loop of `inotify_shared_object_monitor_`, at one key of the
`obj_list`: give up the reference to an object which is destroyed. -/
def monitorListed (key : String) (mem : ShmSystemSharedInfo) (node : ExtNodeMapItem) :
    Except ObjectFault (ShmSystemSharedInfo × ExtNodeMapItem) :=
  match node.objList[key]? with
  | none => .ok (mem, node)
  | some ret =>
    match (node.retention ret).ptr with
    | none => .error .nullDeref
    | some info => do
      let o ← mem.deref info
      if o.isDestroy then
        .ok (mem.set info { o with refCnt := o.refCnt - 1 },
          { node with
            objRemovedList := node.objRemovedList.insertIfNew key ret
            objList := node.objList.erase key })
      else .ok (mem, node)

/-- **`lock_object_`**: whether `func` is run. It dereferences the pointer
of an attached retention, for the mutex and for `is_destroy`. -/
def lockObject (ret : ℕ) (mem : ShmSystemSharedInfo) (node : ExtNodeMapItem) :
    Except ObjectFault Bool :=
  if (node.retention ret).attached then
    match (node.retention ret).ptr with
    | some info => do
      let o ← mem.deref info
      .ok (!o.isDestroy)
    | none => .ok false
  else .ok false

end ShmObjManager
