import CoinData.ObjectSections
import CoinData.Results

/-!
# The names of a node, and their update time

The channel asks the manager of its node two things: whether there is an
object of a given name in `shm_obj_map`, and when the map was updated. Here
the manager is reduced to what these answers depend on. A `create` inserts
the name and then records the time, and holds the mutexes of the manager
meanwhile; `update_time` is atomic, and is read without them. `destroy`
takes the mutexes one after the other, and records the time only if it
cannot release the object.

That the manager does to the names what is said here is `ofManager_create`,
`ofManager_destroyLocal` and `ofManager_destroyShared`.
-/

/-- **What the manager of the node knows of names**: which are in the
`obj_list` of the process, which in `shm_obj_map`, when the latter was
updated, and the name a `create` has just inserted, whose time it has still
to record. -/
structure SharedNames where
  objList : String → Bool
  shmObjMap : String → Bool
  updateTime : ℕ
  creating : Option String

namespace SharedNames

/-- No object was ever created. -/
def empty : SharedNames := ⟨fun _ => false, fun _ => false, 0, none⟩

/-- `create`, until the name is inserted. -/
def insert (m : SharedNames) (name : String) : Option SharedNames :=
  if m.creating = none ∧ m.objList name = false ∧ m.shmObjMap name = false then
    some { m with
      objList := Function.update m.objList name true
      shmObjMap := Function.update m.shmObjMap name true
      creating := some name }
  else none

/-- `create`, when it records the time. Timestamps are strictly
increasing. -/
def record (m : SharedNames) (now : ℕ) : Option SharedNames :=
  if m.creating ≠ none ∧ m.updateTime < now then
    some { m with updateTime := now, creating := none }
  else none

/-- `create` by the thread of the channel, which is the only one to read the
time: a name there is already is left alone. -/
def create (m : SharedNames) (name : String) (now : ℕ) : Option SharedNames :=
  if m.creating ≠ none then none
  else if m.objList name = true ∨ m.shmObjMap name = true then some m
  else (m.insert name).bind fun m => m.record now

/-- The first section of `destroy`. -/
def destroyLocal (m : SharedNames) (name : String) : Option SharedNames :=
  if m.creating = none then some { m with objList := Function.update m.objList name false }
  else none

/-- The second section of `destroy`: the time is recorded if the object is
`referenced`, and so not released. -/
def destroyShared (m : SharedNames) (name : String) (referenced : Bool) (now : ℕ) :
    Option SharedNames :=
  if m.creating ≠ none then none
  else if m.shmObjMap name = true ∧ referenced = true then
    if m.updateTime < now then
      some { m with shmObjMap := Function.update m.shmObjMap name false, updateTime := now }
    else none
  else some { m with shmObjMap := Function.update m.shmObjMap name false }

end SharedNames

/-! ## What a call does to the names -/

namespace SharedNames

variable {m m' : SharedNames} {name : String} {now : ℕ}

theorem create_of_old {m : SharedNames} (hc : m.creating = none)
    (h : m.objList name = true ∨ m.shmObjMap name = true) : m.create name now = some m := by
  unfold SharedNames.create
  rw [if_neg (not_not.mpr hc), if_pos h]

theorem create_of_new {m : SharedNames} (hc : m.creating = none) (hobj : m.objList name = false)
    (hmap : m.shmObjMap name = false) (ht : m.updateTime < now) :
    m.create name now = some
      { objList := Function.update m.objList name true
        shmObjMap := Function.update m.shmObjMap name true
        updateTime := now
        creating := none } := by
  have hold : ¬ (m.objList name = true ∨ m.shmObjMap name = true) := by
    rw [hobj, hmap]
    decide
  unfold SharedNames.create SharedNames.insert SharedNames.record
  rw [if_neg (not_not.mpr hc), if_neg hold, if_pos ⟨hc, hobj, hmap⟩]
  exact if_pos ⟨nofun, ht⟩

theorem insert_cases (h : m.insert name = some m') :
    m.creating = none ∧ m' = { m with
      objList := Function.update m.objList name true
      shmObjMap := Function.update m.shmObjMap name true
      creating := some name } := by
  unfold insert at h
  split at h
  · next hguard =>
    cases h
    exact ⟨hguard.1, rfl⟩
  · cases h

theorem record_cases (h : m.record now = some m') :
    m.updateTime < now ∧ m' = { m with updateTime := now, creating := none } := by
  unfold record at h
  split at h
  · next hguard =>
    cases h
    exact ⟨hguard.2, rfl⟩
  · cases h

theorem destroyLocal_cases (h : m.destroyLocal name = some m') :
    m.creating = none ∧ m' = { m with objList := Function.update m.objList name false } := by
  unfold destroyLocal at h
  split at h
  · next hguard =>
    cases h
    exact ⟨hguard, rfl⟩
  · cases h

theorem create_cases (h : m.create name now = some m') :
    m.creating = none ∧ (m' = m ∨ m.updateTime < now ∧ m' =
      { objList := Function.update m.objList name true
        shmObjMap := Function.update m.shmObjMap name true
        updateTime := now
        creating := none }) := by
  unfold create at h
  split at h
  · cases h
  · next hc =>
    refine ⟨not_not.mp hc, ?_⟩
    split at h
    · cases h
      exact Or.inl rfl
    · obtain ⟨m₁, hins, hrec⟩ := Option.bind_eq_some_iff.mp h
      obtain ⟨_, rfl⟩ := insert_cases hins
      exact Or.inr (record_cases hrec)

/-- `destroy` may or may not record the time. -/
theorem destroyShared_cases {referenced : Bool} (h : m.destroyShared name referenced now = some m') :
    m.creating = none ∧ m'.creating = none ∧ m.updateTime ≤ m'.updateTime
      ∧ m'.shmObjMap = Function.update m.shmObjMap name false := by
  unfold destroyShared at h
  split at h
  · cases h
  · next hc =>
    have hnone : m.creating = none := not_not.mp hc
    split at h
    · split at h
      · next ht =>
        cases h
        exact ⟨hnone, hnone, ht.le, rfl⟩
      · cases h
    · cases h
      exact ⟨hnone, hnone, le_rfl, rfl⟩

/-- **A call of another thread** other than the recording of a time: what is
in the map afterwards was there before, or is just being created. -/
structure Untimed (m m' : SharedNames) : Prop where
  idle : m.creating = none
  time : m.updateTime ≤ m'.updateTime
  names : ∀ name, m'.shmObjMap name = true →
    m.shmObjMap name = true ∨ m'.creating = some name

theorem insert_untimed (h : m.insert name = some m') : m.Untimed m' := by
  obtain ⟨hidle, rfl⟩ := insert_cases h
  refine ⟨hidle, le_rfl, fun name' hname => ?_⟩
  change Function.update m.shmObjMap name true name' = true at hname
  by_cases hn : name' = name
  · exact Or.inr (congrArg some hn.symm)
  · rw [Function.update_of_ne hn] at hname
    exact Or.inl hname

theorem destroyLocal_untimed (h : m.destroyLocal name = some m') : m.Untimed m' := by
  obtain ⟨hidle, rfl⟩ := destroyLocal_cases h
  exact ⟨hidle, le_rfl, fun _ hname => Or.inl hname⟩

theorem destroyShared_untimed {referenced : Bool}
    (h : m.destroyShared name referenced now = some m') : m.Untimed m' := by
  obtain ⟨hidle, _, htime, hmap⟩ := destroyShared_cases h
  refine ⟨hidle, htime, fun name' hname => Or.inl ?_⟩
  rw [hmap] at hname
  by_cases hn : name' = name
  · rw [hn, Function.update_self] at hname
    cases hname
  · rw [Function.update_of_ne hn] at hname
    exact hname

/-- A name whose time has still to be recorded is in the map. -/
def Valid (m : SharedNames) : Prop := ∀ name, m.creating = some name → m.shmObjMap name = true

theorem valid_of_idle (h : m.creating = none) : m.Valid := by
  intro name hname
  cases h.symm.trans hname

theorem insert_valid (h : m.insert name = some m') : m'.Valid := by
  obtain ⟨_, rfl⟩ := insert_cases h
  rintro name' ⟨⟩
  exact Function.update_self ..

/-- A call of the channel itself leaves nothing to record. -/
theorem create_idle (h : m.create name now = some m') : m'.creating = none := by
  obtain ⟨hidle, rfl | ⟨_, rfl⟩⟩ := create_cases h
  · exact hidle
  · rfl

theorem destroyLocal_idle (h : m.destroyLocal name = some m') : m'.creating = none := by
  obtain ⟨hidle, rfl⟩ := destroyLocal_cases h
  exact hidle

/-- `create` returns as soon as nobody else is creating, and removes no
name. -/
theorem exists_create (m : SharedNames) (name : String) (hidle : m.creating = none) :
    ∃ m', m.create name (m.updateTime + 1) = some m'
      ∧ ∀ name', m.shmObjMap name' = true → m'.shmObjMap name' = true := by
  by_cases hold : m.objList name = true ∨ m.shmObjMap name = true
  · exact ⟨m, create_of_old hidle hold, fun _ hname => hname⟩
  · obtain ⟨hobj, hmap⟩ := not_or.mp hold
    refine ⟨_, create_of_new hidle (Bool.eq_false_iff.mpr hobj) (Bool.eq_false_iff.mpr hmap)
      (Nat.lt_succ_self _), fun name' hname => ?_⟩
    show Function.update m.shmObjMap name true name' = true
    by_cases hn : name' = name
    · rw [hn, Function.update_self]
    · rw [Function.update_of_ne hn]
      exact hname

/-! ### Who will hear of a name -/

/-- **A name that is announced** to who knows the update time `t`: if there
is an object of this name, a later time was recorded, or will be for this
name. -/
def Announced (m : SharedNames) (t : ℕ) (name : String) : Prop :=
  m.shmObjMap name = true → t < m.updateTime ∨ m.creating = some name

/-- **A name that is to come**: there is no object of this name, unless its
time has still to be recorded. -/
def ToCome (m : SharedNames) (name : String) : Prop :=
  m.shmObjMap name = true → m.creating = some name

variable {t : ℕ}

theorem ToCome.announced (h : m.ToCome name) : m.Announced t name :=
  fun hname => Or.inr (h hname)

theorem toCome_of_not (h : m.shmObjMap name = false) : m.ToCome name :=
  fun hname => by cases h.symm.trans hname

/-- Nobody is creating the name, so there is none. -/
theorem ToCome.not_mem (h : m.ToCome name) (hidle : m.creating = none) :
    m.shmObjMap name = false := by
  refine Bool.eq_false_iff.mpr fun hname => ?_
  cases hidle.symm.trans (h hname)

theorem ToCome.untimed (h : m.ToCome name) (hm : m.Untimed m') : m'.ToCome name := by
  intro hname
  rcases hm.names name hname with hold | hcreating
  · cases (h.not_mem hm.idle).symm.trans hold
  · exact hcreating

theorem Announced.untimed (h : m.Announced t name) (hm : m.Untimed m') : m'.Announced t name := by
  intro hname
  rcases hm.names name hname with hold | hcreating
  · rcases h hold with hlt | hcreating
    · exact Or.inl (lt_of_lt_of_le hlt hm.time)
    · cases hm.idle.symm.trans hcreating
  · exact Or.inr hcreating

/-- **Recording a time** announces everything to who knows an earlier
one. -/
theorem announced_record (ht : t ≤ m.updateTime) (h : m.record now = some m') :
    t < m'.updateTime ∧ ∀ name, m'.Announced t name := by
  obtain ⟨hlt, rfl⟩ := record_cases h
  have htime : t < now := lt_of_le_of_lt ht hlt
  exact ⟨htime, fun _ _ => Or.inl htime⟩

/-- **Recording the time of another name** leaves a name to come. -/
theorem ToCome.record (h : m.ToCome name) (hne : m.creating ≠ some name)
    (hr : m.record now = some m') : m'.ToCome name := by
  obtain ⟨_, rfl⟩ := record_cases hr
  exact fun hname => absurd (h hname) hne

/-- A `create` of the channel itself. -/
theorem Announced.create {other : String} (h : m.Announced t name) (ht : t ≤ m.updateTime)
    (hc : m.create other now = some m') : t ≤ m'.updateTime ∧ m'.Announced t name := by
  obtain ⟨_, rfl | ⟨hlt, rfl⟩⟩ := create_cases hc
  · exact ⟨ht, h⟩
  · have htime : t < now := lt_of_le_of_lt ht hlt
    exact ⟨htime.le, fun _ => Or.inl htime⟩

theorem ToCome.create {other : String} (h : m.ToCome name) (hne : name ≠ other)
    (hc : m.create other now = some m') : m'.ToCome name := by
  obtain ⟨hidle, rfl | ⟨_, rfl⟩⟩ := create_cases hc
  · exact h
  · refine toCome_of_not ?_
    show Function.update m.shmObjMap other true name = false
    rw [Function.update_of_ne hne]
    exact h.not_mem hidle

end SharedNames

/-! ## The manager and its names -/

namespace SharedNames

variable {mem mem' : ShmObjManager.ShmSystemSharedInfo} {node : ShmObjManager.ExtNodeMapItem}
variable {name : String} {now : ℕ}

/-- The names the manager of a node has, while no `create` is under way. -/
def ofManager (mem : ShmObjManager.ShmSystemSharedInfo) (node : ShmObjManager.ExtNodeMapItem) :
    SharedNames where
  objList name := (node.objList[name]?).isSome
  shmObjMap name := (mem.shmObjMap[name]?).isSome
  updateTime := mem.updateTime
  creating := none

/-- What is said of the names after an insertion. -/
theorem isSome_of_insert {m m' : NameMap ℕ} {v : ℕ}
    (h : ∀ k : String, m'[k]? = if k = name then some v else m[k]?) :
    (fun k : String => (m'[k]?).isSome)
      = Function.update (fun k : String => (m[k]?).isSome) name true := by
  funext k
  rw [h]
  by_cases hk : k = name
  · rw [if_pos hk, hk, Function.update_self]
    rfl
  · rw [if_neg hk, Function.update_of_ne hk]

theorem isSome_erase (m : NameMap ℕ) (name : String) :
    (fun k : String => ((m.erase name)[k]?).isSome)
      = Function.update (fun k : String => (m[k]?).isSome) name false := by
  funext k
  rw [Maps.getElem?_erase]
  by_cases hk : k = name
  · rw [if_pos hk, hk, Function.update_self]
    rfl
  · rw [if_neg hk, Function.update_of_ne hk]

theorem destroyShared_of_not {m : SharedNames} {referenced : Bool} (hc : m.creating = none)
    (h : m.shmObjMap name = false ∨ referenced = false) :
    m.destroyShared name referenced now
      = some { m with shmObjMap := Function.update m.shmObjMap name false } := by
  unfold SharedNames.destroyShared
  rw [if_neg (not_not.mpr hc), if_neg]
  rintro ⟨hmap, href⟩
  rcases h with h | h
  · cases hmap.symm.trans h
  · cases href.symm.trans h

theorem destroyShared_of_mem {m : SharedNames} (hc : m.creating = none)
    (hmap : m.shmObjMap name = true) (ht : m.updateTime < now) :
    m.destroyShared name true now = some { m with
      shmObjMap := Function.update m.shmObjMap name false, updateTime := now } := by
  unfold SharedNames.destroyShared
  rw [if_neg (not_not.mpr hc), if_pos ⟨hmap, rfl⟩, if_pos ht]

/-- **`create`** does to the names what the channel relies on. -/
theorem ofManager_create (type : String) (ht : mem.updateTime < now) :
    (ofManager mem node).create name now
      = some (ofManager (ShmObjManager.create type name now mem node).2.1
          (ShmObjManager.create type name now mem node).2.2) := by
  cases hlist : node.objList[name]? with
  | some ret =>
    rw [ShmObjManager.create_listed hlist]
    exact create_of_old rfl (Or.inl (congrArg Option.isSome hlist))
  | none =>
    cases hmap : mem.shmObjMap[name]? with
    | some info =>
      rw [ShmObjManager.create_mapped hlist hmap]
      exact create_of_old rfl (Or.inr (congrArg Option.isSome hmap))
    | none =>
      obtain ⟨r, node', hcreate, hcreated⟩ := ShmObjManager.create_new hlist hmap type now
      have hobj := isSome_of_insert hcreated.objList
      have hshm := isSome_of_insert (Maps.insertIfNew_of_none hmap mem.nextInfo)
      rw [hcreate, create_of_new rfl (congrArg Option.isSome hlist) (congrArg Option.isSome hmap) ht]
      unfold ofManager
      rw [← hobj, ← hshm]

/-- **The first section of `destroy`.** -/
theorem ofManager_destroyLocal (handles : ℕ → ℕ) :
    (ofManager mem node).destroyLocal name
      = some (ofManager mem (ShmObjManager.destroyLocal name handles node)) := by
  have hdestroy : (ofManager mem node).destroyLocal name = some { ofManager mem node with
      objList := Function.update (fun k : String => (node.objList[k]?).isSome) name false } := rfl
  rw [hdestroy]
  cases hlist : node.objList[name]? with
  | none =>
    have hlocal : ShmObjManager.destroyLocal name handles node = node := by
      unfold ShmObjManager.destroyLocal
      rw [hlist]
    rw [hlocal, Function.update_eq_self_iff.mpr (congrArg Option.isSome hlist).symm]
    rfl
  | some ret =>
    rw [ShmObjManager.destroyLocal_listed hlist, ← isSome_erase]
    rfl

/-- Clearing the removed objects leaves the names as they are. -/
theorem clearLoop_names {items : List (String × ℕ)}
    (h : ShmObjManager.clearLoop items mem = .ok mem') :
    mem'.shmObjMap = mem.shmObjMap ∧ mem'.updateTime = mem.updateTime := by
  induction items generalizing mem with
  | nil =>
    cases h
    exact ⟨rfl, rfl⟩
  | cons e items ih =>
    obtain ⟨key, info⟩ := e
    rw [ShmObjManager.clearLoop] at h
    obtain ⟨o, _, h⟩ := Except.bind_eq_ok.mp h
    split at h
    · split at h
      · cases h
      · split at h
        · cases h
        · have hrest : ShmObjManager.clearLoop items { mem.destroy info with
              shmObjRemovedMap := mem.shmObjRemovedMap.erase key } = .ok mem' := h
          have hnames := ih hrest
          exact hnames
    · exact ih h

/-- **The second section of `destroy`.** -/
theorem ofManager_destroyShared (h : ShmObjManager.destroyShared name now mem = .ok mem')
    (ht : mem.updateTime < now) :
    ∃ referenced, (ofManager mem node).destroyShared name referenced now
      = some (ofManager mem' node) := by
  unfold ShmObjManager.destroyShared at h
  cases hmap : mem.shmObjMap[name]? with
  | none =>
    rw [hmap] at h
    cases h
    refine ⟨false, ?_⟩
    rw [destroyShared_of_not rfl (Or.inr rfl)]
    show some { ofManager mem node with
      shmObjMap := Function.update (fun k : String => (mem.shmObjMap[k]?).isSome) name false } = _
    rw [Function.update_eq_self_iff.mpr (congrArg Option.isSome hmap).symm]
    rfl
  | some info =>
    rw [hmap] at h
    obtain ⟨o, _, h⟩ := Except.bind_eq_ok.mp h
    obtain ⟨mem₁, hclear, h⟩ := Except.bind_eq_ok.mp h
    obtain ⟨o', _, h⟩ := Except.bind_eq_ok.mp h
    obtain ⟨hnames, htime⟩ := clearLoop_names hclear
    change mem₁.shmObjMap = mem.shmObjMap at hnames
    change mem₁.updateTime = mem.updateTime at htime
    cases h
    have hmap' : (ofManager mem node).shmObjMap name = true := congrArg Option.isSome hmap
    unfold ShmObjManager.releaseOrRemove
    by_cases hone : o'.refCnt = 1
    · refine ⟨false, ?_⟩
      rw [destroyShared_of_not rfl (Or.inr rfl), if_pos hone]
      show _ = some { ofManager mem node with
        shmObjMap := fun k : String => ((mem₁.shmObjMap.erase name)[k]?).isSome
        updateTime := mem₁.updateTime }
      rw [hnames, htime, isSome_erase]
      rfl
    · refine ⟨true, ?_⟩
      rw [destroyShared_of_mem rfl hmap' ht, if_neg hone]
      show _ = some { ofManager mem node with
        shmObjMap := fun k : String => ((mem₁.shmObjMap.erase name)[k]?).isSome
        updateTime := now }
      rw [hnames, isSome_erase]
      rfl

end SharedNames
