import CoinData.ObjectReferences
import CoinData.Results

/-!
# The sections of the manager, and references

The invariant of a shared memory and of all processes other than the owner,
and that each section of the manager keeps it. The sections of the owner
change the shared memory (`create_spec`, `Destroyed`), those of another
process change what it keeps, and the count of one object
(`References.take`, `References.give`).
-/

open Maps

namespace ShmObjManager

open ShmSystemSharedInfo ExtNodeMapItem

variable {C : Type} [Fintype C] {mem mem' : ShmSystemSharedInfo} {nodes : C → ExtNodeMapItem}

/-- How many processes refer to an object. -/
def referrers (nodes : C → ExtNodeMapItem) (info : ℕ) : ℕ :=
  (Finset.univ.filter fun c => (nodes c).RefersTo info).card

/-- **The invariant of references**: the count of an object is one if it is
in `shm_obj_map`, and one more for each process which refers to it. -/
structure References (mem : ShmSystemSharedInfo) (nodes : C → ExtNodeMapItem) : Prop where
  sound : mem.Sound
  follows : ∀ c, (nodes c).Follows mem
  count : ∀ i o, mem.infos i = some o →
    o.refCnt = (if HasValue mem.shmObjMap i then 1 else 0) + referrers nodes i

/-- What a process refers to is allocated. -/
theorem References.allocated (h : References mem nodes) {c : C} {i : ℕ}
    (hi : (nodes c).RefersTo i) : ∃ o, mem.infos i = some o := by
  obtain ⟨k, r, hk, hptr⟩ := hi
  obtain ⟨_, _, i', hptr', _, ho⟩ := (h.follows c).listed k r hk
  rw [hptr] at hptr'
  cases hptr'
  exact ho

/-- Nobody refers to an object with no reference but the owner's. -/
theorem References.not_refersTo (h : References mem nodes) {i : ℕ} {o : ObjectInfo}
    (ho : mem.infos i = some o) (hcnt : o.refCnt = if HasValue mem.shmObjMap i then 1 else 0)
    (c : C) : ¬ (nodes c).RefersTo i := by
  have hzero : referrers nodes i = 0 := by
    have := h.count i o ho
    omega
  exact not_holder (p := fun c => (nodes c).RefersTo i) hzero

/-! ## The owner -/

/-- **What `create` does to the shared memory**: nothing, or it puts a new
object under a free name. -/
theorem create_spec (type name : String) (now : ℕ) (mem : ShmSystemSharedInfo)
    (node : ExtNodeMapItem) :
    (create type name now mem node).2.1 = mem
      ∨ mem.shmObjMap[name]? = none
        ∧ (create type name now mem node).2.1 =
          { (mem.create type (some type)).2 with
            shmObjMap := mem.shmObjMap.insertIfNew name mem.nextInfo
            updateTime := now } := by
  unfold create
  cases node.objList[name]? with
  | some ret => exact Or.inl rfl
  | none =>
    cases hmap : mem.shmObjMap[name]? with
    | some info => exact Or.inl rfl
    | none => exact Or.inr ⟨rfl, rfl⟩

/-- **What `create` does to what the owner keeps**, for a name which nothing
has yet: the retention which waits under the name, or else a new one, is
attached to the new object and listed. -/
structure Created (node node' : ExtNodeMapItem) (type name : String) (info r : ℕ) : Prop where
  source : node.objRemovedList[name]? = some r ∧ node'.nextRetention = node.nextRetention
      ∧ (node'.retention r).type = (node.retention r).type
    ∨ node.objRemovedList[name]? = none ∧ r = node.nextRetention
      ∧ node'.nextRetention = node.nextRetention + 1 ∧ (node'.retention r).type = some type
  ptr : (node'.retention r).ptr = some info
  attached : (node'.retention r).attached = true
  others : ∀ r', r' ≠ r → node'.retention r' = node.retention r'
  objList : ∀ k : String, node'.objList[k]? = if k = name then some r else node.objList[k]?
  objRemovedList : ∀ k : String, node'.objRemovedList[k]? =
    if k = name then none else node.objRemovedList[k]?

/-- **`create` of a listed name.** -/
theorem create_listed {node : ExtNodeMapItem} {name : String} {r : ℕ}
    (hname : node.objList[name]? = some r) (type : String) (now : ℕ) :
    create type name now mem node
      = (if (node.retention r).type = some type then some r else none, mem, node) := by
  unfold create
  rw [hname]

/-- **`create` of a name in the shared memory** which the owner does not list. -/
theorem create_mapped {node : ExtNodeMapItem} {name : String} {info : ℕ}
    (hname : node.objList[name]? = none) (hmap : mem.shmObjMap[name]? = some info) (type : String)
    (now : ℕ) : create type name now mem node = (none, mem, node) := by
  unfold create
  rw [hname]
  dsimp only
  rw [hmap]

/-- **`create` of a name which nothing has yet.** -/
theorem create_new {node : ExtNodeMapItem} {name : String} (hname : node.objList[name]? = none)
    (hmap : mem.shmObjMap[name]? = none) (type : String) (now : ℕ) :
    ∃ r node', create type name now mem node = (some r, { (mem.create type (some type)).2 with
        shmObjMap := mem.shmObjMap.insertIfNew name mem.nextInfo
        updateTime := now }, node')
      ∧ Created node node' type name mem.nextInfo r := by
  cases hrem : node.objRemovedList[name]? with
  | some r =>
    refine ⟨r, { (ExtNodeMapItem.attach
        { node with objRemovedList := node.objRemovedList.erase name } r mem.nextInfo) with
        objList := node.objList.insertIfNew name r },
      ?_, Or.inl ⟨hrem, rfl, ?_⟩, ?_, ?_, fun r' hr' => attach_of_ne hr', fun k => ?_, fun k => ?_⟩
    · unfold create
      rw [hname]
      dsimp only
      rw [hmap]
      dsimp only
      rw [hrem]
      rfl
    · exact (congrArg SharedObjectRetention.type (attach_self ..)).trans rfl
    · exact congrArg SharedObjectRetention.ptr (attach_self ..)
    · exact congrArg SharedObjectRetention.attached (attach_self ..)
    · exact insertIfNew_of_none hname r k
    · exact getElem?_erase _ _ _
  | none =>
    refine ⟨node.nextRetention,
      { (ExtNodeMapItem.attach (node.makeShared (some type) (some mem.nextInfo)).2
          node.nextRetention mem.nextInfo) with
        objList := node.objList.insertIfNew name node.nextRetention },
      ?_, Or.inr ⟨hrem, rfl, rfl, ?_⟩, ?_, ?_, fun r' hr' => ?_, fun k => ?_, fun k => ?_⟩
    · unfold create
      rw [hname]
      dsimp only
      rw [hmap]
      dsimp only
      rw [hrem]
      rfl
    · refine (congrArg SharedObjectRetention.type (attach_self ..)).trans ?_
      rw [makeShared_retention, Function.update_self]
    · exact congrArg SharedObjectRetention.ptr (attach_self ..)
    · exact congrArg SharedObjectRetention.attached (attach_self ..)
    · refine (attach_of_ne hr').trans ?_
      rw [makeShared_retention, Function.update_of_ne hr']
    · exact insertIfNew_of_none hname _ k
    · split
      · next hk =>
        rw [hk]
        exact hrem
      · rfl

/-- A retention is kept under a name, in one of the two lists. -/
def ExtNodeMapItem.Holds (node : ExtNodeMapItem) (k : String) (r : ℕ) : Prop :=
  node.objList[k]? = some r ∨ node.objRemovedList[k]? = some r

namespace Created

variable {node node' : ExtNodeMapItem} {type name k : String} {info r r' : ℕ}

theorem nextRetention_le (hc : Created node node' type name info r) :
    node.nextRetention ≤ node'.nextRetention := by
  rcases hc.source with ⟨_, hn, _⟩ | ⟨_, _, hn, _⟩ <;> omega

/-- What goes on waiting has one key. -/
theorem waitingOneKey (hc : Created node node' type name info r)
    (h : OneKey node.objRemovedList) : OneKey node'.objRemovedList := by
  intro k k' r' hk hk'
  rw [hc.objRemovedList] at hk hk'
  split at hk
  · cases hk
  · split at hk'
    · cases hk'
    · exact h k k' r' hk hk'

/-- What has an object goes on being listed. -/
theorem mapped (hc : Created node node' type name info r) {m : NameMap ℕ} {i j : ℕ}
    (hmap : m[name]? = none) (h : ∀ (k : String) i, m[k]? = some i → ∃ r, node.objList[k]? = some r)
    (hk : (m.insertIfNew name j)[k]? = some i) : ∃ r, node'.objList[k]? = some r := by
  rw [insertIfNew_of_none hmap] at hk
  rw [hc.objList k]
  split at hk
  · next hkn => exact ⟨r, if_pos hkn⟩
  · next hkn =>
    obtain ⟨r', hr'⟩ := h k i hk
    exact ⟨r', (if_neg hkn).trans hr'⟩

/-- Every retention is kept under its name: the one which waits under the
new name is listed. -/
theorem holds (hc : Created node node' type name info r) (hname : node.objList[name]? = none)
    (hk : node.Holds k r') : node'.Holds k r' := by
  by_cases hkn : k = name
  · rw [hkn] at hk
    rcases hk with hlist | hwait
    · rw [hname] at hlist
      cases hlist
    · refine Or.inl ?_
      rw [hc.objList k, if_pos hkn]
      rcases hc.source with ⟨hwait', _⟩ | ⟨hnone, _⟩
      · exact hwait'.symm.trans hwait
      · rw [hnone] at hwait
        cases hwait
  · refine hk.imp (fun hlist => ?_) (fun hwait => ?_)
    · rw [hc.objList k, if_neg hkn, hlist]
    · rw [hc.objRemovedList k, if_neg hkn, hwait]

end Created

/-- `create` releases nothing. -/
theorem ShmSystemSharedInfo.Sound.create_allocated (h : mem.Sound) (type name : String)
    (now : ℕ) (node : ExtNodeMapItem) {i : ℕ} (hi : mem.infos i ≠ none) :
    (ShmObjManager.create type name now mem node).2.1.infos i ≠ none := by
  rcases create_spec type name now mem node with heq | ⟨_, heq⟩
  · rw [heq]
    exact hi
  · rw [heq]
    have hne : i ≠ mem.nextInfo := by
      rintro rfl
      exact hi (h.unborn _ le_rfl)
    exact fun hgone => hi ((Function.update_of_ne hne _ _).symm.trans hgone)

/-- The shared memory with a new object, which is in no table, is sound. -/
theorem ShmSystemSharedInfo.Sound.make (h : mem.Sound) (type : String) :
    (mem.create type (some type)).2.Sound := by
  have hold : ∀ i o, mem.infos i = some o →
      Function.update mem.infos mem.nextInfo
        (some ⟨1, false, type, mem.selfPid, some type⟩) i = some o := by
    intro i o ho
    rw [Function.update_of_ne, ho]
    exact (h.lt_nextInfo ho).ne
  constructor
  · intro i hi
    have hlt : mem.nextInfo < i := hi
    show Function.update _ _ _ _ = _
    rw [Function.update_of_ne hlt.ne']
    exact h.unborn i hlt.le
  · intro i o ho
    change Function.update _ _ _ _ = _ at ho
    by_cases hi : i = mem.nextInfo
    · rw [hi, Function.update_self] at ho
      cases ho
      exact ⟨rfl, Option.some_ne_none type⟩
    · rw [Function.update_of_ne hi] at ho
      exact h.created i o ho
  · intro k i hk
    obtain ⟨o, ho, hd⟩ := h.mapped k i hk
    exact ⟨o, hold i o ho, hd⟩
  · intro k i hk
    obtain ⟨o, ho, hd⟩ := h.removed k i hk
    exact ⟨o, hold i o ho, hd⟩
  · exact h.mapOneKey
  · exact h.removedOneKey

/-- The shared memory with a new object under a name is sound. -/
theorem ShmSystemSharedInfo.Sound.create (h : mem.Sound) (type name : String) (now : ℕ) :
    ({ (mem.create type (some type)).2 with
        shmObjMap := mem.shmObjMap.insertIfNew name mem.nextInfo
        updateTime := now } : ShmSystemSharedInfo).Sound := by
  have hmade := h.make type
  refine ⟨hmade.unborn, hmade.created, fun k i hk => ?_, hmade.removed,
    h.mapOneKey.insertIfNew ?_, h.removedOneKey⟩
  · rcases insertIfNew_cases hk with ⟨_, hi, _⟩ | hk
    · rw [hi]
      exact ⟨_, Function.update_self .., rfl⟩
    · exact hmade.mapped k i hk
  · rintro ⟨k, hk⟩
    obtain ⟨o, ho, _⟩ := h.mapped k _ hk
    exact absurd (h.lt_nextInfo ho) (lt_irrefl _)

/-- **`create` keeps the invariant.** -/
theorem References.create (h : References mem nodes) (type name : String) (now : ℕ)
    (node : ExtNodeMapItem) : References (create type name now mem node).2.1 nodes := by
  rcases create_spec type name now mem node with heq | ⟨hname, heq⟩
  · rw [heq]
    exact h
  rw [heq]
  have hnew : mem.infos mem.nextInfo = none := h.sound.unborn _ le_rfl
  have hval : ∀ i, HasValue (mem.shmObjMap.insertIfNew name mem.nextInfo) i
      ↔ i = mem.nextInfo ∨ HasValue mem.shmObjMap i := fun i => hasValue_insertIfNew hname
  refine ⟨h.sound.create type name now, fun c => ?_, fun i o ho => ?_⟩
  · refine (h.follows c).frame (Nat.le_succ _) (fun k i hk => ?_) (fun i hi => ?_)
    · rcases insertIfNew_cases hk with ⟨_, hi, _⟩ | hk
      · exact Or.inr hi.ge
      · exact Or.inl hk
    · obtain ⟨o, ho⟩ := h.allocated hi
      refine ⟨o, (Function.update_of_ne ?_ _ _).trans ho⟩
      rintro rfl
      rw [hnew] at ho
      cases ho
  · change Function.update _ _ _ _ = _ at ho
    show o.refCnt = (if HasValue (mem.shmObjMap.insertIfNew name mem.nextInfo) i then 1 else 0)
      + (referrers nodes i : ℤ)
    by_cases hi : i = mem.nextInfo
    · rw [hi, Function.update_self] at ho
      cases ho
      have hzero : referrers nodes i = 0 := by
        refine Finset.card_eq_zero.mpr (Finset.filter_eq_empty_iff.mpr fun c _ hc => ?_)
        obtain ⟨o, ho⟩ := h.allocated hc
        rw [hi, hnew] at ho
        cases ho
      rw [if_pos ((hval i).mpr (Or.inl hi)), hzero]
      rfl
    · rw [Function.update_of_ne hi] at ho
      rw [h.count i o ho, if_congr ((hval i).trans (or_iff_right hi)) rfl rfl]

/-- **What the first section of `destroy` does** to a name which is listed:
its retention is detached, and waits if callers hold it. -/
theorem destroyLocal_listed {node : ExtNodeMapItem} {name : String} {r : ℕ}
    (hname : node.objList[name]? = some r) (handles : ℕ → ℕ) :
    destroyLocal name handles node = { node.detach r with
      objList := node.objList.erase name
      objRemovedList := if 1 < node.useCount (handles r) r then
        node.objRemovedList.insertIfNew name r else node.objRemovedList } := by
  unfold destroyLocal
  rw [hname]
  rfl

/-- A listed retention which callers hold is used more than once. -/
theorem ExtNodeMapItem.one_lt_useCount {node : ExtNodeMapItem} {name : String} {r n : ℕ}
    (hname : node.objList[name]? = some r) (hn : 0 < n) : 1 < node.useCount n r := by
  have hmem : (name, r) ∈ node.objList.toList.filter (fun e => e.2 = r) :=
    List.mem_filter.mpr ⟨Std.TreeMap.mem_toList_iff_getElem?_eq_some.mpr hname, by simp⟩
  have hpos := List.length_pos_of_mem hmem
  unfold useCount
  omega

section DestroyLocal

variable {node : ExtNodeMapItem} {name k : String} {r : ℕ} {handles : ℕ → ℕ}

/-- The names which are listed once one is destroyed. -/
theorem destroyLocal_objList (name : String) (handles : ℕ → ℕ) (node : ExtNodeMapItem)
    (k : String) : (destroyLocal name handles node).objList[k]? =
      if k = name then none else node.objList[k]? := by
  unfold destroyLocal
  cases hname : node.objList[name]? with
  | none =>
    show node.objList[k]? = _
    by_cases hk : k = name
    · rw [if_pos hk, hk, hname]
    · rw [if_neg hk]
  | some r => exact getElem?_erase _ _ _

/-- The retentions which wait once a name is destroyed. -/
theorem destroyLocal_objRemovedList
    (hk : (destroyLocal name handles node).objRemovedList[k]? = some r) :
    k = name ∧ node.objList[name]? = some r ∨ node.objRemovedList[k]? = some r := by
  cases hname : node.objList[name]? with
  | none =>
    unfold destroyLocal at hk
    rw [hname] at hk
    exact Or.inr hk
  | some r' =>
    rw [destroyLocal_listed hname] at hk
    dsimp only at hk
    split at hk
    · rcases insertIfNew_cases hk with ⟨hkn, hr, _⟩ | hk
      · exact Or.inl ⟨hkn, congrArg some hr.symm⟩
      · exact Or.inr hk
    · exact Or.inr hk

/-- A retention which starts to wait waits under one name. -/
theorem destroyLocal_waitingOneKey (h : OneKey node.objRemovedList)
    (hnot : ∀ (k : String) r, node.objRemovedList[k]? = some r → node.objList[name]? ≠ some r) :
    OneKey (destroyLocal name handles node).objRemovedList := by
  intro k k' r hk hk'
  rcases destroyLocal_objRemovedList hk with ⟨hkn, hr⟩ | hold
  · rcases destroyLocal_objRemovedList hk' with ⟨hkn', _⟩ | hold'
    · exact hkn.trans hkn'.symm
    · exact absurd hr (hnot k' r hold')
  · rcases destroyLocal_objRemovedList hk' with ⟨_, hr⟩ | hold'
    · exact absurd hr (hnot k r hold)
    · exact h k k' r hold hold'

/-- Only the retention of the name which is destroyed changes. -/
theorem destroyLocal_retention (h : node.objList[name]? ≠ some r) :
    (destroyLocal name handles node).retention r = node.retention r := by
  unfold destroyLocal
  cases hname : node.objList[name]? with
  | none => rfl
  | some r' =>
    refine Function.update_of_ne ?_ _ _
    rintro rfl
    exact h hname

/-- **Every retention with handles is kept under its name**: the one which
is listed waits. -/
theorem ExtNodeMapItem.Holds.destroyLocal (hk : node.Holds k r) (hpos : 0 < handles r)
    (hapart : ∀ r', node.objList[name]? = some r' → node.objRemovedList[name]? = none) :
    (destroyLocal name handles node).Holds k r := by
  cases hname : node.objList[name]? with
  | none =>
    unfold ShmObjManager.destroyLocal
    rw [hname]
    exact hk
  | some r' =>
    have hnone := hapart r' hname
    by_cases hkn : k = name
    · rw [hkn] at hk
      rcases hk with hlist | hwait
      · refine Or.inr ?_
        rw [hkn, destroyLocal_listed hlist]
        dsimp only
        rw [if_pos (one_lt_useCount hlist hpos), insertIfNew_of_none hnone, if_pos rfl]
      · rw [hnone] at hwait
        cases hwait
    · rcases hk with hlist | hwait
      · refine Or.inl ?_
        rw [destroyLocal_objList, if_neg hkn, hlist]
      · refine Or.inr ?_
        rw [destroyLocal_listed hname]
        dsimp only
        split
        · rw [insertIfNew_of_none hnone, if_neg hkn, hwait]
        · exact hwait

end DestroyLocal

/-- **What the second section of `destroy` does** to the object of a name:
it leaves `shm_obj_map`, and is released if the owner's reference was the
last one, or remembered as removed; removed objects without references are
released. -/
structure Destroyed (mem mem' : ShmSystemSharedInfo) (name : String) (info : ℕ)
    (o : ObjectInfo) : Prop where
  selfPid : mem'.selfPid = mem.selfPid
  nextInfo : mem'.nextInfo = mem.nextInfo
  shmObjMap : mem'.shmObjMap = mem.shmObjMap.erase name
  kept : ∀ i, i ≠ info → mem'.infos i = mem.infos i
    ∨ mem'.infos i = none ∧ HasValue mem.shmObjRemovedMap i
      ∧ ∃ o, mem.infos i = some o ∧ o.refCnt = 0
  self : o.refCnt = 1 ∧ mem'.infos info = none
    ∨ o.refCnt ≠ 1 ∧ mem'.infos info = some { o with isDestroy := true, refCnt := o.refCnt - 1 }
  removed : ∀ (k : String) i, mem'.shmObjRemovedMap[k]? = some i →
    i = info ∧ o.refCnt ≠ 1
      ∨ i ≠ info ∧ mem.shmObjRemovedMap[k]? = some i ∧ mem'.infos i = mem.infos i
  removedOneKey : OneKey mem'.shmObjRemovedMap
  cleared : ∀ (k : String) i o', mem.shmObjRemovedMap[k]? = some i → mem.infos i = some o' →
    o'.refCnt = 0 → mem'.infos i = none

/-- **How the second section of `destroy` runs**: it marks the object,
clears `shm_obj_removed_map`, in which the object is not, and releases or
removes it. -/
theorem destroyShared_eq (h : mem.Sound) {name : String} {info : ℕ}
    (hname : mem.shmObjMap[name]? = some info) (now : ℕ) :
    ∃ o mem₁, mem.infos info = some o ∧ (∀ k : String, mem.shmObjRemovedMap[k]? ≠ some info)
      ∧ (mem.set info { o with isDestroy := true }).Clearable
      ∧ clearShmObjRemoveMap (mem.set info { o with isDestroy := true }) = .ok mem₁
      ∧ destroyShared name now mem =
        .ok { releaseOrRemove name now info { o with isDestroy := true } mem₁ with
          shmObjMap := (releaseOrRemove name now info { o with isDestroy := true }
            mem₁).shmObjMap.erase name } := by
  obtain ⟨o, ho, hlive⟩ := h.mapped name info hname
  set marked := mem.set info { o with isDestroy := true } with hmarked
  have hinfo : ∀ k : String, mem.shmObjRemovedMap[k]? ≠ some info := by
    intro k hk
    obtain ⟨o', ho', hd⟩ := h.removed k info hk
    exact h.not_mapped ho' hd ⟨name, hname⟩
  have hclear : marked.Clearable := by
    refine ⟨h.removedOneKey, fun k i hk => ?_⟩
    obtain ⟨o', ho', _⟩ := h.removed k i hk
    refine ⟨o', ?_, h.created i o' ho'⟩
    rw [hmarked, set_infos, Function.update_of_ne ?_, ho']
    rintro rfl
    exact hinfo k hk
  obtain ⟨mem₁, heq, hc, -⟩ := clearShmObjRemoveMap_spec hclear
  have hself : mem₁.infos info = some { o with isDestroy := true } := by
    rcases hc.kept info with hk | ⟨_, ⟨k, hk⟩, _⟩
    · rw [hk]
      exact Function.update_self ..
    · exact absurd hk (hinfo k)
  refine ⟨o, mem₁, ho, hinfo, hclear, heq, ?_⟩
  unfold destroyShared
  rw [hname]
  show (mem.deref info >>= _) = _
  rw [deref_of_some ho]
  show (clearShmObjRemoveMap marked >>= _) = _
  rw [heq]
  show (mem₁.deref info >>= _) = _
  rw [deref_of_some hself]
  rfl

/-- **The second section of `destroy` returns.** -/
theorem destroyShared_spec (h : mem.Sound) {name : String} {info : ℕ}
    (hname : mem.shmObjMap[name]? = some info) (now : ℕ) :
    ∃ o mem', mem.infos info = some o ∧ destroyShared name now mem = .ok mem'
      ∧ Destroyed mem mem' name info o := by
  obtain ⟨o, mem₁, ho, hinfo, hclear, heq, hrun⟩ := destroyShared_eq h hname now
  obtain ⟨mem₁', heq', hc, hall⟩ := clearShmObjRemoveMap_spec hclear
  cases heq.symm.trans heq'
  have hother : ∀ i, i ≠ info → (mem.set info { o with isDestroy := true }).infos i = mem.infos i :=
    fun i hi => Function.update_of_ne hi _ _
  have hne : ∀ (k : String) i, mem.shmObjRemovedMap[k]? = some i → i ≠ info := by
    rintro k i hk rfl
    exact hinfo k hk
  have hkept : ∀ i, i ≠ info → mem₁.infos i = mem.infos i
      ∨ mem₁.infos i = none ∧ HasValue mem.shmObjRemovedMap i
        ∧ ∃ o, mem.infos i = some o ∧ o.refCnt = 0 := by
    intro i hi
    have := hc.kept i
    rw [hother i hi] at this
    exact this
  have hrem : ∀ (k : String) i, mem₁.shmObjRemovedMap[k]? = some i →
      i ≠ info ∧ mem.shmObjRemovedMap[k]? = some i ∧ mem₁.infos i = mem.infos i := by
    intro k i hk
    obtain ⟨hk, hi⟩ := hc.removed k i hk
    exact ⟨hne k i hk, hk, hi.trans (hother i (hne k i hk))⟩
  have hone : OneKey mem₁.shmObjRemovedMap := fun k k' i hk hk' =>
    h.removedOneKey k k' i (hrem k i hk).2.1 (hrem k' i hk').2.1
  have hcleared : ∀ (k : String) i o', mem.shmObjRemovedMap[k]? = some i →
      mem.infos i = some o' → o'.refCnt = 0 → mem₁.infos i = none := by
    intro k i o' hk ho' hcnt
    exact hall k i o' hk (by rw [hother i (hne k i hk), ho']) hcnt
  set o' : ObjectInfo := { o with isDestroy := true }
  refine ⟨o, _, ho, hrun, ?_⟩
  by_cases hcnt : o.refCnt = 1
  · rw [releaseOrRemove, if_pos (show o'.refCnt = 1 from hcnt)]
    have hof : ∀ i, i ≠ info → (mem₁.destroy info).infos i = mem₁.infos i :=
      fun i hi => Function.update_of_ne hi _ _
    refine ⟨hc.selfPid, hc.nextInfo, congrArg (·.erase name) hc.shmObjMap, fun i hi => ?_,
      Or.inl ⟨hcnt, Function.update_self ..⟩, fun k i hk => Or.inr ?_, hone, ?_⟩
    · show (mem₁.destroy info).infos i = _ ∨ (mem₁.destroy info).infos i = _ ∧ _
      rw [hof i hi]
      exact hkept i hi
    · obtain ⟨hi, hk, hi'⟩ := hrem k i hk
      exact ⟨hi, hk, (hof i hi).trans hi'⟩
    · intro k i o' hk ho' hcnt'
      exact (hof i (hne k i hk)).trans (hcleared k i o' hk ho' hcnt')
  · rw [releaseOrRemove, if_neg (show o'.refCnt ≠ 1 from hcnt)]
    have hof : ∀ i, i ≠ info →
        (mem₁.set info { o' with refCnt := o'.refCnt - 1 }).infos i
          = mem₁.infos i :=
      fun i hi => Function.update_of_ne hi _ _
    refine ⟨hc.selfPid, hc.nextInfo, congrArg (·.erase name) hc.shmObjMap, fun i hi => ?_,
      Or.inr ⟨hcnt, Function.update_self ..⟩, fun k i hk => ?_, hone.insertIfNew ?_, ?_⟩
    · show (mem₁.set info _).infos i = _ ∨ (mem₁.set info _).infos i = _ ∧ _
      rw [hof i hi]
      exact hkept i hi
    · rcases insertIfNew_cases hk with ⟨_, hi, _⟩ | hk
      · exact Or.inl ⟨hi, hcnt⟩
      · obtain ⟨hi, hk, hi'⟩ := hrem k i hk
        exact Or.inr ⟨hi, hk, (hof i hi).trans hi'⟩
    · rintro ⟨k, hk⟩
      exact (hrem k info hk).1 rfl
    · intro k i o' hk ho' hcnt'
      exact (hof i (hne k i hk)).trans (hcleared k i o' hk ho' hcnt')

/-- **`destroy` releases an object only when nobody refers to it.** -/
theorem Destroyed.not_refersTo {name : String} {info : ℕ} {o : ObjectInfo}
    (hd : Destroyed mem mem' name info o) (h : References mem nodes)
    (hname : mem.shmObjMap[name]? = some info) (ho : mem.infos info = some o) {i : ℕ}
    (hi : mem.infos i ≠ none) (hgone : mem'.infos i = none) (c : C) :
    ¬ (nodes c).RefersTo i := by
  by_cases hne : i = info
  · rw [hne]
    rcases hd.self with ⟨hcnt, _⟩ | ⟨_, hself⟩
    · exact h.not_refersTo ho (by rw [hcnt, if_pos ⟨name, hname⟩]) c
    · rw [hne, hself] at hgone
      cases hgone
  · rcases hd.kept i hne with hk | ⟨_, ⟨k, hk⟩, o', ho', hcnt⟩
    · rw [hk] at hgone
      exact absurd hgone hi
    · obtain ⟨o'', ho'', hdes⟩ := h.sound.removed k i hk
      exact h.not_refersTo ho' (by rw [hcnt, if_neg (h.sound.not_mapped ho'' hdes)]) c

/-- An object that is left by the second section of `destroy` has not
changed, unless it is the one destroyed. -/
theorem Destroyed.infos_of_ne {name : String} {info i : ℕ} {o o' : ObjectInfo}
    (hd : Destroyed mem mem' name info o) (hi : i ≠ info) (ho' : mem'.infos i = some o') :
    mem.infos i = some o' := by
  rcases hd.kept i hi with hk | ⟨hk, _⟩
  · rw [← hk, ho']
  · rw [hk] at ho'
    cases ho'

/-- What is left in `shm_obj_map`. -/
theorem Destroyed.mapped {name : String} {info : ℕ} {o : ObjectInfo}
    (hd : Destroyed mem mem' name info o) (h : mem.Sound) (hname : mem.shmObjMap[name]? = some info)
    {k : String} {i : ℕ} (hk : mem'.shmObjMap[k]? = some i) :
    mem.shmObjMap[k]? = some i ∧ i ≠ info := by
  rw [hd.shmObjMap] at hk
  refine ⟨(erase_some hk).2, ?_⟩
  exact ((hasValue_erase h.mapOneKey hname).mp ⟨k, hk⟩).2

/-- **The second section of `destroy` keeps the tables sound.** -/
theorem Destroyed.sound {name : String} {info : ℕ} {o : ObjectInfo}
    (hd : Destroyed mem mem' name info o) (h : mem.Sound)
    (hname : mem.shmObjMap[name]? = some info) (ho : mem.infos info = some o) : mem'.Sound := by
  constructor
  · intro i hi
    rw [hd.nextInfo] at hi
    have hnone := h.unborn i hi
    have hne : i ≠ info := by
      rintro rfl
      rw [hnone] at ho
      cases ho
    rcases hd.kept i hne with hk | ⟨hk, _⟩
    · rw [hk, hnone]
    · exact hk
  · intro i o' ho'
    rw [hd.selfPid]
    by_cases hi : i = info
    · rcases hd.self with ⟨_, hself⟩ | ⟨_, hself⟩
      · rw [hi, hself] at ho'
        cases ho'
      · rw [hi, hself] at ho'
        cases ho'
        exact h.created info o ho
    · exact h.created i o' (hd.infos_of_ne hi ho')
  · intro k i hk
    obtain ⟨hk, hne⟩ := hd.mapped h hname hk
    obtain ⟨o', ho', hlive⟩ := h.mapped k i hk
    rcases hd.kept i hne with hkept | ⟨_, ⟨k', hk'⟩, _⟩
    · exact ⟨o', by rw [hkept, ho'], hlive⟩
    · obtain ⟨o'', ho'', hdes⟩ := h.removed k' i hk'
      exact absurd ⟨k, hk⟩ (h.not_mapped ho'' hdes)
  · intro k i hk
    rcases hd.removed k i hk with ⟨hi, hcnt⟩ | ⟨_, hk, hi⟩
    · rw [hi]
      rcases hd.self with ⟨hcnt', _⟩ | ⟨_, hself⟩
      · exact absurd hcnt' hcnt
      · exact ⟨_, hself, rfl⟩
    · obtain ⟨o', ho', hdes⟩ := h.removed k i hk
      exact ⟨o', by rw [hi, ho'], hdes⟩
  · rw [hd.shmObjMap]
    exact h.mapOneKey.erase
  · exact hd.removedOneKey

/-- **The second section of `destroy` keeps the invariant.** -/
theorem Destroyed.references {name : String} {info : ℕ} {o : ObjectInfo}
    (hd : Destroyed mem mem' name info o) (h : References mem nodes)
    (hname : mem.shmObjMap[name]? = some info) (ho : mem.infos info = some o) :
    References mem' nodes := by
  have hval : ∀ i, HasValue mem'.shmObjMap i ↔ HasValue mem.shmObjMap i ∧ i ≠ info := by
    intro i
    rw [hd.shmObjMap]
    exact hasValue_erase h.sound.mapOneKey hname
  refine ⟨hd.sound h.sound hname ho, fun c => ?_, fun i o' ho' => ?_⟩
  · refine (h.follows c).frame hd.nextInfo.ge
      (fun k i hk => Or.inl (hd.mapped h.sound hname hk).1) ?_
    intro i hi
    obtain ⟨o', ho'⟩ := h.allocated hi
    cases hgone : mem'.infos i with
    | some o'' => exact ⟨o'', rfl⟩
    | none =>
      have hne : mem.infos i ≠ none := by
        rw [ho']
        exact Option.some_ne_none o'
      exact absurd hi (hd.not_refersTo h hname ho hne hgone c)
  · by_cases hi : i = info
    · rw [hi] at ho' ⊢
      have hnot : ¬ HasValue mem'.shmObjMap info := fun hv => ((hval info).mp hv).2 rfl
      have hcnt := h.count info o ho
      rw [if_pos ⟨name, hname⟩] at hcnt
      rw [if_neg hnot]
      rcases hd.self with ⟨_, hself⟩ | ⟨_, hself⟩
      · rw [hself] at ho'
        cases ho'
      · rw [hself] at ho'
        cases ho'
        show o.refCnt - 1 = _
        omega
    · rw [h.count i o' (hd.infos_of_ne hi ho'),
        if_congr ((hval i).trans (and_iff_left hi)) rfl rfl]

/-! ## Another process -/

variable [DecidableEq C]

/-- Changing what a process keeps, without its references to an object,
leaves the number of referrers. -/
theorem referrers_update {c : C} {node : ExtNodeMapItem} {i : ℕ}
    (h : node.RefersTo i ↔ (nodes c).RefersTo i) :
    referrers (Function.update nodes c node) i = referrers nodes i := by
  unfold referrers
  congr 1
  ext d
  by_cases hd : d = c
  · subst hd
    simp [h]
  · simp [hd]

/-- **A process changes what it keeps, but not its references.** -/
theorem References.update (h : References mem nodes) {c : C} {node : ExtNodeMapItem}
    (hnode : node.Follows mem) (hrefs : ∀ i, node.RefersTo i ↔ (nodes c).RefersTo i) :
    References mem (Function.update nodes c node) := by
  refine ⟨h.sound, fun d => ?_, fun i o ho => ?_⟩
  · by_cases hd : d = c
    · subst hd
      rw [Function.update_self]
      exact hnode
    · rw [Function.update_of_ne hd]
      exact h.follows d
  · rw [referrers_update (hrefs i)]
    exact h.count i o ho

/-- Writing the count of an object keeps the shared memory sound. -/
theorem ShmSystemSharedInfo.Sound.set_refCnt (h : mem.Sound) {info : ℕ} {o : ObjectInfo}
    (ho : mem.infos info = some o) (n : ℤ) : (mem.set info { o with refCnt := n }).Sound := by
  have hold : ∀ i o', mem.infos i = some o' → ∃ m,
      (mem.set info { o with refCnt := n }).infos i = some { o' with refCnt := m } := by
    intro i o' ho'
    by_cases hi : i = info
    · rw [hi, ho] at ho'
      cases ho'
      exact ⟨n, by rw [hi, set_infos, Function.update_self]⟩
    · exact ⟨o'.refCnt, by rw [set_infos, Function.update_of_ne hi, ho']⟩
  constructor
  · intro i hi
    have hnone := h.unborn i hi
    rw [set_infos, Function.update_of_ne, hnone]
    rintro rfl
    rw [hnone] at ho
    cases ho
  · intro i o' ho'
    by_cases hi : i = info
    · rw [hi, set_infos, Function.update_self] at ho'
      cases ho'
      exact h.created info o ho
    · rw [set_infos, Function.update_of_ne hi] at ho'
      exact h.created i o' ho'
  · intro k i hk
    obtain ⟨o', ho', hlive⟩ := h.mapped k i hk
    obtain ⟨m, hm⟩ := hold i o' ho'
    exact ⟨_, hm, hlive⟩
  · intro k i hk
    obtain ⟨o', ho', hdes⟩ := h.removed k i hk
    obtain ⟨m, hm⟩ := hold i o' ho'
    exact ⟨_, hm, hdes⟩
  · exact h.mapOneKey
  · exact h.removedOneKey

/-- Writing the count of an object is nothing to what a process keeps. -/
theorem ExtNodeMapItem.Follows.set_refCnt {node : ExtNodeMapItem} (h : node.Follows mem)
    {info : ℕ} (o : ObjectInfo) : node.Follows (mem.set info o) := by
  refine h.frame le_rfl (fun k i hk => Or.inl hk) ?_
  rintro i ⟨k, r, hk, hptr⟩
  obtain ⟨_, _, i', hptr', _, o', ho'⟩ := h.listed k r hk
  rw [hptr] at hptr'
  cases hptr'
  by_cases hi : i = info
  · exact ⟨o, by rw [hi, set_infos, Function.update_self]⟩
  · exact ⟨o', by rw [set_infos, Function.update_of_ne hi, ho']⟩

/-- A process takes or gives up a reference, and the count follows. -/
theorem References.set_refCnt (h : References mem nodes) {c : C} {node : ExtNodeMapItem}
    {info : ℕ} {o : ObjectInfo} (ho : mem.infos info = some o) {n : ℤ}
    (hnode : node.Follows mem)
    (hrefs : ∀ i, i ≠ info → (node.RefersTo i ↔ (nodes c).RefersTo i))
    (hn : n = o.refCnt - referrers nodes info + referrers (Function.update nodes c node) info) :
    References (mem.set info { o with refCnt := n }) (Function.update nodes c node) := by
  refine ⟨h.sound.set_refCnt ho n, fun d => ?_, fun i o' ho' => ?_⟩
  · by_cases hd : d = c
    · subst hd
      rw [Function.update_self]
      exact hnode.set_refCnt _
    · rw [Function.update_of_ne hd]
      exact (h.follows d).set_refCnt _
  · show o'.refCnt = (if HasValue mem.shmObjMap i then 1 else 0) + _
    by_cases hi : i = info
    · rw [hi, set_infos, Function.update_self] at ho'
      cases ho'
      show n = _
      rw [hn, h.count info o ho, hi]
      omega
    · rw [set_infos, Function.update_of_ne hi] at ho'
      rw [referrers_update (hrefs i hi)]
      exact h.count i o' ho'

/-- **A process takes a reference** it did not have. -/
theorem References.take (h : References mem nodes) {c : C} {node : ExtNodeMapItem}
    {info : ℕ} {o : ObjectInfo} (ho : mem.infos info = some o) (hnode : node.Follows mem)
    (hnot : ¬ (nodes c).RefersTo info)
    (hrefs : ∀ i, node.RefersTo i ↔ i = info ∨ (nodes c).RefersTo i) :
    References (mem.set info { o with refCnt := o.refCnt + 1 })
      (Function.update nodes c node) := by
  have hcard : referrers (Function.update nodes c node) info = referrers nodes info + 1 := by
    refine card_holders_take (p := fun d => (nodes d).RefersTo info) (c := c) hnot ?_ ?_
    · rw [Function.update_self]
      exact (hrefs info).mpr (Or.inl rfl)
    · intro d hd
      rw [Function.update_of_ne hd]
  refine h.set_refCnt ho hnode (fun i hi => (hrefs i).trans (or_iff_right hi)) ?_
  omega

/-- **A process gives up a reference** it had. -/
theorem References.give (h : References mem nodes) {c : C} {node : ExtNodeMapItem}
    {info : ℕ} {o : ObjectInfo} (ho : mem.infos info = some o) (hnode : node.Follows mem)
    (hhad : (nodes c).RefersTo info)
    (hrefs : ∀ i, node.RefersTo i ↔ (nodes c).RefersTo i ∧ i ≠ info) :
    References (mem.set info { o with refCnt := o.refCnt - 1 })
      (Function.update nodes c node) := by
  have hcard : referrers nodes info = referrers (Function.update nodes c node) info + 1 := by
    refine card_holders_take (q := fun d => (nodes d).RefersTo info) (c := c) ?_ hhad ?_
    · rw [Function.update_self]
      exact fun hr => ((hrefs info).mp hr).2 rfl
    · intro d hd
      rw [Function.update_of_ne hd]
  refine h.set_refCnt ho hnode (fun i hi => (hrefs i).trans (and_iff_left hi)) ?_
  omega

/-- A retention that can be locked, and what locking it dereferences. -/
def ExtNodeMapItem.Attached (node : ExtNodeMapItem) (r i : ℕ) : Prop :=
  (node.retention r).attached = true ∧ (node.retention r).ptr = some i

/-- A retention that can be locked has been made. -/
theorem ExtNodeMapItem.Follows.lt_of_attached {node : ExtNodeMapItem} (h : node.Follows mem)
    {r i : ℕ} (hr : node.Attached r i) : r < node.nextRetention := by
  by_contra hge
  obtain ⟨hatt, _⟩ := hr
  rw [h.unmade r (not_lt.mp hge)] at hatt
  cases hatt

/-- **What the sections of another process leave to its callers**: nothing
is released, and retentions are only attached to what is allocated. -/
structure KeepsPointers (mem mem' : ShmSystemSharedInfo) (node node' : ExtNodeMapItem) :
    Prop where
  allocated : ∀ i, mem.infos i ≠ none → mem'.infos i ≠ none
  pointers : ∀ r i, node'.Attached r i → node.Attached r i ∨ mem.infos i ≠ none

theorem KeepsPointers.refl (mem : ShmSystemSharedInfo) (node : ExtNodeMapItem) :
    KeepsPointers mem mem node node :=
  ⟨fun _ h => h, fun _ _ h => Or.inl h⟩

theorem ShmSystemSharedInfo.set_ne_none {info : ℕ} (o : ObjectInfo) {i : ℕ}
    (h : mem.infos i ≠ none) : (mem.set info o).infos i ≠ none := by
  by_cases hi : i = info
  · rw [hi, set_infos, Function.update_self]
    exact Option.some_ne_none o
  · rw [set_infos, Function.update_of_ne hi]
    exact h

/-- Attaching a retention leaves the others. -/
theorem ExtNodeMapItem.attached_attach {node : ExtNodeMapItem} {r info r' i : ℕ}
    (h : (node.attach r info).Attached r' i) : node.Attached r' i ∨ i = info := by
  by_cases hr : r' = r
  · obtain ⟨_, hptr⟩ := h
    rw [hr, attach_self] at hptr
    cases hptr
    exact Or.inr rfl
  · rw [ExtNodeMapItem.Attached, attach_of_ne hr] at h
    exact Or.inl h

/-- A retention that is made is not attached. -/
theorem ExtNodeMapItem.attached_makeShared {node : ExtNodeMapItem} {type : Option String}
    {p : Option ℕ} {r i : ℕ} (h : (node.makeShared type p).2.Attached r i) :
    node.Attached r i := by
  by_cases hr : r = node.nextRetention
  · obtain ⟨hatt, _⟩ := h
    rw [hr, makeShared_retention, Function.update_self] at hatt
    cases hatt
  · rw [ExtNodeMapItem.Attached, makeShared_retention, Function.update_of_ne hr] at h
    exact h

/-- A name which `discovery_ext_map_` does not find has no entry. -/
theorem discoveryExtMap_none {key : String} {node : ExtNodeMapItem}
    (h : discoveryExtMap key node = none) :
    node.objList[key]? = none ∧ node.objRemovedList[key]? = none := by
  unfold discoveryExtMap at h
  cases hlist : node.objList[key]? with
  | some r =>
    rw [hlist] at h
    cases h
  | none =>
    rw [hlist] at h
    exact ⟨rfl, h⟩

/-- `discovery_shm_` fails on a name `shm_obj_map` does not have. -/
theorem discoveryShm_none {key : String} (h : mem.shmObjMap[key]? = none) (ptr : Option ℕ)
    (node : ExtNodeMapItem) : discoveryShm key ptr mem node = .ok none := by
  unfold discoveryShm
  rw [h]

/-- **`discovery_shm_` for a retention there is.** -/
theorem discoveryShm_some {key : String} {info : ℕ} {o : ObjectInfo}
    (h : mem.shmObjMap[key]? = some info) (ho : mem.infos info = some o) (r : ℕ)
    (node : ExtNodeMapItem) :
    discoveryShm key (some r) mem node =
      .ok (some (r, mem.set info { o with refCnt := o.refCnt + 1 },
        { node.attach r info with objList := node.objList.insertIfNew key r })) := by
  unfold discoveryShm
  rw [h]
  show (mem.deref info >>= _) = _
  rw [deref_of_some ho]
  rfl

/-- **`discovery_shm_` with a new retention.** -/
theorem discoveryShm_new {key : String} {info : ℕ} {o : ObjectInfo}
    (h : mem.shmObjMap[key]? = some info) (ho : mem.infos info = some o)
    (node : ExtNodeMapItem) :
    discoveryShm key none mem node =
      .ok (some (node.nextRetention, mem.set info { o with refCnt := o.refCnt + 1 },
        { (node.makeShared none (some info)).2.attach node.nextRetention info with
          objList := node.objList.insertIfNew key node.nextRetention })) := by
  unfold discoveryShm
  rw [h]
  show (mem.deref info >>= _) = _
  rw [deref_of_some ho]
  rfl

/-- `discovery_shm_` does not return for an object that is gone. -/
theorem discoveryShm_gone {key : String} {info : ℕ} (h : mem.shmObjMap[key]? = some info)
    (ho : mem.infos info = none) (ptr : Option ℕ) (node : ExtNodeMapItem) :
    discoveryShm key ptr mem node = .error (.released info) := by
  unfold discoveryShm
  rw [h]
  show (mem.deref info >>= _) = _
  rw [deref, ho]
  rfl

section Cases

variable {node node' : ExtNodeMapItem} {key : String} {r : ℕ}

/-- **What `discovery` can do**: return the retention there is, have a new
one wait, or have it refer to the object. -/
theorem discovery_cases {type : String}
    (h : discovery type key mem node = .ok (r, mem', node')) :
    (discoveryExtMap key node = some r ∧ mem' = mem ∧ node' = node)
    ∨ (discoveryExtMap key node = none ∧ mem.shmObjMap[key]? = none ∧ r = node.nextRetention
      ∧ mem' = mem ∧ node' = { (node.makeShared (some type) none).2 with
          objRemovedList := node.objRemovedList.insertIfNew key node.nextRetention })
    ∨ ∃ info o, discoveryExtMap key node = none ∧ mem.shmObjMap[key]? = some info
      ∧ mem.infos info = some o ∧ r = node.nextRetention
      ∧ mem' = mem.set info { o with refCnt := o.refCnt + 1 }
      ∧ node' = { (node.makeShared none (some info)).2.attach node.nextRetention info with
          objList := node.objList.insertIfNew key node.nextRetention } := by
  unfold discovery at h
  cases hext : discoveryExtMap key node with
  | some ret =>
    rw [hext] at h
    cases h
    exact Or.inl ⟨rfl, rfl, rfl⟩
  | none =>
    rw [hext] at h
    dsimp only at h
    cases hmap : mem.shmObjMap[key]? with
    | none =>
      rw [discoveryShm_none hmap] at h
      cases h
      exact Or.inr (Or.inl ⟨rfl, rfl, rfl, rfl, rfl⟩)
    | some info =>
      cases ho : mem.infos info with
      | none =>
        rw [discoveryShm_gone hmap ho] at h
        cases h
      | some o =>
        rw [discoveryShm_new hmap ho] at h
        cases h
        exact Or.inr (Or.inr ⟨info, o, rfl, rfl, ho, rfl, rfl, rfl⟩)

/-- **What the first loop of the monitor can do at a key**: nothing, where no
retention waits for an object there is, or list the retention which waits. -/
theorem monitorRemoved_cases (h : monitorRemoved key mem node = .ok (mem', node')) :
    ((node.objRemovedList[key]? = none ∨ mem.shmObjMap[key]? = none) ∧ mem' = mem ∧ node' = node)
    ∨ ∃ r info o, node.objRemovedList[key]? = some r ∧ mem.shmObjMap[key]? = some info
      ∧ mem.infos info = some o ∧ mem' = mem.set info { o with refCnt := o.refCnt + 1 }
      ∧ node' = { node.attach r info with
          objList := node.objList.insertIfNew key r
          objRemovedList := node.objRemovedList.erase key } := by
  unfold monitorRemoved at h
  cases hwait : node.objRemovedList[key]? with
  | none =>
    rw [hwait] at h
    cases h
    exact Or.inl ⟨Or.inl rfl, rfl, rfl⟩
  | some r =>
    rw [hwait] at h
    dsimp only at h
    cases hmap : mem.shmObjMap[key]? with
    | none =>
      rw [discoveryShm_none hmap] at h
      cases h
      exact Or.inl ⟨Or.inr rfl, rfl, rfl⟩
    | some info =>
      cases ho : mem.infos info with
      | none =>
        rw [discoveryShm_gone hmap ho] at h
        cases h
      | some o =>
        rw [discoveryShm_some hmap ho] at h
        cases h
        exact Or.inr ⟨r, info, o, rfl, rfl, ho, rfl, rfl⟩

/-- **What the second loop can do at a key**: nothing, where the name is not
listed or its object is not destroyed, or have the retention wait. -/
theorem monitorListed_cases (h : monitorListed key mem node = .ok (mem', node')) :
    (node.objList[key]? = none ∧ mem' = mem ∧ node' = node)
    ∨ ∃ r info o, node.objList[key]? = some r ∧ (node.retention r).ptr = some info
      ∧ mem.infos info = some o
      ∧ ((o.isDestroy = false ∧ mem' = mem ∧ node' = node)
        ∨ o.isDestroy = true ∧ mem' = mem.set info { o with refCnt := o.refCnt - 1 }
          ∧ node' = { node with
              objRemovedList := node.objRemovedList.insertIfNew key r
              objList := node.objList.erase key }) := by
  unfold monitorListed at h
  cases hlist : node.objList[key]? with
  | none =>
    rw [hlist] at h
    cases h
    exact Or.inl ⟨rfl, rfl, rfl⟩
  | some r =>
    rw [hlist] at h
    dsimp only at h
    cases hptr : (node.retention r).ptr with
    | none =>
      rw [hptr] at h
      cases h
    | some info =>
      rw [hptr] at h
      obtain ⟨o, ho, h⟩ := Except.bind_eq_ok.mp h
      refine Or.inr ⟨r, info, o, rfl, hptr, some_of_deref ho, ?_⟩
      split at h
      · next hdes =>
        cases h
        exact Or.inr ⟨hdes, rfl, rfl⟩
      · next hdes =>
        cases h
        exact Or.inl ⟨Bool.not_eq_true _ ▸ hdes, rfl, rfl⟩

end Cases

/-- A retention which is made next is not in a list. -/
theorem ExtNodeMapItem.Follows.not_made {node : ExtNodeMapItem} (h : node.Follows mem) :
    ¬ HasValue node.objList node.nextRetention
      ∧ ¬ HasValue node.objRemovedList node.nextRetention :=
  ⟨fun ⟨k, hk⟩ => absurd (h.listed k _ hk).1 (lt_irrefl _),
    fun ⟨k, hk⟩ => absurd (h.waiting k _ hk) (lt_irrefl _)⟩

/-- **`discovery` returns, and keeps the invariant.** -/
theorem References.discovery (h : References mem nodes) (c : C) (type key : String) :
    ∃ r mem' node', ShmObjManager.discovery type key mem (nodes c) = .ok (r, mem', node')
      ∧ References mem' (Function.update nodes c node')
      ∧ KeepsPointers mem mem' (nodes c) node' := by
  have hf := h.follows c
  cases hext : discoveryExtMap key (nodes c) with
  | some r =>
    refine ⟨r, mem, nodes c, ?_, ?_, KeepsPointers.refl mem _⟩
    · unfold ShmObjManager.discovery
      rw [hext]
    · rw [Function.update_eq_self]
      exact h
  | none =>
    obtain ⟨hkey, hrem⟩ := discoveryExtMap_none hext
    obtain ⟨hnot, hnot'⟩ := hf.not_made
    unfold ShmObjManager.discovery
    rw [hext]
    dsimp only
    cases hmap : mem.shmObjMap[key]? with
    | none =>
      rw [discoveryShm_none hmap]
      have hmade := hf.makeShared (some type) (p := none) (fun i hi => by cases hi)
      refine ⟨_, _, _, rfl, h.update ?_ ?_, fun i hi => hi, fun r i hr => Or.inl ?_⟩
      · exact hmade.await hkey (Nat.lt_succ_self _) hnot hnot'
      · exact fun i => hf.refersTo_makeShared (some type) none
      · exact attached_makeShared hr
    | some info =>
      obtain ⟨o, ho, _⟩ := h.sound.mapped key info hmap
      have hnext := h.sound.lt_nextInfo ho
      have hfresh := hf.not_refersTo hkey hmap
      have hmade := hf.makeShared none (p := some info) (fun i hi => by cases hi; exact hnext)
      rw [discoveryShm_new hmap ho]
      refine ⟨_, _, _, rfl, h.take ho ?_ hfresh ?_, fun i hi => set_ne_none _ hi,
        fun r i hr => ?_⟩
      · refine hmade.enlist hkey (Nat.lt_succ_self _) hnot hmap ⟨o, ho⟩ hnext h.sound.mapOneKey
          (fun k => ?_) (fun k hk => absurd ⟨k, hk⟩ hnot')
        split
        · next hk =>
          rw [hk]
          exact hrem
        · rfl
      · intro i
        rw [← hf.refersTo_makeShared none (some info)]
        exact @refersTo_enlist ((nodes c).makeShared none (some info)).2 key _ info hkey hnot _ i
      · rcases attached_attach hr with hr | hi
        · exact Or.inl (attached_makeShared hr)
        · rw [hi, ho]
          exact Or.inr (Option.some_ne_none o)

/-- **The first loop of the monitor keeps the invariant**: the retention of
an object which is there again is listed. -/
theorem References.monitorRemoved (h : References mem nodes) (c : C) (key : String) :
    ∃ mem' node', ShmObjManager.monitorRemoved key mem (nodes c) = .ok (mem', node')
      ∧ References mem' (Function.update nodes c node')
      ∧ KeepsPointers mem mem' (nodes c) node' := by
  have hf := h.follows c
  have hsame : References mem (Function.update nodes c (nodes c)) := by
    rw [Function.update_eq_self]
    exact h
  cases hrem : (nodes c).objRemovedList[key]? with
  | none =>
    refine ⟨mem, nodes c, ?_, hsame, KeepsPointers.refl mem _⟩
    unfold ShmObjManager.monitorRemoved
    rw [hrem]
  | some r =>
    unfold ShmObjManager.monitorRemoved
    rw [hrem]
    dsimp only
    cases hmap : mem.shmObjMap[key]? with
    | none =>
      rw [discoveryShm_none hmap]
      exact ⟨mem, nodes c, rfl, hsame, KeepsPointers.refl mem _⟩
    | some info =>
      obtain ⟨o, ho, _⟩ := h.sound.mapped key info hmap
      have hnext := h.sound.lt_nextInfo ho
      obtain ⟨hkey, hnot⟩ := hf.not_hasValue hrem
      have hfresh := hf.not_refersTo hkey hmap
      rw [discoveryShm_some hmap ho]
      refine ⟨_, _, rfl, h.take ho ?_ hfresh (fun i => refersTo_enlist hkey hnot),
        fun i hi => set_ne_none _ hi, fun r' i hr => ?_⟩
      · exact hf.enlist hkey (hf.waiting key r hrem) hnot hmap ⟨o, ho⟩ hnext h.sound.mapOneKey
          (fun k => getElem?_erase _ _ _) (fun k hk => hf.waitingOneKey k key r hk hrem)
      · rcases attached_attach hr with hr | hi
        · exact Or.inl hr
        · rw [hi, ho]
          exact Or.inr (Option.some_ne_none o)

/-- **The second loop of the monitor keeps the invariant**: the reference to
an object which is destroyed is given up. -/
theorem References.monitorListed (h : References mem nodes) (c : C) (key : String) :
    ∃ mem' node', ShmObjManager.monitorListed key mem (nodes c) = .ok (mem', node')
      ∧ References mem' (Function.update nodes c node')
      ∧ KeepsPointers mem mem' (nodes c) node' := by
  have hf := h.follows c
  have hsame : References mem (Function.update nodes c (nodes c)) := by
    rw [Function.update_eq_self]
    exact h
  cases hlist : (nodes c).objList[key]? with
  | none =>
    refine ⟨mem, nodes c, ?_, hsame, KeepsPointers.refl mem _⟩
    unfold ShmObjManager.monitorListed
    rw [hlist]
  | some r =>
    obtain ⟨info, o, hptr, hrefs, ho⟩ := hf.refersTo_of_listed hlist
    have hrun : ShmObjManager.monitorListed key mem (nodes c) =
        if o.isDestroy then
          .ok (mem.set info { o with refCnt := o.refCnt - 1 },
            { nodes c with
              objRemovedList := (nodes c).objRemovedList.insertIfNew key r
              objList := (nodes c).objList.erase key })
        else .ok (mem, nodes c) := by
      unfold ShmObjManager.monitorListed
      rw [hlist]
      dsimp only
      rw [hptr]
      show (mem.deref info >>= _) = _
      rw [deref_of_some ho]
      rfl
    rw [hrun]
    by_cases hdes : o.isDestroy = true
    · rw [if_pos hdes]
      have hnot := h.sound.not_mapped ho hdes
      obtain ⟨hr, hv, _⟩ := hf.listed key r hlist
      refine ⟨_, _, rfl, h.give ho ?_ hrefs (fun i => hf.refersTo_delist hlist hptr),
        fun i hi => set_ne_none _ hi, fun r' i hr' => Or.inl hr'⟩
      refine (hf.delist hlist hptr hnot).await ?_ hr ?_ hv
      · show ((nodes c).objList.erase key)[key]? = none
        rw [getElem?_erase, if_pos rfl]
      · rintro ⟨k, hk⟩
        obtain ⟨hne, hk⟩ := erase_some hk
        exact hne (hf.listOneKey k key r hk hlist)
    · rw [if_neg hdes]
      exact ⟨mem, nodes c, rfl, hsame, KeepsPointers.refl mem _⟩

end ShmObjManager
