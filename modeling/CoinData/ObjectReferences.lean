import CoinData.Maps
import CoinData.ObjectManager
import Mathlib.Tactic.Common
import Mathlib.Tactic.Set

/-!
# Who refers to a shared object

A process **refers to** an `ObjectInfo` as long as the `obj_list` of the
node has a retention pointing to it. `References` is the invariant of the
shared memory of a node and of what the other processes keep about it: its
centre is that `ref_cnt` counts the owner, while the object is in
`shm_obj_map`, and the processes which refer to it. Each section of the
manager keeps it.

What one process keeps (`Follows`) depends on the shared memory only
through the objects the process refers to, and through `shm_obj_map`; so it
survives the sections of all others (`Follows.frame`), and only the section
at hand has to be looked at.
-/

open Maps

namespace ShmObjManager

/-! ## The shared memory -/

namespace ShmSystemSharedInfo

variable {mem mem' : ShmSystemSharedInfo} {info : ℕ} {o : ObjectInfo}

theorem deref_of_some (h : mem.infos info = some o) : mem.deref info = .ok o := by
  unfold deref
  rw [h]

theorem some_of_deref (h : mem.deref info = .ok o) : mem.infos info = some o := by
  unfold deref at h
  split at h
  · next ho =>
    cases h
    exact ho
  · cases h

@[simp] theorem set_infos (mem : ShmSystemSharedInfo) (info : ℕ) (o : ObjectInfo) :
    (mem.set info o).infos = Function.update mem.infos info (some o) := rfl

@[simp] theorem destroy_infos (mem : ShmSystemSharedInfo) (info : ℕ) :
    (mem.destroy info).infos = Function.update mem.infos info none := rfl

/-- What holds of the tables of a shared memory: objects in them are
allocated, no object is in one twice, and those in `shm_obj_map` are the
ones not destroyed. -/
structure Sound (mem : ShmSystemSharedInfo) : Prop where
  unborn : ∀ i, mem.nextInfo ≤ i → mem.infos i = none
  created : ∀ i o, mem.infos i = some o →
    o.createdPid = mem.selfPid ∧ o.releaseFuncAddr ≠ none
  mapped : ∀ (k : String) i, mem.shmObjMap[k]? = some i → ∃ o, mem.infos i = some o ∧ o.isDestroy = false
  removed : ∀ (k : String) i, mem.shmObjRemovedMap[k]? = some i →
    ∃ o, mem.infos i = some o ∧ o.isDestroy = true
  mapOneKey : OneKey mem.shmObjMap
  removedOneKey : OneKey mem.shmObjRemovedMap

/-- A destroyed object is not found by name. -/
theorem Sound.not_mapped (h : mem.Sound) (ho : mem.infos info = some o)
    (hd : o.isDestroy = true) : ¬ HasValue mem.shmObjMap info := by
  rintro ⟨k, hk⟩
  obtain ⟨o', ho', hd'⟩ := h.mapped k info hk
  rw [ho] at ho'
  cases ho'
  rw [hd] at hd'
  cases hd'

/-- What is allocated has been created. -/
theorem Sound.lt_nextInfo (h : mem.Sound) (ho : mem.infos info = some o) :
    info < mem.nextInfo := by
  by_contra hge
  rw [h.unborn info (not_lt.mp hge)] at ho
  cases ho

/-- **What clearing `shm_obj_removed_map` does**: objects which are in it
and without references are released, and nothing else is touched. -/
structure Cleared (mem mem' : ShmSystemSharedInfo) : Prop where
  selfPid : mem'.selfPid = mem.selfPid
  shmObjMap : mem'.shmObjMap = mem.shmObjMap
  nextInfo : mem'.nextInfo = mem.nextInfo
  kept : ∀ i, mem'.infos i = mem.infos i
    ∨ mem'.infos i = none ∧ HasValue mem.shmObjRemovedMap i
      ∧ ∃ o, mem.infos i = some o ∧ o.refCnt = 0
  removed : ∀ (k : String) i, mem'.shmObjRemovedMap[k]? = some i →
    mem.shmObjRemovedMap[k]? = some i ∧ mem'.infos i = mem.infos i

theorem Cleared.refl (mem : ShmSystemSharedInfo) : Cleared mem mem :=
  ⟨rfl, rfl, rfl, fun _ => Or.inl rfl, fun _ _ h => ⟨h, rfl⟩⟩

/-- What clearing needs: objects in `shm_obj_removed_map` are allocated,
once, by the owner. -/
structure Clearable (mem : ShmSystemSharedInfo) : Prop where
  oneKey : OneKey mem.shmObjRemovedMap
  created : ∀ (k : String) i, mem.shmObjRemovedMap[k]? = some i →
    ∃ o, mem.infos i = some o ∧ o.createdPid = mem.selfPid ∧ o.releaseFuncAddr ≠ none

/-- **The loop of `clear_shm_obj_remove_map_`** returns, and leaves no item
which it has passed without references. -/
theorem clearLoop_spec (items : List (String × ℕ)) (mem : ShmSystemSharedInfo)
    (h : mem.Clearable) (hmem : ∀ e ∈ items, mem.shmObjRemovedMap[e.1]? = some e.2)
    (hne : items.Pairwise (fun a b => a.1 ≠ b.1)) :
    ∃ mem', clearLoop items mem = .ok mem' ∧ Cleared mem mem'
      ∧ ∀ e ∈ items, ∀ o, mem.infos e.2 = some o → o.refCnt = 0 → mem'.infos e.2 = none := by
  induction items generalizing mem with
  | nil => exact ⟨mem, rfl, Cleared.refl mem, fun e he => by cases he⟩
  | cons e items ih =>
    obtain ⟨key, info⟩ := e
    have hkey : mem.shmObjRemovedMap[key]? = some info := hmem _ (List.mem_cons_self ..)
    have htail : ∀ e ∈ items, mem.shmObjRemovedMap[e.1]? = some e.2 :=
      fun e he => hmem e (List.mem_cons_of_mem _ he)
    obtain ⟨hhead, hne⟩ := List.pairwise_cons.mp hne
    obtain ⟨o, ho, hpid, hfun⟩ := h.created key info hkey
    have hbind : clearLoop ((key, info) :: items) mem =
        if o.refCnt = 0 then
          clearLoop items
            { mem.destroy info with shmObjRemovedMap := mem.shmObjRemovedMap.erase key }
        else clearLoop items mem := by
      rw [clearLoop, deref_of_some ho]
      show (if o.refCnt = 0 then _ else _) = _
      rw [if_neg (not_not.mpr hpid), if_neg hfun]
    rw [hbind]
    by_cases hcnt : o.refCnt = 0
    · rw [if_pos hcnt]
      set mem₁ : ShmSystemSharedInfo :=
        { mem.destroy info with shmObjRemovedMap := mem.shmObjRemovedMap.erase key } with hmem₁
      have hinfos : ∀ i, i ≠ info → mem₁.infos i = mem.infos i :=
        fun i hi => Function.update_of_ne hi _ _
      have hself : mem₁.infos info = none := Function.update_self ..
      have hold : ∀ (k : String) i, mem₁.shmObjRemovedMap[k]? = some i →
          mem.shmObjRemovedMap[k]? = some i ∧ i ≠ info := by
        intro k i hk
        obtain ⟨hne, hold⟩ := erase_some hk
        refine ⟨hold, fun hi => hne (h.oneKey k key i hold ?_)⟩
        rw [hi, hkey]
      have hclear : mem₁.Clearable := by
        refine ⟨h.oneKey.erase, fun k i hk => ?_⟩
        obtain ⟨hk, hi⟩ := hold k i hk
        rw [hinfos i hi]
        exact h.created k i hk
      have hmem' : ∀ e ∈ items, mem₁.shmObjRemovedMap[e.1]? = some e.2 := by
        intro e he
        show (mem.shmObjRemovedMap.erase key)[e.1]? = some e.2
        rw [getElem?_erase, if_neg (Ne.symm (hhead e he)), htail e he]
      obtain ⟨mem', heq, hc, hall⟩ := ih mem₁ hclear hmem' hne
      have hgone : mem'.infos info = none := by
        rcases hc.kept info with hk | ⟨hk, _⟩
        · rw [hk, hself]
        · exact hk
      refine ⟨mem', heq, ⟨hc.selfPid, hc.shmObjMap, hc.nextInfo, fun i => ?_, fun k i hk => ?_⟩, ?_⟩
      · by_cases hi : i = info
        · subst hi
          exact Or.inr ⟨hgone, ⟨key, hkey⟩, o, ho, hcnt⟩
        · rcases hc.kept i with hk | ⟨hk, ⟨k, hv⟩, hcnt'⟩
          · exact Or.inl (hk.trans (hinfos i hi))
          · rw [hinfos i hi] at hcnt'
            exact Or.inr ⟨hk, ⟨k, (hold k i hv).1⟩, hcnt'⟩
      · obtain ⟨hk, hi⟩ := hc.removed k i hk
        obtain ⟨hk, hne'⟩ := hold k i hk
        exact ⟨hk, hi.trans (hinfos i hne')⟩
      · intro e he o' ho' hcnt'
        rcases List.mem_cons.mp he with rfl | he
        · exact hgone
        · refine hall e he o' ?_ hcnt'
          rw [hinfos e.2 (hold e.1 e.2 (hmem' e he)).2, ho']
    · rw [if_neg hcnt]
      obtain ⟨mem', heq, hc, hall⟩ := ih mem h htail hne
      refine ⟨mem', heq, hc, fun e he o' ho' hcnt' => ?_⟩
      rcases List.mem_cons.mp he with rfl | he
      · rw [ho] at ho'
        cases ho'
        exact absurd hcnt' hcnt
      · exact hall e he o' ho' hcnt'

/-- **`clear_shm_obj_remove_map_` releases** the removed objects without
references, and does not throw. -/
theorem clearShmObjRemoveMap_spec (h : mem.Clearable) :
    ∃ mem', clearShmObjRemoveMap mem = .ok mem' ∧ Cleared mem mem'
      ∧ ∀ (k : String) i o, mem.shmObjRemovedMap[k]? = some i → mem.infos i = some o → o.refCnt = 0 →
        mem'.infos i = none := by
  have hne : mem.shmObjRemovedMap.toList.Pairwise (fun a b => a.1 ≠ b.1) := by
    refine List.Pairwise.imp ?_ Std.TreeMap.distinct_keys_toList
    intro a b hab heq
    exact hab (Std.LawfulEqOrd.compare_eq_iff_eq.mpr heq)
  obtain ⟨mem', heq, hc, hall⟩ := clearLoop_spec mem.shmObjRemovedMap.toList mem h
    (fun e he => Std.TreeMap.mem_toList_iff_getElem?_eq_some.mp he) hne
  refine ⟨mem', heq, hc, fun k i o hk ho hcnt => ?_⟩
  exact hall (k, i) (Std.TreeMap.mem_toList_iff_getElem?_eq_some.mpr hk) o ho hcnt

end ShmSystemSharedInfo

/-! ## One process -/

namespace ExtNodeMapItem

variable {node : ExtNodeMapItem} {mem mem' : ShmSystemSharedInfo}

/-- **A process refers to an object** if its `obj_list` has a retention
pointing to it. -/
def RefersTo (node : ExtNodeMapItem) (info : ℕ) : Prop :=
  ∃ (k : String) (r : ℕ), node.objList[k]? = some r ∧ (node.retention r).ptr = some info

instance (node : ExtNodeMapItem) (info : ℕ) : Decidable (node.RefersTo info) :=
  decidable_of_iff (∃ e ∈ node.objList.toList, (node.retention e.2).ptr = some info) (by
    constructor
    · rintro ⟨e, he, hptr⟩
      exact ⟨e.1, e.2, Std.TreeMap.mem_toList_iff_getElem?_eq_some.mp he, hptr⟩
    · rintro ⟨k, r, hk, hptr⟩
      exact ⟨(k, r), Std.TreeMap.mem_toList_iff_getElem?_eq_some.mpr hk, hptr⟩)

/-- What a process other than the owner keeps about the node: the two lists
have no key and no retention in common, the listed retentions point to
different objects, which are allocated, and if `shm_obj_map` has such an
object, then under the same name. -/
structure Follows (node : ExtNodeMapItem) (mem : ShmSystemSharedInfo) : Prop where
  keysApart : ∀ (k : String) r, node.objList[k]? = some r → node.objRemovedList[k]? = none
  listed : ∀ (k : String) r, node.objList[k]? = some r →
    r < node.nextRetention ∧ ¬ HasValue node.objRemovedList r
      ∧ ∃ i, (node.retention r).ptr = some i ∧ (node.retention r).attached = true
        ∧ ∃ o, mem.infos i = some o
  waiting : ∀ (k : String) r, node.objRemovedList[k]? = some r → r < node.nextRetention
  waitingOneKey : OneKey node.objRemovedList
  oneEntry : ∀ (k k' : String) r r' i, node.objList[k]? = some r → node.objList[k']? = some r' →
    (node.retention r).ptr = some i → (node.retention r').ptr = some i → k = k'
  sameKey : ∀ (k k' : String) r i, node.objList[k]? = some r → (node.retention r).ptr = some i →
    mem.shmObjMap[k']? = some i → k' = k
  known : ∀ r i, (node.retention r).ptr = some i → i < mem.nextInfo
  backed : ∀ r i, (node.retention r).attached = true → (node.retention r).ptr = some i →
    HasValue mem.shmObjMap i → HasValue node.objList r
  unmade : ∀ r, node.nextRetention ≤ r → (node.retention r).attached = false

/-- What waits under a key is not listed, and nothing is listed under the key. -/
theorem Follows.not_hasValue (h : node.Follows mem) {key : String} {r : ℕ}
    (hrem : node.objRemovedList[key]? = some r) :
    node.objList[key]? = none ∧ ¬ HasValue node.objList r := by
  constructor
  · cases hk : node.objList[key]? with
    | none => rfl
    | some r' =>
      rw [h.keysApart key r' hk] at hrem
      cases hrem
  · rintro ⟨k, hk⟩
    exact (h.listed k r hk).2.1 ⟨key, hrem⟩

/-- **What a process keeps survives the sections of others**: objects it
refers to stay allocated, and `shm_obj_map` only gains objects which are
new. -/
theorem Follows.frame (h : node.Follows mem) (hnext : mem.nextInfo ≤ mem'.nextInfo)
    (hmap : ∀ (k : String) i, mem'.shmObjMap[k]? = some i →
      mem.shmObjMap[k]? = some i ∨ mem.nextInfo ≤ i)
    (hlive : ∀ i, node.RefersTo i → ∃ o, mem'.infos i = some o) : node.Follows mem' where
  keysApart := h.keysApart
  listed k r hk := by
    obtain ⟨hr, hv, i, hptr, hatt, _⟩ := h.listed k r hk
    exact ⟨hr, hv, i, hptr, hatt, hlive i ⟨k, r, hk, hptr⟩⟩
  waiting := h.waiting
  waitingOneKey := h.waitingOneKey
  oneEntry := h.oneEntry
  sameKey k k' r i hk hptr hm := by
    rcases hmap k' i hm with hm | hi
    · exact h.sameKey k k' r i hk hptr hm
    · exact absurd (h.known r i hptr) (not_lt.mpr hi)
  known r i hptr := lt_of_lt_of_le (h.known r i hptr) hnext
  backed r i hatt hptr hv := by
    obtain ⟨k, hk⟩ := hv
    rcases hmap k i hk with hk | hi
    · exact h.backed r i hatt hptr ⟨k, hk⟩
    · exact absurd (h.known r i hptr) (not_lt.mpr hi)
  unmade := h.unmade

/-- A process does not refer to the object of a name which it has not
listed. -/
theorem Follows.not_refersTo (h : node.Follows mem) {key : String} {info : ℕ}
    (hkey : node.objList[key]? = none) (hmap : mem.shmObjMap[key]? = some info) :
    ¬ node.RefersTo info := by
  rintro ⟨k, r, hk, hptr⟩
  rw [← h.sameKey k key r info hk hptr hmap, hkey] at hk
  cases hk

/-- A listed retention has one key. -/
theorem Follows.listOneKey (h : node.Follows mem) : OneKey node.objList := by
  intro k k' r hk hk'
  obtain ⟨_, _, i, hptr, _⟩ := h.listed k r hk
  exact h.oneEntry k k' r r i hk hk' hptr hptr

theorem attach_self (node : ExtNodeMapItem) (r i : ℕ) :
    (node.attach r i).retention r
      = { node.retention r with ptr := some i, attached := true } :=
  Function.update_self ..

theorem attach_of_ne {r r' i : ℕ} (h : r' ≠ r) :
    (node.attach r i).retention r' = node.retention r' :=
  Function.update_of_ne h _ _

@[simp] theorem makeShared_retention (node : ExtNodeMapItem) (type : Option String)
    (p : Option ℕ) :
    (node.makeShared type p).2.retention
      = Function.update node.retention node.nextRetention ⟨p, false, type⟩ := rfl

/-- A retention that is listed is not one that is made next. -/
theorem Follows.retention_makeShared (h : node.Follows mem) {type : Option String}
    {p : Option ℕ} {k : String} {r : ℕ}
    (hk : node.objList[k]? = some r) :
    ((node.makeShared type p).2.retention r) = node.retention r :=
  Function.update_of_ne (h.listed k r hk).1.ne _ _

/-- **A retention is made** which points nowhere, or to an object there
is, and is not yet attached. -/
theorem Follows.makeShared (h : node.Follows mem) (type : Option String) {p : Option ℕ}
    (hp : ∀ i, p = some i → i < mem.nextInfo) : (node.makeShared type p).2.Follows mem where
  keysApart := h.keysApart
  listed k r hk := by
    obtain ⟨hr, hv, i, hptr, hatt, hi⟩ := h.listed k r hk
    refine ⟨Nat.lt_succ_of_lt hr, hv, i, ?_, ?_, hi⟩
    · rw [h.retention_makeShared hk, hptr]
    · rw [h.retention_makeShared hk, hatt]
  waiting k r hk := Nat.lt_succ_of_lt (h.waiting k r hk)
  waitingOneKey := h.waitingOneKey
  oneEntry k k' r r' i hk hk' hr hr' := by
    rw [h.retention_makeShared hk] at hr
    rw [h.retention_makeShared hk'] at hr'
    exact h.oneEntry k k' r r' i hk hk' hr hr'
  sameKey k k' r i hk hr hm := by
    rw [h.retention_makeShared hk] at hr
    exact h.sameKey k k' r i hk hr hm
  known r i hr := by
    by_cases hne : r = node.nextRetention
    · subst hne
      refine hp i ?_
      rw [makeShared_retention, Function.update_self] at hr
      exact hr
    · rw [makeShared_retention, Function.update_of_ne hne] at hr
      exact h.known r i hr
  backed r i hatt hr hv := by
    by_cases hne : r = node.nextRetention
    · subst hne
      rw [makeShared_retention, Function.update_self] at hatt
      cases hatt
    · rw [makeShared_retention, Function.update_of_ne hne] at hatt hr
      exact h.backed r i hatt hr hv
  unmade r hr := by
    have hlt : node.nextRetention < r := hr
    rw [makeShared_retention, Function.update_of_ne hlt.ne']
    exact h.unmade r hlt.le

/-- Where a retention is listed anew, an entry is the new one, which points
to the object, or an old one, which points where it did. -/
theorem enlist_cases (info : ℕ) {key k : String} {r r' : ℕ} (hnot : ¬ HasValue node.objList r)
    (hk : (node.objList.insertIfNew key r)[k]? = some r') :
    (k = key ∧ r' = r ∧ (node.attach r info).retention r'
        = { node.retention r with ptr := some info, attached := true })
      ∨ node.objList[k]? = some r' ∧ (node.attach r info).retention r' = node.retention r' := by
  rcases insertIfNew_cases hk with ⟨hkey, hr', _⟩ | hold
  · rw [hr']
    exact Or.inl ⟨hkey, rfl, attach_self node r info⟩
  · refine Or.inr ⟨hold, attach_of_ne ?_⟩
    rintro rfl
    exact hnot ⟨k, hold⟩

/-- **A retention comes to refer to an object** found by name: it is
attached, and listed under a key which was not, and it leaves the
`obj_removed_list`. -/
theorem Follows.enlist (h : node.Follows mem) {key : String} {r info : ℕ}
    (hkey : node.objList[key]? = none) (hr : r < node.nextRetention)
    (hnot : ¬ HasValue node.objList r)
    (hmap : mem.shmObjMap[key]? = some info) (hlive : ∃ o, mem.infos info = some o)
    (hnext : info < mem.nextInfo) (hone : OneKey mem.shmObjMap) {removed : NameMap ℕ}
    (hrem : ∀ k : String, removed[k]? = if k = key then none else node.objRemovedList[k]?)
    (hwait : ∀ k : String, node.objRemovedList[k]? = some r → k = key) :
    ({ node.attach r info with
        objList := node.objList.insertIfNew key r
        objRemovedList := removed } : ExtNodeMapItem).Follows mem := by
  have hold : ∀ (k : String) r', removed[k]? = some r' →
      k ≠ key ∧ node.objRemovedList[k]? = some r' := by
    intro k r' hk
    rw [hrem k] at hk
    split at hk
    · cases hk
    · next hne => exact ⟨hne, hk⟩
  have hfresh := h.not_refersTo hkey hmap
  refine ⟨fun k r' hk => ?_, fun k r' hk => ?_, fun k r' hk => h.waiting k r' (hold k r' hk).2,
    fun k k' r' hk hk' => h.waitingOneKey k k' r' (hold k r' hk).2 (hold k' r' hk').2,
    fun k k' r₁ r₂ i hk hk' h₁ h₂ => ?_, fun k k' r' i hk hptr hm => ?_, fun r' i hptr => ?_,
    fun r' i hatt hptr hv => ?_, fun r' hr' => ?_⟩
  · show removed[k]? = none
    rw [hrem k]
    by_cases hkk : k = key
    · rw [if_pos hkk]
    · rw [if_neg hkk]
      rcases enlist_cases info hnot hk with ⟨heq, _⟩ | ⟨hk, _⟩
      · exact absurd heq hkk
      · exact h.keysApart k r' hk
  · show _ ∧ _ ∧ ∃ i, ((node.attach r info).retention r').ptr = _
      ∧ ((node.attach r info).retention r').attached = _ ∧ _
    rcases enlist_cases info hnot hk with ⟨_, heq, hret⟩ | ⟨hk, hret⟩
    · rw [hret, heq]
      refine ⟨hr, fun ⟨k', hk'⟩ => ?_, info, rfl, rfl, hlive⟩
      obtain ⟨hne, hk'⟩ := hold k' r hk'
      exact hne (hwait k' hk')
    · rw [hret]
      obtain ⟨hlt, hv, hi⟩ := h.listed k r' hk
      exact ⟨hlt, fun ⟨k', hk'⟩ => hv ⟨k', (hold k' r' hk').2⟩, hi⟩
  · -- an older entry for the same object would have the same name
    change ((node.attach r info).retention _).ptr = _ at h₁ h₂
    rcases enlist_cases info hnot hk with ⟨hk₁, _, hret₁⟩ | ⟨hk₁, hret₁⟩ <;>
      rcases enlist_cases info hnot hk' with ⟨hk₂, _, hret₂⟩ | ⟨hk₂, hret₂⟩ <;>
      rw [hret₁] at h₁ <;> rw [hret₂] at h₂
    · rw [hk₁, hk₂]
    · cases h₁
      exact absurd ⟨k', r₂, hk₂, h₂⟩ hfresh
    · cases h₂
      exact absurd ⟨k, r₁, hk₁, h₁⟩ hfresh
    · exact h.oneEntry k k' r₁ r₂ i hk₁ hk₂ h₁ h₂
  · change ((node.attach r info).retention _).ptr = _ at hptr
    rcases enlist_cases info hnot hk with ⟨hk, _, hret⟩ | ⟨hk, hret⟩ <;> rw [hret] at hptr
    · cases hptr
      rw [hk]
      exact hone k' key info hm hmap
    · exact h.sameKey k k' r' i hk hptr hm
  · change ((node.attach r info).retention _).ptr = _ at hptr
    by_cases hr' : r' = r
    · rw [hr', attach_self] at hptr
      cases hptr
      exact hnext
    · rw [attach_of_ne hr'] at hptr
      exact h.known r' i hptr
  · change ((node.attach r info).retention _).attached = _ at hatt
    change ((node.attach r info).retention _).ptr = _ at hptr
    show HasValue (node.objList.insertIfNew key r) r'
    rw [hasValue_insertIfNew hkey]
    by_cases hr' : r' = r
    · exact Or.inl hr'
    · rw [attach_of_ne hr'] at hatt hptr
      exact Or.inr (h.backed r' i hatt hptr hv)
  · have hlt : node.nextRetention ≤ r' := hr'
    show ((node.attach r info).retention _).attached = _
    rw [attach_of_ne (lt_of_lt_of_le hr hlt).ne']
    exact h.unmade r' hlt

/-- **A process takes a reference**: it lists one more retention. -/
theorem refersTo_enlist {key : String} {r info : ℕ} (hkey : node.objList[key]? = none)
    (hnot : ¬ HasValue node.objList r) {removed : NameMap ℕ} {i : ℕ} :
    ({ node.attach r info with
        objList := node.objList.insertIfNew key r
        objRemovedList := removed } : ExtNodeMapItem).RefersTo i
      ↔ i = info ∨ node.RefersTo i := by
  constructor
  · rintro ⟨k, r', hk, hptr⟩
    change ((node.attach r info).retention _).ptr = _ at hptr
    rcases enlist_cases info hnot hk with ⟨_, _, hret⟩ | ⟨hk, hret⟩ <;> rw [hret] at hptr
    · exact Or.inl (Option.some.inj hptr).symm
    · exact Or.inr ⟨k, r', hk, hptr⟩
  · rintro (hi | ⟨k, r', hk, hptr⟩)
    · refine ⟨key, r, ?_, ?_⟩
      · show (node.objList.insertIfNew key r)[key]? = _
        rw [insertIfNew_of_none hkey, if_pos rfl]
      · show ((node.attach r info).retention _).ptr = _
        rw [attach_self, hi]
    · refine ⟨k, r', ?_, ?_⟩
      · show (node.objList.insertIfNew key r)[k]? = _
        rw [insertIfNew_of_none hkey, if_neg, hk]
        rintro rfl
        rw [hkey] at hk
        cases hk
      · show ((node.attach r info).retention _).ptr = _
        rw [attach_of_ne, hptr]
        rintro rfl
        exact hnot ⟨k, hk⟩

theorem Follows.refersTo_makeShared (h : node.Follows mem) (type : Option String)
    (p : Option ℕ) {i : ℕ} : (node.makeShared type p).2.RefersTo i ↔ node.RefersTo i := by
  constructor
  · rintro ⟨k, r, hk, hptr⟩
    rw [h.retention_makeShared hk] at hptr
    exact ⟨k, r, hk, hptr⟩
  · rintro ⟨k, r, hk, hptr⟩
    refine ⟨k, r, hk, ?_⟩
    rw [h.retention_makeShared hk, hptr]

/-- A process refers to what the entry of a name points to. -/
theorem Follows.refersTo_of_listed (h : node.Follows mem) {k : String} {r : ℕ}
    (hk : node.objList[k]? = some r) :
    ∃ i o, (node.retention r).ptr = some i ∧ node.RefersTo i ∧ mem.infos i = some o := by
  obtain ⟨_, _, i, hptr, _, o, ho⟩ := h.listed k r hk
  exact ⟨i, o, hptr, ⟨k, r, hk, hptr⟩, ho⟩

/-- **A retention waits for its object**: one which is not listed is added
to the `obj_removed_list`. -/
theorem Follows.await (h : node.Follows mem) {key : String} {r : ℕ}
    (hkey : node.objList[key]? = none) (hr : r < node.nextRetention)
    (hnot : ¬ HasValue node.objList r) (hnot' : ¬ HasValue node.objRemovedList r) :
    ({ node with objRemovedList := node.objRemovedList.insertIfNew key r } :
      ExtNodeMapItem).Follows mem where
  keysApart k r' hk := by
    show (node.objRemovedList.insertIfNew key r)[k]? = none
    cases hv : (node.objRemovedList.insertIfNew key r)[k]? with
    | none => rfl
    | some r₁ =>
      rcases insertIfNew_cases hv with ⟨hk', _⟩ | hk'
      · rw [hk'] at hk
        exact absurd hkey (by rw [hk]; exact Option.some_ne_none _)
      · rw [h.keysApart k r' hk] at hk'
        cases hk'
  listed k r' hk := by
    obtain ⟨hlt, hv, hi⟩ := h.listed k r' hk
    refine ⟨hlt, ?_, hi⟩
    rintro ⟨k', hk'⟩
    rcases insertIfNew_cases hk' with ⟨_, hr', _⟩ | hk'
    · exact hnot ⟨k, hr' ▸ hk⟩
    · exact hv ⟨k', hk'⟩
  waiting k r' hk := by
    rcases insertIfNew_cases hk with ⟨_, hr', _⟩ | hk
    · rw [hr']
      exact hr
    · exact h.waiting k r' hk
  waitingOneKey := h.waitingOneKey.insertIfNew hnot'
  oneEntry := h.oneEntry
  sameKey := h.sameKey
  known := h.known
  backed := h.backed
  unmade := h.unmade

/-- **A retention gives up its object**, which is destroyed: it is no longer
listed. -/
theorem Follows.delist (h : node.Follows mem) {key : String} {r info : ℕ}
    (hkey : node.objList[key]? = some r) (hptr : (node.retention r).ptr = some info)
    (hnot : ¬ HasValue mem.shmObjMap info) :
    ({ node with objList := node.objList.erase key } : ExtNodeMapItem).Follows mem where
  keysApart k r' hk := h.keysApart k r' (erase_some hk).2
  listed k r' hk := h.listed k r' (erase_some hk).2
  waiting := h.waiting
  waitingOneKey := h.waitingOneKey
  oneEntry k k' r₁ r₂ i hk hk' := h.oneEntry k k' r₁ r₂ i (erase_some hk).2 (erase_some hk').2
  sameKey k k' r' i hk := h.sameKey k k' r' i (erase_some hk).2
  known := h.known
  backed r' i hatt hi hv := by
    show HasValue (node.objList.erase key) r'
    rw [hasValue_erase h.listOneKey hkey]
    refine ⟨h.backed r' i hatt hi hv, ?_⟩
    rintro rfl
    rw [hptr] at hi
    cases hi
    exact hnot hv
  unmade := h.unmade

theorem Follows.refersTo_delist (h : node.Follows mem) {key : String} {r info : ℕ}
    (hkey : node.objList[key]? = some r) (hptr : (node.retention r).ptr = some info)
    {removed : NameMap ℕ} {i : ℕ} :
    ({ node with objRemovedList := removed, objList := node.objList.erase key } :
      ExtNodeMapItem).RefersTo i ↔ node.RefersTo i ∧ i ≠ info := by
  constructor
  · rintro ⟨k, r', hk, hi⟩
    obtain ⟨hne, hk⟩ := erase_some hk
    refine ⟨⟨k, r', hk, hi⟩, ?_⟩
    rintro rfl
    exact hne (h.oneEntry k key r' r i hk hkey hi hptr)
  · rintro ⟨⟨k, r', hk, hi⟩, hne⟩
    refine ⟨k, r', ?_, hi⟩
    show (node.objList.erase key)[k]? = some r'
    rw [getElem?_erase, if_neg, hk]
    rintro rfl
    rw [hkey] at hk
    cases hk
    change (node.retention r).ptr = some i at hi
    rw [hptr] at hi
    exact hne (Option.some.inj hi).symm

end ExtNodeMapItem

end ShmObjManager
