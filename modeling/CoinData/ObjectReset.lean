import CoinData.ObjectSections
import CoinData.Runs

/-!
# Objects without a name

`make` gives an object to its caller which is in no table, and `reset` takes
it back: it releases the object behind a handle, and does not look for it in
a table. It is for the handles of `make`, but a handle of `create` is of the
same type, and the copies of a handle share one retention.

So here a process with one thread does everything: it creates and destroys
objects by name, makes and resets objects without one, and locks them,
whatever the types. What has to hold for this to be safe is that `reset` is
called for objects that are there, and have no name.
-/

open Maps

namespace ShmObjManager

open ShmSystemSharedInfo ExtNodeMapItem

/-! ## The calls -/

/-- **`make<T>`.** -/
def make (type : String) (mem : ShmSystemSharedInfo) (node : ExtNodeMapItem) :
    ℕ × ShmSystemSharedInfo × ExtNodeMapItem :=
  let (info, mem) := mem.create type (some type)
  let (ret, node) := node.makeShared (some type) (some info)
  (ret, mem, node)

/-- Set the pointer of a retention to null. -/
def ExtNodeMapItem.setNull (node : ExtNodeMapItem) (ret : ℕ) : ExtNodeMapItem :=
  { node with
    retention := Function.update node.retention ret { node.retention ret with ptr := none } }

/-- **`reset<T>`** of a handle which is not null. -/
def reset (ret : ℕ) (mem : ShmSystemSharedInfo) (node : ExtNodeMapItem) :
    Except ObjectFault (ShmSystemSharedInfo × ExtNodeMapItem) :=
  match (node.retention ret).ptr with
  | none => .error .nullDeref
  | some info => do
    let _ ← mem.deref info
    .ok (mem.destroy info, node.setNull ret)

/-- The one process with its node, and the handles its callers hold, each
given by its retention. -/
structure HandleSession where
  mem : ShmSystemSharedInfo
  owner : ExtNodeMapItem
  held : List ℕ

/-- A call of the manager, or what a caller does with a handle. -/
inductive HandleCall where
  | create (type name : String) (now : ℕ)
  | make (type : String)
  | reset (handle : ℕ)
  | destroy (name : String) (now : ℕ)
  | lockObject (handle : ℕ)
  | copyHandle (handle : ℕ)
  | dropHandle (handle : ℕ)
deriving DecidableEq, Repr

namespace HandleSession

/-- Callers use the handles they have. -/
def Admits (s : HandleSession) : HandleCall → Prop
  | .create .. | .make _ | .destroy .. => True
  | .reset r | .lockObject r | .copyHandle r | .dropHandle r => r ∈ s.held

instance (s : HandleSession) : (l : HandleCall) → Decidable (s.Admits l)
  | .create .. | .make _ | .destroy .. => inferInstanceAs (Decidable True)
  | .reset r | .lockObject r | .copyHandle r | .dropHandle r =>
    inferInstanceAs (Decidable (r ∈ s.held))

/-- Perform a call. The handle that is reset becomes null. -/
def run (s : HandleSession) : HandleCall → Except ObjectFault HandleSession
  | .create type name now =>
    let (ret, mem, owner) := create type name now s.mem s.owner
    .ok ⟨mem, owner, ret.toList ++ s.held⟩
  | .make type =>
    let (ret, mem, owner) := make type s.mem s.owner
    .ok ⟨mem, owner, ret :: s.held⟩
  | .reset r => do
    let (mem, owner) ← reset r s.mem s.owner
    .ok ⟨mem, owner, s.held.erase r⟩
  | .destroy name now => do
    let owner := destroyLocal name (fun r => s.held.count r) s.owner
    let mem ← destroyShared name now s.mem
    .ok ⟨mem, owner, s.held⟩
  | .lockObject r => do
    let _ ← lockObject r s.mem s.owner
    .ok s
  | .copyHandle r => .ok { s with held := r :: s.held }
  | .dropHandle r => .ok { s with held := s.held.erase r }

/-- A process before its first object. -/
def fresh (pid : ℕ) : HandleSession := ⟨.empty pid, .empty, []⟩

/-- **Nothing refers to an `ObjectInfo`**: neither `shm_obj_map`, nor a
retention in `obj_list`. -/
structure Forgets (s : HandleSession) (info : ℕ) : Prop where
  mapped : ∀ k : String, s.mem.shmObjMap[k]? ≠ some info
  listed : ∀ (k : String) r, s.owner.objList[k]? = some r → (s.owner.retention r).ptr ≠ some info

end HandleSession

/-- Perform a call that is admitted, unless a call has failed. -/
def nextHandle (σ : Except ObjectFault HandleSession) (l : HandleCall) :
    Option (Except ObjectFault HandleSession) :=
  match σ with
  | .error _ => none
  | .ok s => if s.Admits l then some (s.run l) else none

/-- **The system of one process with handles**: its states are sessions,
until a call fails. -/
def handleSystem (pid : ℕ) :
    TransitionSystem (Except ObjectFault HandleSession) HandleCall where
  init σ := σ = .ok (HandleSession.fresh pid)
  step σ l σ' := ∃ s, σ = .ok s ∧ s.Admits l ∧ σ' = s.run l

/-- **A call that is safe**: it returns, and nothing refers to what a
`reset` has released. -/
def SafeCall (σ : Except ObjectFault HandleSession) (l : HandleCall)
    (σ' : Except ObjectFault HandleSession) : Prop :=
  ∃ s s', σ = .ok s ∧ σ' = .ok s'
    ∧ ∀ r, l = .reset r → ∀ info ∈ (s.owner.retention r).ptr, s'.Forgets info

/-- **What is reset is there, and has no name.** -/
def ResetsNameless (σ : Except ObjectFault HandleSession) (l : HandleCall) : Prop :=
  match σ, l with
  | .ok s, .reset r =>
    ∃ info ∈ (s.owner.retention r).ptr, ∀ e ∈ s.mem.shmObjMap.toList, e.2 ≠ info
  | _, _ => True

instance (σ : Except ObjectFault HandleSession) (l : HandleCall) :
    Decidable (ResetsNameless σ l) := by
  unfold ResetsNameless
  split <;> infer_instance

/-! ## The invariant -/

variable {mem : ShmSystemSharedInfo}

/-- What is left when an object is released. -/
theorem ShmSystemSharedInfo.destroy_infos_some {i i' : ℕ} {o : ObjectInfo}
    (ho : (mem.destroy i).infos i' = some o) : i' ≠ i ∧ mem.infos i' = some o := by
  change Function.update _ _ _ _ = _ at ho
  by_cases hi : i' = i
  · rw [hi, Function.update_self] at ho
    cases ho
  · rw [Function.update_of_ne hi] at ho
    exact ⟨hi, ho⟩

/-- Releasing an object which is in neither table keeps the shared memory
sound. -/
theorem ShmSystemSharedInfo.Sound.destroy (h : mem.Sound) {i : ℕ}
    (hmap : ∀ k : String, mem.shmObjMap[k]? ≠ some i)
    (hrem : ∀ k : String, mem.shmObjRemovedMap[k]? ≠ some i) : (mem.destroy i).Sound := by
  have hother : ∀ i', i' ≠ i → (mem.destroy i).infos i' = mem.infos i' :=
    fun i' hi' => Function.update_of_ne hi' _ _
  refine ⟨fun i' hi' => ?_, fun i' o ho => h.created i' o (destroy_infos_some ho).2,
    fun k i' hk => ?_, fun k i' hk => ?_, h.mapOneKey, h.removedOneKey⟩
  · by_cases hi : i' = i
    · rw [hi]
      exact Function.update_self ..
    · rw [hother i' hi, h.unborn i' hi']
  · have hne : i' ≠ i := by
      rintro rfl
      exact hmap k hk
    rw [hother i' hne]
    exact h.mapped k i' hk
  · have hne : i' ≠ i := by
      rintro rfl
      exact hrem k hk
    rw [hother i' hne]
    exact h.removed k i' hk

/-- **The invariant of a process by itself**: no pointer of a retention
dangles, no two of them are the same, and names are listed exactly if they
have an object, which is that of their retention. -/
structure Alone (mem : ShmSystemSharedInfo) (owner : ExtNodeMapItem) : Prop where
  sound : mem.Sound
  noneRemoved : ∀ k : String, mem.shmObjRemovedMap[k]? = none
  refCnt : ∀ i o, mem.infos i = some o → o.refCnt = 1
  pointed : ∀ r i, (owner.retention r).ptr = some i → ∃ o, mem.infos i = some o
  apart : ∀ r r' i, (owner.retention r).ptr = some i → (owner.retention r').ptr = some i → r = r'
  listed : ∀ (k : String) r, owner.objList[k]? = some r →
    r < owner.nextRetention ∧ ∃ i, (owner.retention r).ptr = some i ∧ mem.shmObjMap[k]? = some i
  mapped : ∀ (k : String) i, mem.shmObjMap[k]? = some i → ∃ r, owner.objList[k]? = some r
  waiting : ∀ (k : String) r, owner.objRemovedList[k]? = some r →
    r < owner.nextRetention ∧ (owner.retention r).ptr = none ∧ owner.objList[k]? = none
  waitingOneKey : OneKey owner.objRemovedList

namespace Alone

variable {owner : ExtNodeMapItem} {name k : String} {r : ℕ}

/-- A listed retention has one key. -/
theorem listOneKey (h : Alone mem owner) : OneKey owner.objList := by
  intro k k' r hk hk'
  obtain ⟨_, i, hptr, hi⟩ := h.listed k r hk
  obtain ⟨_, i', hptr', hi'⟩ := h.listed k' r hk'
  rw [hptr] at hptr'
  cases hptr'
  exact h.sound.mapOneKey k k' i hi hi'

/-- A retention which waits is not listed. -/
theorem ne_waiting (h : Alone mem owner) {k' : String} {r' : ℕ} (hk : owner.objList[k]? = some r)
    (hk' : owner.objRemovedList[k']? = some r') : r ≠ r' := by
  rintro rfl
  obtain ⟨_, i, hptr, _⟩ := h.listed k r hk
  rw [(h.waiting k' r hk').2.1] at hptr
  cases hptr

/-- There is no object of a name which is not listed. -/
theorem not_mapped (h : Alone mem owner) (hname : owner.objList[name]? = none) :
    mem.shmObjMap[name]? = none := by
  cases hmap : mem.shmObjMap[name]? with
  | none => rfl
  | some i =>
    obtain ⟨r, hr⟩ := h.mapped name i hmap
    rw [hname] at hr
    cases hr

theorem empty (pid : ℕ) : Alone (.empty pid) .empty where
  sound := ⟨fun _ _ => rfl, nofun, fun k i hk => absurd hk (empty_ne_some k i),
    fun k i hk => absurd hk (empty_ne_some k i), oneKey_empty, oneKey_empty⟩
  noneRemoved := fun _ => Std.TreeMap.getElem?_emptyc
  refCnt := nofun
  pointed := nofun
  apart := nofun
  listed := fun k r hk => absurd hk (empty_ne_some k r)
  mapped := fun k i hk => absurd hk (empty_ne_some k i)
  waiting := fun k r hk => absurd hk (empty_ne_some k r)
  waitingOneKey := oneKey_empty

end Alone

variable {owner : ExtNodeMapItem} {name : String} {r i : ℕ}

/-- **`create` keeps the invariant.** -/
theorem Alone.create (h : Alone mem owner) (type name : String) (now : ℕ) :
    Alone (ShmObjManager.create type name now mem owner).2.1
      (ShmObjManager.create type name now mem owner).2.2 := by
  cases hname : owner.objList[name]? with
  | some r =>
    rw [create_listed hname]
    exact h
  | none =>
    have hmap := h.not_mapped hname
    obtain ⟨r, node, hcreate, hc⟩ := create_new hname hmap type now
    rw [hcreate]
    have hnew : ∀ r', (owner.retention r').ptr ≠ some mem.nextInfo := by
      intro r' hr'
      obtain ⟨o, ho⟩ := h.pointed r' _ hr'
      exact absurd (h.sound.lt_nextInfo ho) (lt_irrefl _)
    have hptr : ∀ r' i, (node.retention r').ptr = some i →
        r' = r ∧ i = mem.nextInfo ∨ r' ≠ r ∧ (owner.retention r').ptr = some i := by
      intro r' i hi
      by_cases hr : r' = r
      · rw [hr, hc.ptr] at hi
        exact Or.inl ⟨hr, (Option.some.inj hi).symm⟩
      · rw [hc.others r' hr] at hi
        exact Or.inr ⟨hr, hi⟩
    have hlt : r < node.nextRetention := by
      rcases hc.source with ⟨hwait, hn, _⟩ | ⟨_, hr, hn, _⟩
      · have hlt := (h.waiting name r hwait).1
        omega
      · omega
    -- the retention was not listed, and waited under no other name
    have hlist : ∀ (k : String) r', owner.objList[k]? = some r' → r' ≠ r := by
      intro k r' hk
      rcases hc.source with ⟨hwait, _⟩ | ⟨_, hr, _⟩
      · exact h.ne_waiting hk hwait
      · rintro rfl
        exact absurd hr (h.listed k r' hk).1.ne
    have hwait : ∀ (k : String) r', k ≠ name → owner.objRemovedList[k]? = some r' → r' ≠ r := by
      rintro k r' hkn hk rfl
      rcases hc.source with ⟨hwait, _⟩ | ⟨_, hr, _⟩
      · exact hkn (h.waitingOneKey k name r' hk hwait)
      · exact absurd hr (h.waiting k r' hk).1.ne
    have hmapped : ∀ k : String, (mem.shmObjMap.insertIfNew name mem.nextInfo)[k]? =
        if k = name then some mem.nextInfo else mem.shmObjMap[k]? :=
      insertIfNew_of_none hmap _
    refine ⟨h.sound.create type name now, h.noneRemoved, fun i o ho => ?_, fun r' i hi => ?_,
      fun r' r'' i hi hi' => ?_, fun k r' hk => ?_, fun k i hk => hc.mapped hmap h.mapped hk,
      fun k r' hk => ?_, hc.waitingOneKey h.waitingOneKey⟩
    · change Function.update _ _ _ _ = _ at ho
      by_cases hi : i = mem.nextInfo
      · rw [hi, Function.update_self] at ho
        cases ho
        rfl
      · rw [Function.update_of_ne hi] at ho
        exact h.refCnt i o ho
    · rcases hptr r' i hi with ⟨_, rfl⟩ | ⟨_, hi⟩
      · exact ⟨_, Function.update_self ..⟩
      · obtain ⟨o, ho⟩ := h.pointed r' i hi
        exact ⟨o, (Function.update_of_ne (h.sound.lt_nextInfo ho).ne _ _).trans ho⟩
    · rcases hptr r' i hi with ⟨rfl, rfl⟩ | ⟨_, hi⟩
      · rcases hptr r'' _ hi' with ⟨hr, _⟩ | ⟨_, hi'⟩
        · exact hr.symm
        · exact absurd hi' (hnew r'')
      · rcases hptr r'' i hi' with ⟨_, rfl⟩ | ⟨_, hi'⟩
        · exact absurd hi (hnew r')
        · exact h.apart r' r'' i hi hi'
    · rw [hc.objList k] at hk
      dsimp only
      rw [hmapped k]
      split at hk
      · next hkn =>
        cases hk
        exact ⟨hlt, _, hc.ptr, if_pos hkn⟩
      · next hkn =>
        obtain ⟨hlt', i, hi, hki⟩ := h.listed k r' hk
        exact ⟨hlt'.trans_le hc.nextRetention_le, i, by rw [hc.others r' (hlist k r' hk), hi],
          (if_neg hkn).trans hki⟩
    · rw [hc.objRemovedList k] at hk
      split at hk
      · cases hk
      · next hkn =>
        obtain ⟨hlt', hnull, hnone⟩ := h.waiting k r' hk
        refine ⟨hlt'.trans_le hc.nextRetention_le, ?_, ?_⟩
        · rw [hc.others r' (hwait k r' hkn hk), hnull]
        · rw [hc.objList k, if_neg hkn, hnone]

/-! ### Making and resetting -/

/-- The pointers of the retentions once an object without a name is made. -/
theorem Alone.pointer_make (h : Alone mem owner) {type : String}
    (hi : ((owner.makeShared (some type) (some mem.nextInfo)).2.retention r).ptr = some i) :
    r = owner.nextRetention ∧ i = mem.nextInfo
      ∨ r ≠ owner.nextRetention ∧ (owner.retention r).ptr = some i ∧ i ≠ mem.nextInfo := by
  rw [makeShared_retention] at hi
  by_cases hr : r = owner.nextRetention
  · rw [hr, Function.update_self] at hi
    exact Or.inl ⟨hr, (Option.some.inj hi).symm⟩
  · rw [Function.update_of_ne hr] at hi
    obtain ⟨o, ho⟩ := h.pointed r i hi
    exact Or.inr ⟨hr, hi, (h.sound.lt_nextInfo ho).ne⟩

/-- **`make` keeps the invariant.** -/
theorem Alone.make (h : Alone mem owner) (type : String) :
    Alone (ShmObjManager.make type mem owner).2.1 (ShmObjManager.make type mem owner).2.2 := by
  refine ⟨h.sound.make type, h.noneRemoved, fun i o ho => ?_, fun r i hi => ?_,
    fun r r' i hi hi' => ?_, fun k r hk => ?_, h.mapped, fun k r hk => ?_, h.waitingOneKey⟩
  · change Function.update _ _ _ _ = _ at ho
    by_cases hi : i = mem.nextInfo
    · rw [hi, Function.update_self] at ho
      cases ho
      rfl
    · rw [Function.update_of_ne hi] at ho
      exact h.refCnt i o ho
  · rcases h.pointer_make hi with ⟨_, rfl⟩ | ⟨_, hi, hne⟩
    · exact ⟨_, Function.update_self ..⟩
    · obtain ⟨o, ho⟩ := h.pointed r i hi
      exact ⟨o, (Function.update_of_ne hne _ _).trans ho⟩
  · rcases h.pointer_make hi with ⟨rfl, rfl⟩ | ⟨_, hi, hne⟩
    · rcases h.pointer_make hi' with ⟨hr, _⟩ | ⟨_, _, hne⟩
      · exact hr.symm
      · exact absurd rfl hne
    · rcases h.pointer_make hi' with ⟨_, rfl⟩ | ⟨_, hi', _⟩
      · exact absurd rfl hne
      · exact h.apart r r' i hi hi'
  · obtain ⟨hlt, i, hi, hki⟩ := h.listed k r hk
    exact ⟨hlt.trans (Nat.lt_succ_self _), i,
      (congrArg SharedObjectRetention.ptr (Function.update_of_ne hlt.ne _ _)).trans hi, hki⟩
  · obtain ⟨hlt, hnull, hnone⟩ := h.waiting k r hk
    exact ⟨hlt.trans (Nat.lt_succ_self _),
      (congrArg SharedObjectRetention.ptr (Function.update_of_ne hlt.ne _ _)).trans hnull, hnone⟩

/-- The pointers of the retentions once one is set to null. -/
theorem Alone.pointer_setNull (h : Alone mem owner) (hptr : (owner.retention r).ptr = some i)
    {r' i' : ℕ} (hi' : ((owner.setNull r).retention r').ptr = some i') :
    r' ≠ r ∧ i' ≠ i ∧ (owner.retention r').ptr = some i' := by
  change (Function.update owner.retention r _ r').ptr = _ at hi'
  by_cases hr : r' = r
  · rw [hr, Function.update_self] at hi'
    cases hi'
  · rw [Function.update_of_ne hr] at hi'
    refine ⟨hr, ?_, hi'⟩
    rintro rfl
    exact hr (h.apart r' r i' hi' hptr)

/-- **Resetting a handle of an object without a name** keeps the
invariant. -/
theorem Alone.reset (h : Alone mem owner) (hptr : (owner.retention r).ptr = some i)
    (hmap : ∀ k : String, mem.shmObjMap[k]? ≠ some i) :
    ShmObjManager.reset r mem owner = .ok (mem.destroy i, owner.setNull r)
      ∧ Alone (mem.destroy i) (owner.setNull r) := by
  have hothers : ∀ r', r' ≠ r → (owner.setNull r).retention r' = owner.retention r' :=
    fun r' hr' => Function.update_of_ne hr' _ _
  have hlist : ∀ (k : String) r', owner.objList[k]? = some r' → r' ≠ r := by
    rintro k r' hk rfl
    obtain ⟨_, i', hptr', hki⟩ := h.listed k r' hk
    rw [hptr] at hptr'
    cases hptr'
    exact hmap k hki
  have hwait : ∀ (k : String) r', owner.objRemovedList[k]? = some r' → r' ≠ r := by
    rintro k r' hk rfl
    rw [(h.waiting k r' hk).2.1] at hptr
    cases hptr
  obtain ⟨o, ho⟩ := h.pointed r i hptr
  refine ⟨?_, h.sound.destroy hmap (fun k hk => ?_), h.noneRemoved, fun i' o ho => ?_,
    fun r' i' hi' => ?_, fun r' r'' i' hi' hi'' => ?_, fun k r' hk => ?_, h.mapped,
    fun k r' hk => ?_, h.waitingOneKey⟩
  · unfold ShmObjManager.reset
    rw [hptr]
    dsimp only
    rw [deref_of_some ho]
    rfl
  · rw [h.noneRemoved k] at hk
    cases hk
  · exact h.refCnt i' o (destroy_infos_some ho).2
  · obtain ⟨_, hne, hi'⟩ := h.pointer_setNull hptr hi'
    obtain ⟨o, ho⟩ := h.pointed r' i' hi'
    exact ⟨o, (Function.update_of_ne hne _ _).trans ho⟩
  · exact h.apart r' r'' i' (h.pointer_setNull hptr hi').2.2 (h.pointer_setNull hptr hi'').2.2
  · obtain ⟨hlt, i', hi', hki⟩ := h.listed k r' hk
    exact ⟨hlt, i', by rw [hothers r' (hlist k r' hk), hi'], hki⟩
  · obtain ⟨hlt, hnull, hnone⟩ := h.waiting k r' hk
    exact ⟨hlt, by rw [hothers r' (hwait k r' hk), hnull], hnone⟩

/-! ### Destroying -/

/-- The pointers of the retentions once a name is destroyed. -/
theorem Alone.pointer_destroyLocal (h : Alone mem owner) {handles : ℕ → ℕ}
    (hname : owner.objList[name]? = some r) (hptr : (owner.retention r).ptr = some i) {r' i' : ℕ}
    (hi' : ((destroyLocal name handles owner).retention r').ptr = some i') :
    r' ≠ r ∧ i' ≠ i ∧ (owner.retention r').ptr = some i' := by
  by_cases hr : r' = r
  · rw [hr, destroyLocal_listed hname] at hi'
    change (Function.update owner.retention r _ r).ptr = _ at hi'
    rw [Function.update_self] at hi'
    cases hi'
  · rw [destroyLocal_retention fun hr' => hr (Option.some.inj (hr'.symm.trans hname))] at hi'
    refine ⟨hr, ?_, hi'⟩
    rintro rfl
    exact hr (h.apart r' r i' hi' hptr)

/-- **`destroy` keeps the invariant**, whether there is an object of this
name or not. -/
theorem Alone.destroy (h : Alone mem owner) (name : String) (handles : ℕ → ℕ) (now : ℕ) :
    ∃ mem', destroyShared name now mem = .ok mem'
      ∧ Alone mem' (destroyLocal name handles owner) := by
  cases hmap : mem.shmObjMap[name]? with
  | none =>
    have hlocal : destroyLocal name handles owner = owner := by
      unfold destroyLocal
      cases hname : owner.objList[name]? with
      | none => rfl
      | some r =>
        obtain ⟨_, i, _, hi⟩ := h.listed name r hname
        rw [hmap] at hi
        cases hi
    rw [hlocal]
    refine ⟨mem, ?_, h⟩
    unfold destroyShared
    rw [hmap]
  | some info =>
    obtain ⟨r, hname⟩ := h.mapped name info hmap
    obtain ⟨o, mem', ho, hrun, hd⟩ := destroyShared_spec h.sound hmap now
    have hcnt := h.refCnt info o ho
    have hptr : (owner.retention r).ptr = some info := by
      obtain ⟨_, i, hptr, hi⟩ := h.listed name r hname
      rw [hmap] at hi
      cases hi
      exact hptr
    have hkept : ∀ i, i ≠ info → mem'.infos i = mem.infos i := by
      intro i hi
      rcases hd.kept i hi with hk | ⟨_, ⟨k, hk⟩, _⟩
      · exact hk
      · rw [h.noneRemoved k] at hk
        cases hk
    have hother : ∀ r', r' ≠ r →
        (destroyLocal name handles owner).retention r' = owner.retention r' :=
      fun r' hr => destroyLocal_retention fun hr' => hr (Option.some.inj (hr'.symm.trans hname))
    have hnext : (destroyLocal name handles owner).nextRetention = owner.nextRetention := by
      rw [destroyLocal_listed hname]
      rfl
    refine ⟨mem', hrun, hd.sound h.sound hmap ho, fun k => ?_, fun i o' ho' => ?_,
      fun r' i hi => ?_, fun r' r'' i hi hi' => ?_, fun k r' hk => ?_, fun k i hk => ?_,
      fun k r' hk => ?_,
      destroyLocal_waitingOneKey h.waitingOneKey fun k r' hk hr => h.ne_waiting hr hk rfl⟩
    · cases hk : mem'.shmObjRemovedMap[k]? with
      | none => rfl
      | some i =>
        rcases hd.removed k i hk with ⟨_, hne⟩ | ⟨_, hold, _⟩
        · exact absurd hcnt hne
        · rw [h.noneRemoved k] at hold
          cases hold
    · by_cases hi : i = info
      · rcases hd.self with ⟨_, hgone⟩ | ⟨hne, _⟩
        · rw [hi, hgone] at ho'
          cases ho'
        · exact absurd hcnt hne
      · exact h.refCnt i o' (hd.infos_of_ne hi ho')
    · obtain ⟨_, hne, hi⟩ := h.pointer_destroyLocal hname hptr hi
      obtain ⟨o', ho'⟩ := h.pointed r' i hi
      exact ⟨o', (hkept i hne).trans ho'⟩
    · exact h.apart r' r'' i (h.pointer_destroyLocal hname hptr hi).2.2
        (h.pointer_destroyLocal hname hptr hi').2.2
    · rw [destroyLocal_objList] at hk
      split at hk
      · cases hk
      · next hkn =>
        have hne : r' ≠ r := by
          rintro rfl
          exact hkn (h.listOneKey k name r' hk hname)
        obtain ⟨hlt, i, hi, hki⟩ := h.listed k r' hk
        rw [hnext, hother r' hne, hd.shmObjMap, getElem?_erase, if_neg hkn]
        exact ⟨hlt, i, hi, hki⟩
    · rw [hd.shmObjMap] at hk
      obtain ⟨hkn, hk⟩ := erase_some hk
      obtain ⟨r', hr'⟩ := h.mapped k i hk
      refine ⟨r', ?_⟩
      rw [destroyLocal_objList, if_neg hkn, hr']
    · rw [hnext, destroyLocal_objList]
      rcases destroyLocal_objRemovedList hk with ⟨hkn, hr⟩ | hk
      · rw [hname] at hr
        cases hr
        refine ⟨(h.listed name r hname).1, ?_, if_pos hkn⟩
        rw [destroyLocal_listed hname]
        show (Function.update owner.retention r _ r).ptr = none
        rw [Function.update_self]
      · obtain ⟨hlt, hnull, hnone⟩ := h.waiting k r' hk
        refine ⟨hlt, ?_, ?_⟩
        · rw [hother r' (h.ne_waiting hname hk).symm, hnull]
        · rw [hnone]
          exact ite_self _

/-- **`lock_object` returns.** -/
theorem Alone.lockObject (h : Alone mem owner) (r : ℕ) :
    ∃ b, ShmObjManager.lockObject r mem owner = .ok b := by
  unfold ShmObjManager.lockObject
  split
  · cases hptr : (owner.retention r).ptr with
    | none => exact ⟨_, rfl⟩
    | some i =>
      obtain ⟨o, ho⟩ := h.pointed r i hptr
      dsimp only
      rw [deref_of_some ho]
      exact ⟨_, rfl⟩
  · exact ⟨_, rfl⟩

/-! ## Runs -/

theorem step_of_nextHandle {pid : ℕ} (σ : Except ObjectFault HandleSession) (l : HandleCall)
    (σ' : Except ObjectFault HandleSession) (h : nextHandle σ l = some σ') :
    (handleSystem pid).step σ l σ' := by
  cases σ with
  | error e => cases h
  | ok s =>
    obtain ⟨hadm, heq⟩ := Option.ite_none_right_eq_some.mp h
    exact ⟨s, rfl, hadm, (Option.some.inj heq).symm⟩

/-- **A call which is not a `reset`** returns, and keeps the invariant. -/
theorem Alone.run {s : HandleSession} (h : Alone s.mem s.owner) {l : HandleCall}
    (hl : ∀ r, l ≠ .reset r) : ∃ s', s.run l = .ok s' ∧ Alone s'.mem s'.owner := by
  cases l with
  | create type name now => exact ⟨_, rfl, h.create type name now⟩
  | make type => exact ⟨_, rfl, h.make type⟩
  | reset r => exact absurd rfl (hl r)
  | destroy name now =>
    obtain ⟨mem', hrun, h'⟩ := h.destroy name (fun r => s.held.count r) now
    refine ⟨⟨mem', _, s.held⟩, ?_, h'⟩
    dsimp only [HandleSession.run]
    rw [hrun]
    rfl
  | lockObject r =>
    obtain ⟨b, hrun⟩ := h.lockObject r
    refine ⟨s, ?_, h⟩
    dsimp only [HandleSession.run]
    rw [hrun]
    rfl
  | copyHandle r => exact ⟨_, rfl, h⟩
  | dropHandle r => exact ⟨_, rfl, h⟩

/-- **A call of a session is safe** exactly if what it resets, if anything,
is there and has no name; and then the invariant goes on. -/
theorem Alone.safeCall {s : HandleSession} (h : Alone s.mem s.owner) {l : HandleCall} :
    (ResetsNameless (.ok s) l →
      SafeCall (.ok s) l (s.run l) ∧ ∃ s', s.run l = .ok s' ∧ Alone s'.mem s'.owner)
      ∧ (SafeCall (.ok s) l (s.run l) → ResetsNameless (.ok s) l) := by
  by_cases hl : ∃ r, l = .reset r
  · obtain ⟨r, rfl⟩ := hl
    constructor
    · rintro ⟨i, hptr, hmap⟩
      have hnot : ∀ k : String, s.mem.shmObjMap[k]? ≠ some i := by
        intro k hk
        exact hmap (k, i) (Std.TreeMap.mem_toList_iff_getElem?_eq_some.mpr hk) rfl
      obtain ⟨hreset, hs'⟩ := h.reset hptr hnot
      have hrun : s.run (.reset r) = .ok ⟨s.mem.destroy i, s.owner.setNull r, s.held.erase r⟩ := by
        dsimp only [HandleSession.run]
        rw [hreset]
        rfl
      refine ⟨⟨s, _, rfl, hrun, fun r' heq i' hi' => ?_⟩, _, hrun, hs'⟩
      cases heq
      rw [Option.mem_def, Option.mem_def.mp hptr] at hi'
      cases hi'
      exact ⟨hnot, fun k r' _ hi' => (h.pointer_setNull hptr hi').2.1 rfl⟩
    · rintro ⟨s₁, s', heq, hrun, hsafe⟩
      cases heq
      cases hptr : (s.owner.retention r).ptr with
      | none =>
        -- the second `reset` of an object reads through null
        dsimp only [HandleSession.run] at hrun
        unfold ShmObjManager.reset at hrun
        rw [hptr] at hrun
        cases hrun
      | some i =>
        refine ⟨i, hptr, fun e he => ?_⟩
        rintro rfl
        obtain ⟨o, ho⟩ := h.pointed r e.2 hptr
        have hmem : s'.mem = s.mem.destroy e.2 := by
          dsimp only [HandleSession.run] at hrun
          unfold ShmObjManager.reset at hrun
          rw [hptr] at hrun
          dsimp only at hrun
          rw [deref_of_some ho] at hrun
          cases hrun
          rfl
        -- `reset` leaves `shm_obj_map` as it is
        refine (hsafe r rfl e.2 hptr).mapped e.1 ?_
        rw [hmem]
        exact Std.TreeMap.mem_toList_iff_getElem?_eq_some.mp he
  · have hne : ∀ r, l ≠ .reset r := fun r heq => hl ⟨r, heq⟩
    have hless : ResetsNameless (.ok s) l := by
      cases l with
      | reset r => exact absurd rfl (hne r)
      | _ => trivial
    obtain ⟨s', hrun, hs'⟩ := h.run hne
    refine ⟨fun _ => ⟨⟨s, s', rfl, hrun, fun r heq => absurd heq (hne r)⟩, s', hrun, hs'⟩,
      fun _ => hless⟩

open TransitionSystem

/-- **Every call of a run is safe exactly if what is reset is there and has
no name** in all of them. -/
theorem safe_iff_resetsNameless {pid : ℕ}
    {tr : List (Except ObjectFault HandleSession × HandleCall)}
    {σ : Except ObjectFault HandleSession} (hr : (handleSystem pid).Run tr σ) :
    Steps SafeCall tr σ ↔ Met ResetsNameless tr := by
  refine Run.steps_iff (J := fun σ => ∃ s : HandleSession, σ = .ok s ∧ Alone s.mem s.owner)
    (fun σ hσ => ⟨_, hσ, .empty pid⟩) ?_ ?_ hr
  · rintro _ l σ' ⟨s, rfl, hs⟩ ⟨s₁, heq, _, rfl⟩ hcond
    cases heq
    exact hs.safeCall.1 hcond
  · rintro _ l σ' ⟨s, rfl, hs⟩ ⟨s₁, heq, _, rfl⟩ hcond hsafe
    cases heq
    exact hcond (hs.safeCall.2 hsafe)

/-- An object without a name is made, its handle copied and dropped, and
reset, and one with a name is locked and destroyed. -/
theorem safe_iff_resetsNameless_made : ∃ tr σ, (handleSystem 7).Run tr σ ∧ tr.length = 7
    ∧ Steps SafeCall tr σ := by
  have htrace : (trace nextHandle [] (.ok (HandleSession.fresh 7))
      [.create "T" "a" 1, .make "T", .copyHandle 1, .dropHandle 1, .reset 1, .lockObject 0,
        .destroy "a" 2]).map (fun e => (e.1.length, decide (Met ResetsNameless e.1)))
      = some (7, true) := by decide +kernel
  obtain ⟨tr, σ, hr, heq⟩ := Run.exists_of_trace (S := handleSystem 7) step_of_nextHandle rfl htrace
  obtain ⟨hlen, hmet⟩ := Prod.mk.inj heq
  exact ⟨tr, σ, hr, hlen, (safe_iff_resetsNameless hr).mpr (of_decide_eq_true hmet)⟩

/-- An object with a name is reset. Its name is still in `shm_obj_map`, and
destroying it reads the object which has been released. -/
theorem destroy_after_reset : ∃ tr, (handleSystem 7).Run tr (.error (.released 0))
    ∧ tr.map Prod.snd = [.destroy "a" 2, .reset 0, .create "T" "a" 1]
    ∧ ¬ Steps SafeCall tr (.error (.released 0)) := by
  have htrace : (trace nextHandle [] (.ok (HandleSession.fresh 7))
      [.create "T" "a" 1, .reset 0, .destroy "a" 2]).map
        (fun e => (e.1.map Prod.snd, match e.2 with | .ok _ => none | .error e => some e))
      = some ([.destroy "a" 2, .reset 0, .create "T" "a" 1], some (.released 0)) := by
    decide +kernel
  obtain ⟨tr, σ, hr, heq⟩ := Run.exists_of_trace (S := handleSystem 7) step_of_nextHandle rfl htrace
  obtain ⟨hlabels, hfault⟩ := Prod.mk.inj heq
  cases σ with
  | ok s => cases hfault
  | error e =>
    cases hfault
    refine ⟨tr, hr, hlabels, fun hsteps => ?_⟩
    cases tr with
    | nil => cases hlabels
    | cons e tr =>
      obtain ⟨⟨_, _, _, hok, _⟩, _⟩ := hsteps
      cases hok

end ShmObjManager
