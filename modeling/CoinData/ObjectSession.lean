import CoinData.ObjectSections
import CoinData.Runs

/-!
# One process by itself

A process without consumers, and with one thread, creates and destroys
objects by name, and locks them; its callers keep the handles they are
given, or copy and drop them. Then the tables of the manager are a registry
of names: they agree after every call, whoever has asked for a name has the
same retention, whether the name is still there or not, and an object lives
as long as its name.
-/

open Maps

namespace ShmObjManager

/-- A process which owns a node, and the handles its callers hold: the name
each was asked for, and the retention. -/
structure Session where
  mem : ShmSystemSharedInfo
  owner : ExtNodeMapItem
  held : List (String × ℕ)

/-- A call of the manager, or what a caller does with a handle. -/
inductive SessionCall where
  | create (name : String) (now : ℕ)
  | destroy (name : String) (now : ℕ)
  | lockObject (handle : String × ℕ)
  | copyHandle (handle : String × ℕ)
  | dropHandle (handle : String × ℕ)
deriving DecidableEq, Repr

/-- The call destroys the name. -/
def SessionCall.destroys (name : String) : SessionCall → Bool
  | .destroy name' _ => name' = name
  | _ => false

namespace Session

/-- How many handles of a retention callers hold. -/
def handles (s : Session) (r : ℕ) : ℕ := (s.held.filter fun e => e.2 = r).length

/-- Callers use the handles they have. -/
def Admits (s : Session) : SessionCall → Prop
  | .create .. | .destroy .. => True
  | .lockObject e | .copyHandle e | .dropHandle e => e ∈ s.held

instance (s : Session) : (l : SessionCall) → Decidable (s.Admits l)
  | .create .. | .destroy .. => inferInstanceAs (Decidable True)
  | .lockObject e | .copyHandle e | .dropHandle e => inferInstanceAs (Decidable (e ∈ s.held))

/-- Perform a call; objects of a name are of type `typeOf` of it. -/
def run (typeOf : String → String) (s : Session) : SessionCall → Except ObjectFault Session
  | .create name now =>
    let (ret, mem, owner) := create (typeOf name) name now s.mem s.owner
    .ok { s with
      mem := mem
      owner := owner
      held := match ret with
        | some r => (name, r) :: s.held
        | none => s.held }
  | .destroy name now => do
    let owner := destroyLocal name s.handles s.owner
    let mem ← destroyShared name now s.mem
    .ok { s with mem := mem, owner := owner }
  | .lockObject e => do
    let _ ← lockObject e.2 s.mem s.owner
    .ok s
  | .copyHandle e => .ok { s with held := e :: s.held }
  | .dropHandle e => .ok { s with held := s.held.erase e }

/-- Perform a call that is admitted and returns. -/
def next (typeOf : String → String) (s : Session) (l : SessionCall) : Option Session :=
  if s.Admits l then (s.run typeOf l).toOption else none

/-- A process before its first object. -/
def fresh (pid : ℕ) : Session := ⟨.empty pid, .empty, []⟩

end Session

/-- **The system of one process**, with the types of its names. -/
def sessionSystem (typeOf : String → String) (pid : ℕ) :
    TransitionSystem Session SessionCall where
  init s := s = Session.fresh pid
  step s l s' := s.Admits l ∧ s.run typeOf l = .ok s'

namespace Session

theorem step_of_next {typeOf : String → String} {pid : ℕ} (s : Session) (l : SessionCall)
    (s' : Session) (h : s.next typeOf l = some s') : (sessionSystem typeOf pid).step s l s' := by
  unfold next at h
  split at h
  · next hadm => exact ⟨hadm, Except.toOption_eq_some.mp h⟩
  · cases h

/-! ## History -/

/-- A name is created: the last call about it was `create`. -/
def isCreated (name : String) : List (Session × SessionCall) → Bool
  | [] => false
  | (_, .create name' _) :: tr => name' = name || isCreated name tr
  | (_, .destroy name' _) :: tr => name' ≠ name && isCreated name tr
  | (_, .lockObject _) :: tr | (_, .copyHandle _) :: tr | (_, .dropHandle _) :: tr =>
    isCreated name tr

/-- Where an `ObjectInfo` comes from: the name whose `create` has made it,
not finding the name, and the calls since. -/
def origin (info : ℕ) : List (Session × SessionCall) → Option (String × List SessionCall)
  | [] => none
  | (s, l) :: tr =>
    match origin info tr with
    | some (name, since) => some (name, l :: since)
    | none =>
      match l with
      | .create name _ =>
        if s.mem.nextInfo = info ∧ s.owner.objList[name]? = none then some (name, []) else none
      | _ => none

/-- How often an `ObjectInfo` has been released in a run. -/
def releases (info : ℕ) : List (Session × SessionCall) → Session → ℕ
  | [], _ => 0
  | (s, _) :: tr, s' =>
    releases info tr s + if s.mem.infos info ≠ none ∧ s'.mem.infos info = none then 1 else 0

/-- **A registry of names**: the tables agree, the handles of a name which
are held are one retention, `lock_object` runs its function if the name is
created, and every `ObjectInfo` is released once if its name has been
destroyed since it was made, and otherwise not. Every call returns. -/
structure Orderly (typeOf : String → String) (tr : List (Session × SessionCall))
    (s : Session) : Prop where
  keys : ∀ name : String, name ∈ s.owner.objList ↔ name ∈ s.mem.shmObjMap
  pointers : ∀ (name : String) r, s.owner.objList[name]? = some r →
    (s.owner.retention r).ptr = s.mem.shmObjMap[name]?
  oneRetention : ∀ e ∈ s.held, ∀ e' ∈ s.held, e.1 = e'.1 → e.2 = e'.2
  locks : ∀ e ∈ s.held, lockObject e.2 s.mem s.owner = .ok (isCreated e.1 tr)
  released : ∀ info, info < s.mem.nextInfo → ∃ name since,
    origin info tr = some (name, since)
      ∧ releases info tr s = if since.any (SessionCall.destroys name) then 1 else 0
  returns : ∀ l, s.Admits l → ∃ s', s.run typeOf l = .ok s'

/-! ## The invariant -/

/-- There is no other process. -/
def noNodes : Fin 0 → ExtNodeMapItem := Fin.elim0

/-- **The invariant**: an object which is not released has a name, names are
listed exactly if they have an object, a retention which waits is detached,
and what callers hold is listed or waits. -/
structure Inv (typeOf : String → String) (s : Session) : Prop where
  references : References s.mem noNodes
  noneRemoved : ∀ k : String, s.mem.shmObjRemovedMap[k]? = none
  named : ∀ i o, s.mem.infos i = some o → HasValue s.mem.shmObjMap i
  listed : ∀ (k : String) r, s.owner.objList[k]? = some r →
    r < s.owner.nextRetention ∧ (s.owner.retention r).type = some (typeOf k)
      ∧ (s.owner.retention r).attached = true
      ∧ ∃ i, (s.owner.retention r).ptr = some i ∧ s.mem.shmObjMap[k]? = some i
  mapped : ∀ (k : String) i, s.mem.shmObjMap[k]? = some i → ∃ r, s.owner.objList[k]? = some r
  waiting : ∀ (k : String) r, s.owner.objRemovedList[k]? = some r →
    r < s.owner.nextRetention ∧ (s.owner.retention r).type = some (typeOf k)
      ∧ (s.owner.retention r).attached = false
  apart : ∀ (k : String) r, s.owner.objList[k]? = some r → s.owner.objRemovedList[k]? = none
  waitingOneKey : OneKey s.owner.objRemovedList
  held : ∀ e ∈ s.held, s.owner.objList[e.1]? = some e.2 ∨ s.owner.objRemovedList[e.1]? = some e.2

variable {typeOf : String → String} {s s' : Session} {name : String} {r : ℕ}

/-- A listed retention has one key. -/
theorem Inv.listOneKey (h : s.Inv typeOf) : OneKey s.owner.objList := by
  intro k k' r hk hk'
  obtain ⟨_, _, _, i, hptr, hi⟩ := h.listed k r hk
  obtain ⟨_, _, _, i', hptr', hi'⟩ := h.listed k' r hk'
  rw [hptr] at hptr'
  cases hptr'
  exact h.references.sound.mapOneKey k k' i hi hi'

/-- An object which is allocated has the reference of the owner. -/
theorem Inv.refCnt (h : s.Inv typeOf) {i : ℕ} {o : ObjectInfo} (ho : s.mem.infos i = some o) :
    o.refCnt = 1 := by
  have hcnt := h.references.count i o ho
  rw [if_pos (h.named i o ho)] at hcnt
  exact hcnt

/-- **What a call does** to the tables. -/
inductive Effect (typeOf : String → String) (s s' : Session) (l : SessionCall) : Prop
  | same : s'.mem = s.mem → s'.owner = s.owner →
      (∀ name now, l = .create name now → ∃ r, s.owner.objList[name]? = some r) →
      (∀ name now, l = .destroy name now → s.mem.shmObjMap[name]? = none) →
      (∀ e ∈ s'.held, e ∈ s.held ∨ s.owner.objList[e.1]? = some e.2) →
      Effect typeOf s s' l
  | created (name : String) (now r : ℕ) : l = .create name now →
      s.owner.objList[name]? = none → s.mem.shmObjMap[name]? = none →
      s'.mem = { (s.mem.create (typeOf name) (some (typeOf name))).2 with
        shmObjMap := s.mem.shmObjMap.insertIfNew name s.mem.nextInfo
        updateTime := now } →
      Created s.owner s'.owner (typeOf name) name s.mem.nextInfo r →
      s'.held = (name, r) :: s.held → Effect typeOf s s' l
  | destroyed (name : String) (now r info : ℕ) (o : ObjectInfo) : l = .destroy name now →
      s.owner.objList[name]? = some r → s.mem.shmObjMap[name]? = some info →
      s.mem.infos info = some o → Destroyed s.mem s'.mem name info o →
      s'.owner = { s.owner.detach r with
        objList := s.owner.objList.erase name
        objRemovedList := if 1 < s.owner.useCount (s.handles r) r then
          s.owner.objRemovedList.insertIfNew name r else s.owner.objRemovedList } →
      s'.held = s.held → Effect typeOf s s' l

/-- What `lock_object` does with a handle which is held. -/
theorem Inv.lockObject (h : s.Inv typeOf) {e : String × ℕ} (he : e ∈ s.held) :
    lockObject e.2 s.mem s.owner = .ok (decide (e.1 ∈ s.owner.objList)) := by
  unfold ShmObjManager.lockObject
  rcases h.held e he with hlist | hwait
  · obtain ⟨_, _, hatt, i, hptr, hmap⟩ := h.listed e.1 e.2 hlist
    obtain ⟨o, ho, hlive⟩ := h.references.sound.mapped e.1 i hmap
    rw [if_pos hatt, hptr]
    show (s.mem.deref i >>= _) = _
    rw [ShmSystemSharedInfo.deref_of_some ho]
    have hmem : e.1 ∈ s.owner.objList := by
      rw [Std.TreeMap.mem_iff_isSome_getElem?, hlist]
      rfl
    rw [decide_eq_true hmem]
    show Except.ok (!o.isDestroy) = _
    rw [hlive]
    rfl
  · obtain ⟨_, _, hatt⟩ := h.waiting e.1 e.2 hwait
    have hmem : e.1 ∉ s.owner.objList := by
      rw [Std.TreeMap.mem_iff_isSome_getElem?]
      cases hlist : s.owner.objList[e.1]? with
      | none => exact Bool.false_ne_true
      | some r =>
        rw [h.apart e.1 r hlist] at hwait
        cases hwait
    rw [decide_eq_false hmem, hatt]
    rfl

/-- **Every admitted call returns**, and its effect is one of those
above. -/
theorem Inv.run_spec (h : s.Inv typeOf) {l : SessionCall} (hl : s.Admits l) :
    ∃ s', s.run typeOf l = .ok s' ∧ Effect typeOf s s' l := by
  cases l with
  | create name now =>
    cases hname : s.owner.objList[name]? with
    | some r =>
      obtain ⟨_, htype, _⟩ := h.listed name r hname
      have hrun : ShmObjManager.create (typeOf name) name now s.mem s.owner
          = (some r, s.mem, s.owner) := by
        rw [create_listed hname, if_pos htype]
      refine ⟨{ s with held := (name, r) :: s.held }, ?_, .same rfl rfl ?_ nofun ?_⟩
      · dsimp only [run]
        rw [hrun]
      · rintro name' now' ⟨⟩
        exact ⟨r, hname⟩
      · intro e he
        rcases List.mem_cons.mp he with rfl | he
        · exact Or.inr hname
        · exact Or.inl he
    | none =>
      have hmap : s.mem.shmObjMap[name]? = none := by
        cases hmap : s.mem.shmObjMap[name]? with
        | none => rfl
        | some i =>
          obtain ⟨r, hr⟩ := h.mapped name i hmap
          rw [hname] at hr
          cases hr
      obtain ⟨r, node, hrun, hc⟩ := create_new hname hmap (typeOf name) now
      refine ⟨{ s with mem := _, owner := node, held := (name, r) :: s.held }, ?_,
        .created name now r rfl hname hmap rfl hc rfl⟩
      dsimp only [run]
      rw [hrun]
  | destroy name now =>
    dsimp only [run]
    cases hmap : s.mem.shmObjMap[name]? with
    | none =>
      have hname : s.owner.objList[name]? = none := by
        cases hname : s.owner.objList[name]? with
        | none => rfl
        | some r =>
          obtain ⟨_, _, _, i, _, hi⟩ := h.listed name r hname
          rw [hmap] at hi
          cases hi
      have hlocal : destroyLocal name s.handles s.owner = s.owner := by
        unfold destroyLocal
        rw [hname]
      have hshared : destroyShared name now s.mem = .ok s.mem := by
        unfold destroyShared
        rw [hmap]
      rw [hlocal, hshared]
      refine ⟨s, rfl, .same rfl rfl nofun ?_ fun e he => Or.inl he⟩
      rintro name' now' ⟨⟩
      exact hmap
    | some info =>
      obtain ⟨r, hname⟩ := h.mapped name info hmap
      obtain ⟨o, mem', ho, hrun, hd⟩ := destroyShared_spec h.references.sound hmap now
      rw [destroyLocal_listed hname, hrun]
      exact ⟨_, rfl, .destroyed name now r info o rfl hname hmap ho hd rfl rfl⟩
  | lockObject e =>
    refine ⟨s, ?_, .same rfl rfl nofun nofun fun e he => Or.inl he⟩
    dsimp only [run]
    rw [h.lockObject hl]
    rfl
  | copyHandle e =>
    refine ⟨_, rfl, .same rfl rfl nofun nofun fun e' he' => Or.inl ?_⟩
    rcases List.mem_cons.mp he' with rfl | he'
    · exact hl
    · exact he'
  | dropHandle e =>
    exact ⟨_, rfl, .same rfl rfl nofun nofun fun e' he' => Or.inl (List.mem_of_mem_erase he')⟩

/-- A retention which waits, or is made next, is not listed. -/
theorem Inv.not_listed (h : s.Inv typeOf) {k : String} {r' : ℕ}
    (hr : s.owner.objRemovedList[name]? = some r ∨ r = s.owner.nextRetention)
    (hk : s.owner.objList[k]? = some r') : r' ≠ r := by
  rintro rfl
  obtain ⟨hlt, _, hatt, _⟩ := h.listed k r' hk
  rcases hr with hwait | hr
  · obtain ⟨_, _, hatt'⟩ := h.waiting name r' hwait
    rw [hatt] at hatt'
    cases hatt'
  · exact absurd hr hlt.ne

/-- **Making an object keeps the invariant.** -/
theorem Inv.created (h : s.Inv typeOf) {now : ℕ} (hname : s.owner.objList[name]? = none)
    (hmap : s.mem.shmObjMap[name]? = none)
    (hmem : s'.mem = { (s.mem.create (typeOf name) (some (typeOf name))).2 with
      shmObjMap := s.mem.shmObjMap.insertIfNew name s.mem.nextInfo
      updateTime := now })
    (hc : Created s.owner s'.owner (typeOf name) name s.mem.nextInfo r)
    (hheld : s'.held = (name, r) :: s.held) : s'.Inv typeOf := by
  have hmapped : ∀ k : String, s'.mem.shmObjMap[k]? =
      if k = name then some s.mem.nextInfo else s.mem.shmObjMap[k]? := by
    intro k
    rw [hmem]
    exact insertIfNew_of_none hmap _ k
  have hr : s.owner.objRemovedList[name]? = some r ∨ r = s.owner.nextRetention := by
    rcases hc.source with ⟨hwait, _⟩ | ⟨_, hr, _⟩
    · exact Or.inl hwait
    · exact Or.inr hr
  have hnext := hc.nextRetention_le
  have hself : r < s'.owner.nextRetention ∧ (s'.owner.retention r).type = some (typeOf name) := by
    rcases hc.source with ⟨hwait, hn, ht⟩ | ⟨_, hr, hn, ht⟩
    · obtain ⟨hlt, ht', _⟩ := h.waiting name r hwait
      exact ⟨hlt.trans_eq hn.symm, ht.trans ht'⟩
    · exact ⟨by omega, ht⟩
  -- a retention which goes on waiting is another one
  have hother : ∀ (k : String) r', k ≠ name → s.owner.objRemovedList[k]? = some r' → r' ≠ r := by
    rintro k r' hk hwait rfl
    rcases hr with hwait' | hr
    · exact hk (h.waitingOneKey k name r' hwait hwait')
    · exact absurd hr (h.waiting k r' hwait).1.ne
  refine ⟨?_, fun k => ?_, fun i o ho => ?_, fun k r' hk => ?_, fun k i hk => ?_,
    fun k r' hk => ?_, fun k r' hk => ?_, hc.waitingOneKey h.waitingOneKey, fun e he => ?_⟩
  · obtain ⟨_, _, hrun, _⟩ := create_new hname hmap (typeOf name) now
    have href := h.references.create (typeOf name) name now s.owner
    rw [hrun] at href
    rw [hmem]
    exact href
  · rw [hmem]
    exact h.noneRemoved k
  · rw [hmem] at ho ⊢
    show HasValue (s.mem.shmObjMap.insertIfNew name s.mem.nextInfo) i
    rw [hasValue_insertIfNew hmap]
    by_cases hi : i = s.mem.nextInfo
    · exact Or.inl hi
    · exact Or.inr (h.named i o ((Function.update_of_ne hi _ _).symm.trans ho))
  · rw [hc.objList k] at hk
    split at hk
    · next hkn =>
      cases hk
      rw [hmapped, if_pos hkn, hkn]
      exact ⟨hself.1, hself.2, hc.attached, _, hc.ptr, rfl⟩
    · next hkn =>
      rw [hmapped, if_neg hkn, hc.others r' (h.not_listed hr hk)]
      obtain ⟨hlt, hrest⟩ := h.listed k r' hk
      exact ⟨hlt.trans_le hnext, hrest⟩
  · rw [hmem] at hk
    exact hc.mapped hmap h.mapped hk
  · rw [hc.objRemovedList k] at hk
    split at hk
    · cases hk
    · next hkn =>
      rw [hc.others r' (hother k r' hkn hk)]
      obtain ⟨hlt, hrest⟩ := h.waiting k r' hk
      exact ⟨hlt.trans_le hnext, hrest⟩
  · rw [hc.objList k] at hk
    rw [hc.objRemovedList k]
    split at hk
    · next hkn => exact if_pos hkn
    · next hkn => exact (if_neg hkn).trans (h.apart k r' hk)
  · rw [hheld] at he
    rcases List.mem_cons.mp he with rfl | he
    · refine Or.inl ?_
      rw [hc.objList, if_pos rfl]
    · exact hc.holds hname (h.held e he)

/-- **Destroying an object keeps the invariant.** -/
theorem Inv.destroyed (h : s.Inv typeOf) {info : ℕ} {o : ObjectInfo}
    (hname : s.owner.objList[name]? = some r) (hmap : s.mem.shmObjMap[name]? = some info)
    (ho : s.mem.infos info = some o) (hd : Destroyed s.mem s'.mem name info o)
    (howner : s'.owner = { s.owner.detach r with
      objList := s.owner.objList.erase name
      objRemovedList := if 1 < s.owner.useCount (s.handles r) r then
        s.owner.objRemovedList.insertIfNew name r else s.owner.objRemovedList })
    (hheld : s'.held = s.held) : s'.Inv typeOf := by
  obtain ⟨hr, htype, hatt, _⟩ := h.listed name r hname
  have hcnt := h.refCnt ho
  have hlocal : s'.owner = destroyLocal name s.handles s.owner :=
    howner.trans (destroyLocal_listed hname s.handles).symm
  have hself : s'.owner.retention r = { s.owner.retention r with ptr := none, attached := false } := by
    rw [howner]
    exact Function.update_self ..
  have hothers : ∀ r', r' ≠ r → s'.owner.retention r' = s.owner.retention r' := by
    intro r' hr'
    rw [hlocal]
    refine destroyLocal_retention fun h' => hr' ?_
    rw [hname] at h'
    exact (Option.some.inj h').symm
  have hnext : s'.owner.nextRetention = s.owner.nextRetention := by
    rw [howner]
    rfl
  have hlist : ∀ k : String, s'.owner.objList[k]? =
      if k = name then none else s.owner.objList[k]? := by
    intro k
    rw [hlocal, destroyLocal_objList]
  have hwait : ∀ (k : String) r', s'.owner.objRemovedList[k]? = some r' →
      k = name ∧ r' = r ∨ s.owner.objRemovedList[k]? = some r' := by
    intro k r' hk
    rw [hlocal] at hk
    refine (destroyLocal_objRemovedList hk).imp_left fun ⟨hkn, hr'⟩ => ⟨hkn, ?_⟩
    rw [hname] at hr'
    exact (Option.some.inj hr').symm
  have hwaiting : ∀ (k : String) r', s.owner.objRemovedList[k]? = some r' → r' ≠ r := by
    rintro k r' hk rfl
    obtain ⟨_, _, hatt'⟩ := h.waiting k r' hk
    rw [hatt] at hatt'
    cases hatt'
  have hmem : ∀ k : String, s'.mem.shmObjMap[k]? =
      if k = name then none else s.mem.shmObjMap[k]? := by
    intro k
    rw [hd.shmObjMap]
    exact getElem?_erase _ _ _
  refine ⟨hd.references h.references hmap ho, fun k => ?_, fun i o' ho' => ?_, fun k r' hk => ?_,
    fun k i hk => ?_, fun k r' hk => ?_, fun k r' hk => ?_, ?_, fun e he => ?_⟩
  · cases hk : s'.mem.shmObjRemovedMap[k]? with
    | none => rfl
    | some i =>
      rcases hd.removed k i hk with ⟨_, hne⟩ | ⟨_, hold, _⟩
      · exact absurd hcnt hne
      · rw [h.noneRemoved k] at hold
        cases hold
  · have hi : i ≠ info := by
      rintro rfl
      rcases hd.self with ⟨_, hgone⟩ | ⟨hne, _⟩
      · rw [hgone] at ho'
        cases ho'
      · exact hne hcnt
    rw [hd.shmObjMap, hasValue_erase h.references.sound.mapOneKey hmap]
    exact ⟨h.named i o' (hd.infos_of_ne hi ho'), hi⟩
  · rw [hlist k] at hk
    split at hk
    · cases hk
    · next hkn =>
      have hne : r' ≠ r := by
        rintro rfl
        exact hkn (h.listOneKey k name r' hk hname)
      rw [hothers r' hne, hnext, hmem k, if_neg hkn]
      exact h.listed k r' hk
  · rw [hmem k] at hk
    rw [hlist k]
    split at hk
    · cases hk
    · next hkn =>
      obtain ⟨r', hr'⟩ := h.mapped k i hk
      exact ⟨r', (if_neg hkn).trans hr'⟩
  · rw [hnext]
    rcases hwait k r' hk with ⟨hkn, rfl⟩ | hk
    · rw [hself, hkn]
      exact ⟨hr, htype, rfl⟩
    · rw [hothers r' (hwaiting k r' hk)]
      exact h.waiting k r' hk
  · rw [hlist k] at hk
    split at hk
    · cases hk
    · next hkn =>
      cases hold : s'.owner.objRemovedList[k]? with
      | none => rfl
      | some r'' =>
        rcases hwait k r'' hold with ⟨hkn', _⟩ | hold
        · exact absurd hkn' hkn
        · rw [h.apart k r' hk] at hold
          cases hold
  · rw [hlocal]
    refine destroyLocal_waitingOneKey h.waitingOneKey fun k r' hk hr' => hwaiting k r' hk ?_
    rw [hname] at hr'
    exact (Option.some.inj hr').symm
  · rw [hheld] at he
    have hpos : 0 < s.handles e.2 :=
      List.length_pos_of_mem (List.mem_filter.mpr ⟨he, decide_eq_true rfl⟩)
    rw [hlocal]
    exact ExtNodeMapItem.Holds.destroyLocal (h.held e he) hpos fun r' => h.apart name r'

/-- A call keeps the invariant. -/
theorem Effect.inv {l : SessionCall} (he : Effect typeOf s s' l) (h : s.Inv typeOf) :
    s'.Inv typeOf := by
  cases he with
  | same hmem howner _ _ hheld =>
    obtain ⟨mem', owner', held'⟩ := s'
    dsimp only at hmem howner hheld
    subst hmem howner
    refine ⟨h.references, h.noneRemoved, h.named, h.listed, h.mapped, h.waiting, h.apart,
      h.waitingOneKey, fun e he => ?_⟩
    rcases hheld e he with hold | hlist
    · exact h.held e hold
    · exact Or.inl hlist
  | created name now r _ hname hmap hmem hc hheld => exact h.created hname hmap hmem hc hheld
  | destroyed name now r info o _ hname hmap ho hd howner hheld =>
    exact h.destroyed hname hmap ho hd howner hheld

theorem fresh_inv (typeOf : String → String) (pid : ℕ) : (fresh pid).Inv typeOf := by
  refine ⟨⟨?_, nofun, nofun⟩, fun k => Std.TreeMap.getElem?_emptyc, nofun,
    fun k r h => absurd h (empty_ne_some k r), fun k i h => absurd h (empty_ne_some k i),
    fun k r h => absurd h (empty_ne_some k r), fun k r h => absurd h (empty_ne_some k r),
    oneKey_empty, nofun⟩
  exact ⟨fun _ _ => rfl, nofun, fun k i h => absurd h (empty_ne_some k i),
    fun k i h => absurd h (empty_ne_some k i), oneKey_empty, oneKey_empty⟩

/-! ## What has happened to a name, and to an object -/

variable {tr : List (Session × SessionCall)} {l : SessionCall} {info : ℕ}

theorem mem_listed_iff {m : NameMap ℕ} {k : String} : k ∈ m ↔ ∃ r, m[k]? = some r := by
  rw [Std.TreeMap.mem_iff_isSome_getElem?, Option.isSome_iff_exists]

/-- A name is listed exactly if it is created. -/
theorem Effect.isCreated (he : Effect typeOf s s' l) (h : s.Inv typeOf) {k : String}
    (hk : isCreated k tr = true ↔ k ∈ s.owner.objList) :
    Session.isCreated k ((s, l) :: tr) = true ↔ k ∈ s'.owner.objList := by
  cases he with
  | same _ howner hcreate hdestroy _ =>
    rw [howner]
    cases l with
    | create name now =>
      show (decide (name = k) || Session.isCreated k tr) = true ↔ _
      rw [Bool.or_eq_true, hk, decide_eq_true_eq]
      refine or_iff_right_of_imp ?_
      rintro rfl
      exact mem_listed_iff.mpr (hcreate _ _ rfl)
    | destroy name now =>
      show (decide (name ≠ k) && Session.isCreated k tr) = true ↔ _
      rw [Bool.and_eq_true, hk, decide_eq_true_eq]
      refine and_iff_right_of_imp ?_
      rintro hmem rfl
      obtain ⟨r, hr⟩ := mem_listed_iff.mp hmem
      obtain ⟨_, _, _, i, _, hi⟩ := h.listed _ r hr
      rw [hdestroy _ _ rfl] at hi
      cases hi
    | lockObject e => exact hk
    | copyHandle e => exact hk
    | dropHandle e => exact hk
  | created name now r hl _ _ _ hc _ =>
    rw [hl]
    show (decide (name = k) || Session.isCreated k tr) = true ↔ _
    rw [Bool.or_eq_true, hk, decide_eq_true_eq, mem_listed_iff, mem_listed_iff, hc.objList k]
    by_cases hkn : k = name
    · rw [if_pos hkn]
      exact iff_of_true (Or.inl hkn.symm) ⟨r, rfl⟩
    · rw [if_neg hkn]
      exact or_iff_right (Ne.symm hkn)
  | destroyed name now r i o hl _ _ _ _ howner _ =>
    rw [hl, howner]
    show (decide (name ≠ k) && Session.isCreated k tr) = true ↔ k ∈ s.owner.objList.erase name
    rw [Bool.and_eq_true, hk, decide_eq_true_eq, mem_listed_iff, mem_listed_iff, getElem?_erase]
    by_cases hkn : k = name
    · rw [if_pos hkn]
      exact iff_of_false (fun hand => hand.1 hkn.symm) nofun
    · rw [if_neg hkn]
      exact and_iff_right (Ne.symm hkn)

/-- **How an `ObjectInfo` lives**: not made yet, or in use under the name it
was made for, or released once that was destroyed. -/
inductive Lifetime (info : ℕ) (tr : List (Session × SessionCall)) (s : Session) : Prop
  | unmade : origin info tr = none → s.mem.nextInfo ≤ info → releases info tr s = 0 →
      Lifetime info tr s
  | alive (name : String) (since : List SessionCall) : origin info tr = some (name, since) →
      since.any (SessionCall.destroys name) = false → info < s.mem.nextInfo →
      s.mem.shmObjMap[name]? = some info → releases info tr s = 0 → Lifetime info tr s
  | ended (name : String) (since : List SessionCall) : origin info tr = some (name, since) →
      since.any (SessionCall.destroys name) = true → info < s.mem.nextInfo →
      s.mem.infos info = none → releases info tr s = 1 → Lifetime info tr s

/-- The origin of an object stays. -/
theorem origin_cons {since : List SessionCall} (h : origin info tr = some (name, since)) :
    origin info ((s, l) :: tr) = some (name, l :: since) := by
  unfold origin
  rw [h]

/-- A call which makes nothing is not an origin. -/
theorem origin_cons_none (h : origin info tr = none)
    (hl : ∀ name now, l = .create name now →
      ¬ (s.mem.nextInfo = info ∧ s.owner.objList[name]? = none)) :
    origin info ((s, l) :: tr) = none := by
  unfold origin
  rw [h]
  cases l with
  | create name now => exact if_neg (hl name now rfl)
  | destroy name now => rfl
  | lockObject e => rfl
  | copyHandle e => rfl
  | dropHandle e => rfl

/-- A call which does not release an object. -/
theorem releases_cons (h : s.mem.infos info = none ∨ s'.mem.infos info ≠ none) :
    releases info ((s, l) :: tr) s' = releases info tr s := by
  show releases info tr s + (if _ then 1 else 0) = _
  rw [if_neg]
  · rfl
  · rintro ⟨hsome, hnone⟩
    rcases h with h | h
    · exact hsome h
    · exact h hnone

/-- A call destroys a name. -/
theorem destroys_iff {l : SessionCall} :
    l.destroys name = true ↔ ∃ now, l = .destroy name now := by
  cases l <;> simp [SessionCall.destroys]

/-- What holds of an object in use. -/
theorem Inv.infos_of_mapped (h : s.Inv typeOf) (hk : s.mem.shmObjMap[name]? = some info) :
    ∃ o, s.mem.infos info = some o :=
  let ⟨o, ho, _⟩ := h.references.sound.mapped name info hk
  ⟨o, ho⟩

/-- An object in use goes on being in use, if its name is not destroyed. -/
theorem Lifetime.alive_cons {since : List SessionCall} (horig : origin info tr = some (name, since))
    (hany : since.any (SessionCall.destroys name) = false) (hl : ∀ now, l ≠ .destroy name now)
    (hlt : info < s'.mem.nextInfo) (hmap : s'.mem.shmObjMap[name]? = some info)
    (hzero : releases info ((s, l) :: tr) s' = 0) : Lifetime info ((s, l) :: tr) s' := by
  refine .alive name (l :: since) (origin_cons horig) ?_ hlt hmap hzero
  rw [List.any_cons, hany, Bool.or_false, Bool.eq_false_iff]
  intro hdes
  obtain ⟨now, hnow⟩ := destroys_iff.mp hdes
  exact hl now hnow

/-- An object that was released stays so. -/
theorem Lifetime.ended_cons {since : List SessionCall} (horig : origin info tr = some (name, since))
    (hany : since.any (SessionCall.destroys name) = true) (hlt : info < s'.mem.nextInfo)
    (hgone : s.mem.infos info = none) (hgone' : s'.mem.infos info = none)
    (hone : releases info tr s = 1) : Lifetime info ((s, l) :: tr) s' := by
  refine .ended name (l :: since) (origin_cons horig) ?_ hlt hgone'
    ((releases_cons (.inl hgone)).trans hone)
  rw [List.any_cons, hany, Bool.or_true]

/-- **A call that changes nothing** in the tables. -/
theorem Lifetime.same (hlife : Lifetime info tr s) (hmem : s'.mem = s.mem)
    (hcreate : ∀ name now, l = .create name now → ∃ r, s.owner.objList[name]? = some r)
    (hdestroy : ∀ name now, l = .destroy name now → s.mem.shmObjMap[name]? = none) :
    Lifetime info ((s, l) :: tr) s' := by
  have hrel : releases info ((s, l) :: tr) s' = releases info tr s := by
    refine releases_cons ?_
    rw [hmem]
    exact em _
  cases hlife with
  | unmade horig hnext hzero =>
    refine .unmade (origin_cons_none horig ?_) (hmem ▸ hnext) (hrel.trans hzero)
    rintro name now rfl ⟨_, hnone⟩
    obtain ⟨r, hr⟩ := hcreate name now rfl
    rw [hnone] at hr
    cases hr
  | alive name since horig hany hlt hmap hzero =>
    refine .alive_cons horig hany ?_ (hmem ▸ hlt) (hmem ▸ hmap) (hrel.trans hzero)
    rintro now rfl
    rw [hdestroy name now rfl] at hmap
    cases hmap
  | ended name since horig hany hlt hgone hone =>
    exact .ended_cons horig hany (hmem ▸ hlt) hgone (hmem ▸ hgone) hone

/-- **A call that makes an object.** -/
theorem Lifetime.created (hlife : Lifetime info tr s) {name₀ : String} {now : ℕ}
    (hl : l = .create name₀ now) (hname : s.owner.objList[name₀]? = none)
    (hmap₀ : s.mem.shmObjMap[name₀]? = none)
    (hmem : s'.mem = { (s.mem.create (typeOf name₀) (some (typeOf name₀))).2 with
      shmObjMap := s.mem.shmObjMap.insertIfNew name₀ s.mem.nextInfo
      updateTime := now }) : Lifetime info ((s, l) :: tr) s' := by
  have hnext' : s'.mem.nextInfo = s.mem.nextInfo + 1 := by
    rw [hmem]
    rfl
  have hinfos : ∀ i, i ≠ s.mem.nextInfo → s'.mem.infos i = s.mem.infos i := by
    intro i hi
    rw [hmem]
    exact Function.update_of_ne hi _ _
  have hself : s'.mem.infos s.mem.nextInfo ≠ none := by
    rw [hmem]
    show Function.update s.mem.infos s.mem.nextInfo (some _) s.mem.nextInfo ≠ none
    rw [Function.update_self]
    exact Option.some_ne_none _
  have hmaps : ∀ name, s'.mem.shmObjMap[name]?
      = if name = name₀ then some s.mem.nextInfo else s.mem.shmObjMap[name]? := by
    intro name
    rw [hmem]
    exact insertIfNew_of_none hmap₀ _ _
  have hrel : releases info ((s, l) :: tr) s' = releases info tr s := by
    refine releases_cons ?_
    by_cases hi : info = s.mem.nextInfo
    · rw [hi]
      exact Or.inr hself
    · rw [hinfos info hi]
      exact em _
  cases hlife with
  | unmade horig hnext hzero =>
    by_cases hi : info = s.mem.nextInfo
    · refine .alive name₀ [] ?_ rfl (by omega) ?_ (hrel.trans hzero)
      · unfold origin
        rw [horig, hl]
        exact if_pos ⟨hi.symm, hname⟩
      · rw [hmaps, if_pos rfl, hi]
    · refine .unmade (origin_cons_none horig ?_) (by omega) (hrel.trans hzero)
      rintro _ _ _ ⟨heq, _⟩
      exact hi heq.symm
  | alive name since horig hany hlt hmap hzero =>
    refine .alive_cons horig hany ?_ (by omega) ?_ (hrel.trans hzero)
    · rintro now' rfl
      cases hl
    · rw [hmaps, if_neg, hmap]
      rintro rfl
      rw [hmap₀] at hmap
      cases hmap
  | ended name since horig hany hlt hgone hone =>
    exact .ended_cons horig hany (by omega) hgone ((hinfos info hlt.ne).trans hgone) hone

/-- **A call that releases an object.** -/
theorem Lifetime.destroyed (hlife : Lifetime info tr s) (h : s.Inv typeOf) {name₀ : String}
    {now info₀ : ℕ} {o : ObjectInfo} (hl : l = .destroy name₀ now)
    (hmap₀ : s.mem.shmObjMap[name₀]? = some info₀) (ho : s.mem.infos info₀ = some o)
    (hd : Destroyed s.mem s'.mem name₀ info₀ o) : Lifetime info ((s, l) :: tr) s' := by
  have hgone₀ : s'.mem.infos info₀ = none := by
    rcases hd.self with ⟨_, hgone⟩ | ⟨hne, _⟩
    · exact hgone
    · exact absurd (h.refCnt ho) hne
  have hinfos : ∀ i, i ≠ info₀ → s'.mem.infos i = s.mem.infos i := by
    intro i hi
    rcases hd.kept i hi with hkept | ⟨_, ⟨k, hk⟩, _⟩
    · exact hkept
    · rw [h.noneRemoved k] at hk
      cases hk
  cases hlife with
  | unmade horig hnext hzero =>
    have hnone := h.references.sound.unborn info hnext
    refine .unmade (origin_cons_none horig ?_) (hd.nextInfo ▸ hnext)
      ((releases_cons (Or.inl hnone)).trans hzero)
    rintro name now' hl'
    rw [hl] at hl'
    cases hl'
  | alive name since horig hany hlt hmap hzero =>
    by_cases hn : name = name₀
    · -- it is the one
      rw [hn] at hmap
      cases hmap₀.symm.trans hmap
      refine .ended name (l :: since) (origin_cons horig) ?_ (hd.nextInfo ▸ hlt) hgone₀ ?_
      · rw [List.any_cons, destroys_iff.mpr ⟨now, hn ▸ hl⟩, Bool.true_or]
      · unfold releases
        rw [hzero, if_pos ⟨by rw [ho]; exact Option.some_ne_none o, hgone₀⟩]
    · have hi : info ≠ info₀ := by
        rintro rfl
        exact hn (h.references.sound.mapOneKey name name₀ info hmap hmap₀)
      obtain ⟨o', ho'⟩ := h.infos_of_mapped hmap
      refine .alive_cons horig hany ?_ (hd.nextInfo ▸ hlt) ?_
        ((releases_cons (Or.inr ?_)).trans hzero)
      · rintro now' hl'
        rw [hl] at hl'
        cases hl'
        exact hn rfl
      · rw [hd.shmObjMap, getElem?_erase, if_neg hn, hmap]
      · rw [hinfos info hi, ho']
        exact Option.some_ne_none o'
  | ended name since horig hany hlt hgone hone =>
    have hi : info ≠ info₀ := by
      rintro rfl
      rw [hgone] at ho
      cases ho
    exact .ended_cons horig hany (hd.nextInfo ▸ hlt) hgone ((hinfos info hi).trans hgone) hone

/-- **An object goes on living** as it should. -/
theorem Effect.lifetime (he : Effect typeOf s s' l) (h : s.Inv typeOf)
    (hlife : Lifetime info tr s) : Lifetime info ((s, l) :: tr) s' := by
  cases he with
  | same hmem _ hcreate hdestroy _ => exact hlife.same hmem hcreate hdestroy
  | created name now r hl hname hmap hmem _ _ => exact hlife.created hl hname hmap hmem
  | destroyed name now r info₀ o hl _ hmap ho hd _ _ => exact hlife.destroyed h hl hmap ho hd

/-- **The invariant of a run.** -/
theorem run_inv {pid : ℕ} (hr : (sessionSystem typeOf pid).Run tr s) :
    s.Inv typeOf ∧ (∀ k, isCreated k tr = true ↔ k ∈ s.owner.objList)
      ∧ ∀ info, Lifetime info tr s := by
  induction hr with
  | start hs =>
    rw [show _ = fresh pid from hs]
    refine ⟨fresh_inv typeOf pid, fun k => ?_, fun info => .unmade rfl (Nat.zero_le _) rfl⟩
    rw [mem_listed_iff]
    refine iff_of_false Bool.false_ne_true ?_
    rintro ⟨r, hr⟩
    exact empty_ne_some k r hr
  | snoc hr hstep ih =>
    obtain ⟨h, hkeys, hlife⟩ := ih
    obtain ⟨s₁, hrun, he⟩ := h.run_spec hstep.1
    have heq := hstep.2
    rw [hrun] at heq
    cases heq
    exact ⟨he.inv h, fun k => he.isCreated h (hkeys k), fun info => he.lifetime h (hlife info)⟩

end Session

/-- **A process by itself is a registry of names**, after every sequence of
calls. -/
theorem session_orderly {typeOf : String → String} {pid : ℕ}
    {tr : List (Session × SessionCall)} {s : Session}
    (hr : (sessionSystem typeOf pid).Run tr s) : s.Orderly typeOf tr := by
  obtain ⟨h, hkeys, hlife⟩ := Session.run_inv hr
  refine ⟨fun name => ?_, fun name r hname => ?_, fun e he e' he' heq => ?_, fun e he => ?_,
    fun info hinfo => ?_, fun l hl => ?_⟩
  · rw [Session.mem_listed_iff, Session.mem_listed_iff]
    constructor
    · rintro ⟨r, hr⟩
      obtain ⟨_, _, _, i, _, hi⟩ := h.listed name r hr
      exact ⟨i, hi⟩
    · rintro ⟨i, hi⟩
      exact h.mapped name i hi
  · obtain ⟨_, _, _, i, hptr, hi⟩ := h.listed name r hname
    rw [hptr, hi]
  · have h₁ := h.held e he
    have h₂ := h.held e' he'
    rw [← heq] at h₂
    rcases h₁ with h₁ | h₁ <;> rcases h₂ with h₂ | h₂
    · exact Option.some.inj (h₁.symm.trans h₂)
    · rw [h.apart _ _ h₁] at h₂
      cases h₂
    · rw [h.apart _ _ h₂] at h₁
      cases h₁
    · exact Option.some.inj (h₁.symm.trans h₂)
  · rw [h.lockObject he]
    exact congrArg Except.ok (Bool.eq_iff_iff.mpr (decide_eq_true_iff.trans (hkeys e.1).symm))
  · cases hlife info with
    | unmade _ hnext _ => exact absurd hinfo (not_lt.mpr hnext)
    | alive name since horig hany _ _ hzero =>
      refine ⟨name, since, horig, ?_⟩
      rw [hany, hzero]
      rfl
    | ended name since horig hany _ _ hone =>
      refine ⟨name, since, horig, ?_⟩
      rw [hany, hone]
      rfl
  · obtain ⟨s', hrun, _⟩ := h.run_spec hl
    exact ⟨s', hrun⟩

open TransitionSystem

/-- A name is destroyed while a handle of it is held, and created again: the
caller is given the retention it has. -/
theorem session_orderly_again : ∃ tr s, (sessionSystem (fun name => "T_" ++ name) 7).Run tr s
    ∧ s.held = [("a", 0), ("b", 1), ("a", 0)] ∧ Session.releases 0 tr s = 1
    ∧ s.Orderly (fun name => "T_" ++ name) tr := by
  have htrace : (trace (Session.next fun name => "T_" ++ name) [] (Session.fresh 7)
      [.create "a" 1, .lockObject ("a", 0), .create "b" 2, .destroy "a" 3, .lockObject ("a", 0),
        .create "a" 4]).map (fun e => (e.2.held, Session.releases 0 e.1 e.2))
      = some ([("a", 0), ("b", 1), ("a", 0)], 1) := by decide +kernel
  obtain ⟨tr, s, hr, heq⟩ :=
    Run.exists_of_trace (S := sessionSystem (fun name => "T_" ++ name) 7) Session.step_of_next rfl htrace
  obtain ⟨hheld, hrel⟩ := Prod.mk.inj heq
  exact ⟨tr, s, hr, hheld, hrel, session_orderly hr⟩

end ShmObjManager
