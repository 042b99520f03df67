import CoinData.ObjectSystem
import CoinData.Results

/-!
# What a notification brings about

When the key file of a node is touched, `inotify_shared_object_monitor_`
goes over what the process tracks of the node: it looks again for the
objects it waits for, and then gives up those which are destroyed. Names
do not influence each other, so a run of it is one function of what is
tracked of each name (`Tracking.lookAgain`, then `Tracking.giveUp`).

Inotify merges notifications, so an object may be destroyed and created
again under its name before the monitor runs. It then finds the name in its
`obj_list`, does not look for it, and gives the old object up.
-/

open Maps

namespace ShmObjManager

/-! ## The monitor -/

/-- The first loop of `inotify_shared_object_monitor_`, over the
`obj_removed_list`. -/
def monitorRemovedLoop : List String → ShmSystemSharedInfo → ExtNodeMapItem →
    Except ObjectFault (ShmSystemSharedInfo × ExtNodeMapItem)
  | [], mem, node => .ok (mem, node)
  | key :: keys, mem, node => do
    let (mem, node) ← monitorRemoved key mem node
    monitorRemovedLoop keys mem node

/-- The second loop, over the `obj_list`. -/
def monitorListedLoop : List String → ShmSystemSharedInfo → ExtNodeMapItem →
    Except ObjectFault (ShmSystemSharedInfo × ExtNodeMapItem)
  | [], mem, node => .ok (mem, node)
  | key :: keys, mem, node => do
    let (mem, node) ← monitorListed key mem node
    monitorListedLoop keys mem node

/-- **`inotify_shared_object_monitor_`** for a node which is known. -/
def inotifySharedObjectMonitor (mem : ShmSystemSharedInfo) (node : ExtNodeMapItem) :
    Except ObjectFault (ShmSystemSharedInfo × ExtNodeMapItem) := do
  let (mem, node) ← monitorRemovedLoop node.objRemovedList.keys mem node
  monitorListedLoop node.objList.keys mem node

/-- What a process tracks of a name: nothing, a retention which waits, or an
object. -/
inductive Tracking where
  | untracked
  | waiting
  | found (info : ℕ)
deriving DecidableEq, Repr

namespace Tracking

/-- What becomes of a name in the first loop. -/
def lookAgain (mapped : Option ℕ) : Tracking → Tracking
  | .waiting =>
    match mapped with
    | some info => .found info
    | none => .waiting
  | t => t

/-- What becomes of it in the second. -/
def giveUp (destroyed : ℕ → Bool) : Tracking → Tracking
  | .found info => if destroyed info then .waiting else .found info
  | t => t

@[simp] theorem lookAgain_lookAgain (m : Option ℕ) (t : Tracking) :
    lookAgain m (lookAgain m t) = lookAgain m t := by
  cases t <;> cases m <;> rfl

@[simp] theorem giveUp_giveUp (d : ℕ → Bool) (t : Tracking) :
    giveUp d (giveUp d t) = giveUp d t := by
  cases t with
  | untracked => rfl
  | waiting => rfl
  | found i => by_cases hd : d i = true <;> simp [giveUp, hd]

end Tracking

/-- What a process tracks of a name. -/
def ExtNodeMapItem.tracking (node : ExtNodeMapItem) (key : String) : Tracking :=
  match node.objList[key]? with
  | some r =>
    match (node.retention r).ptr with
    | some info => .found info
    | none => .untracked
  | none => if node.objRemovedList[key]? = none then .untracked else .waiting

/-- The flag of an object, unset for one that is gone. -/
def ShmSystemSharedInfo.destroyed (mem : ShmSystemSharedInfo) (info : ℕ) : Bool :=
  match mem.infos info with
  | some o => o.isDestroy
  | none => false

/-! ## What is tracked -/

section Tracked

open ExtNodeMapItem

variable {node : ExtNodeMapItem} {mem : ShmSystemSharedInfo} {key : String} {r info : ℕ}

theorem ExtNodeMapItem.Follows.tracking_found (h : node.Follows mem) :
    node.tracking key = .found info
      ↔ ∃ r, node.objList[key]? = some r ∧ (node.retention r).ptr = some info := by
  unfold ExtNodeMapItem.tracking
  cases hlist : node.objList[key]? with
  | some r =>
    obtain ⟨_, _, i, hptr, _⟩ := h.listed key r hlist
    dsimp only
    rw [hptr]
    constructor
    · rintro ⟨⟩
      exact ⟨r, rfl, hptr⟩
    · rintro ⟨r', hr', hptr'⟩
      cases hr'
      rw [hptr] at hptr'
      cases hptr'
      rfl
  | none =>
    refine iff_of_false ?_ ?_
    · dsimp only
      split <;> exact nofun
    · rintro ⟨r, hr, _⟩
      cases hr

theorem ExtNodeMapItem.Follows.tracking_waiting (h : node.Follows mem) :
    node.tracking key = .waiting ↔ ∃ r, node.objRemovedList[key]? = some r := by
  unfold ExtNodeMapItem.tracking
  cases hlist : node.objList[key]? with
  | some r =>
    obtain ⟨_, _, i, hptr, _⟩ := h.listed key r hlist
    rw [h.keysApart key r hlist]
    dsimp only
    rw [hptr]
    refine iff_of_false nofun ?_
    rintro ⟨r', hr'⟩
    cases hr'
  | none =>
    dsimp only
    cases hrem : node.objRemovedList[key]? with
    | none =>
      rw [if_pos rfl]
      refine iff_of_false nofun ?_
      rintro ⟨r, hr⟩
      cases hr
    | some r =>
      rw [if_neg (Option.some_ne_none r)]
      exact iff_of_true rfl ⟨r, rfl⟩

/-- **A retention is listed**: its name is found, and other names are
tracked as they were. -/
theorem tracking_enlist (hkey : node.objList[key]? = none) (hnot : ¬ HasValue node.objList r) :
    ({ node.attach r info with
        objList := node.objList.insertIfNew key r
        objRemovedList := node.objRemovedList.erase key } : ExtNodeMapItem).tracking
      = Function.update node.tracking key (.found info) := by
  funext k
  have hlist : (node.objList.insertIfNew key r)[k]? =
      if k = key then some r else node.objList[k]? := insertIfNew_of_none hkey r k
  have hrem : (node.objRemovedList.erase key)[k]? =
      if k = key then none else node.objRemovedList[k]? := getElem?_erase _ _ _
  unfold ExtNodeMapItem.tracking
  dsimp only
  rw [hlist, hrem]
  by_cases hk : k = key
  · rw [if_pos hk, hk, Function.update_self]
    dsimp only
    rw [attach_self]
  · rw [if_neg hk, if_neg hk, Function.update_of_ne hk]
    cases hr : node.objList[k]? with
    | none => rfl
    | some r' =>
      dsimp only
      rw [attach_of_ne]
      rintro rfl
      exact hnot ⟨k, hr⟩

/-- **A retention waits**: so does its name, and other names are tracked as
they were. -/
theorem tracking_delist (hrem : node.objRemovedList[key]? = none) :
    ({ node with
        objRemovedList := node.objRemovedList.insertIfNew key r
        objList := node.objList.erase key } : ExtNodeMapItem).tracking
      = Function.update node.tracking key .waiting := by
  funext k
  have hlist : (node.objList.erase key)[k]? = if k = key then none else node.objList[k]? :=
    getElem?_erase _ _ _
  have hrem' : (node.objRemovedList.insertIfNew key r)[k]? =
      if k = key then some r else node.objRemovedList[k]? := insertIfNew_of_none hrem r k
  unfold ExtNodeMapItem.tracking
  dsimp only
  rw [hlist, hrem']
  by_cases hk : k = key
  · rw [if_pos hk, if_pos hk, hk, Function.update_self]
    exact if_neg (Option.some_ne_none r)
  · rw [if_neg hk, if_neg hk, Function.update_of_ne hk]

end Tracked

/-! ## One key -/

/-- **Only counts are changed.** -/
structure Recounted (mem mem' : ShmSystemSharedInfo) : Prop where
  shmObjMap : mem'.shmObjMap = mem.shmObjMap
  flags : ∀ i, (mem'.infos i).map ObjectInfo.isDestroy = (mem.infos i).map ObjectInfo.isDestroy

namespace Recounted

variable {mem mem₁ mem' : ShmSystemSharedInfo} {info : ℕ} {o : ObjectInfo}

theorem refl (mem : ShmSystemSharedInfo) : Recounted mem mem := ⟨rfl, fun _ => rfl⟩

theorem trans (h : Recounted mem mem₁) (h' : Recounted mem₁ mem') : Recounted mem mem' :=
  ⟨h'.shmObjMap.trans h.shmObjMap, fun i => (h'.flags i).trans (h.flags i)⟩

theorem set (ho : mem.infos info = some o) (n : ℤ) :
    Recounted mem (mem.set info { o with refCnt := n }) := by
  refine ⟨rfl, fun i => ?_⟩
  by_cases hi : i = info
  · rw [hi, ShmSystemSharedInfo.set_infos, Function.update_self, ho]
    rfl
  · rw [ShmSystemSharedInfo.set_infos, Function.update_of_ne hi]

theorem destroyed (h : Recounted mem mem') : mem'.destroyed = mem.destroyed := by
  funext i
  have hf := h.flags i
  unfold ShmSystemSharedInfo.destroyed
  cases ho' : mem'.infos i with
  | none =>
    rw [ho'] at hf
    cases ho : mem.infos i with
    | none => rfl
    | some o =>
      rw [ho] at hf
      cases hf
  | some o' =>
    rw [ho'] at hf
    cases ho : mem.infos i with
    | none =>
      rw [ho] at hf
      cases hf
    | some o =>
      rw [ho] at hf
      exact Option.some.inj hf

end Recounted

variable {C : Type} [Fintype C] [DecidableEq C] {mem : ShmSystemSharedInfo}
  {nodes : C → ExtNodeMapItem} {c : C}

/-- **What a loop does at one key**, or at several: a process changes counts
and what it keeps, and what it tracks of the keys becomes `f` of it. -/
structure Passed (mem : ShmSystemSharedInfo) (nodes : C → ExtNodeMapItem) (c : C)
    (keys : List String) (f : String → Tracking → Tracking) (mem' : ShmSystemSharedInfo)
    (node' : ExtNodeMapItem) : Prop where
  references : References mem' (Function.update nodes c node')
  recounted : Recounted mem mem'
  tracking : ∀ k, node'.tracking k =
    if k ∈ keys then f k ((nodes c).tracking k) else (nodes c).tracking k

/-- Nothing is changed where the loop has nothing to do. -/
theorem Passed.same (h : References mem nodes) {key : String}
    {f : String → Tracking → Tracking}
    (hf : f key ((nodes c).tracking key) = (nodes c).tracking key) :
    Passed mem nodes c [key] f mem (nodes c) := by
  refine ⟨?_, Recounted.refl mem, fun k => ?_⟩
  · rw [Function.update_eq_self]
    exact h
  · by_cases hk : k ∈ [key]
    · rw [if_pos hk, List.mem_singleton.mp hk, hf]
    · rw [if_neg hk]

/-- **The first loop, at one key.** -/
theorem monitorRemoved_passed (h : References mem nodes) (c : C) (key : String) :
    ∃ mem' node', monitorRemoved key mem (nodes c) = .ok (mem', node')
      ∧ Passed mem nodes c [key] (fun k => Tracking.lookAgain mem.shmObjMap[k]?) mem' node' := by
  have hf := h.follows c
  obtain ⟨mem', node', hrun, href, _⟩ := h.monitorRemoved c key
  refine ⟨mem', node', hrun, ?_⟩
  rcases monitorRemoved_cases hrun with
    ⟨hnone, rfl, rfl⟩ | ⟨r, info, o, hrem, hmap, ho, rfl, rfl⟩
  · refine .same h ?_
    cases htr : (nodes c).tracking key with
    | waiting =>
      obtain ⟨r, hr⟩ := hf.tracking_waiting.mp htr
      rcases hnone with hrem | hmap
      · rw [hrem] at hr
        cases hr
      · rw [hmap]
        rfl
    | untracked => rfl
    | found i => rfl
  · have hwait := hf.tracking_waiting.mpr ⟨r, hrem⟩
    obtain ⟨hkey, hnot⟩ := hf.not_hasValue hrem
    refine ⟨href, .set ho _, fun k => ?_⟩
    refine (congrFun (tracking_enlist hkey hnot) k).trans ?_
    by_cases hk : k = key
    · rw [hk, Function.update_self, if_pos (List.mem_singleton_self _), hmap, hwait]
      rfl
    · rw [Function.update_of_ne hk, if_neg (mt List.mem_singleton.mp hk)]

/-- **The second loop, at one key.** -/
theorem monitorListed_passed (h : References mem nodes) (c : C) (key : String) :
    ∃ mem' node', monitorListed key mem (nodes c) = .ok (mem', node')
      ∧ Passed mem nodes c [key] (fun _ => Tracking.giveUp mem.destroyed) mem' node' := by
  have hf := h.follows c
  obtain ⟨mem', node', hrun, href, _⟩ := h.monitorListed c key
  refine ⟨mem', node', hrun, ?_⟩
  have hdestroyed : ∀ {info o}, mem.infos info = some o → mem.destroyed info = o.isDestroy := by
    intro info o ho
    unfold ShmSystemSharedInfo.destroyed
    rw [ho]
  rcases monitorListed_cases hrun with
    ⟨hlist, rfl, rfl⟩ | ⟨r, info, o, hlist, hptr, ho, ⟨hdes, rfl, rfl⟩ | ⟨hdes, rfl, rfl⟩⟩
  · refine .same h ?_
    cases htr : (nodes c).tracking key with
    | found i =>
      obtain ⟨r, hr, _⟩ := hf.tracking_found.mp htr
      rw [hlist] at hr
      cases hr
    | untracked => rfl
    | waiting => rfl
  · refine .same h ?_
    rw [hf.tracking_found.mpr ⟨r, hlist, hptr⟩]
    refine if_neg ?_
    rw [hdestroyed ho, hdes]
    exact Bool.false_ne_true
  · have hfound := hf.tracking_found.mpr ⟨r, hlist, hptr⟩
    refine ⟨href, .set ho _, fun k => ?_⟩
    refine (congrFun (tracking_delist (hf.keysApart key r hlist)) k).trans ?_
    by_cases hk : k = key
    · rw [hk, Function.update_self, if_pos (List.mem_singleton_self _), hfound]
      refine (if_pos ?_).symm
      rw [hdestroyed ho, hdes]
    · rw [Function.update_of_ne hk, if_neg (mt List.mem_singleton.mp hk)]

/-! ## The loops -/

/-- A loop which goes on. -/
theorem Passed.cons {key : String} {keys : List String} {f : String → Tracking → Tracking}
    {mem₁ mem' : ShmSystemSharedInfo} {node₁ node' : ExtNodeMapItem}
    (h₁ : Passed mem nodes c [key] f mem₁ node₁)
    (h₂ : Passed mem₁ (Function.update nodes c node₁) c keys f mem' node')
    (hidem : ∀ k t, f k (f k t) = f k t) :
    Passed mem nodes c (key :: keys) f mem' node' := by
  refine ⟨?_, h₁.recounted.trans h₂.recounted, fun k => ?_⟩
  · rw [← Function.update_idem node₁]
    exact h₂.references
  · have hk₁ := h₁.tracking k
    have hk₂ := h₂.tracking k
    rw [Function.update_self] at hk₂
    rw [hk₂, hk₁]
    by_cases hkey : k = key
    · rw [if_pos (List.mem_singleton.mpr hkey), if_pos (List.mem_cons.mpr (Or.inl hkey)), hidem]
      exact ite_self _
    · rw [if_neg (mt List.mem_singleton.mp hkey)]
      refine if_congr ?_ rfl rfl
      rw [List.mem_cons]
      exact (or_iff_right hkey).symm

theorem monitorRemovedLoop_passed (h : References mem nodes) (c : C) (keys : List String) :
    ∃ mem' node', monitorRemovedLoop keys mem (nodes c) = .ok (mem', node')
      ∧ Passed mem nodes c keys (fun k => Tracking.lookAgain mem.shmObjMap[k]?) mem' node' := by
  induction keys generalizing mem nodes with
  | nil =>
    refine ⟨mem, nodes c, rfl, ?_, Recounted.refl mem, fun k => (if_neg List.not_mem_nil).symm⟩
    rw [Function.update_eq_self]
    exact h
  | cons key keys ih =>
    obtain ⟨mem₁, node₁, hrun₁, hp₁⟩ := monitorRemoved_passed h c key
    obtain ⟨mem', node', hrun, hp⟩ := ih hp₁.references
    rw [Function.update_self] at hrun
    rw [hp₁.recounted.shmObjMap] at hp
    refine ⟨mem', node', ?_, hp₁.cons hp fun k t => Tracking.lookAgain_lookAgain _ t⟩
    rw [monitorRemovedLoop, hrun₁]
    exact hrun

theorem monitorListedLoop_passed (h : References mem nodes) (c : C) (keys : List String) :
    ∃ mem' node', monitorListedLoop keys mem (nodes c) = .ok (mem', node')
      ∧ Passed mem nodes c keys (fun _ => Tracking.giveUp mem.destroyed) mem' node' := by
  induction keys generalizing mem nodes with
  | nil =>
    refine ⟨mem, nodes c, rfl, ?_, Recounted.refl mem, fun k => (if_neg List.not_mem_nil).symm⟩
    rw [Function.update_eq_self]
    exact h
  | cons key keys ih =>
    obtain ⟨mem₁, node₁, hrun₁, hp₁⟩ := monitorListed_passed h c key
    obtain ⟨mem', node', hrun, hp⟩ := ih hp₁.references
    rw [Function.update_self] at hrun
    rw [hp₁.recounted.destroyed] at hp
    refine ⟨mem', node', ?_, hp₁.cons hp fun k t => Tracking.giveUp_giveUp _ t⟩
    rw [monitorListedLoop, hrun₁]
    exact hrun

/-- **What a run of the monitor does**: every name is looked for again if it
waits, and then given up if its object is destroyed. -/
theorem inotifySharedObjectMonitor_spec (h : References mem nodes) (c : C) :
    ∃ mem' node', inotifySharedObjectMonitor mem (nodes c) = .ok (mem', node')
      ∧ References mem' (Function.update nodes c node') ∧ Recounted mem mem'
      ∧ ∀ k, node'.tracking k = ((nodes c).tracking k |>.lookAgain mem.shmObjMap[k]?
          |>.giveUp mem.destroyed) := by
  obtain ⟨mem₁, node₁, hrun₁, hp₁⟩ :=
    monitorRemovedLoop_passed h c (nodes c).objRemovedList.keys
  obtain ⟨mem', node', hrun, hp⟩ :=
    monitorListedLoop_passed hp₁.references c node₁.objList.keys
  have htrack := hp.tracking
  simp only [Function.update_self] at hrun htrack
  refine ⟨mem', node', ?_, ?_, hp₁.recounted.trans hp.recounted, fun k => ?_⟩
  · unfold inotifySharedObjectMonitor
    rw [hrun₁]
    exact hrun
  · rw [← Function.update_idem node₁]
    exact hp.references
  · have hfirst : node₁.tracking k = ((nodes c).tracking k).lookAgain mem.shmObjMap[k]? := by
      rw [hp₁.tracking k]
      by_cases hk : k ∈ (nodes c).objRemovedList.keys
      · rw [if_pos hk]
      · rw [if_neg hk]
        cases htr : (nodes c).tracking k with
        | waiting =>
          obtain ⟨r, hr⟩ := (h.follows c).tracking_waiting.mp htr
          refine absurd (Std.TreeMap.mem_keys.mpr ?_) hk
          rw [Std.TreeMap.mem_iff_isSome_getElem?, hr]
          rfl
        | untracked => rfl
        | found i => rfl
    rw [htrack k, hfirst, hp₁.recounted.destroyed]
    by_cases hk : k ∈ node₁.objList.keys
    · rw [if_pos hk]
    · rw [if_neg hk, ← hfirst]
      cases htr : node₁.tracking k with
      | found i =>
        have hf := hp₁.references.follows c
        rw [Function.update_self] at hf
        obtain ⟨r, hr, _⟩ := hf.tracking_found.mp htr
        refine absurd (Std.TreeMap.mem_keys.mpr ?_) hk
        rw [Std.TreeMap.mem_iff_isSome_getElem?, hr]
        rfl
      | untracked => rfl
      | waiting => rfl

/-! ## A second run -/

/-- The first loop leaves everything as it is if nothing which waits is
there. -/
theorem monitorRemovedLoop_same {node : ExtNodeMapItem}
    (h : ∀ (k : String) r, node.objRemovedList[k]? = some r → mem.shmObjMap[k]? = none)
    (keys : List String) : monitorRemovedLoop keys mem node = .ok (mem, node) := by
  induction keys with
  | nil => rfl
  | cons key keys ih =>
    have hone : monitorRemoved key mem node = .ok (mem, node) := by
      unfold monitorRemoved
      cases hrem : node.objRemovedList[key]? with
      | none => rfl
      | some r =>
        dsimp only
        rw [discoveryShm_none (h key r hrem)]
        rfl
    rw [monitorRemovedLoop, hone]
    exact ih

/-- The second loop leaves everything as it is if nothing which is listed is
destroyed. -/
theorem monitorListedLoop_same {node : ExtNodeMapItem} (hf : node.Follows mem)
    (h : ∀ (k : String) info, node.tracking k = .found info → mem.destroyed info = false)
    (keys : List String) : monitorListedLoop keys mem node = .ok (mem, node) := by
  induction keys with
  | nil => rfl
  | cons key keys ih =>
    have hone : monitorListed key mem node = .ok (mem, node) := by
      unfold monitorListed
      cases hlist : node.objList[key]? with
      | none => rfl
      | some r =>
        obtain ⟨info, o, hptr, _, ho⟩ := hf.refersTo_of_listed hlist
        have hlive := h key info (hf.tracking_found.mpr ⟨r, hlist, hptr⟩)
        unfold ShmSystemSharedInfo.destroyed at hlive
        rw [ho] at hlive
        dsimp only at hlive ⊢
        rw [hptr]
        dsimp only
        rw [ShmSystemSharedInfo.deref_of_some ho]
        show (if o.isDestroy = true then _ else _) = _
        rw [hlive]
        rfl
    rw [monitorListedLoop, hone]
    exact ih

/-! ## Objects which are not destroyed -/

/-- **An object which is not destroyed can be found by name.** -/
def ShmSystemSharedInfo.Marked (mem : ShmSystemSharedInfo) : Prop :=
  ∀ i o, mem.infos i = some o → o.isDestroy = false → HasValue mem.shmObjMap i

section Marked

open ShmSystemSharedInfo

variable {mem' : ShmSystemSharedInfo} {node node' : ExtNodeMapItem} {p p' : Process}

theorem Recounted.marked (hr : Recounted mem mem') (h : mem.Marked) : mem'.Marked := by
  intro i o' ho' hlive
  rw [hr.shmObjMap]
  have hflag := hr.flags i
  rw [ho'] at hflag
  cases ho : mem.infos i with
  | none =>
    rw [ho] at hflag
    cases hflag
  | some o =>
    rw [ho] at hflag
    refine h i o ho ?_
    rw [← hlive]
    exact (Option.some.inj hflag).symm

/-- A new object is found by its name. -/
theorem ShmSystemSharedInfo.Marked.create (h : mem.Marked) (type name : String) (now : ℕ)
    (node : ExtNodeMapItem) : (ShmObjManager.create type name now mem node).2.1.Marked := by
  rcases create_spec type name now mem node with heq | ⟨hname, heq⟩
  · rw [heq]
    exact h
  · rw [heq]
    intro i o ho hlive
    show HasValue (mem.shmObjMap.insertIfNew name mem.nextInfo) i
    rw [hasValue_insertIfNew hname]
    by_cases hi : i = mem.nextInfo
    · exact Or.inl hi
    · exact Or.inr (h i o ((Function.update_of_ne hi _ _).symm.trans ho) hlive)

/-- What `destroy` takes from the map is marked. -/
theorem Destroyed.marked {name : String} {info : ℕ} {o : ObjectInfo}
    (hd : Destroyed mem mem' name info o) (h : mem.Marked) (hone : OneKey mem.shmObjMap)
    (hname : mem.shmObjMap[name]? = some info) : mem'.Marked := by
  intro i o' ho' hlive
  rw [hd.shmObjMap, hasValue_erase hone hname]
  by_cases hi : i = info
  · rw [hi] at ho'
    rcases hd.self with ⟨_, hgone⟩ | ⟨_, hmarked⟩
    · rw [hgone] at ho'
      cases ho'
    · rw [hmarked] at ho'
      cases ho'
      cases hlive
  · rcases hd.kept i hi with hkept | ⟨hgone, _⟩
    · rw [hkept] at ho'
      exact ⟨h i o' ho' hlive, hi⟩
    · rw [hgone] at ho'
      cases ho'

/-- `discovery` changes a count at most. -/
theorem discovery_recounted {type key : String} {r : ℕ}
    (h : discovery type key mem node = .ok (r, mem', node')) : Recounted mem mem' := by
  rcases discovery_cases h with ⟨_, rfl, _⟩ | ⟨_, _, _, rfl, _⟩ | ⟨info, o, _, _, ho, _, rfl, _⟩
  · exact .refl mem'
  · exact .refl mem'
  · exact .set ho _

theorem monitorRemoved_recounted {key : String}
    (h : monitorRemoved key mem node = .ok (mem', node')) : Recounted mem mem' := by
  rcases monitorRemoved_cases h with ⟨_, rfl, _⟩ | ⟨r, info, o, _, _, ho, rfl, _⟩
  · exact .refl mem'
  · exact .set ho _

theorem monitorListed_recounted {key : String}
    (h : monitorListed key mem node = .ok (mem', node')) : Recounted mem mem' := by
  rcases monitorListed_cases h with
    ⟨_, rfl, _⟩ | ⟨r, info, o, _, _, ho, ⟨_, rfl, _⟩ | ⟨_, rfl, _⟩⟩
  · exact .refl mem'
  · exact .refl mem'
  · exact .set ho _

theorem Process.monitorStep_recounted (h : p.monitorStep mem = .ok (mem', p')) :
    Recounted mem mem' := by
  rcases Process.monitorStep_cases h with ⟨_, _, _, hone⟩ | ⟨_, _, _, hone⟩ | ⟨_, rfl, _⟩
  · exact monitorRemoved_recounted hone
  · exact monitorListed_recounted hone
  · exact .refl mem'

end Marked

/-- **Objects in use are found by name**, in every reachable state. -/
theorem marked_of_reachable {pid : ℕ} {s : Manager C}
    (hs : (managerSystem C pid).Reachable s) : s.mem.Marked := by
  refine hs.invariant (I := fun s => s.mem.Marked) ?_ ?_
  · rintro s rfl
    exact nofun
  · intro s l s' hr h hstep
    have hsound := (references_of_reachable hr).sound
    have hrun := hstep.2
    cases l with
    | create t type name now =>
      cases hrun
      exact h.create type name now s.owner
    | destroyLocal t name =>
      cases hrun
      exact h
    | destroyShared t now =>
      dsimp only [Manager.run] at hrun
      cases ht : s.destroying t with
      | none =>
        rw [ht] at hrun
        cases hrun
        exact h
      | some name =>
        rw [ht] at hrun
        dsimp only at hrun
        cases hmap : s.mem.shmObjMap[name]? with
        | none =>
          unfold destroyShared at hrun
          rw [hmap] at hrun
          cases hrun
          exact h
        | some info =>
          obtain ⟨o, mem', _, heq, hd⟩ := destroyShared_spec hsound hmap now
          rw [heq] at hrun
          cases hrun
          exact hd.marked h hsound.mapOneKey hmap
    | copyHandle r =>
      cases hrun
      exact h
    | dropHandle r =>
      cases hrun
      exact h
    | discovery c type key =>
      dsimp only [Manager.run] at hrun
      obtain ⟨res, hd, hrun⟩ := Except.bind_eq_ok.mp hrun
      cases hrun
      exact (discovery_recounted hd).marked h
    | notify c =>
      cases hrun
      exact h
    | monitor c =>
      dsimp only [Manager.run] at hrun
      obtain ⟨res, hm, hrun⟩ := Except.bind_eq_ok.mp hrun
      cases hrun
      exact (Process.monitorStep_recounted hm).marked h
    | lockObject c r =>
      dsimp only [Manager.run] at hrun
      obtain ⟨b, _, hrun⟩ := Except.bind_eq_ok.mp hrun
      cases hrun
      exact h

/-! ## Agreement -/

namespace Manager

/-- A process has come so far. -/
def withProcess (s : Manager C) (c : C) (mem : ShmSystemSharedInfo) (p : Process) : Manager C :=
  { s with mem := mem, process := Function.update s.process c p }

variable {pid : ℕ} {s : Manager C} {mem mem' : ShmSystemSharedInfo} {node node' : ExtNodeMapItem}

omit [Fintype C] in
/-- A step of the monitor. -/
theorem step_monitor {p p' : Process} (hp : p.monitor ≠ .idle)
    (hrun : p.monitorStep mem = .ok (mem', p')) (c : C) :
    (managerSystem C pid).step (s.withProcess c mem p) (.monitor c)
      (s.withProcess c mem' p') := by
  have hself : (s.withProcess c mem p).process c = p := Function.update_self ..
  refine ⟨?_, ?_⟩
  · show ((s.withProcess c mem p).process c).monitor ≠ .idle
    rw [hself]
    exact hp
  · dsimp only [Manager.run]
    rw [hself]
    show (p.monitorStep mem >>= _) = _
    rw [hrun]
    show Except.ok _ = _
    unfold withProcess
    rw [Function.update_idem]

omit [Fintype C] in
theorem reachable_removedLoop {c : C} {keys : List String}
    (hs : (managerSystem C pid).Reachable (s.withProcess c mem ⟨node, .removed keys⟩))
    (hrun : monitorRemovedLoop keys mem node = .ok (mem', node')) :
    (managerSystem C pid).Reachable (s.withProcess c mem' ⟨node', .removed []⟩) := by
  induction keys generalizing mem node with
  | nil =>
    cases hrun
    exact hs
  | cons key keys ih =>
    rw [monitorRemovedLoop] at hrun
    obtain ⟨res, hone, hrun⟩ := Except.bind_eq_ok.mp hrun
    refine ih (.step hs (step_monitor (by simp) ?_ c)) hrun
    show (monitorRemoved key mem node >>= _) = _
    rw [hone]
    rfl

omit [Fintype C] in
theorem reachable_listedLoop {c : C} {keys : List String}
    (hs : (managerSystem C pid).Reachable (s.withProcess c mem ⟨node, .listed keys⟩))
    (hrun : monitorListedLoop keys mem node = .ok (mem', node')) :
    (managerSystem C pid).Reachable (s.withProcess c mem' ⟨node', .listed []⟩) := by
  induction keys generalizing mem node with
  | nil =>
    cases hrun
    exact hs
  | cons key keys ih =>
    rw [monitorListedLoop] at hrun
    obtain ⟨res, hone, hrun⟩ := Except.bind_eq_ok.mp hrun
    refine ih (.step hs (step_monitor (by simp) ?_ c)) hrun
    show (monitorListed key mem node >>= _) = _
    rw [hone]
    rfl

omit [Fintype C] in
/-- **A run of the monitor is one of the system**, in which nobody else
takes a step before it is done. -/
theorem reachable_monitor (hs : (managerSystem C pid).Reachable s) {c : C}
    (hidle : (s.process c).monitor = .idle)
    (hrun : inotifySharedObjectMonitor s.mem (s.nodes c) = .ok (mem', node')) :
    (managerSystem C pid).Reachable (s.withProcess c mem' ⟨node', .idle⟩) := by
  have hstart : (managerSystem C pid).Reachable
      (s.withProcess c s.mem ⟨s.nodes c, .removed (s.nodes c).objRemovedList.keys⟩) :=
    .step hs (l := .notify c) ⟨hidle, rfl⟩
  unfold inotifySharedObjectMonitor at hrun
  obtain ⟨res, hone, hrun⟩ := Except.bind_eq_ok.mp hrun
  have hmid := reachable_removedLoop hstart hone
  have hnext : (managerSystem C pid).Reachable
      (s.withProcess c res.1 ⟨res.2, .listed res.2.objList.keys⟩) :=
    .step hmid (step_monitor (by simp) rfl c)
  exact .step (reachable_listedLoop hnext hrun) (step_monitor (by simp) rfl c)

end Manager

/-- **Agreement with the owner** on the names which were tracked before: an
object in `shm_obj_map` is listed, and the retention points to it; for a
name which is not there the retention waits. -/
def AgreesWithOwner (map : NameMap ℕ) (before after : ExtNodeMapItem) : Prop :=
  ∀ key : String, before.objList[key]? ≠ none ∨ before.objRemovedList[key]? ≠ none →
    match map[key]? with
    | some info => ∃ r, after.objList[key]? = some r ∧ (after.retention r).ptr = some info
    | none => ∃ r, after.objRemovedList[key]? = some r

/-- No listed object has been destroyed and replaced by another of its
name. -/
def NotReplaced (mem : ShmSystemSharedInfo) (node : ExtNodeMapItem) : Prop :=
  ∀ (key : String) r info, node.objList[key]? = some r → (node.retention r).ptr = some info →
    mem.destroyed info = true → mem.shmObjMap[key]? = none

instance (mem : ShmSystemSharedInfo) (node : ExtNodeMapItem) :
    Decidable (NotReplaced mem node) :=
  decidable_of_iff (∀ e ∈ node.objList.toList, ∀ info ∈ (node.retention e.2).ptr,
      mem.destroyed info = true → mem.shmObjMap[e.1]? = none) (by
    constructor
    · intro h k r info hk hptr
      exact h (k, r) (Std.TreeMap.mem_toList_iff_getElem?_eq_some.mpr hk) info hptr
    · intro h e he info hptr
      exact h e.1 e.2 info (Std.TreeMap.mem_toList_iff_getElem?_eq_some.mp he) hptr)

/-- What is tracked of a name, as agreement has it. -/
theorem agreesWithOwner_iff {map : NameMap ℕ} {before after : ExtNodeMapItem}
    {mem mem' : ShmSystemSharedInfo} (hb : before.Follows mem) (ha : after.Follows mem') :
    AgreesWithOwner map before after ↔ ∀ key, before.tracking key ≠ .untracked →
      after.tracking key = (Tracking.waiting.lookAgain map[key]?) := by
  have htracked : ∀ key, (before.objList[key]? ≠ none ∨ before.objRemovedList[key]? ≠ none)
      ↔ before.tracking key ≠ .untracked := by
    intro key
    constructor
    · rintro (hl | hr) <;> obtain ⟨r, hr⟩ := Option.ne_none_iff_exists'.mp ‹_›
      · obtain ⟨info, _, hptr, _⟩ := hb.refersTo_of_listed hr
        rw [hb.tracking_found.mpr ⟨r, hr, hptr⟩]
        exact nofun
      · rw [hb.tracking_waiting.mpr ⟨r, hr⟩]
        exact nofun
    · intro h
      cases htr : before.tracking key with
      | untracked => exact absurd htr h
      | waiting =>
        obtain ⟨r, hr⟩ := hb.tracking_waiting.mp htr
        exact Or.inr (by rw [hr]; exact Option.some_ne_none r)
      | found info =>
        obtain ⟨r, hr, _⟩ := hb.tracking_found.mp htr
        exact Or.inl (by rw [hr]; exact Option.some_ne_none r)
  refine forall_congr' fun key => imp_congr (htracked key) ?_
  cases hmap : map[key]? with
  | none => exact ha.tracking_waiting.symm
  | some info => exact ha.tracking_found.symm

section Agreement

variable {mem : ShmSystemSharedInfo} {node : ExtNodeMapItem} {key : String}

/-- An object which is found by name is not destroyed. -/
theorem ShmSystemSharedInfo.Sound.not_destroyed (h : mem.Sound) {i : ℕ}
    (hmap : mem.shmObjMap[key]? = some i) : mem.destroyed i = false := by
  obtain ⟨o, ho, hd⟩ := h.mapped key i hmap
  unfold ShmSystemSharedInfo.destroyed
  rw [ho]
  exact hd

/-- Where nothing is replaced, both loops bring a name which is tracked to
what the owner has of it. -/
theorem NotReplaced.tracking_eq (hnot : NotReplaced mem node) (hsound : mem.Sound)
    (hmarked : mem.Marked) (hf : node.Follows mem) (hkey : node.tracking key ≠ .untracked) :
    ((node.tracking key).lookAgain mem.shmObjMap[key]?).giveUp mem.destroyed
      = Tracking.waiting.lookAgain mem.shmObjMap[key]? := by
  cases htr : node.tracking key with
  | untracked => exact absurd htr hkey
  | waiting =>
    cases hmap : mem.shmObjMap[key]? with
    | none => rfl
    | some i =>
      refine if_neg ?_
      rw [hsound.not_destroyed hmap]
      exact Bool.false_ne_true
  | found info =>
    obtain ⟨r, hr, hptr⟩ := hf.tracking_found.mp htr
    show (Tracking.found info).giveUp mem.destroyed = _
    by_cases hdes : mem.destroyed info = true
    · rw [hnot key r info hr hptr hdes]
      exact if_pos hdes
    · -- what is not destroyed is found by a name, and that is the one it is listed by
      obtain ⟨info', o, hptr', _, ho⟩ := hf.refersTo_of_listed hr
      rw [hptr] at hptr'
      cases hptr'
      have hdes' : o.isDestroy = false := by
        unfold ShmSystemSharedInfo.destroyed at hdes
        rw [ho] at hdes
        exact Bool.not_eq_true _ ▸ hdes
      obtain ⟨k, hk⟩ := hmarked info o ho hdes'
      rw [← hf.sameKey key k r info hr hptr hk, hk]
      exact if_neg hdes

/-- A name whose object has been replaced is given up, and so does not agree
with the owner. -/
theorem notReplaced_of_tracking (hf : node.Follows mem)
    (h : ∀ k, node.tracking k ≠ .untracked →
      ((node.tracking k).lookAgain mem.shmObjMap[k]?).giveUp mem.destroyed
        = Tracking.waiting.lookAgain mem.shmObjMap[k]?) : NotReplaced mem node := by
  intro k r info hlist hptr hdes
  have hfound := hf.tracking_found.mpr ⟨r, hlist, hptr⟩
  have hafter := h k (by rw [hfound]; exact nofun)
  rw [hfound] at hafter
  cases hmap : mem.shmObjMap[k]? with
  | none => rfl
  | some i =>
    rw [hmap] at hafter
    have hup : (Tracking.found info).giveUp mem.destroyed = .waiting := if_pos hdes
    cases hup.symm.trans hafter

/-- **A run changes nothing** if every name which is tracked is tracked as
the owner has it. -/
theorem inotifySharedObjectMonitor_same (hsound : mem.Sound) (hf : node.Follows mem)
    (h : ∀ k, node.tracking k ≠ .untracked →
      node.tracking k = Tracking.waiting.lookAgain mem.shmObjMap[k]?) :
    inotifySharedObjectMonitor mem node = .ok (mem, node) := by
  unfold inotifySharedObjectMonitor
  rw [monitorRemovedLoop_same]
  · refine monitorListedLoop_same hf (fun k info hfound => ?_) _
    have hk := h k (by rw [hfound]; exact nofun)
    rw [hfound] at hk
    cases hmap : mem.shmObjMap[k]? with
    | none =>
      rw [hmap] at hk
      cases hk
    | some i =>
      rw [hmap] at hk
      cases hk
      exact hsound.not_destroyed hmap
  · intro k r hr
    have hwait := hf.tracking_waiting.mpr ⟨r, hr⟩
    have hk := h k (by rw [hwait]; exact nofun)
    rw [hwait] at hk
    cases hmap : mem.shmObjMap[k]? with
    | none => rfl
    | some i =>
      rw [hmap] at hk
      cases hk

end Agreement

/-- **When one notification is enough.** From every reachable state, a run
of the monitor of a process brings it into agreement with the owner, so that
a second run changes nothing, exactly if none of the objects it lists has
been destroyed and replaced by another of the same name. -/
theorem monitor_agrees_iff {pid : ℕ} {s : Manager C} (hs : (managerSystem C pid).Reachable s)
    {c : C} (hidle : (s.process c).monitor = .idle) :
    ∃ mem' node', inotifySharedObjectMonitor s.mem (s.nodes c) = .ok (mem', node')
      ∧ (managerSystem C pid).Reachable (s.withProcess c mem' ⟨node', .idle⟩)
      ∧ (AgreesWithOwner mem'.shmObjMap (s.nodes c) node'
          ∧ inotifySharedObjectMonitor mem' node' = .ok (mem', node')
        ↔ NotReplaced s.mem (s.nodes c)) := by
  have h := references_of_reachable hs
  have hf := h.follows c
  obtain ⟨mem', node', hrun, href, hrec, htrack⟩ := inotifySharedObjectMonitor_spec h c
  have hf' : node'.Follows mem' := by
    have := href.follows c
    rwa [Function.update_self] at this
  refine ⟨mem', node', hrun, s.reachable_monitor hs hidle hrun, ?_⟩
  rw [hrec.shmObjMap, agreesWithOwner_iff hf hf']
  constructor
  · rintro ⟨hagree, _⟩
    refine notReplaced_of_tracking hf fun k hk => ?_
    rw [← htrack k]
    exact hagree k hk
  · intro hnot
    have hagree : ∀ key, (s.nodes c).tracking key ≠ .untracked →
        node'.tracking key = Tracking.waiting.lookAgain s.mem.shmObjMap[key]? := by
      intro key hkey
      rw [htrack key]
      exact hnot.tracking_eq h.sound (marked_of_reachable hs) hf hkey
    refine ⟨hagree, inotifySharedObjectMonitor_same href.sound hf' fun k hk => ?_⟩
    rw [hrec.shmObjMap]
    -- a run does not begin to track a name
    refine hagree k fun hold => hk ?_
    rw [htrack k, hold]
    rfl

open TransitionSystem

/-- One notification for a destroyed object and for one that is there at
last. -/
theorem monitor_agrees_iff_merged : ∃ s, (managerSystem (Fin 1) 7).Reachable s
    ∧ (s.nodes 0).tracking "a" = .found 0 ∧ (s.nodes 0).tracking "b" = .waiting
    ∧ ∃ mem' node', inotifySharedObjectMonitor s.mem (s.nodes 0) = .ok (mem', node')
      ∧ AgreesWithOwner mem'.shmObjMap (s.nodes 0) node'
      ∧ inotifySharedObjectMonitor mem' node' = .ok (mem', node') := by
  have htrace : (trace Manager.next [] (Manager.fresh (Fin 1) 7)
      [.create 0 "int" "a" 1, .discovery 0 "int" "a", .discovery 0 "int" "b",
        .destroyLocal 0 "a", .destroyShared 0 2, .create 0 "int" "b" 3]).map
        (fun e => ((e.2.process 0).monitor, (e.2.nodes 0).tracking "a",
          (e.2.nodes 0).tracking "b", decide (NotReplaced e.2.mem (e.2.nodes 0))))
      = some (.idle, .found 0, .waiting, true) := by decide +kernel
  obtain ⟨tr, s, hr, heq⟩ :=
    Run.exists_of_trace (S := managerSystem (Fin 1) 7) Manager.step_of_next rfl htrace
  simp only [Prod.mk.injEq] at heq
  obtain ⟨hidle, ha, hb, hnot⟩ := heq
  obtain ⟨mem', node', hrun, _, hiff⟩ := monitor_agrees_iff hr.reachable hidle
  obtain ⟨hagree, hagain⟩ := hiff.mpr (of_decide_eq_true hnot)
  exact ⟨s, hr.reachable, ha, hb, mem', node', hrun, hagree, hagain⟩

/-- **An object is destroyed and created again** before the monitor runs:
it gives the old object up, and does not find the new one. -/
theorem monitor_not_agrees : ∃ s, (managerSystem (Fin 1) 7).Reachable s
    ∧ (s.process 0).monitor = .idle
    ∧ ∃ mem' node', inotifySharedObjectMonitor s.mem (s.nodes 0) = .ok (mem', node')
      ∧ mem'.shmObjMap["a"]? = some 1 ∧ node'.objList["a"]? = none
      ∧ ¬ AgreesWithOwner mem'.shmObjMap (s.nodes 0) node' := by
  have htrace : (trace Manager.next [] (Manager.fresh (Fin 1) 7)
      [.create 0 "int" "a" 1, .discovery 0 "int" "a", .destroyLocal 0 "a", .destroyShared 0 2,
        .create 0 "int" "a" 3]).map
        (fun e => ((e.2.process 0).monitor, (e.2.nodes 0).objList["a"]?,
          (inotifySharedObjectMonitor e.2.mem (e.2.nodes 0)).toOption.map
            fun r => (r.1.shmObjMap["a"]?, r.2.objList["a"]?)))
      = some (.idle, some 0, some (some 1, none)) := by decide +kernel
  obtain ⟨tr, s, hr, heq⟩ :=
    Run.exists_of_trace (S := managerSystem (Fin 1) 7) Manager.step_of_next rfl htrace
  simp only [Prod.mk.injEq] at heq
  obtain ⟨hidle, hlist, hres⟩ := heq
  obtain ⟨mem', node', hrun, _⟩ := inotifySharedObjectMonitor_spec
    (references_of_reachable hr.reachable) 0
  rw [hrun] at hres
  obtain ⟨hmap, hgone⟩ := Prod.mk.inj (Option.some.inj hres)
  refine ⟨s, hr.reachable, hidle, mem', node', hrun, hmap, hgone, fun hagree => ?_⟩
  have ha := hagree "a" (Or.inl (by rw [hlist]; exact Option.some_ne_none 0))
  rw [hmap] at ha
  obtain ⟨r, hr', _⟩ := ha
  rw [hgone] at hr'
  cases hr'

end ShmObjManager
