import CoinData.ObjectSystem

/-!
# What becomes of removed objects

An object which is destroyed while other processes refer to it goes to
`shm_obj_removed_map`, to be released by a later `destroy` once nobody
refers to it any more. Nothing else does this: a destroyed object which is
not in the map is never released. Its key is its name followed by the time,
and an insertion under a key that is taken is refused, which goes unnoticed.
So what is needed is that no key is taken: not by an object of the same
name that was destroyed at the same reading of the clock, nor by one whose
name and time run together to the same string.
-/

open Maps

namespace ShmObjManager

open TransitionSystem ShmSystemSharedInfo

/-! ## One call of `destroy` -/

namespace ShmSystemSharedInfo

/-- **Clearing keeps** the items whose objects have references. -/
theorem clearLoop_keeps {items : List (String × ℕ)} {mem mem' : ShmSystemSharedInfo}
    (hmem : ∀ e ∈ items, mem.shmObjRemovedMap[e.1]? = some e.2)
    (hne : items.Pairwise (fun a b => a.1 ≠ b.1)) (h : clearLoop items mem = .ok mem')
    {k : String} {i : ℕ} {o : ObjectInfo} (hk : mem.shmObjRemovedMap[k]? = some i)
    (ho : mem.infos i = some o) (hcnt : o.refCnt ≠ 0) :
    mem'.shmObjRemovedMap[k]? = some i ∧ mem'.infos i = some o := by
  induction items generalizing mem with
  | nil =>
    cases h
    exact ⟨hk, ho⟩
  | cons e items ih =>
    obtain ⟨key, info⟩ := e
    have hkey : mem.shmObjRemovedMap[key]? = some info := hmem _ (List.mem_cons_self ..)
    have htail : ∀ e ∈ items, mem.shmObjRemovedMap[e.1]? = some e.2 :=
      fun e he => hmem e (List.mem_cons_of_mem _ he)
    obtain ⟨hhead, hne⟩ := List.pairwise_cons.mp hne
    obtain ⟨o₁, ho₁, h⟩ := Except.bind_eq_ok.mp h
    by_cases hzero : o₁.refCnt = 0
    · rw [if_pos hzero] at h
      split at h
      · cases h
      · split at h
        · cases h
        · -- the item at hand is another one
          have hinfo : i ≠ info := by
            rintro rfl
            rw [some_of_deref ho₁] at ho
            cases ho
            exact hcnt hzero
          have hkne : k ≠ key := by
            rintro rfl
            rw [hkey] at hk
            exact hinfo (Option.some.inj hk).symm
          refine ih (fun e he => ?_) hne h ?_ ?_
          · show (mem.shmObjRemovedMap.erase key)[e.1]? = _
            rw [getElem?_erase, if_neg (Ne.symm (hhead e he)), htail e he]
          · show (mem.shmObjRemovedMap.erase key)[k]? = _
            rw [getElem?_erase, if_neg hkne, hk]
          · exact (Function.update_of_ne hinfo _ _).trans ho
    · rw [if_neg hzero] at h
      exact ih htail hne h hk ho

theorem clearShmObjRemoveMap_keeps {mem mem' : ShmSystemSharedInfo}
    (h : clearShmObjRemoveMap mem = .ok mem') {k : String} {i : ℕ} {o : ObjectInfo}
    (hk : mem.shmObjRemovedMap[k]? = some i) (ho : mem.infos i = some o) (hcnt : o.refCnt ≠ 0) :
    mem'.shmObjRemovedMap[k]? = some i ∧ mem'.infos i = some o := by
  refine clearLoop_keeps (fun e he => Std.TreeMap.mem_toList_iff_getElem?_eq_some.mp he) ?_ h
    hk ho hcnt
  refine List.Pairwise.imp ?_ Std.TreeMap.distinct_keys_toList
  intro a b hab heq
  exact hab (Std.LawfulEqOrd.compare_eq_iff_eq.mpr heq)

end ShmSystemSharedInfo

variable {mem mem' : ShmSystemSharedInfo}

/-- The key is the key of an object there are still references to. -/
def Taken (mem : ShmSystemSharedInfo) (key : String) : Prop :=
  ∃ i ∈ mem.shmObjRemovedMap[key]?, ∃ o ∈ mem.infos i, o.refCnt ≠ 0

instance (mem : ShmSystemSharedInfo) (key : String) : Decidable (Taken mem key) := by
  unfold Taken
  infer_instance

/-- **What `destroy` does to `shm_obj_removed_map`**: items with references
stay, and the object, if others refer to it, is entered exactly if its key
is not taken. -/
structure Entered (mem mem' : ShmSystemSharedInfo) (key : String) (info : ℕ) (o : ObjectInfo) :
    Prop where
  kept : ∀ (k : String) i o', mem.shmObjRemovedMap[k]? = some i → mem.infos i = some o' →
    o'.refCnt ≠ 0 → mem'.shmObjRemovedMap[k]? = some i ∧ mem'.infos i = some o'
  entered : o.refCnt ≠ 1 → ¬ Taken mem key → mem'.shmObjRemovedMap[key]? = some info
  refused : o.refCnt ≠ 1 → Taken mem key → ¬ HasValue mem'.shmObjRemovedMap info

/-- **The second section of `destroy`**, as to the removed objects. -/
theorem destroyShared_entered (h : mem.Sound) {name : String} {info : ℕ}
    (hname : mem.shmObjMap[name]? = some info) {now : ℕ}
    (hrun : destroyShared name now mem = .ok mem') :
    ∃ o, mem.infos info = some o ∧ Destroyed mem mem' name info o
      ∧ Entered mem mem' (name ++ toString now) info o := by
  obtain ⟨o, mem₁, ho, hinfo, hclear, heq, hrun'⟩ := destroyShared_eq h hname now
  obtain ⟨mem₁', heq', hc, hall⟩ := clearShmObjRemoveMap_spec hclear
  cases heq.symm.trans heq'
  obtain ⟨o₁, mem₂, ho₁, hrun₁, hd⟩ := destroyShared_spec h hname now
  cases hrun.symm.trans hrun₁
  cases ho.symm.trans ho₁
  refine ⟨o, ho, hd, ?_⟩
  cases hrun.symm.trans hrun'
  have hne : ∀ (k : String) i, mem.shmObjRemovedMap[k]? = some i → i ≠ info := by
    rintro k i hk rfl
    exact hinfo k hk
  have hother : ∀ i, i ≠ info → (mem.set info { o with isDestroy := true }).infos i = mem.infos i :=
    fun i hi => Function.update_of_ne hi _ _
  -- what clearing leaves are the items with references
  have hkeep : ∀ (k : String) i o', mem.shmObjRemovedMap[k]? = some i → mem.infos i = some o' →
      o'.refCnt ≠ 0 → mem₁.shmObjRemovedMap[k]? = some i ∧ mem₁.infos i = some o' :=
    fun k i o' hk ho' hcnt =>
      clearShmObjRemoveMap_keeps heq hk ((hother i (hne k i hk)).trans ho') hcnt
  have hfree : ∀ {key : String}, ¬ Taken mem key → mem₁.shmObjRemovedMap[key]? = none := by
    intro key hfree
    cases hk₁ : mem₁.shmObjRemovedMap[key]? with
    | none => rfl
    | some i =>
      obtain ⟨hk, hsame⟩ := hc.removed key i hk₁
      obtain ⟨o', ho', -⟩ := h.removed key i hk
      rw [hother i (hne key i hk), ho'] at hsame
      have hzero : o'.refCnt = 0 := by
        by_contra hcnt
        exact hfree ⟨i, hk, o', ho', hcnt⟩
      rw [hall key i o' hk ((hother i (hne key i hk)).trans ho') hzero] at hsame
      cases hsame
  by_cases hcnt : o.refCnt = 1
  · refine ⟨fun k i o' hk ho' hcnt' => ?_, fun hne' => absurd hcnt hne', fun hne' => absurd hcnt hne'⟩
    obtain ⟨hk₁, ho₁⟩ := hkeep k i o' hk ho' hcnt'
    rw [releaseOrRemove, if_pos (show ({ o with isDestroy := true } : ObjectInfo).refCnt = 1 from hcnt)]
    exact ⟨hk₁, (Function.update_of_ne (hne k i hk) _ _).trans ho₁⟩
  · rw [releaseOrRemove, if_neg (show ({ o with isDestroy := true } : ObjectInfo).refCnt ≠ 1 from hcnt)]
    refine ⟨fun k i o' hk ho' hcnt' => ?_, fun _ hfree' => ?_, fun _ htaken => ?_⟩
    · obtain ⟨hk₁, ho₁⟩ := hkeep k i o' hk ho' hcnt'
      refine ⟨?_, (Function.update_of_ne (hne k i hk) _ _).trans ho₁⟩
      show (mem₁.shmObjRemovedMap.insertIfNew (name ++ toString now) info)[k]? = some i
      cases hkey : mem₁.shmObjRemovedMap[name ++ toString now]? with
      | some w => exact (insertIfNew_of_some hkey _ _).trans hk₁
      | none =>
        rw [insertIfNew_of_none hkey, if_neg ?_, hk₁]
        rintro rfl
        rw [hk₁] at hkey
        cases hkey
    · show (mem₁.shmObjRemovedMap.insertIfNew (name ++ toString now) info)[_]? = _
      rw [insertIfNew_of_none (hfree hfree'), if_pos rfl]
    · obtain ⟨i, hk, o', ho', hcnt'⟩ := htaken
      have hk₁ := (hkeep _ i o' hk ho' hcnt').1
      rintro ⟨k, hv⟩
      change (mem₁.shmObjRemovedMap.insertIfNew (name ++ toString now) info)[k]? = some info at hv
      rw [insertIfNew_of_some hk₁] at hv
      exact hinfo k (hc.removed k info hv).1

/-! ## Other sections -/

/-- **A section which removes no object**: the tables stay, but for objects
which are new, and so do the marks. -/
structure KeepsRemoved (mem mem' : ShmSystemSharedInfo) : Prop where
  nextInfo : mem.nextInfo ≤ mem'.nextInfo
  shmObjRemovedMap : mem'.shmObjRemovedMap = mem.shmObjRemovedMap
  infos : ∀ i, i < mem.nextInfo →
    (mem'.infos i).map (·.isDestroy) = (mem.infos i).map (·.isDestroy)
  new : ∀ i o, mem.nextInfo ≤ i → mem'.infos i = some o → o.isDestroy = false

theorem KeepsRemoved.refl (h : mem.Sound) : KeepsRemoved mem mem := by
  refine ⟨le_rfl, rfl, fun _ _ => rfl, fun i o hi ho => ?_⟩
  rw [h.unborn i hi] at ho
  cases ho

theorem KeepsRemoved.set (h : mem.Sound) {info : ℕ} {o o' : ObjectInfo}
    (ho : mem.infos info = some o) (hmark : o'.isDestroy = o.isDestroy) :
    KeepsRemoved mem (mem.set info o') := by
  refine ⟨le_rfl, rfl, fun i _ => ?_, fun i o₁ hi ho₁ => ?_⟩
  · by_cases hi : i = info
    · rw [hi, set_infos, Function.update_self, ho]
      exact congrArg some hmark
    · rw [set_infos, Function.update_of_ne hi]
  · have hne : i ≠ info := by
      rintro rfl
      rw [h.unborn i hi] at ho
      cases ho
    rw [set_infos, Function.update_of_ne hne, h.unborn i hi] at ho₁
    cases ho₁

theorem KeepsRemoved.create (h : mem.Sound) (type name : String) (now : ℕ)
    (node : ExtNodeMapItem) :
    KeepsRemoved mem (ShmObjManager.create type name now mem node).2.1 := by
  obtain heq | ⟨-, heq⟩ := create_spec type name now mem node
  · rw [heq]
    exact .refl h
  · rw [heq]
    refine ⟨Nat.le_succ _, rfl, fun i hi => ?_, fun i o hi ho => ?_⟩
    · exact congrArg (Option.map _) (Function.update_of_ne hi.ne _ _)
    · change Function.update mem.infos mem.nextInfo
        (some ⟨1, false, type, mem.selfPid, some type⟩) i = some o at ho
      by_cases hi' : i = mem.nextInfo
      · rw [hi', Function.update_self] at ho
        cases ho
        rfl
      · rw [Function.update_of_ne hi', h.unborn i hi] at ho
        cases ho

/-! ## Runs -/

namespace Manager

variable {C : Type} [Fintype C] [DecidableEq C] {s s' : Manager C} {pid : ℕ}

/-- The section destroys an object that exists. -/
def Destroys (s : Manager C) : ManagerCall C → Prop
  | .destroyShared t _ => ∃ name ∈ s.destroying t, s.mem.shmObjMap[name]? ≠ none
  | _ => False

/-- **No clash of keys**: when an object is destroyed which others refer
to, its key, which is its name followed by the time, is not the key of
another object there are still references to. -/
def KeyFree (s : Manager C) : ManagerCall C → Prop
  | .destroyShared t now =>
    ∀ name ∈ s.destroying t, ∀ info ∈ s.mem.shmObjMap[name]?, ∀ o ∈ s.mem.infos info,
      o.refCnt ≠ 1 → ¬ Taken s.mem (name ++ toString now)
  | _ => True

instance (s : Manager C) : (l : ManagerCall C) → Decidable (s.KeyFree l)
  | .destroyShared t now => inferInstanceAs (Decidable (∀ name ∈ s.destroying t,
      ∀ info ∈ s.mem.shmObjMap[name]?, ∀ o ∈ s.mem.infos info,
        o.refCnt ≠ 1 → ¬ Taken s.mem (name ++ toString now)))
  | .create .. | .destroyLocal .. | .copyHandle .. | .dropHandle .. | .discovery ..
  | .notify .. | .monitor .. | .lockObject .. => inferInstanceAs (Decidable True)

/-- **Every object which is destroyed and not released is recorded.** -/
def Recorded (s : Manager C) : Prop :=
  ∀ i o, s.mem.infos i = some o → o.isDestroy = true → HasValue s.mem.shmObjRemovedMap i

/-- **What a step is to do about the removed objects**: all are recorded
after it; those without references are released if it destroys an object
that exists, and else none is; and what has been released is not there
again. -/
structure KeepsRecord (s : Manager C) (l : ManagerCall C) (s' : Manager C) : Prop where
  recorded : s'.Recorded
  released : ∀ i o, s.mem.infos i = some o → o.isDestroy = true →
    (s'.mem.infos i = none ↔ o.refCnt = 0 ∧ s.Destroys l)
  once : ∀ i, i < s.mem.nextInfo → s.mem.infos i = none → s'.mem.infos i = none

/-- **What a step can do to the removed objects**: nothing, or it is the
second section of `destroy` of an object that exists. -/
theorem removed_cases (h : References s.mem s.nodes) {l : ManagerCall C}
    (hstep : (managerSystem C pid).step s l s') :
    (∃ t now name info, l = .destroyShared t now ∧ s.destroying t = some name
      ∧ s.mem.shmObjMap[name]? = some info ∧ destroyShared name now s.mem = .ok s'.mem)
    ∨ ¬ s.Destroys l ∧ KeepsRemoved s.mem s'.mem := by
  have hsame : KeepsRemoved s.mem s.mem := .refl h.sound
  obtain ⟨hadm, hrun⟩ := hstep
  cases l with
  | create t type name now =>
    cases hrun
    exact .inr ⟨id, .create h.sound type name now s.owner⟩
  | destroyLocal t name =>
    cases hrun
    exact .inr ⟨id, hsame⟩
  | destroyShared t now =>
    dsimp only [Manager.run] at hrun
    cases ht : s.destroying t with
    | none => exact absurd ht hadm
    | some name =>
      rw [ht] at hrun
      obtain ⟨mem, hmem, heq⟩ := Except.bind_eq_ok.mp hrun
      cases heq
      cases hmap : s.mem.shmObjMap[name]? with
      | some info => exact .inl ⟨t, now, name, info, rfl, ht, hmap, hmem⟩
      | none =>
        unfold ShmObjManager.destroyShared at hmem
        rw [hmap] at hmem
        cases hmem
        refine .inr ⟨?_, hsame⟩
        rintro ⟨name', hname', hmapped⟩
        cases ht.symm.trans hname'
        exact hmapped hmap
  | copyHandle r =>
    cases hrun
    exact .inr ⟨id, hsame⟩
  | dropHandle r =>
    cases hrun
    exact .inr ⟨id, hsame⟩
  | discovery c type key =>
    obtain ⟨⟨r, mem, node⟩, hdisc, heq⟩ := Except.bind_eq_ok.mp hrun
    cases heq
    refine .inr ⟨id, ?_⟩
    obtain ⟨-, rfl, -⟩ | ⟨-, -, -, rfl, -⟩ | ⟨info, o, -, -, ho, -, rfl, -⟩ :=
      discovery_cases hdisc
    · exact hsame
    · exact hsame
    · exact .set h.sound ho rfl
  | notify c =>
    cases hrun
    exact .inr ⟨id, hsame⟩
  | monitor c =>
    obtain ⟨⟨mem, p⟩, hmon, heq⟩ := Except.bind_eq_ok.mp hrun
    cases heq
    refine .inr ⟨id, ?_⟩
    obtain ⟨key, keys, -, hone⟩ | ⟨key, keys, -, hone⟩ | ⟨-, rfl, -⟩ :=
      Process.monitorStep_cases hmon
    · obtain ⟨-, rfl, -⟩ | ⟨r, info, o, -, -, ho, rfl, -⟩ := monitorRemoved_cases hone
      · exact hsame
      · exact .set h.sound ho rfl
    · obtain ⟨-, rfl, -⟩ | ⟨r, info, o, -, -, ho, ⟨-, rfl, -⟩ | ⟨-, rfl, -⟩⟩ :=
        monitorListed_cases hone
      · exact hsame
      · exact hsame
      · exact .set h.sound ho rfl
    · exact hsame
  | lockObject c r =>
    obtain ⟨b, -, heq⟩ := Except.bind_eq_ok.mp hrun
    cases heq
    exact .inr ⟨id, hsame⟩

omit [Fintype C] [DecidableEq C] in
/-- A section which destroys nothing keeps the record. -/
theorem KeepsRecord.of_keepsRemoved (h : s.mem.Sound) (hrec : s.Recorded) {l : ManagerCall C}
    (hnot : ¬ s.Destroys l) (hk : KeepsRemoved s.mem s'.mem) : KeepsRecord s l s' := by
  have hmark : ∀ {i}, i < s.mem.nextInfo → ∀ {o}, s.mem.infos i = some o →
      ∃ o', s'.mem.infos i = some o' ∧ o'.isDestroy = o.isDestroy := by
    intro i hi o ho
    have heq := hk.infos i hi
    rw [ho, Option.map_some] at heq
    exact Option.map_eq_some_iff.mp heq
  refine ⟨fun i o ho hd => ?_, fun i o ho hd => ?_, fun i hi hnone => ?_⟩
  · have hi : i < s.mem.nextInfo := by
      by_contra hge
      rw [hk.new i o (not_lt.mp hge) ho] at hd
      cases hd
    have heq := hk.infos i hi
    rw [ho, Option.map_some] at heq
    obtain ⟨o₀, ho₀, hd₀⟩ := Option.map_eq_some_iff.mp heq.symm
    rw [hk.shmObjRemovedMap]
    exact hrec i o₀ ho₀ (hd₀.trans hd)
  · obtain ⟨o', ho', -⟩ := hmark (h.lt_nextInfo ho) ho
    refine iff_of_false ?_ fun hboth => hnot hboth.2
    rw [ho']
    exact Option.some_ne_none o'
  · have heq := hk.infos i hi
    rw [hnone, Option.map_none] at heq
    exact Option.map_eq_none_iff.mp heq

omit [Fintype C] [DecidableEq C] in
/-- The second section of `destroy` keeps the record, if the key is free. -/
theorem KeepsRecord.of_destroyed (h : s.mem.Sound) (hrec : s.Recorded) {t now : ℕ}
    {name : String} {info : ℕ} {o : ObjectInfo} (ht : s.destroying t = some name)
    (hmap : s.mem.shmObjMap[name]? = some info) (ho : s.mem.infos info = some o)
    (hd : Destroyed s.mem s'.mem name info o)
    (he : Entered s.mem s'.mem (name ++ toString now) info o)
    (hfree : o.refCnt ≠ 1 → ¬ Taken s.mem (name ++ toString now)) :
    KeepsRecord s (.destroyShared t now) s' := by
  have hdestroys : s.Destroys (.destroyShared t now) := by
    refine ⟨name, ht, ?_⟩
    rw [hmap]
    exact Option.some_ne_none info
  have hlive : o.isDestroy = false := by
    obtain ⟨o', ho', hlive⟩ := h.mapped name info hmap
    cases ho.symm.trans ho'
    exact hlive
  have hne : ∀ {i o'}, s.mem.infos i = some o' → o'.isDestroy = true → i ≠ info := by
    rintro i o' ho' hdes rfl
    rw [ho] at ho'
    cases ho'
    rw [hlive] at hdes
    cases hdes
  refine ⟨fun i o' ho' hdes => ?_, fun i o' ho' hdes => ?_, fun i hi hnone => ?_⟩
  · by_cases hi : i = info
    · obtain ⟨hcnt, hgone⟩ | ⟨hcnt, -⟩ := hd.self
      · rw [hi, hgone] at ho'
        cases ho'
      · rw [hi]
        exact ⟨_, he.entered hcnt (hfree hcnt)⟩
    · obtain hsame | ⟨hgone, -⟩ := hd.kept i hi
      · have hold : s.mem.infos i = some o' := hsame.symm.trans ho'
        obtain ⟨k, hk⟩ := hrec i o' hold hdes
        have hcnt : o'.refCnt ≠ 0 := by
          intro hzero
          rw [hd.cleared k i o' hk hold hzero] at ho'
          cases ho'
        exact ⟨k, (he.kept k i o' hk hold hcnt).1⟩
      · rw [hgone] at ho'
        cases ho'
  · obtain ⟨k, hk⟩ := hrec i o' ho' hdes
    refine ⟨fun hgone => ⟨?_, hdestroys⟩, fun hboth => hd.cleared k i o' hk ho' hboth.1⟩
    by_contra hcnt
    rw [(he.kept k i o' hk ho' hcnt).2] at hgone
    cases hgone
  · have hi' : i ≠ info := by
      rintro rfl
      rw [ho] at hnone
      cases hnone
    obtain hsame | ⟨hgone, -⟩ := hd.kept i hi'
    · exact hsame.trans hnone
    · exact hgone

omit [Fintype C] [DecidableEq C] in
/-- **A clash loses the object**: it stays as it is, and is not recorded. -/
theorem not_recorded_of_taken {key name : String} {info : ℕ} {o : ObjectInfo}
    (hd : Destroyed s.mem s'.mem name info o) (he : Entered s.mem s'.mem key info o)
    (hcnt : o.refCnt ≠ 1) (htaken : Taken s.mem key) : ¬ s'.Recorded := by
  intro hrec
  obtain ⟨hone, -⟩ | ⟨-, hself⟩ := hd.self
  · exact hcnt hone
  · exact he.refused hcnt htaken (hrec info _ hself rfl)

end Manager

/-- **When the removed objects are looked after.** In a run, every step
keeps them recorded until nobody refers to them, releases them with the
next `destroy` of an object that exists, and never again, exactly if no
step destroys an object under a key which is taken by an object there are
still references to. -/
theorem removedObjects_iff {C : Type} [Fintype C] [DecidableEq C] {pid : ℕ}
    {tr : List (Manager C × ManagerCall C)} {s : Manager C}
    (hr : (managerSystem C pid).Run tr s) :
    Steps Manager.KeepsRecord tr s ↔ Met Manager.KeyFree tr := by
  refine hr.steps_iff (J := fun s => References s.mem s.nodes ∧ s.Recorded) ?_ ?_ ?_
  · rintro s rfl
    refine ⟨Manager.fresh_references pid, fun i o ho => ?_⟩
    cases ho
  · rintro s l s' ⟨h, hrec⟩ hstep hfree
    have href := (Manager.effect_of_step h hstep).references h
    obtain ⟨t, now, name, info, rfl, ht, hmap, hrun⟩ | ⟨hnot, hk⟩ := Manager.removed_cases h hstep
    · obtain ⟨o, ho, hd, he⟩ := destroyShared_entered h.sound hmap hrun
      have hkeeps := Manager.KeepsRecord.of_destroyed h.sound hrec ht hmap ho hd he
        fun hcnt => hfree name ht info hmap o ho hcnt
      exact ⟨hkeeps, href, hkeeps.recorded⟩
    · have hkeeps := Manager.KeepsRecord.of_keepsRemoved h.sound hrec hnot hk
      exact ⟨hkeeps, href, hkeeps.recorded⟩
  · rintro s l s' ⟨h, hrec⟩ hstep hclash hkeeps
    obtain ⟨t, now, name, info, rfl, ht, hmap, hrun⟩ | ⟨hnot, hk⟩ := Manager.removed_cases h hstep
    · obtain ⟨o, ho, hd, he⟩ := destroyShared_entered h.sound hmap hrun
      refine hclash fun name' hname' info' hinfo' o' ho' hcnt htaken => ?_
      cases ht.symm.trans hname'
      cases hmap.symm.trans hinfo'
      cases ho.symm.trans ho'
      exact Manager.not_recorded_of_taken hd he hcnt htaken hkeeps.recorded
    · refine hclash ?_
      cases l with
      | destroyShared t now =>
        intro name hname info hinfo
        refine absurd ⟨name, hname, ?_⟩ hnot
        rw [show s.mem.shmObjMap[name]? = some info from hinfo]
        exact Option.some_ne_none info
      | create => trivial
      | destroyLocal => trivial
      | copyHandle => trivial
      | dropHandle => trivial
      | discovery => trivial
      | notify => trivial
      | monitor => trivial
      | lockObject => trivial

/-- Two objects are removed at different times, and both are recorded. -/
theorem removedObjects_iff_two : ∃ tr s, (managerSystem (Fin 1) 7).Run tr s
    ∧ tr.length = 8 ∧ Steps Manager.KeepsRecord tr s := by
  have htrace : (trace Manager.next [] (Manager.fresh (Fin 1) 7)
      [.create 0 "int" "a" 1, .create 0 "int" "b" 2, .discovery 0 "int" "a",
        .discovery 0 "int" "b", .destroyLocal 0 "a", .destroyShared 0 3, .destroyLocal 0 "b",
        .destroyShared 0 3]).map
        (fun e => (e.1.length, decide (Met Manager.KeyFree e.1)))
      = some (8, true) := by decide +kernel
  obtain ⟨tr, s, hr, heq⟩ :=
    Run.exists_of_trace (S := managerSystem (Fin 1) 7) Manager.step_of_next rfl htrace
  obtain ⟨hlen, hmet⟩ := Prod.mk.inj heq
  exact ⟨tr, s, hr, hlen, (removedObjects_iff hr).mpr (of_decide_eq_true hmet)⟩

/-- **An object is lost**: `a` destroyed at time 11 and `a1` at time 1 have
the same key, so that the second one is nowhere, and never released. -/
theorem removedObjects_lost : ∃ s, (managerSystem (Fin 1) 7).Reachable s
    ∧ s.mem.infos 1 = some ⟨1, true, "int", 7, some "int"⟩
    ∧ ¬ HasValue s.mem.shmObjMap 1 ∧ ¬ HasValue s.mem.shmObjRemovedMap 1 := by
  have htrace : (trace Manager.next [] (Manager.fresh (Fin 1) 7)
      [.create 0 "int" "a" 1, .create 0 "int" "a1" 2, .discovery 0 "int" "a",
        .discovery 0 "int" "a1", .destroyLocal 0 "a", .destroyShared 0 11,
        .destroyLocal 0 "a1", .destroyShared 0 1]).map
        (fun e => (e.2.mem.infos 1, decide (HasValue e.2.mem.shmObjMap 1),
          decide (HasValue e.2.mem.shmObjRemovedMap 1)))
      = some (some ⟨1, true, "int", 7, some "int"⟩, false, false) := by decide +kernel
  obtain ⟨tr, s, hr, heq⟩ :=
    Run.exists_of_trace (S := managerSystem (Fin 1) 7) Manager.step_of_next rfl htrace
  simp only [Prod.mk.injEq] at heq
  exact ⟨s, hr.reachable, heq.1, of_decide_eq_false heq.2.1, of_decide_eq_false heq.2.2⟩

end ShmObjManager
