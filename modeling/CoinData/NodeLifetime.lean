import CoinData.ObjectMonitor
import CoinData.OwnerDeath

/-!
# A node, its owners and its users

A node is known by its name. The process that owns it may die, and when all
who used it have noticed, another one may come under the same name, with a
shared memory of its own. The others keep what they were given: a retention
which `discovery` has returned for a key waits for the object when it is
destroyed or the owner dies, and is attached again when a new owner has created
the object and the process is notified.

`nodeSystem` is the life of a node over any number of owners. Objects of a new
owner are numbered on from those of the last one, so that an old pointer is not
mistaken for a new one.
-/

open Maps TransitionSystem

namespace ShmObjManager

/-- **A node**, with its owner or without. -/
inductive Node (C : Type) where
  | owned (s : Manager C)
  | abandoned (s : Abandoned C)

/-- What happens to a node. -/
inductive NodeStep (C : Type) where
  | owned (l : ManagerCall C)
  /-- The owner dies, between two sections. `setup` says who has the node set
  up. -/
  | die (setup : C → Bool)
  | abandoned (l : AbandonedStep C)
  /-- A new owner comes, when all have noticed. -/
  | restart (pid : ℕ)

/-- All have noticed the death of the owner, and their threads are idle. -/
def Abandoned.Vacant {C : Type} (s : Abandoned C) : Prop :=
  ∀ c, (s.process c).setup = false ∧ (s.process c).Free

instance {C : Type} [Fintype C] (s : Abandoned C) : Decidable s.Vacant :=
  inferInstanceAs (Decidable (∀ c, (s.process c).setup = false ∧ (s.process c).Free))

/-- **The node with a new owner.** -/
def Abandoned.restart {C : Type} (s : Abandoned C) (pid : ℕ) : Manager C where
  mem := { ShmSystemSharedInfo.empty pid with nextInfo := s.mem.nextInfo }
  owner := .empty
  handles _ := 0
  destroying _ := none
  returned := []
  process c := ⟨s.nodes c, .idle⟩

/-- **The system of a node** over the lives of its owners. -/
inductive Node.Step {C : Type} [DecidableEq C] : Node C → NodeStep C → Node C → Prop
  | owned {s s' : Manager C} {l : ManagerCall C} :
      s.Admits l → s.run l = .ok s' → Step (.owned s) (.owned l) (.owned s')
  | die {s : Manager C} {setup : C → Bool} :
      s.SetUp setup → Step (.owned s) (.die setup) (.abandoned (s.abandon setup))
  | abandoned {s s' : Abandoned C} {l : AbandonedStep C} :
      s.Admits l → s.run l = .ok s' → Step (.abandoned s) (.abandoned l) (.abandoned s')
  | restart {s : Abandoned C} {pid : ℕ} :
      s.Vacant → Step (.abandoned s) (.restart pid) (.owned (s.restart pid))

/-- **The system of a node**, whose first owner is process `pid`. -/
def nodeSystem (C : Type) [DecidableEq C] (pid : ℕ) : TransitionSystem (Node C) (NodeStep C) where
  init x := x = .owned (Manager.fresh C pid)
  step := Node.Step

/-- A step that is admitted and returns. The owner dies while all have the node
set up. -/
def Node.next {C : Type} [Fintype C] [DecidableEq C] : Node C → NodeStep C → Option (Node C)
  | .owned s, .owned l => (s.next l).map .owned
  | .owned s, .die setup =>
    if ∀ c, setup c = true then some (.abandoned (s.abandon setup)) else none
  | .abandoned s, .abandoned l => (s.next l).map .abandoned
  | .abandoned s, .restart pid => if s.Vacant then some (.owned (s.restart pid)) else none
  | _, _ => none

namespace Node

variable {C : Type}

/-- The shared memory. -/
def mem : Node C → ShmSystemSharedInfo
  | .owned s => s.mem
  | .abandoned s => s.mem

/-- What the processes keep. -/
def nodes : Node C → C → ExtNodeMapItem
  | .owned s => s.nodes
  | .abandoned s => s.nodes

/-- The owner is dead. -/
def isAbandoned : Node C → Bool
  | .owned _ => false
  | .abandoned _ => true

/-- Those who are left, when the owner is dead. -/
def abandoned? : Node C → Option (Abandoned C)
  | .owned _ => none
  | .abandoned s => some s

theorem eq_of_abandoned? {x : Node C} {s : Abandoned C} (h : x.abandoned? = some s) :
    x = .abandoned s := by
  cases x with
  | owned s => cases h
  | abandoned s =>
    cases h
    rfl

theorem exists_of_not_isAbandoned {x : Node C} (h : x.isAbandoned = false) :
    ∃ s, x = .owned s := by
  cases x with
  | owned s => exact ⟨s, rfl⟩
  | abandoned s => cases h

/-- `discovery<T>` by a process, and the retention it returns. -/
def discovery (x : Node C) (c : C) (type key : String) : Except ObjectFault ℕ :=
  match x with
  | .owned s => (ShmObjManager.discovery type key s.mem (s.nodes c)).map Prod.fst
  | .abandoned s =>
    (discoveryDead type key s.file (s.process c).setup (s.nodes c)).map Prod.fst

theorem step_of_next [Fintype C] [DecidableEq C] {pid : ℕ} (x : Node C) (l : NodeStep C)
    (x' : Node C) (h : x.next l = some x') : (nodeSystem C pid).step x l x' := by
  unfold next at h
  split at h
  · obtain ⟨s', hs, rfl⟩ := Option.map_eq_some_iff.mp h
    have hstep : (managerSystem C pid).step _ _ s' := Manager.step_of_next _ _ s' hs
    exact .owned hstep.1 hstep.2
  · next s setup =>
    split at h
    · next hall =>
      cases h
      exact .die fun c hc => by cases (hall c).symm.trans hc
    · cases h
  · next s l =>
    obtain ⟨s', hs, rfl⟩ := Option.map_eq_some_iff.mp h
    unfold Abandoned.next at hs
    split at hs
    · next hadm =>
      refine .abandoned hadm ?_
      cases hrun : s.run l with
      | ok s₁ =>
        rw [hrun] at hs
        rw [Option.some.inj hs]
      | error f =>
        rw [hrun] at hs
        cases hs
    · cases hs
  · split at h
    · next hvacant =>
      cases h
      exact .restart hvacant
    · cases h
  · cases h

/-- **What holds of a node.** -/
def Inv [Fintype C] : Node C → Prop
  | .owned s => References s.mem s.nodes
  | .abandoned s => s.Inv

end Node

/-! ## A new owner -/

namespace Abandoned

variable {C : Type} [Fintype C] {s : Abandoned C}

/-- **A new owner finds everybody waiting.** -/
theorem Inv.restart (h : s.Inv) (hvacant : s.Vacant) (pid : ℕ) :
    References (s.restart pid).mem (s.restart pid).nodes where
  sound := ⟨fun _ _ => rfl, fun i o ho => (by cases ho),
    fun k i hk => absurd hk (empty_ne_some k i), fun k i hk => absurd hk (empty_ne_some k i),
    oneKey_empty, oneKey_empty⟩
  follows c := by
    have hf : (s.nodes c).Follows s.mem.abandoned := h.references.follows c
    have hunlisted (k : String) (r : ℕ) : (s.nodes c).objList[k]? ≠ some r := by
      have hnone : (s.nodes c).objList[k]? = none := (h.process c).unlisted (hvacant c).1 k
      rw [hnone]
      exact (Option.some_ne_none r).symm
    refine ⟨hf.keysApart, fun k r hk => absurd hk (hunlisted k r), hf.waiting, hf.waitingOneKey,
      hf.oneEntry, fun k k' r i hk => absurd hk (hunlisted k r), hf.known,
      fun r i _ _ hv => ?_, hf.unmade⟩
    obtain ⟨k, hk⟩ := hv
    exact absurd hk (empty_ne_some k i)
  count i o ho := by cases ho

end Abandoned

/-! ## Retentions are kept -/

section

variable {node node' : ExtNodeMapItem} {mem mem' : ShmSystemSharedInfo} {key k : String} {r r' : ℕ}

/-- A retention that waits is listed. -/
theorem ExtNodeMapItem.holds_listed (hkey : node.objRemovedList[key]? = some r)
    (hlist : node.objList[key]? = none) {retention : ℕ → SharedObjectRetention}
    (h : node.Holds k r') :
    ({ node with
      retention := retention
      objList := node.objList.insertIfNew key r
      objRemovedList := node.objRemovedList.erase key } : ExtNodeMapItem).Holds k r' := by
  unfold ExtNodeMapItem.Holds
  rw [insertIfNew_of_none hlist, getElem?_erase]
  by_cases hk : k = key
  · subst hk
    rw [if_pos rfl, if_pos rfl]
    refine .inl ?_
    rcases h with hlisted | hwaiting
    · rw [hlist] at hlisted
      cases hlisted
    · exact hkey.symm.trans hwaiting
  · rwa [if_neg hk, if_neg hk]

theorem holds_monitorRemoved (hf : node.Follows mem) (h : node.Holds k r)
    (hrun : monitorRemoved key mem node = .ok (mem', node')) : node'.Holds k r := by
  rcases monitorRemoved_cases hrun with ⟨_, _, rfl⟩ | ⟨r', info, o, hremoved, _, _, _, rfl⟩
  · exact h
  · exact ExtNodeMapItem.holds_listed hremoved (hf.not_hasValue hremoved).1 h

theorem holds_monitorListed (hf : node.Follows mem) (h : node.Holds k r)
    (hrun : monitorListed key mem node = .ok (mem', node')) : node'.Holds k r :=
  (ExtNodeMapItem.Shrinks.monitorListed hf hrun).holds k r h

/-- A new entry under a key that is in neither list. -/
theorem ExtNodeMapItem.holds_new (hext : discoveryExtMap key node = none) (h : node.Holds k r)
    {retention : ℕ → SharedObjectRetention} {n new : ℕ} :
    (⟨node.objList.insertIfNew key new, node.objRemovedList, retention, n⟩ :
        ExtNodeMapItem).Holds k r
      ∧ (⟨node.objList, node.objRemovedList.insertIfNew key new, retention, n⟩ :
        ExtNodeMapItem).Holds k r := by
  obtain ⟨hlist, hremoved⟩ := discoveryExtMap_none hext
  have hk : k ≠ key := by
    rintro rfl
    rcases h with hlisted | hwaiting
    · rw [hlist] at hlisted
      cases hlisted
    · rw [hremoved] at hwaiting
      cases hwaiting
  unfold ExtNodeMapItem.Holds
  rw [insertIfNew_of_none hlist, insertIfNew_of_none hremoved, if_neg hk, if_neg hk]
  exact ⟨h, h⟩

theorem holds_discovery {type : String} (h : node.Holds k r)
    (hrun : discovery type key mem node = .ok (r', mem', node')) : node'.Holds k r := by
  rcases discovery_cases hrun with
    ⟨_, _, rfl⟩ | ⟨hext, _, _, _, rfl⟩ | ⟨info, o, hext, _, _, _, _, rfl⟩
  · exact h
  · exact (ExtNodeMapItem.holds_new hext h).2
  · exact (ExtNodeMapItem.holds_new hext h).1

/-- What `discovery` returns is kept. -/
theorem holds_of_discoveryExtMap (h : discoveryExtMap k node = some r) : node.Holds k r := by
  unfold discoveryExtMap at h
  split at h
  · next hlisted =>
    cases h
    exact .inl hlisted
  · exact .inr h

theorem holds_of_discovery {type : String}
    (hrun : discovery type k mem node = .ok (r, mem', node')) : node'.Holds k r := by
  rcases discovery_cases hrun with
    ⟨hext, _, rfl⟩ | ⟨hext, _, rfl, _, rfl⟩ | ⟨info, o, hext, _, _, rfl, _, rfl⟩
  · exact holds_of_discoveryExtMap hext
  · exact .inr ((insertIfNew_of_none (discoveryExtMap_none hext).2 _ _).trans (if_pos rfl))
  · exact .inl ((insertIfNew_of_none (discoveryExtMap_none hext).1 _ _).trans (if_pos rfl))

/-- What `discovery` returns for a key of which there is a retention. -/
theorem discoveryExtMap_of_holds (hf : node.Follows mem) (h : node.Holds k r) :
    discoveryExtMap k node = some r := by
  unfold discoveryExtMap
  rcases h with hlisted | hwaiting
  · rw [hlisted]
  · rw [(hf.not_hasValue hwaiting).1]
    exact hwaiting

end

section

variable {C : Type} [Fintype C] [DecidableEq C] {s s' : Manager C} {k : String} {r : ℕ} {c : C}

/-- **A section keeps each retention under its name**, whosever it is. -/
theorem Manager.holds_run (h : References s.mem s.nodes) {l : ManagerCall C}
    (hrun : s.run l = .ok s') (hold : (s.nodes c).Holds k r) : (s'.nodes c).Holds k r := by
  have hupdate {d : C} {p : Process} {mem : ShmSystemSharedInfo}
      (hnode : (s.nodes d).Holds k r → p.node.Holds k r) :
      (({ s with mem := mem, process := Function.update s.process d p } : Manager C).nodes
        c).Holds k r := by
    rw [nodes_update]
    by_cases hc : c = d
    · subst hc
      rw [Function.update_self]
      exact hnode hold
    · rwa [Function.update_of_ne hc]
  cases l with
  | create t type name now | destroyLocal t name | copyHandle r' | dropHandle r' =>
    cases hrun
    exact hold
  | destroyShared t now =>
    dsimp only [Manager.run] at hrun
    split at hrun
    · cases hrun
      exact hold
    · obtain ⟨mem, _, hrun⟩ := Except.bind_eq_ok.mp hrun
      cases hrun
      exact hold
  | discovery d type key =>
    obtain ⟨⟨_, _, _⟩, hdiscovery, hrun⟩ := Except.bind_eq_ok.mp hrun
    cases hrun
    exact hupdate fun hd => holds_discovery hd hdiscovery
  | notify d =>
    cases hrun
    exact hupdate id
  | monitor d =>
    obtain ⟨⟨_, p⟩, hmonitor, hrun⟩ := Except.bind_eq_ok.mp hrun
    cases hrun
    refine hupdate fun hd => ?_
    rcases Process.monitorStep_cases hmonitor with
      ⟨key, keys, _, hkey⟩ | ⟨key, keys, _, hkey⟩ | ⟨_, _, hnode⟩
    · exact holds_monitorRemoved (h.follows d) hd hkey
    · exact holds_monitorListed (h.follows d) hd hkey
    · rw [hnode]
      exact hd
  | lockObject d r' =>
    obtain ⟨_, _, hrun⟩ := Except.bind_eq_ok.mp hrun
    cases hrun
    exact hold

end

/-! ## The life of a node -/

namespace Node

variable {C : Type} [Fintype C] [DecidableEq C] {x x' : Node C} {l : NodeStep C} {pid : ℕ}
  {c : C} {k : String} {r : ℕ}

/-- What a section of those who are left does. -/
theorem effect_of_step {s s' : Abandoned C} {l : AbandonedStep C} (h : s.Inv) (hadm : s.Admits l)
    (hrun : s.run l = .ok s') : s'.Inv ∧ ∀ c, (s.nodes c).Shrinks (s'.nodes c) := by
  by_cases hl : ∃ c r, l = .lockObject c r
  · obtain ⟨c, r, rfl⟩ := hl
    obtain ⟨_, _, hrun⟩ := Except.bind_eq_ok.mp hrun
    cases hrun
    exact ⟨h, fun c => .refl _⟩
  · obtain ⟨s₁, hrun₁, hinv, heffect⟩ :=
      h.run hadm (fun c r heq => hl ⟨c, r, heq⟩) (Abandoned.passes_of_run hrun)
    rw [hrun] at hrun₁
    cases hrun₁
    exact ⟨hinv, heffect.shrinks⟩

theorem Inv.step (h : x.Inv) (hstep : x.Step l x') : x'.Inv := by
  cases hstep with
  | @owned s s' l hadm hrun =>
    have hstep : (managerSystem C 0).step s l s' := ⟨hadm, hrun⟩
    exact (Manager.effect_of_step h hstep).references h
  | die hsetup => exact Abandoned.abandon_inv h hsetup
  | abandoned hadm hrun => exact (effect_of_step h hadm hrun).1
  | restart hvacant => exact Abandoned.Inv.restart h hvacant _

theorem inv_of_reachable (h : (nodeSystem C pid).Reachable x) : x.Inv :=
  h.invariant (fun _ hx => hx ▸ Manager.fresh_references pid) fun _ _ _ _ hinv hstep =>
    hinv.step hstep

/-- **A step keeps each retention under its name.** -/
theorem Inv.holds_step (h : x.Inv) (hstep : x.Step l x') (hold : (x.nodes c).Holds k r) :
    (x'.nodes c).Holds k r := by
  cases hstep with
  | owned _ hrun => exact Manager.holds_run h hrun hold
  | die _ => exact hold
  | abandoned hadm hrun => exact ((effect_of_step h hadm hrun).2 c).holds k r hold
  | restart _ => exact hold

omit [DecidableEq C] in
/-- `discovery` returns the retention that is kept. -/
theorem Inv.discovery_eq (h : x.Inv) (hold : (x.nodes c).Holds k r) (type : String) :
    x.discovery c type k = .ok r := by
  cases x with
  | owned s =>
    have hext := discoveryExtMap_of_holds (References.follows h c) hold
    unfold discovery ShmObjManager.discovery
    dsimp only
    rw [hext]
    rfl
  | abandoned s =>
    have hext := discoveryExtMap_of_holds (h.references.follows c) hold
    unfold discovery ShmObjManager.discoveryDead
    dsimp only
    rw [hext]
    rfl

omit [Fintype C] in
/-- **What `discovery` returns is kept.** -/
theorem holds_of_discovery {type : String}
    (hl : l = .owned (.discovery c type k) ∨ l = .abandoned (.discovery c type k))
    (hstep : x.Step l x') (hret : x.discovery c type k = .ok r) : (x'.nodes c).Holds k r := by
  rcases hl with rfl | rfl
  · cases hstep with
    | @owned s s' _ hadm hrun =>
      obtain ⟨⟨r', mem, node⟩, hdiscovery, hrun⟩ := Except.bind_eq_ok.mp hrun
      cases hrun
      dsimp only [discovery] at hret
      rw [hdiscovery] at hret
      cases hret
      show (({ s with mem := mem, process := Function.update s.process c ⟨node, .idle⟩ } :
        Manager C).nodes c).Holds k _
      rw [Manager.nodes_update, Function.update_self]
      exact ShmObjManager.holds_of_discovery hdiscovery
  · cases hstep with
    | @abandoned s s' _ hadm hrun =>
      obtain ⟨⟨r', file, node⟩, hdiscovery, hrun⟩ := Except.bind_eq_ok.mp hrun
      cases hrun
      dsimp only [discovery] at hret
      rw [hdiscovery] at hret
      cases hret
      show ((s.modify c file s.mem _).nodes c).Holds k _
      rw [Abandoned.nodes_modify, Function.update_self]
      exact ShmObjManager.holds_of_discovery (discovery_abandoned s.mem hdiscovery)

end Node

variable {C : Type} [Fintype C] [DecidableEq C] {x : Node C} {pid : ℕ} {c : C} {k : String} {r : ℕ}

/-- **The counts over the lives of all owners.** Whoever owns the node, and
whether anybody does: the count of an object is one for the owner, if it was in
`shm_obj_map` when he died or is now, and one for each process that lists it.
While the owner lives, every section but `lock_object` returns; without him,
every one but `lock_object` returns if and only if it does not call
`discovery_shm_`, or `discovery_shm_` gets past his file, which is gone, or
whole and the process not attached to his memory. A process that has noticed the
death of the owner lists nothing, and is refused when it locks an object,
without touching the shared memory. -/
theorem node_refCnt (h : (nodeSystem C pid).Reachable x) :
    (∀ i o, x.mem.infos i = some o →
      o.refCnt = (if HasValue x.mem.shmObjMap i then 1 else 0) + referrers x.nodes i)
    ∧ (∀ s l, x = .owned s → s.Admits l → (∀ c r, l ≠ .lockObject c r) → ∃ s', s.run l = .ok s')
    ∧ ∀ s, x = .abandoned s →
      (∀ l, s.Admits l → (∀ c r, l ≠ .lockObject c r) →
        ((∃ s', s.run l = .ok s') ↔ s.Passes l))
      ∧ ∀ c, (s.process c).setup = false → (∀ k : String, (s.nodes c).objList[k]? = none)
        ∧ ∀ r, lockObject r s.mem (s.nodes c) = .ok false := by
  have hinv := Node.inv_of_reachable h
  refine ⟨fun i o ho => ?_, ?_, ?_⟩
  · cases x with
    | owned s => exact References.count hinv i o ho
    | abandoned s => exact Abandoned.Inv.refCnt hinv ho
  · rintro s l rfl _ hl
    obtain ⟨s', hrun, _⟩ := Manager.run_spec hinv l hl
    exact ⟨s', hrun⟩
  · rintro s rfl
    refine ⟨fun l hadm hl => ⟨fun ⟨s', hrun⟩ => Abandoned.passes_of_run hrun, fun hpass => ?_⟩,
      fun c hsetup => ⟨(hinv.process c).unlisted hsetup, fun r => ?_⟩⟩
    · obtain ⟨s', hrun, _⟩ := Abandoned.Inv.run hinv hadm hl hpass
      exact ⟨s', hrun⟩
    · exact Abandoned.Inv.lockObject_false hinv hsetup r

/-- The owner of an object dies while another process has it listed. As long as
that one is attached, its `discovery` of another object does not return. -/
theorem node_refCnt_two : ∃ s, (nodeSystem (Fin 1) 7).Reachable (.abandoned s)
    ∧ s.mem.shmObjMap["a"]? = some 0 ∧ (s.nodes 0).objList["a"]? = some 0
    ∧ (∀ i o, s.mem.infos i = some o →
      o.refCnt = (if HasValue s.mem.shmObjMap i then 1 else 0) + referrers s.nodes i)
    ∧ ¬ ∃ s', s.run (.discovery 0 "int" "b") = .ok s' := by
  have htrace : (trace Node.next [] (.owned (Manager.fresh (Fin 1) 7))
      [.owned (.create 0 "int" "a" 1), .owned (.discovery 0 "int" "a"), .die fun _ => true]).map
        (fun e => (e.2.mem.shmObjMap["a"]?, (e.2.nodes 0).objList["a"]?, e.2.abandoned?.map
          fun s => decide (s.Admits (.discovery 0 "int" "b")
            ∧ s.searches (.discovery 0 "int" "b") = some 0
            ∧ ¬ s.file.Passed (s.process 0).setup)))
      = some (some 0, some 0, some true) := by decide +kernel
  obtain ⟨tr, x, hr, heq⟩ :=
    Run.exists_of_trace (S := nodeSystem (Fin 1) 7) Node.step_of_next rfl htrace
  simp only [Prod.mk.injEq] at heq
  obtain ⟨hmap, hlist, hdead⟩ := heq
  obtain ⟨s, hs, hleft⟩ := Option.map_eq_some_iff.mp hdead
  obtain rfl := Node.eq_of_abandoned? hs
  obtain ⟨hadm, hsearches, hnot⟩ := of_decide_eq_true hleft
  obtain ⟨hcount, _, hrun⟩ := node_refCnt hr.reachable
  refine ⟨s, hr.reachable, hmap, hlist, hcount, fun hreturns => ?_⟩
  exact hnot (((hrun s rfl).1 _ hadm nofun).mp hreturns 0 hsearches)

/-- **All come to notice the death of an owner**, unless a process that is still
attached has its `inotify_shared_object_monitor_` in the loop which calls
`discovery_shm_`. However the threads in the background of the processes take
turns, and whatever becomes of the file, after finitely many steps nobody is
attached to the shared memory any more, and the count of each object is what the
owner held, whose map is as he left it: every reference has been given up once. -/
theorem node_settles {s : Abandoned C} (h : (nodeSystem C pid).Reachable (.abandoned s))
    (hquiet : s.Quiet) : (backgroundSystem C).Inevitably
      (fun t => t.Settled ∧ t.mem.shmObjMap = s.mem.shmObjMap) s :=
  Abandoned.Inv.settles (Node.inv_of_reachable h) hquiet

/-- Two processes have the object of an owner listed when he dies. -/
theorem node_settles_two : ∃ s, (nodeSystem (Fin 2) 7).Reachable (.abandoned s)
    ∧ (s.nodes 0).objList["a"]? = some 0 ∧ (s.nodes 1).objList["a"]? = some 0
    ∧ (backgroundSystem (Fin 2)).Inevitably
      (fun t => t.Settled ∧ t.mem.shmObjMap = s.mem.shmObjMap) s := by
  have htrace : (trace Node.next [] (.owned (Manager.fresh (Fin 2) 7))
      [.owned (.create 0 "int" "a" 1), .owned (.discovery 0 "int" "a"),
        .owned (.discovery 1 "int" "a"), .die fun _ => true]).map
        (fun e => ((e.2.nodes 0).objList["a"]?, (e.2.nodes 1).objList["a"]?,
          e.2.abandoned?.map fun s => decide (∀ c, (s.process c).searches = false)))
      = some (some 0, some 0, some true) := by decide +kernel
  obtain ⟨tr, x, hr, heq⟩ :=
    Run.exists_of_trace (S := nodeSystem (Fin 2) 7) Node.step_of_next rfl htrace
  simp only [Prod.mk.injEq] at heq
  obtain ⟨hlist, hlist', hdead⟩ := heq
  obtain ⟨s, hs, hleft⟩ := Option.map_eq_some_iff.mp hdead
  obtain rfl := Node.eq_of_abandoned? hs
  have hquiet : s.Quiet := fun c _ => of_decide_eq_true hleft c
  exact ⟨s, hr.reachable, hlist, hlist', node_settles hr.reachable hquiet⟩

/-- **A handle is for ever**: what `discovery` has once returned to a process for
a key, it returns from then on, whoever creates and destroys the object in
between, and whether the owner dies and another one comes. -/
theorem discovery_stable {tr : List (Node C × NodeStep C)} (hr : (nodeSystem C pid).Run tr x)
    {x₀ : Node C} {l : NodeStep C} {type : String} (he : (x₀, l) ∈ tr)
    (hl : l = .owned (.discovery c type k) ∨ l = .abandoned (.discovery c type k))
    (hret : x₀.discovery c type k = .ok r) (type' : String) :
    x.discovery c type' k = .ok r := by
  suffices hold : (x.nodes c).Holds k r from
    (Node.inv_of_reachable hr.reachable).discovery_eq hold type'
  induction hr with
  | start _ => cases he
  | @snoc tr y y' l' hr hstep ih =>
    rcases List.mem_cons.mp he with heq | he
    · cases heq
      exact Node.holds_of_discovery hl hstep hret
    · exact (Node.inv_of_reachable hr.reachable).holds_step hstep (ih he)

/-- The owner dies, all notice it, and another one creates an object under the
same name, which is not the one the handle was found for. -/
theorem discovery_stable_restart : ∃ x, (nodeSystem (Fin 1) 7).Reachable x
    ∧ x.mem.shmObjMap["a"]? = some 1 ∧ x.discovery 0 "double" "a" = .ok 0 := by
  have htrace : (trace Node.next [] (.owned (Manager.fresh (Fin 1) 7))
      [.owned (.create 0 "int" "a" 1), .owned (.discovery 0 "int" "a"), .die fun _ => true,
        .abandoned (.nodeMonitor 0), .abandoned (.nodeMonitor 0), .abandoned (.nodeMonitor 0),
        .restart 8, .owned (.create 0 "int" "a" 1)]).map
        (fun e => (e.2.mem.shmObjMap["a"]?, e.1.any fun y =>
          match y.2 with
          | .owned (.discovery c type key) => decide (c = 0 ∧ type = "int" ∧ key = "a"
              ∧ (y.1.discovery 0 "int" "a").toOption = some 0)
          | _ => false))
      = some (some 1, true) := by decide +kernel
  obtain ⟨tr, x, hr, heq⟩ :=
    Run.exists_of_trace (S := nodeSystem (Fin 1) 7) Node.step_of_next rfl htrace
  obtain ⟨hmap, hany⟩ := Prod.mk.inj heq
  obtain ⟨⟨x₀, l⟩, hmem, hl⟩ := List.any_eq_true.mp hany
  dsimp only at hl
  split at hl
  · obtain ⟨rfl, rfl, rfl, hret⟩ := of_decide_eq_true hl
    exact ⟨x, hr.reachable, hmap,
      discovery_stable hr hmem (.inl rfl) (Except.toOption_eq_some.mp hret) _⟩
  · cases hl

/-! ## A handle works again -/

section

variable {mem mem' : ShmSystemSharedInfo} {nodes : C → ExtNodeMapItem} {node' : ExtNodeMapItem}

theorem holds_monitorRemovedLoop (h : References mem nodes) {keys : List String}
    (hold : (nodes c).Holds k r)
    (hrun : monitorRemovedLoop keys mem (nodes c) = .ok (mem', node')) : node'.Holds k r := by
  induction keys generalizing mem nodes with
  | nil =>
    cases hrun
    exact hold
  | cons key keys ih =>
    obtain ⟨mem₁, node₁, hkey, href, _⟩ := h.monitorRemoved c key
    rw [monitorRemovedLoop, hkey, Except.ok_bind] at hrun
    refine ih href ?_ ?_
    · rw [Function.update_self]
      exact holds_monitorRemoved (h.follows c) hold hkey
    · rw [Function.update_self]
      exact hrun

theorem holds_monitorListedLoop (h : References mem nodes) {keys : List String}
    (hold : (nodes c).Holds k r) (hrun : monitorListedLoop keys mem (nodes c) = .ok (mem', node')) :
    node'.Holds k r := by
  induction keys generalizing mem nodes with
  | nil =>
    cases hrun
    exact hold
  | cons key keys ih =>
    obtain ⟨mem₁, node₁, hkey, href, _⟩ := h.monitorListed c key
    rw [monitorListedLoop, hkey, Except.ok_bind] at hrun
    refine ih href ?_ ?_
    · rw [Function.update_self]
      exact holds_monitorListed (h.follows c) hold hkey
    · rw [Function.update_self]
      exact hrun

/-- A run of the monitor keeps each retention under its name. -/
theorem holds_inotifySharedObjectMonitor (h : References mem nodes) (hold : (nodes c).Holds k r)
    (hrun : inotifySharedObjectMonitor mem (nodes c) = .ok (mem', node')) : node'.Holds k r := by
  obtain ⟨mem₁, node₁, hfirst, hpassed⟩ :=
    monitorRemovedLoop_passed h c (nodes c).objRemovedList.keys
  unfold inotifySharedObjectMonitor at hrun
  rw [hfirst, Except.ok_bind] at hrun
  have hself : Function.update nodes c node₁ c = node₁ := Function.update_self ..
  have hmid : (Function.update nodes c node₁ c).Holds k r := by
    rw [hself]
    exact holds_monitorRemovedLoop h hold hfirst
  have hsecond : monitorListedLoop node₁.objList.keys mem₁ (Function.update nodes c node₁ c)
      = .ok (mem', node') := by
    rw [hself]
    exact hrun
  exact holds_monitorListedLoop hpassed.references hmid hsecond

end

/-- **A handle works again**: when the object of a retention that waits is in
`shm_obj_map`, one notification is enough, and the same handle can be locked. -/
theorem handle_revives {s : Manager C} (h : (nodeSystem C pid).Reachable (.owned s)) {info : ℕ}
    (hwaiting : (s.nodes c).objRemovedList[k]? = some r) (hmap : s.mem.shmObjMap[k]? = some info) :
    ∃ mem' node', inotifySharedObjectMonitor s.mem (s.nodes c) = .ok (mem', node')
      ∧ node'.objList[k]? = some r ∧ (node'.retention r).ptr = some info
      ∧ lockObject r mem' node' = .ok true := by
  have href : References s.mem s.nodes := Node.inv_of_reachable h
  obtain ⟨mem', node', hrun, href', hrec, htrack⟩ := inotifySharedObjectMonitor_spec href c
  have hf : node'.Follows mem' := by
    have hfollows := href'.follows c
    rwa [Function.update_self] at hfollows
  have hlive : s.mem.destroyed info = false := by
    obtain ⟨o, ho, hdes⟩ := href.sound.mapped k info hmap
    unfold ShmSystemSharedInfo.destroyed
    rw [ho]
    exact hdes
  -- the first loop finds the object, and the second one does not give it up
  have hfound : node'.tracking k = .found info := by
    rw [htrack k, (href.follows c).tracking_waiting.mpr ⟨r, hwaiting⟩, hmap]
    exact if_neg (by rw [hlive]; exact Bool.false_ne_true)
  obtain ⟨r', hlist, hptr⟩ := hf.tracking_found.mp hfound
  -- and the retention which is listed now is the one that waited
  have hr : r' = r := by
    rcases holds_inotifySharedObjectMonitor href (.inr hwaiting) hrun with hlisted | hremoved
    · exact Option.some.inj (hlist.symm.trans hlisted)
    · rw [hf.keysApart k r' hlist] at hremoved
      cases hremoved
  subst hr
  obtain ⟨_, _, i, hi, hattached, o, ho⟩ := hf.listed k r' hlist
  rw [hptr] at hi
  cases hi
  refine ⟨mem', node', hrun, hlist, hptr, ?_⟩
  unfold lockObject
  rw [hattached, hptr]
  obtain ⟨o', ho', hdes⟩ := href'.sound.mapped k info (hrec.shmObjMap ▸ hmap)
  unfold ShmSystemSharedInfo.deref
  rw [if_pos rfl]
  dsimp only
  rw [ho', Except.ok_bind, hdes]
  rfl

/-- A handle to an object of the first owner works again with the second. -/
theorem handle_revives_restart : ∃ s, (nodeSystem (Fin 1) 7).Reachable (.owned s)
    ∧ lockObject 0 s.mem (s.nodes 0) = .ok false
    ∧ ∃ mem' node', inotifySharedObjectMonitor s.mem (s.nodes 0) = .ok (mem', node')
      ∧ node'.objList["a"]? = some 0 ∧ (node'.retention 0).ptr = some 1
      ∧ lockObject 0 mem' node' = .ok true := by
  have htrace : (trace Node.next [] (.owned (Manager.fresh (Fin 1) 7))
      [.owned (.create 0 "int" "a" 1), .owned (.discovery 0 "int" "a"), .die fun _ => true,
        .abandoned (.nodeMonitor 0), .abandoned (.nodeMonitor 0), .abandoned (.nodeMonitor 0),
        .restart 8, .owned (.create 0 "int" "a" 1)]).map
        (fun e => (e.2.isAbandoned, (e.2.nodes 0).objRemovedList["a"]?, e.2.mem.shmObjMap["a"]?,
          (lockObject 0 e.2.mem (e.2.nodes 0)).toOption))
      = some (false, some 0, some 1, some false) := by decide +kernel
  obtain ⟨tr, x, hr, heq⟩ :=
    Run.exists_of_trace (S := nodeSystem (Fin 1) 7) Node.step_of_next rfl htrace
  simp only [Prod.mk.injEq] at heq
  obtain ⟨halive, hwaiting, hmap, hlock⟩ := heq
  obtain ⟨s, rfl⟩ := Node.exists_of_not_isAbandoned halive
  exact ⟨s, hr.reachable, Except.toOption_eq_some.mp hlock,
    handle_revives hr.reachable hwaiting hmap⟩

end ShmObjManager
