import CoinData.ObjectSystem

/-!
# Creating and destroying on several threads

Threads of the owner create and destroy objects of one type. `create` holds
both mutexes of the manager, one inside the other, while `destroy` takes
them one after the other: between its sections the name is in
`shm_obj_map` but not in the `obj_list`. A `create` of the name which falls
in between returns nothing; and if the name is created anew before the
second section, that section takes the new object. As long as neither
happens, the tables agree whenever no call is in progress.
-/

open Maps

namespace ShmObjManager

open TransitionSystem

/-- Calls whose type, if they have one, is `type`. -/
def ManagerCall.OfType {C : Type} (type : String) : ManagerCall C → Prop
  | .create _ type' _ _ => type' = type
  | _ => True

instance {C : Type} (type : String) : (l : ManagerCall C) → Decidable (l.OfType type)
  | .create _ type' _ _ => inferInstanceAs (Decidable (type' = type))
  | .destroyLocal .. | .destroyShared .. | .copyHandle .. | .dropHandle .. | .discovery ..
  | .notify .. | .monitor .. | .lockObject .. => inferInstanceAs (Decidable True)

/-- **The system of the threads of one process** which create and destroy
objects of one type. -/
def threadSystem (type : String) (pid : ℕ) :
    TransitionSystem (Manager (Fin 0)) (ManagerCall (Fin 0)) where
  init s := s = Manager.fresh (Fin 0) pid
  step s l s' := l.OfType type ∧ (managerSystem (Fin 0) pid).step s l s'

namespace Manager

/-- No call is in progress. -/
def Quiescent {C : Type} (s : Manager C) : Prop := ∀ t, s.destroying t = none

/-- **The tables agree**: they have the same names, and the retention of a
name points to its object. -/
structure Agree {C : Type} (s : Manager C) : Prop where
  keys : ∀ name, name ∈ s.owner.objList ↔ name ∈ s.mem.shmObjMap
  pointers : ∀ (name : String) r, s.owner.objList[name]? = some r →
    ∃ i, (s.owner.retention r).ptr = some i ∧ s.mem.shmObjMap[name]? = some i

/-- **What threads have to avoid**: to create a name between the sections of
its `destroy`, and to destroy a name which has been created since the first
section. -/
def Undisturbed {C : Type} (s : Manager C) : ManagerCall C → Prop
  | .create _ _ name _ => name ∈ s.owner.objList ∨ name ∉ s.mem.shmObjMap
  | .destroyShared t _ => ∀ name ∈ s.destroying t, name ∉ s.owner.objList
  | _ => True

instance {C : Type} (s : Manager C) : (l : ManagerCall C) → Decidable (s.Undisturbed l)
  | .create _ _ name _ => inferInstanceAs
      (Decidable (name ∈ s.owner.objList ∨ name ∉ s.mem.shmObjMap))
  | .destroyShared t _ => inferInstanceAs
      (Decidable (∀ name ∈ s.destroying t, name ∉ s.owner.objList))
  | .destroyLocal .. | .copyHandle .. | .dropHandle .. | .discovery ..
  | .notify .. | .monitor .. | .lockObject .. => inferInstanceAs (Decidable True)

end Manager

/-- Perform a call of the type that is admitted and returns. -/
def Manager.nextOfType (type : String) (s : Manager (Fin 0)) (l : ManagerCall (Fin 0)) :
    Option (Manager (Fin 0)) :=
  if l.OfType type then s.next l else none

theorem Manager.step_of_nextOfType {type : String} {pid : ℕ} (s : Manager (Fin 0))
    (l : ManagerCall (Fin 0)) (s' : Manager (Fin 0)) (h : s.nextOfType type l = some s') :
    (threadSystem type pid).step s l s' := by
  unfold Manager.nextOfType at h
  split at h
  · next htype => exact ⟨htype, Manager.step_of_next s l s' h⟩
  · cases h

/-! ## What the owner keeps -/

/-- The retentions of the owner: all are of the type, no retention is
listed twice, and a listed one points to the object of its name. -/
structure ExtNodeMapItem.Owns (node : ExtNodeMapItem) (type : String)
    (mem : ShmSystemSharedInfo) : Prop where
  listed : ∀ (k : String) r, node.objList[k]? = some r → r < node.nextRetention
    ∧ (node.retention r).type = some type
    ∧ ∃ i, (node.retention r).ptr = some i ∧ mem.shmObjMap[k]? = some i
  waiting : ∀ (k : String) r, node.objRemovedList[k]? = some r → r < node.nextRetention
    ∧ (node.retention r).type = some type ∧ ¬ HasValue node.objList r
  listOneKey : OneKey node.objList
  waitingOneKey : OneKey node.objRemovedList

namespace ExtNodeMapItem.Owns

variable {node : ExtNodeMapItem} {type name : String} {mem mem' : ShmSystemSharedInfo} {r : ℕ}

/-- What the owner keeps survives a change of the shared memory in which
listed names keep their objects. -/
theorem frame (h : node.Owns type mem)
    (hmap : ∀ (k : String) r, node.objList[k]? = some r →
      mem'.shmObjMap[k]? = mem.shmObjMap[k]?) : node.Owns type mem' := by
  refine ⟨fun k r hk => ?_, h.waiting, h.listOneKey, h.waitingOneKey⟩
  rw [hmap k r hk]
  exact h.listed k r hk

/-- **A new object is listed** under its name. -/
theorem created {node' : ExtNodeMapItem} {info : ℕ} (h : node.Owns type mem)
    (hc : Created node node' type name info r)
    (hmap : ∀ k : String, mem'.shmObjMap[k]? = if k = name then some info else mem.shmObjMap[k]?) :
    node'.Owns type mem' := by
  -- the retention is the one that waits under the name, or a new one
  obtain ⟨hr, htype, hnot, hwait⟩ : r < node'.nextRetention
      ∧ (node'.retention r).type = some type ∧ ¬ HasValue node.objList r
      ∧ ∀ k : String, node.objRemovedList[k]? = some r → k = name := by
    rcases hc.source with ⟨hrem, hnext, htype⟩ | ⟨_, hr, hnext, htype⟩
    · obtain ⟨hlt, ht, hv⟩ := h.waiting name r hrem
      exact ⟨hnext ▸ hlt, htype.trans ht, hv, fun k hk => h.waitingOneKey k name r hk hrem⟩
    · refine ⟨by omega, htype, fun ⟨k, hk⟩ => ?_, fun k hk => ?_⟩
      · exact absurd (h.listed k r hk).1 (by omega)
      · exact absurd (h.waiting k r hk).1 (by omega)
  have hlisted : ∀ {k : String} {r'}, node'.objList[k]? = some r' →
      k = name ∧ r' = r ∨ k ≠ name ∧ r' ≠ r ∧ node.objList[k]? = some r' := by
    intro k r' hk
    rw [hc.objList] at hk
    by_cases hkn : k = name
    · rw [if_pos hkn] at hk
      exact Or.inl ⟨hkn, (Option.some.inj hk).symm⟩
    · rw [if_neg hkn] at hk
      refine Or.inr ⟨hkn, ?_, hk⟩
      rintro rfl
      exact hnot ⟨k, hk⟩
  have hwaiting : ∀ {k : String} {r'}, node'.objRemovedList[k]? = some r' →
      r' ≠ r ∧ node.objRemovedList[k]? = some r' := by
    intro k r' hk
    rw [hc.objRemovedList] at hk
    by_cases hkn : k = name
    · rw [if_pos hkn] at hk
      cases hk
    · rw [if_neg hkn] at hk
      refine ⟨?_, hk⟩
      rintro rfl
      exact hkn (hwait k hk)
  refine ⟨fun k r' hk => ?_, fun k r' hk => ?_, fun k k' r' hk hk' => ?_,
    hc.waitingOneKey h.waitingOneKey⟩
  · rcases hlisted hk with ⟨hkn, rfl⟩ | ⟨hkn, hr', hk⟩
    · refine ⟨hr, htype, info, hc.ptr, ?_⟩
      rw [hmap k, if_pos hkn]
    · obtain ⟨hlt, ht, i, hptr, hi⟩ := h.listed k r' hk
      rw [hc.others r' hr', hmap k, if_neg hkn]
      exact ⟨hlt.trans_le hc.nextRetention_le, ht, i, hptr, hi⟩
  · obtain ⟨hr', hk⟩ := hwaiting hk
    obtain ⟨hlt, ht, hv⟩ := h.waiting k r' hk
    rw [hc.others r' hr']
    refine ⟨hlt.trans_le hc.nextRetention_le, ht, fun ⟨k', hk'⟩ => ?_⟩
    rcases hlisted hk' with ⟨_, rfl⟩ | ⟨_, _, hk'⟩
    · exact hr' rfl
    · exact hv ⟨k', hk'⟩
  · rcases hlisted hk with ⟨hkn, hr'⟩ | ⟨_, hr', hk⟩
    · rcases hlisted hk' with ⟨hkn', _⟩ | ⟨_, hne, _⟩
      · rw [hkn, hkn']
      · exact absurd hr' hne
    · rcases hlisted hk' with ⟨_, heq⟩ | ⟨_, _, hk'⟩
      · exact absurd heq hr'
      · exact h.listOneKey k k' r' hk hk'

/-- **The first section of `destroy`** takes the name off the `obj_list`. -/
theorem destroyLocal (h : node.Owns type mem) (name : String) (handles : ℕ → ℕ) :
    (ShmObjManager.destroyLocal name handles node).Owns type mem
      ∧ ∀ k : String, (ShmObjManager.destroyLocal name handles node).objList[k]?
          = if k = name then none else node.objList[k]? := by
  refine ⟨?_, destroyLocal_objList name handles node⟩
  cases hname : node.objList[name]? with
  | none =>
    unfold ShmObjManager.destroyLocal
    rw [hname]
    exact h
  | some r =>
    rw [destroyLocal_listed hname]
    obtain ⟨hr, ht, _⟩ := h.listed name r hname
    have hold : ∀ r', r' ≠ r → (node.detach r).retention r' = node.retention r' :=
      fun r' hr' => Function.update_of_ne hr' _ _
    have htypes : ∀ r', ((node.detach r).retention r').type = (node.retention r').type := by
      intro r'
      by_cases hr' : r' = r
      · rw [hr']
        show (Function.update node.retention r _ r).type = _
        rw [Function.update_self]
      · rw [hold r' hr']
    have hval : ∀ r', HasValue (node.objList.erase name) r' ↔ HasValue node.objList r' ∧ r' ≠ r :=
      fun r' => hasValue_erase h.listOneKey hname
    have hwait : ∀ (k : String) r', node.objRemovedList[k]? = some r' →
        r' < node.nextRetention ∧ ((node.detach r).retention r').type = some type
          ∧ ¬ HasValue (node.objList.erase name) r' := by
      intro k r' hk
      obtain ⟨hlt, ht', hv⟩ := h.waiting k r' hk
      exact ⟨hlt, (htypes r').trans ht', fun hv' => hv ((hval r').mp hv').1⟩
    have hlist : ∀ (k : String) r', (node.objList.erase name)[k]? = some r' →
        r' < node.nextRetention ∧ ((node.detach r).retention r').type = some type
          ∧ ∃ i, ((node.detach r).retention r').ptr = some i ∧ mem.shmObjMap[k]? = some i := by
      intro k r' hk
      have hne := ((hval r').mp ⟨k, hk⟩).2
      obtain ⟨_, hk⟩ := erase_some hk
      rw [hold r' hne]
      exact h.listed k r' hk
    dsimp only
    split
    · refine ⟨hlist, fun k r' hk => ?_, h.listOneKey.erase, h.waitingOneKey.insertIfNew ?_⟩
      · rcases insertIfNew_cases hk with ⟨_, hr', _⟩ | hk'
        · rw [hr']
          exact ⟨hr, (htypes r).trans ht, fun hv => ((hval r).mp hv).2 rfl⟩
        · exact hwait k r' hk'
      · rintro ⟨k, hk⟩
        exact (h.waiting k r hk).2.2 ⟨name, hname⟩
    · exact ⟨hlist, hwait, h.listOneKey.erase, h.waitingOneKey⟩

end ExtNodeMapItem.Owns

/-! ## The invariant -/

namespace Manager

/-- **The invariant of the threads**: a name in `shm_obj_map` which is not
listed is about to be destroyed. -/
structure ThreadInv (type : String) (s : Manager (Fin 0)) : Prop where
  references : References s.mem s.nodes
  owns : s.owner.Owns type s.mem
  mapped : ∀ name : String, s.mem.shmObjMap[name]? ≠ none →
    s.owner.objList[name]? ≠ none ∨ ∃ t, s.destroying t = some name
  returned : ∀ res ∈ s.returned, res ≠ none

variable {s s' : Manager (Fin 0)} {type : String} {pid : ℕ}

theorem ThreadInv.create (h : s.ThreadInv type) {t now : ℕ} {name : String}
    (href : References s'.mem s'.nodes) (hok : s.Undisturbed (.create t type name now))
    (hrun : s.run (.create t type name now) = .ok s') : s'.ThreadInv type := by
  dsimp only [Manager.run] at hrun
  cases hname : s.owner.objList[name]? with
  | some r =>
    have heq : ShmObjManager.create type name now s.mem s.owner = (some r, s.mem, s.owner) := by
      rw [create_listed hname, if_pos (h.owns.listed name r hname).2.1]
    rw [heq] at hrun
    cases hrun
    exact ⟨href, h.owns, h.mapped,
      List.forall_mem_cons.mpr ⟨Option.some_ne_none r, h.returned⟩⟩
  | none =>
    have hmap : s.mem.shmObjMap[name]? = none := by
      rcases hok with hin | hnot
      · rw [Std.TreeMap.mem_iff_isSome_getElem?, hname] at hin
        cases hin
      · exact Std.TreeMap.getElem?_eq_none hnot
    obtain ⟨r, node', heq, hc⟩ := create_new hname hmap type now
    rw [heq] at hrun
    cases hrun
    refine ⟨href, h.owns.created hc (insertIfNew_of_none hmap _), fun k hk => ?_,
      List.forall_mem_cons.mpr ⟨Option.some_ne_none r, h.returned⟩⟩
    dsimp only at hk ⊢
    rw [insertIfNew_of_none hmap] at hk
    rw [hc.objList]
    by_cases hkn : k = name
    · rw [if_pos hkn]
      exact Or.inl (Option.some_ne_none r)
    · rw [if_neg hkn] at hk ⊢
      exact h.mapped k hk

theorem ThreadInv.destroyLocal (h : s.ThreadInv type) {t : ℕ} {name : String}
    (hadm : s.destroying t = none) (href : References s'.mem s'.nodes)
    (hrun : s.run (.destroyLocal t name) = .ok s') : s'.ThreadInv type := by
  cases hrun
  obtain ⟨howns, hlist⟩ := h.owns.destroyLocal name s.handles
  refine ⟨href, howns, fun k hk => ?_, h.returned⟩
  dsimp only at hk ⊢
  rw [hlist k]
  by_cases hkn : k = name
  · exact Or.inr ⟨t, by rw [Function.update_self, hkn]⟩
  · rw [if_neg hkn]
    refine (h.mapped k hk).imp_right ?_
    rintro ⟨t', ht'⟩
    refine ⟨t', ?_⟩
    rw [Function.update_of_ne, ht']
    rintro rfl
    rw [hadm] at ht'
    cases ht'

theorem ThreadInv.destroyShared (h : s.ThreadInv type) {t now : ℕ}
    (href : References s'.mem s'.nodes) (hok : s.Undisturbed (.destroyShared t now))
    (hrun : s.run (.destroyShared t now) = .ok s') : s'.ThreadInv type := by
  dsimp only [Manager.run] at hrun
  cases ht : s.destroying t with
  | none =>
    rw [ht] at hrun
    cases hrun
    exact h
  | some name =>
    rw [ht] at hrun
    have hfree : s.owner.objList[name]? = none :=
      Std.TreeMap.getElem?_eq_none (hok name ht)
    -- whichever branch is taken, the name is gone from `shm_obj_map`
    obtain ⟨mem', hds, herase⟩ : ∃ mem', ShmObjManager.destroyShared name now s.mem = .ok mem'
        ∧ ∀ k : String, mem'.shmObjMap[k]? = if k = name then none else s.mem.shmObjMap[k]? := by
      cases hmap : s.mem.shmObjMap[name]? with
      | none =>
        refine ⟨s.mem, ?_, fun k => ?_⟩
        · unfold ShmObjManager.destroyShared
          rw [hmap]
        · split
          · next hk => rw [hk, hmap]
          · rfl
      | some info =>
        obtain ⟨o, mem', _, hds, hd⟩ := destroyShared_spec h.references.sound hmap now
        refine ⟨mem', hds, fun k => ?_⟩
        rw [hd.shmObjMap, getElem?_erase]
    dsimp only at hrun
    rw [hds] at hrun
    cases hrun
    refine ⟨href, h.owns.frame fun k r hk => ?_, fun k hk => ?_, h.returned⟩
    · rw [herase k, if_neg]
      rintro rfl
      rw [hfree] at hk
      cases hk
    · dsimp only at hk ⊢
      rw [herase k] at hk
      split at hk
      · exact absurd rfl hk
      · next hkn =>
        refine (h.mapped k hk).imp_right ?_
        rintro ⟨t', ht'⟩
        refine ⟨t', ?_⟩
        rw [Function.update_of_ne, ht']
        rintro rfl
        rw [ht] at ht'
        exact hkn (Option.some.inj ht').symm

/-- **A step which disturbs nothing keeps the invariant.** -/
theorem ThreadInv.step {l : ManagerCall (Fin 0)} (h : s.ThreadInv type)
    (hstep : (threadSystem type pid).step s l s') (hok : s.Undisturbed l) :
    s'.ThreadInv type := by
  obtain ⟨htype, hstep⟩ := hstep
  have href := (effect_of_step h.references hstep).references h.references
  obtain ⟨hadm, hrun⟩ := hstep
  cases l with
  | create t type' name now =>
    cases htype
    exact h.create href hok hrun
  | destroyLocal t name => exact h.destroyLocal hadm href hrun
  | destroyShared t now => exact h.destroyShared href hok hrun
  | copyHandle r =>
    cases hrun
    exact ⟨href, h.owns, h.mapped, h.returned⟩
  | dropHandle r =>
    cases hrun
    exact ⟨href, h.owns, h.mapped, h.returned⟩
  | discovery c type key => exact c.elim0
  | notify c => exact c.elim0
  | monitor c => exact c.elim0
  | lockObject c r => exact c.elim0

/-- Without calls in progress, the tables agree. -/
theorem ThreadInv.agree (h : s.ThreadInv type) (hq : s.Quiescent) : s.Agree := by
  refine ⟨fun name => ?_, fun name r hk => (h.owns.listed name r hk).2.2⟩
  rw [Std.TreeMap.mem_iff_isSome_getElem?, Std.TreeMap.mem_iff_isSome_getElem?,
    Option.isSome_iff_ne_none, Option.isSome_iff_ne_none]
  constructor
  · intro hk
    obtain ⟨r, hr⟩ := Option.ne_none_iff_exists'.mp hk
    obtain ⟨_, _, i, _, hi⟩ := h.owns.listed name r hr
    rw [hi]
    exact Option.some_ne_none i
  · intro hk
    rcases h.mapped name hk with hk | ⟨t, ht⟩
    · exact hk
    · rw [hq t] at ht
      cases ht

theorem fresh_threadInv (type : String) (pid : ℕ) : (fresh (Fin 0) pid).ThreadInv type := by
  refine ⟨fresh_references pid, ⟨fun k r h => absurd h (empty_ne_some k r),
    fun k r h => absurd h (empty_ne_some k r), oneKey_empty, oneKey_empty⟩, fun k hk => ?_, nofun⟩
  obtain ⟨i, hi⟩ := Option.ne_none_iff_exists'.mp hk
  exact absurd hi (empty_ne_some k i)

end Manager

/-- **When threads can create and destroy freely.** As long as no thread
creates a name between the sections of a `destroy` of it, or destroys one
which was created since its first section, every `create` returns an
object, and the tables agree whenever no call is in progress. -/
theorem create_destroy_agree {type : String} {pid : ℕ}
    {tr : List (Manager (Fin 0) × ManagerCall (Fin 0))} {s : Manager (Fin 0)}
    (hr : (threadSystem type pid).Run tr s) (hc : Met Manager.Undisturbed tr) :
    Throughout (fun s => (∀ res ∈ s.returned, res ≠ none) ∧ (s.Quiescent → s.Agree)) tr s := by
  have hinv : Throughout (Manager.ThreadInv type) tr s := by
    refine hr.throughout_of_met ?_ (fun s l s' _ h hstep hl => h.step hstep hl) hc
    rintro s rfl
    exact Manager.fresh_threadInv type pid
  exact ⟨⟨hinv.1.returned, hinv.1.agree⟩, fun e he => ⟨(hinv.2 e he).returned, (hinv.2 e he).agree⟩⟩

/-- Two threads share an object; one destroys it, and creates it again
while the other destroys something else. -/
theorem create_destroy_agree_shared : ∃ tr s, (threadSystem "int" 7).Run tr s
    ∧ tr.length = 8 ∧ s.returned = [some 0, some 0, some 0]
    ∧ Throughout (fun s => (∀ res ∈ s.returned, res ≠ none) ∧ (s.Quiescent → s.Agree)) tr s := by
  have htrace : (trace (Manager.nextOfType "int") [] (Manager.fresh (Fin 0) 7)
      [.create 0 "int" "test" 1, .create 1 "int" "test" 2, .destroyLocal 0 "test",
        .destroyLocal 1 "other", .destroyShared 0 3, .create 0 "int" "test" 4,
        .destroyShared 1 5, .dropHandle 0]).map
        (fun e => (e.1.length, e.2.returned, decide (Met Manager.Undisturbed e.1)))
      = some (8, [some 0, some 0, some 0], true) := by decide +kernel
  obtain ⟨tr, s, hr, heq⟩ :=
    Run.exists_of_trace (S := threadSystem "int" 7) Manager.step_of_nextOfType rfl htrace
  simp only [Prod.mk.injEq, decide_eq_true_eq] at heq
  obtain ⟨hlen, hret, hmet⟩ := heq
  exact ⟨tr, s, hr, hlen, hret, create_destroy_agree hr hmet⟩

/-- **Between the sections of `destroy`**: one thread creates the name the
other is destroying, and is given nothing. And if two threads destroy the
name, and a third creates it anew in between, nothing is in progress in the
end, the name is listed, but its object is gone. -/
theorem create_destroy_not_agree :
    (∃ s, (threadSystem "int" 7).Reachable s ∧ none ∈ s.returned)
    ∧ ∃ s, (threadSystem "int" 7).Reachable s ∧ s.Quiescent ∧ none ∉ s.returned
      ∧ s.owner.objList["test"]? = some 0 ∧ s.mem.shmObjMap["test"]? = none := by
  constructor
  · have htrace : (trace (Manager.nextOfType "int") [] (Manager.fresh (Fin 0) 7)
        [.create 0 "int" "test" 1, .destroyLocal 0 "test", .create 1 "int" "test" 2]).map
          (fun e => e.2.returned)
        = some [none, some 0] := by decide +kernel
    obtain ⟨tr, s, hr, heq⟩ :=
      Run.exists_of_trace (S := threadSystem "int" 7) Manager.step_of_nextOfType rfl htrace
    refine ⟨s, hr.reachable, ?_⟩
    dsimp only at heq
    rw [heq]
    exact List.mem_cons_self
  · have htrace : (trace (Manager.nextOfType "int") [] (Manager.fresh (Fin 0) 7)
        [.create 0 "int" "test" 1, .destroyLocal 0 "test", .destroyLocal 1 "test",
          .destroyShared 0 2, .create 2 "int" "test" 3, .destroyShared 1 4]).map
          (fun e => (e.2.returned, e.2.owner.objList["test"]?, e.2.mem.shmObjMap["test"]?,
            e.2.destroying))
        = some ([some 0, some 0], some 0, none, Function.update (Function.update
            (Function.update (Function.update (fun _ => none) 0 (some "test")) 1 (some "test"))
            0 none) 1 none) := by rfl
    obtain ⟨tr, s, hr, heq⟩ :=
      Run.exists_of_trace (S := threadSystem "int" 7) Manager.step_of_nextOfType rfl htrace
    simp only [Prod.mk.injEq] at heq
    obtain ⟨hret, hlist, hmap, hdes⟩ := heq
    refine ⟨s, hr.reachable, fun t => ?_, ?_, hlist, hmap⟩
    · rw [hdes]
      by_cases h₁ : t = 1
      · rw [h₁, Function.update_self]
      · rw [Function.update_of_ne h₁]
        by_cases h₀ : t = 0
        · rw [h₀, Function.update_self]
        · rw [Function.update_of_ne h₀, Function.update_of_ne h₁, Function.update_of_ne h₀]
    · rw [hret]
      simp

end ShmObjManager
