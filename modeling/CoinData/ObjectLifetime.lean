import CoinData.ObjectSystem

/-!
# Locking what has been released

`lock_object` dereferences the pointer of the retention it is given, and
nothing but that pointer and the weak pointers tells it whether the object
is still there. The owner resets both when it destroys an object. The
monitor of another process, when it gives up its reference to a destroyed
object, resets neither: once the count is zero, the next `destroy` of any
object releases it, and the pointer dangles. That this is the only way is
the theorem below.
-/

open Maps

namespace ShmObjManager

open TransitionSystem

/-- `lock_object` returns if and only if the retention is not attached to
an object which has been released. -/
theorem lockObject_ok_iff {r : ℕ} {mem : ShmSystemSharedInfo} {node : ExtNodeMapItem} :
    (∃ b, lockObject r mem node = .ok b) ↔ ∀ i, node.Attached r i → mem.infos i ≠ none := by
  unfold lockObject
  by_cases hatt : (node.retention r).attached = true
  · rw [if_pos hatt]
    cases hptr : (node.retention r).ptr with
    | none =>
      refine ⟨fun _ i hi => ?_, fun _ => ⟨false, rfl⟩⟩
      obtain ⟨_, hi⟩ := hi
      rw [hptr] at hi
      cases hi
    | some info =>
      show (∃ b, (mem.deref info >>= _) = _) ↔ _
      cases ho : mem.infos info with
      | none =>
        refine ⟨fun ⟨b, hb⟩ => ?_, fun h => absurd ho (h info ⟨hatt, hptr⟩)⟩
        rw [ShmSystemSharedInfo.deref, ho] at hb
        cases hb
      | some o =>
        rw [ShmSystemSharedInfo.deref_of_some ho]
        refine ⟨fun _ i hi => ?_, fun _ => ⟨_, rfl⟩⟩
        obtain ⟨_, hi⟩ := hi
        rw [hptr] at hi
        cases hi
        rw [ho]
        exact Option.some_ne_none o
  · rw [if_neg hatt]
    exact ⟨fun _ i hi => absurd hi.1 hatt, fun _ => ⟨false, rfl⟩⟩

namespace Manager

variable {C : Type} [Fintype C] [DecidableEq C] {s s' : Manager C} {pid : ℕ}

/-- **No call of `lock_object` touches what has been released**, whichever
retention a process uses. -/
def LockSafe (s : Manager C) : Prop :=
  ∀ c r, r < (s.nodes c).nextRetention → ∃ b, lockObject r s.mem (s.nodes c) = .ok b

/-- No retention of another process is still attached to a removed object
without references. -/
def Unattached (s : Manager C) : Prop :=
  ∀ c r, r < (s.nodes c).nextRetention → ((s.nodes c).retention r).attached = true →
    ∀ i ∈ ((s.nodes c).retention r).ptr, HasValue s.mem.shmObjRemovedMap i →
      ∀ o ∈ s.mem.infos i, o.refCnt ≠ 0

instance (s : Manager C) : Decidable s.Unattached := by
  unfold Unattached
  infer_instance

/-- **When `destroy` clears `shm_obj_removed_map`**, nobody is attached to
what is cleared. -/
def ClearsUnattached (s : Manager C) : ManagerCall C → Prop
  | .destroyShared t _ =>
    (∃ name ∈ s.destroying t, s.mem.shmObjMap[name]? ≠ none) → s.Unattached
  | _ => True

instance (s : Manager C) : (l : ManagerCall C) → Decidable (s.ClearsUnattached l)
  | .destroyShared t _ => inferInstanceAs
      (Decidable ((∃ name ∈ s.destroying t, s.mem.shmObjMap[name]? ≠ none) → s.Unattached))
  | .create .. | .destroyLocal .. | .copyHandle .. | .dropHandle .. | .discovery ..
  | .notify .. | .monitor .. | .lockObject .. => inferInstanceAs (Decidable True)

omit [Fintype C] [DecidableEq C] in
theorem lockSafe_iff : s.LockSafe ↔ ∀ c r, r < (s.nodes c).nextRetention →
    ∀ i, (s.nodes c).Attached r i → s.mem.infos i ≠ none := by
  unfold LockSafe
  simp only [lockObject_ok_iff]

omit [DecidableEq C] in
/-- An object whose owner holds the last reference is attached nowhere. -/
theorem not_attached_of_last (h : References s.mem s.nodes) {name : String} {info : ℕ}
    {o : ObjectInfo} (hname : s.mem.shmObjMap[name]? = some info)
    (ho : s.mem.infos info = some o) (hcnt : o.refCnt = 1) {c : C} {r : ℕ} :
    ¬ (s.nodes c).Attached r info := by
  rintro ⟨hatt, hptr⟩
  obtain ⟨k, hk⟩ := (h.follows c).backed r info hatt hptr ⟨name, hname⟩
  refine h.not_refersTo ho ?_ c ⟨k, r, hk, hptr⟩
  rw [hcnt, if_pos ⟨name, hname⟩]

/-- A step which clears nothing that is attached keeps `lock_object`
safe. -/
theorem LockSafe.step {l : ManagerCall C} (hP : s.LockSafe) (h : References s.mem s.nodes)
    (he : Effect s s' l) (hc : s.ClearsUnattached l) : s'.LockSafe := by
  rw [lockSafe_iff] at hP ⊢
  -- what the processes keep is unchanged, unless a process changes it itself
  have hsame : s'.nodes = s.nodes → (∀ c r i, (s.nodes c).Attached r i →
      s.mem.infos i ≠ none → s'.mem.infos i ≠ none) → ∀ c r,
      r < (s'.nodes c).nextRetention → ∀ i, (s'.nodes c).Attached r i →
      s'.mem.infos i ≠ none := by
    intro hnodes hkeep c r hr i hi
    rw [hnodes] at hr hi
    exact hkeep c r i hi (hP c r hr i hi)
  cases he with
  | create hmem hnodes =>
    refine hsame hnodes fun c r i _ hi => ?_
    rw [hmem]
    exact h.sound.create_allocated _ _ _ _ hi
  | @destroyed t now name info o ht hmap ho hd hnodes =>
    refine hsame hnodes fun c r i hatt hi => ?_
    have hmapped : s.mem.shmObjMap[name]? ≠ none := by
      rw [hmap]
      exact Option.some_ne_none info
    by_cases hne : i = info
    · rw [hne] at hatt ⊢
      rcases hd.self with ⟨hcnt, _⟩ | ⟨_, hself⟩
      · exact absurd hatt (not_attached_of_last h hmap ho hcnt)
      · rw [hself]
        exact Option.some_ne_none _
    · rcases hd.kept i hne with hk | ⟨_, hv, o', ho', hcnt⟩
      · rw [hk]
        exact hi
      · have hr := (h.follows c).lt_of_attached hatt
        exact absurd hcnt (hc ⟨name, ht, hmapped⟩ c r hr hatt.1 i hatt.2 hv o' ho')
  | process c node hl href hptr hnodes =>
    intro d r hr i hi
    rw [hnodes] at hr hi
    by_cases hd : d = c
    · rw [hd, Function.update_self] at hr hi
      refine hptr.allocated i ?_
      rcases hptr.pointers r i hi with hatt | hne
      · exact hP c r ((h.follows c).lt_of_attached hatt) i hatt
      · exact hne
    · rw [Function.update_of_ne hd] at hr hi
      exact hptr.allocated i (hP d r hr i hi)
  | none _ hmem hnodes =>
    refine hsame hnodes fun c r i _ hi => ?_
    rw [hmem]
    exact hi

/-- A step which clears what is attached leaves a pointer to it. -/
theorem not_lockSafe_of_clears {l : ManagerCall C} (he : Effect s s' l)
    (hc : ¬ s.ClearsUnattached l) : ¬ s'.LockSafe := by
  cases l with
  | destroyShared t now =>
    obtain ⟨⟨name, ht, hmapped⟩, hun⟩ := Classical.not_imp.mp hc
    cases he with
    | @destroyed _ _ name' info o ht' hmap ho hd hnodes =>
      unfold Unattached at hun
      push Not at hun
      obtain ⟨c, r, hr, hatt, i, hptr, ⟨k, hk⟩, o', ho', hcnt⟩ := hun
      intro hP
      rw [lockSafe_iff] at hP
      refine hP c r ?_ i ?_ (hd.cleared k i o' hk ho' hcnt)
      · rw [hnodes]
        exact hr
      · rw [hnodes]
        exact ⟨hatt, hptr⟩
    | process c node hl _ _ _ => exact absurd rfl (hl t now)
    | none hno _ _ => exact absurd (hno t now name rfl ht) hmapped
  | create t type name now => exact absurd trivial hc
  | destroyLocal t name => exact absurd trivial hc
  | copyHandle r => exact absurd trivial hc
  | dropHandle r => exact absurd trivial hc
  | discovery c type key => exact absurd trivial hc
  | notify c => exact absurd trivial hc
  | monitor c => exact absurd trivial hc
  | lockObject c r => exact absurd trivial hc

end Manager

/-- **When `lock_object` is safe.** In every state a run passes, no call of
`lock_object` touches an object after its release, exactly if the run never
clears `shm_obj_removed_map` while a retention of another process is still
attached to an object in it which has no references. -/
theorem lockObject_safe_iff {C : Type} [Fintype C] [DecidableEq C] {pid : ℕ}
    {tr : List (Manager C × ManagerCall C)} {s : Manager C}
    (hr : (managerSystem C pid).Run tr s) :
    Throughout Manager.LockSafe tr s ↔ Met Manager.ClearsUnattached tr := by
  refine hr.forall_iff (J := fun s => References s.mem s.nodes) ?_ ?_ ?_
  · rintro s rfl
    refine ⟨fun c r hr => ?_, Manager.fresh_references pid⟩
    exact absurd hr (Nat.not_lt_zero r)
  · intro s l s' hP h hstep hc
    have he := Manager.effect_of_step h hstep
    exact ⟨hP.step h he hc, he.references h⟩
  · intro s l s' _ h hstep hc
    exact Manager.not_lockSafe_of_clears (Manager.effect_of_step h hstep) hc

/-- An object which is discovered, destroyed and given up, and destroyed
again by its owner after the other process has found its successor. -/
theorem lockObject_safe_iff_successor : ∃ tr s, (managerSystem (Fin 1) 7).Run tr s
    ∧ tr.length = 16 ∧ Throughout Manager.LockSafe tr s := by
  have htrace : (trace Manager.next [] (Manager.fresh (Fin 1) 7)
      [.create 0 "int" "a" 1, .discovery 0 "int" "a", .destroyLocal 0 "a", .destroyShared 0 2,
        .notify 0, .monitor 0, .monitor 0, .monitor 0, .lockObject 0 0, .create 0 "int" "a" 3,
        .notify 0, .monitor 0, .monitor 0, .lockObject 0 0, .destroyLocal 0 "a",
        .destroyShared 0 4]).map
        (fun e => (e.1.length, decide (Met Manager.ClearsUnattached e.1)))
      = some (16, true) := by decide +kernel
  obtain ⟨tr, s, hr, heq⟩ :=
    Run.exists_of_trace (S := managerSystem (Fin 1) 7) Manager.step_of_next rfl htrace
  obtain ⟨hlen, hmet⟩ := Prod.mk.inj heq
  exact ⟨tr, s, hr, hlen, (lockObject_safe_iff hr).mpr (of_decide_eq_true hmet)⟩

/-- **A handle outlives its object**: a process has discovered the object
`a` and given up its reference after it was destroyed; when the owner
destroys the object `b`, it releases the first one, and `lock_object` on
the handle of the process dereferences it. -/
theorem lockObject_not_safe : ∃ s, (managerSystem (Fin 1) 7).Reachable s
    ∧ (0 < (s.nodes 0).nextRetention) ∧ s.mem.infos 0 = none
    ∧ lockObject 0 s.mem (s.nodes 0) = .error (.released 0) := by
  have htrace : (trace Manager.next [] (Manager.fresh (Fin 1) 7)
      [.create 0 "int" "a" 1, .create 0 "int" "b" 2, .discovery 0 "int" "a",
        .destroyLocal 0 "a", .destroyShared 0 3, .notify 0, .monitor 0, .monitor 0, .monitor 0,
        .destroyLocal 0 "b", .destroyShared 0 4]).map
        (fun e => ((e.2.nodes 0).nextRetention, e.2.mem.infos 0, (e.2.nodes 0).retention 0))
      = some (1, none, ⟨some 0, true, none⟩) := by decide +kernel
  obtain ⟨tr, s, hr, heq⟩ :=
    Run.exists_of_trace (S := managerSystem (Fin 1) 7) Manager.step_of_next rfl htrace
  simp only [Prod.mk.injEq] at heq
  obtain ⟨hnext, hgone, hret⟩ := heq
  refine ⟨s, hr.reachable, ?_, hgone, ?_⟩
  · rw [hnext]
    exact Nat.one_pos
  · rw [lockObject, hret]
    show (s.mem.deref 0 >>= _) = _
    rw [ShmSystemSharedInfo.deref, hgone]
    rfl

end ShmObjManager
