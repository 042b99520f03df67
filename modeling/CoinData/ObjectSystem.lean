import CoinData.ObjectSections
import CoinData.Runs
import CoinData.Results

/-!
# Owner and other processes

The system of a node: threads of the process that owns it create and
destroy shared objects, other processes discover them, are notified, and
lock them. A step is a section under a mutex; `destroy` is two, and the
monitor of a process, which is notified of changes, goes over the keys of
its lists one by one while the owner goes on. `managerSystem` runs them in
any order.
-/

open Maps

namespace ShmObjManager

/-- Where `inotify_shared_object_monitor_` is: the keys its loops still have
to look at. It holds `node_map_mutex_` until it is idle again. -/
inductive Monitor where
  | idle
  | removed (keys : List String)
  | listed (keys : List String)
deriving DecidableEq, Repr

/-- A process other than the owner. -/
structure Process where
  node : ExtNodeMapItem
  monitor : Monitor

/-- The next step of the monitor. -/
def Process.monitorStep (p : Process) (mem : ShmSystemSharedInfo) :
    Except ObjectFault (ShmSystemSharedInfo × Process) :=
  match p.monitor with
  | .idle => .ok (mem, p)
  | .removed (key :: keys) => do
    let (mem, node) ← monitorRemoved key mem p.node
    .ok (mem, ⟨node, .removed keys⟩)
  | .removed [] => .ok (mem, ⟨p.node, .listed p.node.objList.keys⟩)
  | .listed (key :: keys) => do
    let (mem, node) ← monitorListed key mem p.node
    .ok (mem, ⟨node, .listed keys⟩)
  | .listed [] => .ok (mem, ⟨p.node, .idle⟩)

/-- **What a step of the monitor can do**: treat a key in one of the loops,
or go on to the next. -/
theorem Process.monitorStep_cases {p p' : Process} {mem mem' : ShmSystemSharedInfo}
    (h : p.monitorStep mem = .ok (mem', p')) :
    (∃ key keys, p.monitor = .removed (key :: keys)
      ∧ monitorRemoved key mem p.node = .ok (mem', p'.node))
    ∨ (∃ key keys, p.monitor = .listed (key :: keys)
      ∧ monitorListed key mem p.node = .ok (mem', p'.node))
    ∨ (∀ key keys, p.monitor ≠ .removed (key :: keys)) ∧ mem' = mem ∧ p'.node = p.node := by
  unfold Process.monitorStep at h
  split at h
  · next hm =>
    cases h
    refine Or.inr (Or.inr ⟨fun key keys hkey => ?_, rfl, rfl⟩)
    cases hm.symm.trans hkey
  · next key keys hm =>
    obtain ⟨res, hone, h⟩ := Except.bind_eq_ok.mp h
    cases h
    exact Or.inl ⟨key, keys, hm, hone⟩
  · next hm =>
    cases h
    refine Or.inr (Or.inr ⟨fun key keys hkey => ?_, rfl, rfl⟩)
    cases hm.symm.trans hkey
  · next key keys hm =>
    obtain ⟨res, hone, h⟩ := Except.bind_eq_ok.mp h
    cases h
    exact Or.inr (Or.inl ⟨key, keys, hm, hone⟩)
  · next hm =>
    cases h
    refine Or.inr (Or.inr ⟨fun key keys hkey => ?_, rfl, rfl⟩)
    cases hm.symm.trans hkey

/-- **A node in operation**: its shared memory; what the owner keeps, the
handles its callers hold, the name each of its threads is about to destroy,
being between the sections of `destroy`, and what `create` has returned,
latest first; and the other processes. -/
structure Manager (C : Type) where
  mem : ShmSystemSharedInfo
  owner : ExtNodeMapItem
  handles : ℕ → ℕ
  destroying : ℕ → Option String
  returned : List (Option ℕ)
  process : C → Process

/-- A section of the owner or of another process. -/
inductive ManagerCall (C : Type) where
  | create (thread : ℕ) (type name : String) (now : ℕ)
  | destroyLocal (thread : ℕ) (name : String)
  | destroyShared (thread now : ℕ)
  /-- A caller copies a shared pointer. -/
  | copyHandle (ret : ℕ)
  /-- A caller drops a shared pointer. -/
  | dropHandle (ret : ℕ)
  | discovery (c : C) (type key : String)
  /-- The monitor starts. -/
  | notify (c : C)
  /-- The monitor goes on. -/
  | monitor (c : C)
  | lockObject (c : C) (ret : ℕ)
deriving DecidableEq

namespace Manager

variable {C : Type}

/-- What the processes keep. -/
def nodes (s : Manager C) (c : C) : ExtNodeMapItem := (s.process c).node

/-- A call starts on a thread between calls, and `destroy` ends on one in
between its sections; the mutex of a process excludes `discovery` while the
monitor is at work; callers use the handles they have been given. -/
def Admits (s : Manager C) : ManagerCall C → Prop
  | .create t _ _ _ => s.destroying t = none
  | .destroyLocal t _ => s.destroying t = none
  | .destroyShared t _ => s.destroying t ≠ none
  | .copyHandle r => 0 < s.handles r
  | .dropHandle r => 0 < s.handles r
  | .discovery c _ _ => (s.process c).monitor = .idle
  | .notify c => (s.process c).monitor = .idle
  | .monitor c => (s.process c).monitor ≠ .idle
  | .lockObject c r => r < (s.nodes c).nextRetention

instance (s : Manager C) : (l : ManagerCall C) → Decidable (s.Admits l)
  | .create t _ _ _ => inferInstanceAs (Decidable (s.destroying t = none))
  | .destroyLocal t _ => inferInstanceAs (Decidable (s.destroying t = none))
  | .destroyShared t _ => inferInstanceAs (Decidable (s.destroying t ≠ none))
  | .copyHandle r => inferInstanceAs (Decidable (0 < s.handles r))
  | .dropHandle r => inferInstanceAs (Decidable (0 < s.handles r))
  | .discovery c _ _ => inferInstanceAs (Decidable ((s.process c).monitor = .idle))
  | .notify c => inferInstanceAs (Decidable ((s.process c).monitor = .idle))
  | .monitor c => inferInstanceAs (Decidable ((s.process c).monitor ≠ .idle))
  | .lockObject c r => inferInstanceAs (Decidable (r < (s.nodes c).nextRetention))

variable [DecidableEq C]

/-- Perform a section. -/
def run (s : Manager C) : ManagerCall C → Except ObjectFault (Manager C)
  | .create _ type name now =>
    let (ret, mem, owner) := create type name now s.mem s.owner
    .ok { s with
      mem := mem
      owner := owner
      handles := match ret with
        | some r => Function.update s.handles r (s.handles r + 1)
        | none => s.handles
      returned := ret :: s.returned }
  | .destroyLocal t name =>
    .ok { s with
      owner := destroyLocal name s.handles s.owner
      destroying := Function.update s.destroying t (some name) }
  | .destroyShared t now =>
    match s.destroying t with
    | none => .ok s
    | some name => do
      let mem ← destroyShared name now s.mem
      .ok { s with mem := mem, destroying := Function.update s.destroying t none }
  | .copyHandle r => .ok { s with handles := Function.update s.handles r (s.handles r + 1) }
  | .dropHandle r => .ok { s with handles := Function.update s.handles r (s.handles r - 1) }
  | .discovery c type key => do
    let (_, mem, node) ← discovery type key s.mem (s.nodes c)
    .ok { s with mem := mem, process := Function.update s.process c ⟨node, .idle⟩ }
  | .notify c =>
    .ok { s with
      process := Function.update s.process c
        ⟨s.nodes c, .removed (s.nodes c).objRemovedList.keys⟩ }
  | .monitor c => do
    let (mem, p) ← (s.process c).monitorStep s.mem
    .ok { s with mem := mem, process := Function.update s.process c p }
  | .lockObject c r => do
    let _ ← lockObject r s.mem (s.nodes c)
    .ok s

/-- Perform a section that is admitted and returns. -/
def next (s : Manager C) (l : ManagerCall C) : Option (Manager C) :=
  if s.Admits l then
    match s.run l with
    | .ok s' => some s'
    | .error _ => none
  else none

/-- A node before its first object. -/
def fresh (C : Type) (pid : ℕ) : Manager C :=
  ⟨.empty pid, .empty, fun _ => 0, fun _ => none, [], fun _ => ⟨.empty, .idle⟩⟩

end Manager

/-- **The system of a node** whose owner is process `pid`, with the other
processes `C`. -/
def managerSystem (C : Type) [DecidableEq C] (pid : ℕ) :
    TransitionSystem (Manager C) (ManagerCall C) where
  init s := s = Manager.fresh C pid
  step s l s' := s.Admits l ∧ s.run l = .ok s'

theorem Manager.step_of_next {C : Type} [DecidableEq C] {pid : ℕ} (s : Manager C)
    (l : ManagerCall C) (s' : Manager C) (h : s.next l = some s') :
    (managerSystem C pid).step s l s' := by
  unfold Manager.next at h
  split at h
  · next hadm =>
    refine ⟨hadm, ?_⟩
    cases hrun : s.run l with
    | ok s₁ =>
      rw [hrun] at h
      rw [Option.some.inj h]
    | error f =>
      rw [hrun] at h
      cases h
  · cases h

/-! ## The invariant -/

namespace Manager

variable {C : Type} [Fintype C] [DecidableEq C] {s : Manager C}

omit [Fintype C] in
theorem nodes_update (s : Manager C) (c : C) (p : Process) (mem : ShmSystemSharedInfo) :
    ({ s with mem := mem, process := Function.update s.process c p } : Manager C).nodes
      = Function.update s.nodes c p.node := by
  funext d
  show (Function.update s.process c p d).node = _
  by_cases hd : d = c
  · rw [hd, Function.update_self, Function.update_self]
  · rw [Function.update_of_ne hd, Function.update_of_ne hd]
    rfl

/-- **What a section does** to the shared memory and to what the processes
keep: the owner may create an object or destroy one, another process may
change what it keeps. -/
inductive Effect (s s' : Manager C) : ManagerCall C → Prop
  | create {t : ℕ} {type name : String} {now : ℕ} :
      s'.mem = (ShmObjManager.create type name now s.mem s.owner).2.1 → s'.nodes = s.nodes →
      Effect s s' (.create t type name now)
  | destroyed {t now : ℕ} {name : String} {info : ℕ} {o : ObjectInfo} :
      s.destroying t = some name → s.mem.shmObjMap[name]? = some info →
      s.mem.infos info = some o → Destroyed s.mem s'.mem name info o → s'.nodes = s.nodes →
      Effect s s' (.destroyShared t now)
  | process {l : ManagerCall C} (c : C) (node : ExtNodeMapItem) :
      (∀ t now, l ≠ .destroyShared t now) → References s'.mem (Function.update s.nodes c node) →
      KeepsPointers s.mem s'.mem (s.nodes c) node →
      s'.nodes = Function.update s.nodes c node → Effect s s' l
  | none {l : ManagerCall C} :
      (∀ t now name, l = .destroyShared t now → s.destroying t = some name →
        s.mem.shmObjMap[name]? = none) →
      s'.mem = s.mem → s'.nodes = s.nodes → Effect s s' l

/-- The monitor returns, and keeps the invariant. -/
theorem monitorStep_spec (h : References s.mem s.nodes) (c : C) :
    ∃ mem p, (s.process c).monitorStep s.mem = .ok (mem, p)
      ∧ References mem (Function.update s.nodes c p.node)
      ∧ KeepsPointers s.mem mem (s.nodes c) p.node := by
  have hsame : References s.mem (Function.update s.nodes c (s.nodes c)) := by
    rw [Function.update_eq_self]
    exact h
  unfold Process.monitorStep
  cases (s.process c).monitor with
  | idle => exact ⟨s.mem, s.process c, rfl, hsame, KeepsPointers.refl _ _⟩
  | removed keys =>
    cases keys with
    | nil => exact ⟨s.mem, _, rfl, hsame, KeepsPointers.refl _ _⟩
    | cons key keys =>
      obtain ⟨mem, node, hrun, href, hptr⟩ := h.monitorRemoved c key
      refine ⟨mem, ⟨node, .removed keys⟩, ?_, href, hptr⟩
      show (monitorRemoved key s.mem (s.nodes c) >>= _) = _
      rw [hrun]
      rfl
  | listed keys =>
    cases keys with
    | nil => exact ⟨s.mem, _, rfl, hsame, KeepsPointers.refl _ _⟩
    | cons key keys =>
      obtain ⟨mem, node, hrun, href, hptr⟩ := h.monitorListed c key
      refine ⟨mem, ⟨node, .listed keys⟩, ?_, href, hptr⟩
      show (monitorListed key s.mem (s.nodes c) >>= _) = _
      rw [hrun]
      rfl

/-- **Every section but `lock_object` returns**, and its effect is one of
those above. -/
theorem run_spec (h : References s.mem s.nodes) (l : ManagerCall C)
    (hl : ∀ c r, l ≠ .lockObject c r) : ∃ s', s.run l = .ok s' ∧ Effect s s' l := by
  have hsame : ∀ c, References s.mem (Function.update s.nodes c (s.nodes c)) := by
    intro c
    rw [Function.update_eq_self]
    exact h
  cases l with
  | create t type name now => exact ⟨_, rfl, .create rfl rfl⟩
  | destroyLocal t name => exact ⟨_, rfl, .none nofun rfl rfl⟩
  | destroyShared t now =>
    dsimp only [Manager.run]
    cases ht : s.destroying t with
    | none =>
      refine ⟨s, rfl, .none ?_ rfl rfl⟩
      rintro t' now' name ⟨⟩ hname
      rw [ht] at hname
      cases hname
    | some name =>
      cases hmap : s.mem.shmObjMap[name]? with
      | none =>
        have hrun : destroyShared name now s.mem = .ok s.mem := by
          unfold ShmObjManager.destroyShared
          rw [hmap]
        dsimp only
        rw [hrun]
        refine ⟨_, rfl, .none ?_ rfl rfl⟩
        rintro t' now' name' ⟨⟩ hname
        rw [ht] at hname
        cases hname
        exact hmap
      | some info =>
        obtain ⟨o, mem', ho, hrun, hd⟩ := destroyShared_spec h.sound hmap now
        dsimp only
        rw [hrun]
        exact ⟨_, rfl, .destroyed ht hmap ho hd rfl⟩
  | copyHandle r => exact ⟨_, rfl, .none nofun rfl rfl⟩
  | dropHandle r => exact ⟨_, rfl, .none nofun rfl rfl⟩
  | discovery c type key =>
    obtain ⟨r, mem', node', hrun, href, hptr⟩ := h.discovery c type key
    dsimp only [Manager.run]
    rw [hrun]
    exact ⟨_, rfl, .process c node' nofun href hptr (s.nodes_update c _ _)⟩
  | notify c =>
    exact ⟨_, rfl, .process c (s.nodes c) nofun (hsame c) (KeepsPointers.refl _ _)
      (s.nodes_update c _ _)⟩
  | monitor c =>
    obtain ⟨mem', p, hrun, href, hptr⟩ := monitorStep_spec h c
    dsimp only [Manager.run]
    rw [hrun]
    exact ⟨_, rfl, .process c p.node nofun href hptr (s.nodes_update c _ _)⟩
  | lockObject c r => exact absurd rfl (hl c r)

/-- **Every step has one of the effects above.** -/
theorem effect_of_step {pid : ℕ} {s' : Manager C} {l : ManagerCall C}
    (h : References s.mem s.nodes) (hstep : (managerSystem C pid).step s l s') :
    Effect s s' l := by
  obtain ⟨_, hrun⟩ := hstep
  by_cases hl : ∀ c r, l ≠ .lockObject c r
  · obtain ⟨s₁, hs₁, heff⟩ := run_spec h l hl
    rw [hs₁] at hrun
    cases hrun
    exact heff
  · push Not at hl
    obtain ⟨c, r, rfl⟩ := hl
    dsimp only [Manager.run] at hrun
    cases hlock : lockObject r s.mem (s.nodes c) with
    | ok b =>
      rw [hlock] at hrun
      cases hrun
      exact .none nofun rfl rfl
    | error f =>
      rw [hlock] at hrun
      cases hrun

/-- A section keeps the invariant. -/
theorem Effect.references {s' : Manager C} {l : ManagerCall C} (he : Effect s s' l)
    (h : References s.mem s.nodes) : References s'.mem s'.nodes := by
  cases he with
  | create hmem hnodes =>
    rw [hmem, hnodes]
    exact h.create _ _ _ _
  | destroyed _ hmap ho hd hnodes =>
    rw [hnodes]
    exact hd.references h hmap ho
  | process c node _ href _ hnodes =>
    rw [hnodes]
    exact href
  | none _ hmem hnodes =>
    rw [hmem, hnodes]
    exact h

omit [DecidableEq C] in
theorem fresh_references (pid : ℕ) :
    References (fresh C pid).mem (fresh C pid).nodes := by
  refine ⟨?_, fun c => ?_, nofun⟩
  · exact ⟨fun _ _ => rfl, nofun, fun k i h => absurd h (empty_ne_some k i),
      fun k i h => absurd h (empty_ne_some k i), oneKey_empty, oneKey_empty⟩
  · exact ⟨fun k r h => absurd h (empty_ne_some k r), fun k r h => absurd h (empty_ne_some k r),
      fun k r h => absurd h (empty_ne_some k r), oneKey_empty, fun k _ r _ _ h => absurd h (empty_ne_some k r),
      fun k _ r _ h => absurd h (empty_ne_some k r), nofun, nofun, fun _ _ => rfl⟩

end Manager

/-- **The invariant holds in every reachable state.** -/
theorem references_of_reachable {C : Type} [Fintype C] [DecidableEq C] {pid : ℕ}
    {s : Manager C} (hs : (managerSystem C pid).Reachable s) : References s.mem s.nodes := by
  refine hs.invariant (I := fun s => References s.mem s.nodes) ?_ ?_
  · rintro s rfl
    exact Manager.fresh_references pid
  · intro s l s' _ h hstep
    exact (Manager.effect_of_step h hstep).references h

/-- Every admitted section but `lock_object` returns: nothing released is
dereferenced by it, and nothing is thrown. -/
theorem exists_step {C : Type} [Fintype C] [DecidableEq C] {pid : ℕ} {s : Manager C}
    (hs : (managerSystem C pid).Reachable s) {l : ManagerCall C} (hl : s.Admits l)
    (hlock : ∀ c r, l ≠ .lockObject c r) : ∃ s', (managerSystem C pid).step s l s' := by
  obtain ⟨s', hrun, _⟩ := Manager.run_spec (references_of_reachable hs) l hlock
  exact ⟨s', hl, hrun⟩

/-- **What `ref_cnt` counts.** The count of an object which is not released
is one if it is in `shm_obj_map`, and one more for each process whose
`obj_list` has an entry pointing to it. It is never negative, nor more than
the number of processes; and a step releases an object only when no process
refers to it. -/
theorem object_refCnt {C : Type} [Fintype C] [DecidableEq C] {pid : ℕ} {s : Manager C}
    (hs : (managerSystem C pid).Reachable s) :
    (∀ i o, s.mem.infos i = some o →
      o.refCnt = (if HasValue s.mem.shmObjMap i then 1 else 0) + referrers s.nodes i
        ∧ 0 ≤ o.refCnt ∧ o.refCnt ≤ Fintype.card C + 1)
    ∧ ∀ l s', (managerSystem C pid).step s l s' → ∀ i, s.mem.infos i ≠ none →
        s'.mem.infos i = none → ∀ c, ¬ (s.nodes c).RefersTo i := by
  have h := references_of_reachable hs
  refine ⟨fun i o ho => ?_, fun l s' hstep i hi hgone c => ?_⟩
  · have hcnt := h.count i o ho
    have hle : referrers s.nodes i ≤ Fintype.card C := Finset.card_filter_le _ _
    refine ⟨hcnt, ?_⟩
    split at hcnt <;> omega
  · cases Manager.effect_of_step h hstep with
    | create hmem hnodes =>
      rw [hmem] at hgone
      exact absurd hgone (h.sound.create_allocated _ _ _ _ hi)
    | destroyed _ hmap ho hd _ => exact hd.not_refersTo h hmap ho hi hgone c
    | process c' node _ _ hptr _ => exact absurd hgone (hptr.allocated i hi)
    | none _ hmem _ =>
      rw [hmem] at hgone
      exact absurd hgone hi

/-- An object which the owner has created and one process has discovered:
its count is two. -/
theorem object_refCnt_discovered : ∃ s, (managerSystem (Fin 2) 7).Reachable s
    ∧ s.mem.infos 0 = some ⟨2, false, "int", 7, some "int"⟩
    ∧ referrers s.nodes 0 = 1
    ∧ (2 : ℤ) = (if HasValue s.mem.shmObjMap 0 then 1 else 0) + referrers s.nodes 0 := by
  have htrace : (TransitionSystem.trace Manager.next [] (Manager.fresh (Fin 2) 7)
      [.create 0 "int" "a" 1, .discovery 0 "int" "a"]).map
        (fun e => (e.2.mem.infos 0, referrers e.2.nodes 0))
      = some (some ⟨2, false, "int", 7, some "int"⟩, 1) := by decide +kernel
  obtain ⟨tr, s, hr, heq⟩ :=
    TransitionSystem.Run.exists_of_trace (S := managerSystem (Fin 2) 7) Manager.step_of_next rfl htrace
  obtain ⟨hinfo, hrefs⟩ := Prod.mk.inj heq
  exact ⟨s, hr.reachable, hinfo, hrefs, ((object_refCnt hr.reachable).1 0 _ hinfo).1⟩

end ShmObjManager
