import CoinData.ObjectSystem
import CoinData.Results

/-!
# What a handle says it points to

`create<T>` and `discovery<T>` return a `SharedObjectSharedPtr<T>`: a
pointer to a retention, which in turn points to an `ObjectInfo`. The
retention itself is shared by everybody who has asked for the name, and is
pointed to another object when the name is created again, or found again by
the monitor. Only where `create` finds a name in the `obj_list` does it ask
what kind of retention is there (`dynamic_pointer_cast`). Where it takes a
retention that waits, and in `discovery`, it does not
(`static_pointer_cast`), and nobody compares the `hash_code` of an object
with that of the `T` of a handle. And where the monitor gives a reference
up, the retention still points to the object, which is released then.

The system here has the owner and other processes on the same footing:
each may discover names of the node, and be notified. Beside the handles
which callers hold, a state remembers as what the object of an `ObjectInfo`
was built. The allocator may give any block that is free, so an `ObjectInfo`
may be where a released one was.
-/

open Maps

namespace ShmObjManager

/-- What `discovery` finds: the target of a retention which is there, or
else the object in the shared memory. -/
def found (key : String) (mem : ShmSystemSharedInfo) (node : ExtNodeMapItem) : Option ℕ :=
  match discoveryExtMap key node with
  | some r => (node.retention r).ptr
  | none => mem.shmObjMap[key]?

/-- The retention the next step of the monitor attaches, and to which
object: one which waits, in the first loop. -/
def attaching (mem : ShmSystemSharedInfo) (p : Process) : Option (ℕ × ℕ) :=
  match p.monitor with
  | .removed (key :: _) => p.node.objRemovedList[key]?.bind fun r =>
      mem.shmObjMap[key]?.map fun info => (r, info)
  | _ => none

/-- The allocator gives this block next. -/
def ShmSystemSharedInfo.giving (mem : ShmSystemSharedInfo) (info : ℕ) : ShmSystemSharedInfo :=
  { mem with nextInfo := info }

@[simp] theorem ShmSystemSharedInfo.giving_nextInfo (mem : ShmSystemSharedInfo) (info : ℕ) :
    (mem.giving info).nextInfo = info := rfl

/-- **The second section of `destroy` releases an object**: one nobody refers
to in `shm_obj_removed_map`, or that of the name, if the owner alone does. -/
def Releases (name : String) (mem : ShmSystemSharedInfo) (i : ℕ) : Prop :=
  ∃ info ∈ mem.shmObjMap[name]?, ∃ o ∈ mem.infos i,
    (o.refCnt = 0 ∧ ∃ e ∈ mem.shmObjRemovedMap.toList, e.2 = i) ∨ (i = info ∧ o.refCnt = 1)

instance (name : String) (mem : ShmSystemSharedInfo) (i : ℕ) :
    Decidable (Releases name mem i) := by
  unfold Releases
  infer_instance

/-- A handle: the process which holds it, `none` for the owner; its `T`;
and the retention it points to. -/
structure TypedHandle (C : Type) where
  place : Option C
  type : String
  ret : ℕ
deriving DecidableEq

/-- **A node and its users**: the shared memory, what each process keeps of
it, what the threads of the owner are about to destroy, the handles which
are held, and as what each object was built. -/
structure TypedManager (C : Type) where
  mem : ShmSystemSharedInfo
  process : Option C → Process
  destroying : ℕ → Option String
  held : List (TypedHandle C)
  builtAs : ℕ → Option String

/-- A section of the manager, or what a caller does with a handle. `info` is
where `create` puts an `ObjectInfo`, if it makes one. -/
inductive TypedCall (C : Type) where
  | create (thread : ℕ) (type name : String) (now info : ℕ)
  | destroyLocal (thread : ℕ) (name : String)
  | destroyShared (thread now : ℕ)
  | discovery (p : Option C) (type key : String)
  | notify (p : Option C)
  | monitor (p : Option C)
  | copyHandle (h : TypedHandle C)
  | dropHandle (h : TypedHandle C)
deriving DecidableEq

namespace TypedManager

variable {C : Type}

/-- What a process keeps of the node. -/
def node (s : TypedManager C) (p : Option C) : ExtNodeMapItem := (s.process p).node

variable [DecidableEq C]

/-- How many handles of one of its retentions the callers of the owner
hold. -/
def handles (s : TypedManager C) (r : ℕ) : ℕ :=
  (s.held.filter fun h => h.place = none ∧ h.ret = r).length

/-- `node_map_mutex_` keeps calls out while the monitor of a process is at
work; `destroy` has its second section after its first; and an `ObjectInfo`
is put where there is none. -/
def Admits (s : TypedManager C) : TypedCall C → Prop
  | .create t _ _ _ info =>
    s.destroying t = none ∧ (s.process none).monitor = .idle ∧ s.mem.infos info = none
  | .destroyLocal t _ => s.destroying t = none ∧ (s.process none).monitor = .idle
  | .destroyShared t _ => s.destroying t ≠ none
  | .discovery p _ _ => (s.process p).monitor = .idle
  | .notify p => (s.process p).monitor = .idle
  | .monitor p => (s.process p).monitor ≠ .idle
  | .copyHandle h => h ∈ s.held
  | .dropHandle h => h ∈ s.held

instance (s : TypedManager C) : (l : TypedCall C) → Decidable (s.Admits l)
  | .create t _ _ _ info =>
    inferInstanceAs (Decidable (s.destroying t = none ∧ (s.process none).monitor = .idle
      ∧ s.mem.infos info = none))
  | .destroyLocal t _ =>
    inferInstanceAs (Decidable (s.destroying t = none ∧ (s.process none).monitor = .idle))
  | .destroyShared t _ => inferInstanceAs (Decidable (s.destroying t ≠ none))
  | .discovery p _ _ => inferInstanceAs (Decidable ((s.process p).monitor = .idle))
  | .notify p => inferInstanceAs (Decidable ((s.process p).monitor = .idle))
  | .monitor p => inferInstanceAs (Decidable ((s.process p).monitor ≠ .idle))
  | .copyHandle h => inferInstanceAs (Decidable (h ∈ s.held))
  | .dropHandle h => inferInstanceAs (Decidable (h ∈ s.held))

/-- A process has come so far. -/
def withProcess (s : TypedManager C) (p : Option C) (mem : ShmSystemSharedInfo) (q : Process) :
    TypedManager C :=
  { s with mem := mem, process := Function.update s.process p q }

/-- Perform a section. -/
def run (s : TypedManager C) : TypedCall C → Except ObjectFault (TypedManager C)
  | .create _ type name now info =>
    let (ret, mem, node) := create type name now (s.mem.giving info) (s.node none)
    .ok { s.withProcess none mem ⟨node, .idle⟩ with
      held := match ret with
        | some r => ⟨none, type, r⟩ :: s.held
        | none => s.held
      builtAs := if mem.nextInfo = info then s.builtAs
        else Function.update s.builtAs info (some type) }
  | .destroyLocal t name =>
    .ok { s.withProcess none s.mem ⟨destroyLocal name s.handles (s.node none), .idle⟩ with
      destroying := Function.update s.destroying t (some name) }
  | .destroyShared t now =>
    match s.destroying t with
    | none => .ok s
    | some name => do
      let mem ← destroyShared name now s.mem
      .ok { s with mem := mem, destroying := Function.update s.destroying t none }
  | .discovery p type key => do
    let (r, mem, node) ← discovery type key s.mem (s.node p)
    .ok { s.withProcess p mem ⟨node, .idle⟩ with held := ⟨p, type, r⟩ :: s.held }
  | .notify p =>
    .ok (s.withProcess p s.mem ⟨s.node p, .removed (s.node p).objRemovedList.keys⟩)
  | .monitor p => do
    let (mem, q) ← (s.process p).monitorStep s.mem
    .ok (s.withProcess p mem q)
  | .copyHandle h => .ok { s with held := h :: s.held }
  | .dropHandle h => .ok { s with held := s.held.erase h }

/-- Perform a section that is admitted and returns. -/
def next (s : TypedManager C) (l : TypedCall C) : Option (TypedManager C) :=
  if s.Admits l then (s.run l).toOption else none

/-- A node before its first object. -/
def fresh (C : Type) (pid : ℕ) : TypedManager C :=
  ⟨.empty pid, fun _ => ⟨.empty, .idle⟩, fun _ => none, [], fun _ => none⟩

end TypedManager

/-- **The system of a node with handles**, owned by process `pid`. -/
def typedSystem (C : Type) [DecidableEq C] (pid : ℕ) :
    TransitionSystem (TypedManager C) (TypedCall C) where
  init s := s = TypedManager.fresh C pid
  step s l s' := s.Admits l ∧ s.run l = .ok s'

namespace TypedManager

variable {C : Type} [DecidableEq C] {s s' : TypedManager C} {pid : ℕ}

theorem step_of_next (s : TypedManager C) (l : TypedCall C) (s' : TypedManager C)
    (h : s.next l = some s') : (typedSystem C pid).step s l s' := by
  unfold next at h
  split at h
  · next hadm => exact ⟨hadm, Except.toOption_eq_some.mp h⟩
  · cases h

omit [DecidableEq C] in
/-- What a handle's `ptr_` is. -/
def target (s : TypedManager C) (h : TypedHandle C) : Option ℕ :=
  ((s.node h.place).retention h.ret).ptr

/-- There is an `ObjectInfo` here, whose object was built as a `type`. -/
def IsA (s : TypedManager C) (i : ℕ) (type : String) : Prop :=
  s.mem.infos i ≠ none ∧ s.builtAs i = some type

/-- **Every handle points to an object of its type**, if it points anywhere. -/
def WellTyped (s : TypedManager C) : Prop :=
  ∀ h ∈ s.held, ∀ i ∈ s.target h, s.IsA i h.type

/-- The handles of a retention which are held are all of a type. -/
def HeldAs (s : TypedManager C) (p : Option C) (r : ℕ) (type : Option String) : Prop :=
  ∀ h ∈ s.held, h.place = p → h.ret = r → type = some h.type

/-- **The types fit**: what `create<T>` finds in the `obj_list`, having asked
for its retention, and what `discovery<T>` finds, is there, and was built as
a `T`; a retention which waits is pointed to an object of the type of its
handles; and no object is released which a handle points to. -/
def Fits (s : TypedManager C) : TypedCall C → Prop
  | .create _ type name _ _ =>
    (∀ r ∈ (s.node none).objList[name]?, ((s.node none).retention r).type = some type →
      ∀ i ∈ ((s.node none).retention r).ptr, s.IsA i type)
    ∧ ((s.node none).objList[name]? = none → s.mem.shmObjMap[name]? = none →
      ∀ r ∈ (s.node none).objRemovedList[name]?, s.HeldAs none r (some type))
  | .destroyShared t _ => ∀ name ∈ s.destroying t, ∀ h ∈ s.held, ∀ i ∈ s.target h,
    ¬ Releases name s.mem i
  | .discovery p type key => ∀ i ∈ found key s.mem (s.node p), s.IsA i type
  | .monitor p => ∀ e ∈ attaching s.mem (s.process p), s.HeldAs p e.1 (s.builtAs e.2)
  | _ => True

instance (s : TypedManager C) (i : ℕ) (type : String) : Decidable (s.IsA i type) :=
  inferInstanceAs (Decidable (_ ∧ _))

instance (s : TypedManager C) (p : Option C) (r : ℕ) (type : Option String) :
    Decidable (s.HeldAs p r type) := by
  unfold HeldAs
  infer_instance

instance (s : TypedManager C) : (l : TypedCall C) → Decidable (s.Fits l)
  | .create .. => by
    dsimp only [Fits]
    infer_instance
  | .discovery .. => by
    dsimp only [Fits]
    infer_instance
  | .monitor .. => by
    dsimp only [Fits]
    infer_instance
  | .destroyShared .. => by
    dsimp only [Fits]
    infer_instance
  | .destroyLocal .. | .notify .. | .copyHandle .. | .dropHandle .. =>
    inferInstanceAs (Decidable True)

end TypedManager

/-! ## The types of objects -/

/-- **No object is made, and none changes its type.** -/
def KeepsTypes (mem mem' : ShmSystemSharedInfo) : Prop :=
  ∀ i o', mem'.infos i = some o' → ∃ o, mem.infos i = some o ∧ o.type = o'.type

namespace KeepsTypes

variable {mem mem₁ mem' : ShmSystemSharedInfo} {info i : ℕ} {o : ObjectInfo}

theorem refl (mem : ShmSystemSharedInfo) : KeepsTypes mem mem := fun _ o ho => ⟨o, ho, rfl⟩

theorem trans (h : KeepsTypes mem mem₁) (h' : KeepsTypes mem₁ mem') : KeepsTypes mem mem' := by
  intro i o' ho'
  obtain ⟨o₁, ho₁, ht₁⟩ := h' i o' ho'
  obtain ⟨o, ho, ht⟩ := h i o₁ ho₁
  exact ⟨o, ho, ht.trans ht₁⟩

/-- What is released is not there again. -/
theorem none_of_none (h : KeepsTypes mem mem') (hi : mem.infos i = none) :
    mem'.infos i = none := by
  cases hi' : mem'.infos i with
  | none => rfl
  | some o' =>
    obtain ⟨o, ho, _⟩ := h i o' hi'
    rw [hi] at ho
    cases ho

theorem set (ho : mem.infos info = some o) {o' : ObjectInfo} (ht : o.type = o'.type) :
    KeepsTypes mem (mem.set info o') := by
  intro i o₁ ho₁
  by_cases hi : i = info
  · rw [hi, ShmSystemSharedInfo.set_infos, Function.update_self] at ho₁
    cases ho₁
    exact ⟨o, hi ▸ ho, ht⟩
  · rw [ShmSystemSharedInfo.set_infos, Function.update_of_ne hi] at ho₁
    exact ⟨o₁, ho₁, rfl⟩

theorem destroy (mem : ShmSystemSharedInfo) (info : ℕ) : KeepsTypes mem (mem.destroy info) := by
  intro i o' ho'
  by_cases hi : i = info
  · rw [hi, ShmSystemSharedInfo.destroy_infos, Function.update_self] at ho'
    cases ho'
  · rw [ShmSystemSharedInfo.destroy_infos, Function.update_of_ne hi] at ho'
    exact ⟨o', ho', rfl⟩

theorem clearLoop {items : List (String × ℕ)} (h : clearLoop items mem = .ok mem') :
    KeepsTypes mem mem' := by
  induction items generalizing mem with
  | nil =>
    cases h
    exact .refl _
  | cons e items ih =>
    obtain ⟨key, info⟩ := e
    rw [ShmObjManager.clearLoop] at h
    obtain ⟨o, _, h⟩ := Except.bind_eq_ok.mp h
    split at h
    · split at h
      · cases h
      · split at h
        · cases h
        · have hkeep : KeepsTypes mem { mem.destroy info with
            shmObjRemovedMap := mem.shmObjRemovedMap.erase key } := destroy mem info
          exact hkeep.trans (ih h)
    · exact ih h

theorem releaseOrRemove {name : String} {now : ℕ} (ho : mem.infos info = some o) :
    KeepsTypes mem (releaseOrRemove name now info o mem) := by
  unfold ShmObjManager.releaseOrRemove
  split
  · exact destroy mem info
  · have hset : KeepsTypes mem (mem.set info { o with refCnt := o.refCnt - 1 }) := set ho rfl
    exact hset

theorem destroyShared {name : String} {now : ℕ} (h : destroyShared name now mem = .ok mem') :
    KeepsTypes mem mem' := by
  unfold ShmObjManager.destroyShared at h
  cases hmap : mem.shmObjMap[name]? with
  | none =>
    rw [hmap] at h
    cases h
    exact .refl mem
  | some info =>
    rw [hmap] at h
    obtain ⟨o, ho, h⟩ := Except.bind_eq_ok.mp h
    obtain ⟨mem₁, hclear, h⟩ := Except.bind_eq_ok.mp h
    obtain ⟨o₁, ho₁, h⟩ := Except.bind_eq_ok.mp h
    cases h
    have hmarked : KeepsTypes mem (mem.set info { o with isDestroy := true }) :=
      set (ShmSystemSharedInfo.some_of_deref ho) rfl
    have hleft : KeepsTypes mem₁ (ShmObjManager.releaseOrRemove name now info o₁ mem₁) :=
      releaseOrRemove (ShmSystemSharedInfo.some_of_deref ho₁)
    exact (hmarked.trans (clearLoop hclear)).trans hleft

end KeepsTypes

/-! ## What is released -/

/-- **No object is released.** -/
def KeepsObjects (mem mem' : ShmSystemSharedInfo) : Prop :=
  ∀ i, mem.infos i ≠ none → mem'.infos i ≠ none

theorem KeepsObjects.refl (mem : ShmSystemSharedInfo) : KeepsObjects mem mem := fun _ => id

theorem KeepsObjects.set (mem : ShmSystemSharedInfo) (info : ℕ) (o : ObjectInfo) :
    KeepsObjects mem (mem.set info o) := by
  intro i hi
  by_cases heq : i = info
  · rw [heq, ShmSystemSharedInfo.set_infos, Function.update_self]
    exact Option.some_ne_none o
  · rwa [ShmSystemSharedInfo.set_infos, Function.update_of_ne heq]

/-- **Clearing releases** what is without references, and leaves the rest as
it is. -/
theorem clearLoop_infos {items : List (String × ℕ)} {mem mem' : ShmSystemSharedInfo}
    (h : clearLoop items mem = .ok mem') {i : ℕ} {o : ObjectInfo} (ho : mem.infos i = some o) :
    mem'.infos i = if o.refCnt = 0 ∧ ∃ e ∈ items, e.2 = i then none else some o := by
  induction items generalizing mem with
  | nil =>
    cases h
    rw [if_neg (by rintro ⟨_, e, he, _⟩; cases he), ho]
  | cons e items ih =>
    obtain ⟨key, info⟩ := e
    rw [clearLoop] at h
    obtain ⟨o₁, ho₁, h⟩ := Except.bind_eq_ok.mp h
    have ho₁ := ShmSystemSharedInfo.some_of_deref ho₁
    split at h
    · next hzero =>
      split at h
      · cases h
      · split at h
        · cases h
        · by_cases hi : i = info
          · subst hi
            rw [ho] at ho₁
            cases ho₁
            rw [if_pos ⟨hzero, _, List.mem_cons_self, rfl⟩]
            exact (KeepsTypes.clearLoop h).none_of_none (Function.update_self ..)
          · rw [ih h ((Function.update_of_ne hi _ _).trans ho)]
            simp only [List.mem_cons, exists_eq_or_imp, Ne.symm hi, false_or]
    · next hcnt =>
      rw [ih h ho]
      by_cases hi : info = i
      · subst hi
        rw [ho] at ho₁
        cases ho₁
        rw [if_neg fun hc => hcnt hc.1, if_neg fun hc => hcnt hc.1]
      · simp only [List.mem_cons, exists_eq_or_imp, hi, false_or]

/-- **What the second section of `destroy` releases.** -/
theorem destroyShared_eq_none_iff {name : String} {now : ℕ} {mem mem' : ShmSystemSharedInfo}
    (h : destroyShared name now mem = .ok mem') {i : ℕ} (hi : mem.infos i ≠ none) :
    mem'.infos i = none ↔ Releases name mem i := by
  obtain ⟨oi, hoi⟩ := Option.ne_none_iff_exists'.mp hi
  unfold destroyShared at h
  unfold Releases
  cases hmap : mem.shmObjMap[name]? with
  | none =>
    rw [hmap] at h
    cases h
    exact iff_of_false hi (by rintro ⟨_, ⟨⟩, _⟩)
  | some info =>
    rw [hmap] at h
    obtain ⟨o, ho, h⟩ := Except.bind_eq_ok.mp h
    obtain ⟨mem₁, hclear, h⟩ := Except.bind_eq_ok.mp h
    obtain ⟨o₁, ho₁, h⟩ := Except.bind_eq_ok.mp h
    cases h
    have ho := ShmSystemSharedInfo.some_of_deref ho
    have ho₁ := ShmSystemSharedInfo.some_of_deref ho₁
    have hfind : ∀ P : ℕ → Prop, (∃ info' ∈ some info, P info') ↔ P info := by simp
    have hread : ∀ P : ObjectInfo → Prop, (∃ o ∈ mem.infos i, P o) ↔ P oi := by
      intro P
      rw [hoi]
      simp
    rw [hfind, hread]
    by_cases heq : i = info
    · subst heq
      rw [ho] at hoi
      cases hoi
      rw [clearLoop_infos hclear (Function.update_self ..)] at ho₁
      split at ho₁
      · cases ho₁
      · next hcleared =>
        cases ho₁
        refine Iff.trans ?_ (or_iff_right hcleared).symm
        rw [and_iff_right rfl]
        unfold releaseOrRemove
        split
        · next hone => exact iff_of_true (Function.update_self ..) hone
        · next hmany =>
          refine iff_of_false ?_ hmany
          show Function.update mem₁.infos i (some _) i ≠ none
          rw [Function.update_self]
          exact Option.some_ne_none _
    · have hleft : (releaseOrRemove name now info o₁ mem₁).infos i = mem₁.infos i := by
        unfold releaseOrRemove
        split
        · exact Function.update_of_ne heq _ _
        · exact Function.update_of_ne heq _ _
      have hmarked : (mem.set info { o with isDestroy := true }).infos i = some oi :=
        (Function.update_of_ne heq _ _).trans hoi
      show (releaseOrRemove name now info o₁ mem₁).infos i = none ↔ _
      rw [hleft, clearLoop_infos hclear hmarked, or_iff_left fun h => heq h.1]
      split
      · next hc => exact iff_of_true rfl hc
      · next hc => exact iff_of_false (Option.some_ne_none _) hc

/-! ## Where retentions point -/

/-- The lists have retentions which have been made. -/
def ExtNodeMapItem.Numbered (node : ExtNodeMapItem) : Prop :=
  (∀ (k : String) r, node.objList[k]? = some r → r < node.nextRetention)
    ∧ ∀ (k : String) r, node.objRemovedList[k]? = some r → r < node.nextRetention

/-- **What a section does to the retentions of a process**: one of them may
be attached to an object, and others be detached; new ones may be made. -/
structure Changed (node node' : ExtNodeMapItem) (att : Option (ℕ × ℕ)) : Prop where
  next : node.nextRetention ≤ node'.nextRetention
  numbered : node.Numbered → node'.Numbered
  kept : ∀ r, r < node.nextRetention → (∀ i, att ≠ some (r, i)) →
    (node'.retention r).ptr = (node.retention r).ptr ∨ (node'.retention r).ptr = none
  attached : ∀ r i, att = some (r, i) → (node'.retention r).ptr = some i

namespace Changed

open ExtNodeMapItem

variable {node node' : ExtNodeMapItem} {mem mem' : ShmSystemSharedInfo} {key : String} {r info : ℕ}

theorem refl (node : ExtNodeMapItem) : Changed node node none :=
  ⟨le_rfl, id, fun _ _ _ => Or.inl rfl, nofun⟩

/-- `create` attaches the retention which waits, or makes one. -/
theorem created {type : String} (hc : Created node node' type key info r) :
    Changed node node' (if node.objRemovedList[key]? = none then none else some (r, info)) := by
  have hnext := hc.nextRetention_le
  refine ⟨hnext, fun hnum => ⟨fun k r' hk => ?_, fun k r' hk => ?_⟩, fun r' hr' hne => Or.inl ?_,
    fun r' i hatt => ?_⟩
  · rw [hc.objList k] at hk
    split at hk
    · cases hk
      rcases hc.source with ⟨hwait, hn, _⟩ | ⟨_, hr, hn, _⟩
      · exact (hnum.2 key r hwait).trans_eq hn.symm
      · omega
    · exact (hnum.1 k r' hk).trans_le hnext
  · rw [hc.objRemovedList k] at hk
    split at hk
    · cases hk
    · exact (hnum.2 k r' hk).trans_le hnext
  · rw [hc.others]
    rintro rfl
    rcases hc.source with ⟨hwait, _⟩ | ⟨_, hr, _⟩
    · rw [if_neg (by rw [hwait]; exact Option.some_ne_none r')] at hne
      exact hne info rfl
    · exact absurd hr hr'.ne
  · split at hatt
    · cases hatt
    · cases hatt
      exact hc.ptr

/-- `destroy` detaches a retention. -/
theorem destroyLocal (key : String) (handles : ℕ → ℕ) (node : ExtNodeMapItem) :
    Changed node (destroyLocal key handles node) none := by
  cases hname : node.objList[key]? with
  | none =>
    unfold ShmObjManager.destroyLocal
    rw [hname]
    exact .refl node
  | some r =>
    rw [destroyLocal_listed hname]
    refine ⟨le_rfl, fun hnum => ⟨fun k r' hk => hnum.1 k r' (erase_some hk).2, fun k r' hk => ?_⟩,
      fun r' _ _ => ?_, nofun⟩
    · dsimp only at hk
      split at hk
      · rcases insertIfNew_cases hk with ⟨_, hr', _⟩ | hk
        · rw [hr']
          exact hnum.1 key r hname
        · exact hnum.2 k r' hk
      · exact hnum.2 k r' hk
    · show (Function.update node.retention r _ r').ptr = _
        ∨ (Function.update node.retention r _ r').ptr = _
      by_cases hr' : r' = r
      · rw [hr', Function.update_self]
        exact Or.inr rfl
      · rw [Function.update_of_ne hr']
        exact Or.inl rfl

/-- `discovery` makes a retention if there is none. -/
theorem discovery {type : String} (hnum : node.Numbered)
    (h : discovery type key mem node = .ok (r, mem', node')) :
    Changed node node' none ∧ r < node'.nextRetention
      ∧ (node'.retention r).ptr = found key mem node
      ∧ KeepsTypes mem mem' ∧ KeepsObjects mem mem' := by
  have hold : ∀ type p r, r < node.nextRetention →
      (node.makeShared type p).2.retention r = node.retention r :=
    fun type p r hr => Function.update_of_ne hr.ne _ _
  unfold found
  rcases discovery_cases h with ⟨hext, rfl, rfl⟩ | ⟨hext, hmap, rfl, rfl, rfl⟩
    | ⟨i, o, hext, hmap, ho, rfl, rfl, rfl⟩
  · rw [hext]
    refine ⟨.refl node', ?_, rfl, .refl mem', .refl mem'⟩
    unfold discoveryExtMap at hext
    split at hext
    · next hk =>
      cases hext
      exact hnum.1 key r hk
    · exact hnum.2 key r hext
  · rw [hext, hmap]
    refine ⟨⟨Nat.le_succ _, fun _ => ⟨fun k r' hk => Nat.lt_succ_of_lt (hnum.1 k r' hk),
      fun k r' hk => ?_⟩, fun r' hr' _ => Or.inl ?_, nofun⟩, Nat.lt_succ_self _, ?_,
      .refl _, .refl _⟩
    · rcases insertIfNew_cases hk with ⟨_, hr', _⟩ | hk
      · rw [hr']
        exact Nat.lt_succ_self _
      · exact Nat.lt_succ_of_lt (hnum.2 k r' hk)
    · exact congrArg SharedObjectRetention.ptr (hold (some type) none r' hr')
    · show ((node.makeShared (some type) none).2.retention node.nextRetention).ptr = none
      rw [makeShared_retention, Function.update_self]
  · rw [hext, hmap]
    refine ⟨⟨Nat.le_succ _, fun _ => ⟨fun k r' hk => ?_,
      fun k r' hk => Nat.lt_succ_of_lt (hnum.2 k r' hk)⟩, fun r' hr' _ => Or.inl ?_, nofun⟩,
      Nat.lt_succ_self _, ?_, .set ho rfl, .set _ _ _⟩
    · rcases insertIfNew_cases hk with ⟨_, hr', _⟩ | hk
      · rw [hr']
        exact Nat.lt_succ_self _
      · exact Nat.lt_succ_of_lt (hnum.1 k r' hk)
    · refine congrArg SharedObjectRetention.ptr ((attach_of_ne hr'.ne).trans ?_)
      exact hold none (some i) r' hr'
    · exact congrArg SharedObjectRetention.ptr (attach_self ..)

/-- The first loop of the monitor attaches what waits. -/
theorem monitorRemoved (hnum : node.Numbered)
    (h : monitorRemoved key mem node = .ok (mem', node')) :
    Changed node node' (node.objRemovedList[key]?.bind fun r =>
      mem.shmObjMap[key]?.map fun info => (r, info))
    ∧ (∀ e ∈ node.objRemovedList[key]?.bind fun r =>
      mem.shmObjMap[key]?.map fun info => (r, info), mem.infos e.2 ≠ none)
    ∧ KeepsTypes mem mem' ∧ KeepsObjects mem mem' := by
  rcases monitorRemoved_cases h with
    ⟨hwait | hmap, rfl, rfl⟩ | ⟨r, i, o, hwait, hmap, ho, rfl, rfl⟩
  · rw [hwait]
    exact ⟨.refl node', nofun, .refl mem', .refl mem'⟩
  · rw [hmap]
    cases node'.objRemovedList[key]? with
    | none => exact ⟨.refl node', nofun, .refl mem', .refl mem'⟩
    | some r => exact ⟨.refl node', nofun, .refl mem', .refl mem'⟩
  · rw [hwait, hmap]
    have hi : ∀ e ∈ some (r, i), mem.infos e.2 ≠ none := by
      rintro _ ⟨⟩
      rw [ho]
      exact Option.some_ne_none o
    refine ⟨⟨le_rfl, fun _ => ⟨fun k r' hk => ?_, fun k r' hk => hnum.2 k r' (erase_some hk).2⟩,
      fun r' _ hne => Or.inl ?_, fun r' i' hatt => ?_⟩, hi, .set ho rfl, .set _ _ _⟩
    · rcases insertIfNew_cases hk with ⟨_, hr', _⟩ | hk
      · rw [hr']
        exact hnum.2 key r hwait
      · exact hnum.1 k r' hk
    · refine congrArg SharedObjectRetention.ptr (attach_of_ne ?_)
      rintro rfl
      exact hne i rfl
    · cases hatt
      exact congrArg SharedObjectRetention.ptr (attach_self ..)

/-- The second loop leaves the retentions. -/
theorem monitorListed (hnum : node.Numbered)
    (h : monitorListed key mem node = .ok (mem', node')) :
    Changed node node' none ∧ KeepsTypes mem mem' ∧ KeepsObjects mem mem' := by
  rcases monitorListed_cases h with
    ⟨_, rfl, rfl⟩ | ⟨r, info, o, hlist, _, ho, ⟨_, rfl, rfl⟩ | ⟨_, rfl, rfl⟩⟩
  · exact ⟨.refl node', .refl mem', .refl mem'⟩
  · exact ⟨.refl node', .refl mem', .refl mem'⟩
  · refine ⟨⟨le_rfl, fun _ => ⟨fun k r' hk => hnum.1 k r' (erase_some hk).2,
      fun k r' hk => ?_⟩, fun _ _ _ => Or.inl rfl, nofun⟩, .set ho rfl, .set _ _ _⟩
    rcases insertIfNew_cases hk with ⟨_, hr', _⟩ | hk
    · rw [hr']
      exact hnum.1 key r hlist
    · exact hnum.2 k r' hk

/-- **A step of the monitor.** -/
theorem monitorStep {p p' : Process} (hnum : p.node.Numbered)
    (h : p.monitorStep mem = .ok (mem', p')) :
    Changed p.node p'.node (attaching mem p) ∧ (∀ e ∈ attaching mem p, mem.infos e.2 ≠ none)
      ∧ KeepsTypes mem mem' ∧ KeepsObjects mem mem' := by
  unfold attaching
  rcases Process.monitorStep_cases h with
    ⟨key, keys, hm, hone⟩ | ⟨key, keys, hm, hone⟩ | ⟨hm, rfl, hnode⟩
  · rw [hm]
    exact monitorRemoved hnum hone
  · rw [hm]
    obtain ⟨hc, hkeep⟩ := monitorListed hnum hone
    exact ⟨hc, nofun, hkeep⟩
  · rw [hnode]
    split
    · next key keys hkey => exact absurd hkey (hm key keys)
    · exact ⟨.refl p.node, nofun, .refl mem', .refl mem'⟩

end Changed

/-! ## The invariant -/

namespace TypedManager

variable {C : Type} [DecidableEq C] {s s' : TypedManager C} {pid : ℕ}

/-- The invariant: what is listed and held has been made, and an object
has been built as what its `ObjectInfo` says. -/
structure Inv (s : TypedManager C) : Prop where
  numbered : ∀ p, (s.node p).Numbered
  held : ∀ h ∈ s.held, h.ret < (s.node h.place).nextRetention
  built : ∀ i o, s.mem.infos i = some o → s.builtAs i = some o.type

/-- **What a section does to what is built**: nothing, or a new object is
built where there is none. -/
inductive Builds (s s' : TypedManager C) : Prop
  | none : s'.builtAs = s.builtAs → KeepsTypes s.mem s'.mem → Builds s s'
  | one (info : ℕ) (o : ObjectInfo) : s.mem.infos info = none →
      s'.builtAs = Function.update s.builtAs info (some o.type) →
      s'.mem.infos = Function.update s.mem.infos info (some o) → Builds s s'

/-- **What a section does**: process `p` attaches the retention `att`, a
caller is given the handle `given`, and the objects of `gone` are released. -/
structure Effect (s s' : TypedManager C) (p : Option C) (att : Option (ℕ × ℕ))
    (given : Option (TypedHandle C)) (gone : ℕ → Prop) : Prop where
  others : ∀ q, q ≠ p → s'.node q = s.node q
  changed : Changed (s.node p) (s'.node p) att
  attached : ∀ r i, att = some (r, i) → s'.mem.infos i ≠ none
  builds : Builds s s'
  held : ∀ h ∈ s'.held, h ∈ s.held ∨ given = some h
  kept : att ≠ none → ∀ h ∈ s.held, h ∈ s'.held
  given : ∀ h, given = some h → h ∈ s'.held ∧ h.place = p ∧ h.ret < (s'.node p).nextRetention
  alive : ∀ i, s.mem.infos i ≠ none → (s'.mem.infos i = none ↔ gone i)
  released : ∀ i, gone i → ∀ h ∈ s.held, i ∈ s.target h → h ∈ s'.held ∧ i ∈ s'.target h

omit [DecidableEq C] in
/-- What was built and is there stays built. -/
theorem Builds.mono (hb : Builds s s') {i : ℕ} {type : String} (hi : s.IsA i type) :
    s'.builtAs i = some type := by
  cases hb with
  | none heq _ => rw [heq, hi.2]
  | one info o hfree heq _ =>
    rw [heq, Function.update_of_ne, hi.2]
    rintro rfl
    exact hi.1 hfree

omit [DecidableEq C] in
/-- A section keeps the invariant. -/
theorem Effect.inv {p : Option C} {att : Option (ℕ × ℕ)} {given : Option (TypedHandle C)}
    {gone : ℕ → Prop} (he : Effect s s' p att given gone) (h : s.Inv) : s'.Inv := by
  have hnext : ∀ q, (s.node q).nextRetention ≤ (s'.node q).nextRetention := by
    intro q
    by_cases hq : q = p
    · rw [hq]
      exact he.changed.next
    · rw [he.others q hq]
  refine ⟨fun q => ?_, fun a ha => ?_, fun i o ho => ?_⟩
  · by_cases hq : q = p
    · rw [hq]
      exact he.changed.numbered (h.numbered p)
    · rw [he.others q hq]
      exact h.numbered q
  · rcases he.held a ha with hold | hgiven
    · exact (h.held a hold).trans_le (hnext a.place)
    · obtain ⟨_, hplace, hlt⟩ := he.given a hgiven
      rw [hplace]
      exact hlt
  · cases he.builds with
    | none heq hkeep =>
      obtain ⟨o₀, ho₀, ht⟩ := hkeep i o ho
      rw [heq, h.built i o₀ ho₀, ht]
    | one info o₁ _ heq hinfos =>
      rw [hinfos] at ho
      rw [heq]
      by_cases hi : i = info
      · rw [hi, Function.update_self] at ho ⊢
        cases ho
        rfl
      · rw [Function.update_of_ne hi] at ho ⊢
        exact h.built i o ho

/-- **The types fit what a section does.** -/
structure FitsEffect (s s' : TypedManager C) (p : Option C) (att : Option (ℕ × ℕ))
    (given : Option (TypedHandle C)) (gone : ℕ → Prop) : Prop where
  attached : ∀ r i, att = some (r, i) → s.HeldAs p r (s'.builtAs i)
  given : ∀ h, given = some h → ∀ i ∈ s'.target h, s'.IsA i h.type
  kept : ∀ h ∈ s.held, ∀ i ∈ s.target h, ¬ gone i

omit [DecidableEq C] in
/-- **Handles are well typed after a section** exactly if the types fit. -/
theorem Effect.wellTyped_iff {p : Option C} {att : Option (ℕ × ℕ)}
    {given : Option (TypedHandle C)} {gone : ℕ → Prop} (he : Effect s s' p att given gone)
    (h : s.Inv) (hP : s.WellTyped) : s'.WellTyped ↔ FitsEffect s s' p att given gone := by
  constructor
  · intro hP'
    refine ⟨fun r i hatt a ha hplace hret => ?_, fun a ha i hi => ?_, fun a ha i hi hgone => ?_⟩
    · refine (hP' a (he.kept (by rw [hatt]; exact Option.some_ne_none _) a ha) i ?_).2
      show ((s'.node a.place).retention a.ret).ptr = some i
      rw [hplace, hret]
      exact he.changed.attached r i hatt
    · exact hP' a (he.given a ha).1 i hi
    · obtain ⟨ha', hi'⟩ := he.released i hgone a ha hi
      exact (hP' a ha' i hi').1 ((he.alive i (hP a ha i hi).1).mpr hgone)
  · intro hfit a ha i hi
    have hstays : a ∈ s.held → i ∈ s.target a → s'.IsA i a.type := by
      intro ha hi
      have hisa := hP a ha i hi
      exact ⟨fun hnone => hfit.kept a ha i hi ((he.alive i hisa.1).mp hnone),
        he.builds.mono hisa⟩
    rcases he.held a ha with hold | hgiven
    · change ((s'.node a.place).retention a.ret).ptr = some i at hi
      by_cases hplace : a.place = p
      · by_cases hatt : ∃ j, att = some (a.ret, j)
        · obtain ⟨j, hj⟩ := hatt
          rw [hplace, he.changed.attached a.ret j hj] at hi
          cases hi
          exact ⟨he.attached a.ret i hj, hfit.attached a.ret i hj a hold hplace rfl⟩
        · have hlt := h.held a hold
          rw [hplace] at hi hlt
          rcases he.changed.kept a.ret hlt (fun j hj => hatt ⟨j, hj⟩) with hk | hk
          · rw [hk] at hi
            refine hstays hold ?_
            show ((s.node a.place).retention a.ret).ptr = some i
            rw [hplace, hi]
          · rw [hk] at hi
            cases hi
      · rw [he.others a.place hplace] at hi
        exact hstays hold hi
    · exact hfit.given a hgiven i hi

theorem withProcess_self (s : TypedManager C) (p : Option C) (mem : ShmSystemSharedInfo)
    (q : Process) : (s.withProcess p mem q).node p = q.node :=
  congrArg Process.node (Function.update_self ..)

theorem withProcess_of_ne (s : TypedManager C) {p q : Option C} (hq : q ≠ p)
    (mem : ShmSystemSharedInfo) (q' : Process) : (s.withProcess p mem q').node q = s.node q :=
  congrArg Process.node (Function.update_of_ne hq _ _)

theorem changed_withProcess {p : Option C} {att : Option (ℕ × ℕ)} {q : Process}
    (hc : Changed (s.node p) q.node att) (mem : ShmSystemSharedInfo) :
    Changed (s.node p) ((s.withProcess p mem q).node p) att := by
  rw [s.withProcess_self]
  exact hc

/-- **A section has an effect**, and the types fit the section exactly if they
fit the effect. -/
def HasEffect (s s' : TypedManager C) (l : TypedCall C) : Prop :=
  ∃ p att given gone, Effect s s' p att given gone
    ∧ (s.Fits l ↔ FitsEffect s s' p att given gone)

omit [DecidableEq C] in
/-- No object is released. -/
theorem alive_of_keeps (h : KeepsObjects s.mem s'.mem) (i : ℕ) (hi : s.mem.infos i ≠ none) :
    s'.mem.infos i = none ↔ False := iff_false_intro (h i hi)

omit [DecidableEq C] in
/-- A section which attaches nothing, gives nobody a handle, and releases
nothing. -/
theorem effect_quiet {l : TypedCall C} {p : Option C} (hl : s.Fits l)
    (ho : ∀ q, q ≠ p → s'.node q = s.node q) (hc : Changed (s.node p) (s'.node p) none)
    (hb : Builds s s') (hk : KeepsObjects s.mem s'.mem) (hh : ∀ h ∈ s'.held, h ∈ s.held) :
    HasEffect s s' l :=
  ⟨p, none, none, fun _ => False, ⟨ho, hc, nofun, hb, fun h hm => Or.inl (hh h hm),
    fun hne => absurd rfl hne, nofun, alive_of_keeps hk, nofun⟩,
    iff_of_true hl ⟨nofun, nofun, fun _ _ _ _ => id⟩⟩

/-- **The second section of `destroy`** releases objects, and does nothing
else to what handles point to. -/
theorem effect_of_destroyShared {t now : ℕ} (hrun : s.run (.destroyShared t now) = .ok s') :
    HasEffect s s' (.destroyShared t now) := by
  dsimp only [run] at hrun
  cases ht : s.destroying t with
  | none =>
    rw [ht] at hrun
    cases hrun
    refine effect_quiet (p := none) ?_ (fun _ _ => rfl) (.refl _) (.none rfl (.refl _)) (.refl _)
      fun a ha => ha
    intro name hname
    rw [ht] at hname
    cases hname
  | some name =>
    rw [ht] at hrun
    dsimp only at hrun
    obtain ⟨mem, hd, hrun⟩ := Except.bind_eq_ok.mp hrun
    cases hrun
    refine ⟨none, none, none, Releases name s.mem, ⟨fun _ _ => rfl, .refl _, nofun,
      .none rfl (KeepsTypes.destroyShared hd), fun a ha => Or.inl ha, fun hne => absurd rfl hne,
      nofun, fun i hi => destroyShared_eq_none_iff hd hi, fun i _ a ha hi => ⟨ha, hi⟩⟩, ?_⟩
    constructor
    · exact fun hfit => ⟨nofun, nofun, fun a ha i hi => hfit name ht a ha i hi⟩
    · intro hfit name' hname' a ha i hi
      obtain rfl : name = name' := Option.some.inj (ht.symm.trans hname')
      exact hfit.kept a ha i hi

/-- **`create` of a name which is listed** hands its retention on. -/
theorem effect_of_create_listed (h : s.Inv) {t now info r : ℕ} {type name : String}
    (hname : (s.node none).objList[name]? = some r)
    (htype : ((s.node none).retention r).type = some type)
    (hrun : s.run (.create t type name now info) = .ok s') :
    HasEffect s s' (.create t type name now info) := by
  dsimp only [run] at hrun
  rw [create_listed hname] at hrun
  dsimp only at hrun
  rw [ShmSystemSharedInfo.giving_nextInfo, if_pos rfl, if_pos htype] at hrun
  cases hrun
  have hself : (s.withProcess none (s.mem.giving info) ⟨s.node none, .idle⟩).node none
      = s.node none := s.withProcess_self _ _ _
  refine ⟨none, none, some ⟨none, type, r⟩, fun _ => False,
    ⟨fun q hq => s.withProcess_of_ne hq (s.mem.giving info) ⟨s.node none, .idle⟩,
      changed_withProcess (q := ⟨s.node none, .idle⟩) (.refl (s.node none)) (s.mem.giving info),
      nofun, .none rfl (.refl _), fun a ha => ?_,
      fun hne => absurd rfl hne, ?_, alive_of_keeps (.refl _), nofun⟩, ?_⟩
  · rcases List.mem_cons.mp ha with rfl | ha
    · exact Or.inr rfl
    · exact Or.inl ha
  · rintro a ⟨⟩
    refine ⟨List.mem_cons_self, rfl, ?_⟩
    show r < ((s.withProcess none (s.mem.giving info) ⟨s.node none, .idle⟩).node
      none).nextRetention
    rw [hself]
    exact (h.numbered none).1 name r hname
  · have htarget : ∀ i, (((s.withProcess none (s.mem.giving info)
        ⟨s.node none, .idle⟩).node none).retention r).ptr = some i
          ↔ ((s.node none).retention r).ptr = some i := by
      intro i
      rw [hself]
    constructor
    · rintro ⟨hlisted, _⟩
      refine ⟨nofun, ?_, fun _ _ _ _ => id⟩
      rintro a ⟨⟩ i hi
      exact hlisted r hname htype i ((htarget i).mp hi)
    · rintro ⟨_, hgiven, _⟩
      refine ⟨fun r' hr' _ i hi => ?_, fun hnone => ?_⟩
      · rw [Option.mem_def, hname] at hr'
        cases hr'
        exact hgiven _ rfl i ((htarget i).mpr hi)
      · rw [hname] at hnone
        cases hnone

/-- **`create` of a new name** makes an object, of the type it is called with. -/
theorem effect_of_create_new (h : s.Inv) {t now info : ℕ} {type name : String}
    (hfree : s.mem.infos info = none)
    (hname : (s.node none).objList[name]? = none) (hmap : s.mem.shmObjMap[name]? = none)
    (hrun : s.run (.create t type name now info) = .ok s') :
    HasEffect s s' (.create t type name now info) := by
  dsimp only [run] at hrun
  obtain ⟨r, node, hcreate, hc⟩ :=
    create_new hname (show (s.mem.giving info).shmObjMap[name]? = none from hmap) type now
  generalize hmem : ({ ((s.mem.giving info).create type (some type)).2 with
    shmObjMap := (s.mem.giving info).shmObjMap.insertIfNew name (s.mem.giving info).nextInfo
    updateTime := now } : ShmSystemSharedInfo) = mem' at hcreate
  rw [ShmSystemSharedInfo.giving_nextInfo] at hc
  have hnext : mem'.nextInfo = info + 1 := by
    rw [← hmem]
    rfl
  have hinfos : mem'.infos = Function.update s.mem.infos info
      (some ⟨1, false, type, s.mem.selfPid, some type⟩) := by
    rw [← hmem]
    rfl
  rw [hcreate] at hrun
  dsimp only at hrun
  rw [if_neg (by omega)] at hrun
  cases hrun
  have hbuilt : Function.update s.builtAs info (some type) info = some type :=
    Function.update_self ..
  have hthere : mem'.infos info ≠ none := by
    rw [hinfos, Function.update_self]
    exact Option.some_ne_none _
  have hkeep : KeepsObjects s.mem mem' := by
    intro i hi
    have hne : i ≠ info := fun heq => hi (heq ▸ hfree)
    rwa [hinfos, Function.update_of_ne hne]
  have hr : r < node.nextRetention := by
    rcases hc.source with ⟨hwait, hn, _⟩ | ⟨_, hr, hn, _⟩
    · exact ((h.numbered none).2 name r hwait).trans_eq hn.symm
    · omega
  have hself : (s.withProcess none mem' ⟨node, .idle⟩).node none = node :=
    s.withProcess_self _ _ _
  refine ⟨none, _, some ⟨none, type, r⟩, fun _ => False,
    ⟨fun q hq => s.withProcess_of_ne hq mem' ⟨node, .idle⟩,
      changed_withProcess (q := ⟨node, .idle⟩) (Changed.created hc) mem', fun r' i hatt => ?_,
      .one info ⟨1, false, type, s.mem.selfPid, some type⟩ hfree rfl hinfos,
      fun a ha => ?_, fun _ a ha => List.mem_cons_of_mem _ ha, ?_, alive_of_keeps hkeep,
      nofun⟩, ?_⟩
  · split at hatt
    · cases hatt
    · cases hatt
      exact hthere
  · rcases List.mem_cons.mp ha with rfl | ha
    · exact Or.inr rfl
    · exact Or.inl ha
  · rintro a ⟨⟩
    refine ⟨List.mem_cons_self, rfl, ?_⟩
    show r < ((s.withProcess none mem' ⟨node, .idle⟩).node none).nextRetention
    rw [hself]
    exact hr
  · constructor
    · rintro ⟨_, hwaits⟩
      refine ⟨fun r' i hatt => ?_, ?_, fun _ _ _ _ => id⟩
      · split at hatt
        · cases hatt
        · next hne =>
          cases hatt
          show s.HeldAs none r (Function.update s.builtAs _ _ _)
          rw [hbuilt]
          rcases hc.source with ⟨hwait, _⟩ | ⟨hnone, _⟩
          · exact hwaits hname hmap r hwait
          · exact absurd hnone hne
      · rintro a ⟨⟩ i hi
        have hptr : i = info := by
          change (((s.withProcess none mem' ⟨node, .idle⟩).node none).retention r).ptr
            = some i at hi
          rw [hself, hc.ptr] at hi
          exact (Option.some.inj hi).symm
        rw [hptr]
        exact ⟨hthere, hbuilt⟩
    · rintro ⟨hatt, _⟩
      refine ⟨fun r' hr' => ?_, fun _ _ r' hr' => ?_⟩
      · rw [Option.mem_def, hname] at hr'
        cases hr'
      · rw [Option.mem_def] at hr'
        rcases hc.source with ⟨hwait, _⟩ | ⟨hnone, _⟩
        · rw [hwait] at hr'
          cases hr'
          have hheld := hatt r info (if_neg (by rw [hwait]; exact Option.some_ne_none r))
          change s.HeldAs none r (Function.update s.builtAs _ _ _) at hheld
          rw [hbuilt] at hheld
          exact hheld
        · rw [hnone] at hr'
          cases hr'

/-- `create`, of a name which is listed or not, or in the shared memory
only. -/
theorem effect_of_create (h : s.Inv) {t now info : ℕ} {type name : String}
    (hfree : s.mem.infos info = none) (hrun : s.run (.create t type name now info) = .ok s') :
    HasEffect s s' (.create t type name now info) := by
  cases hname : (s.node none).objList[name]? with
  | some r =>
    by_cases htype : ((s.node none).retention r).type = some type
    · exact effect_of_create_listed h hname htype hrun
    · dsimp only [run] at hrun
      rw [create_listed hname] at hrun
      dsimp only at hrun
      rw [ShmSystemSharedInfo.giving_nextInfo, if_pos rfl, if_neg htype] at hrun
      cases hrun
      refine effect_quiet (p := none) ⟨fun r' hr' htype' => ?_, fun hnone => ?_⟩
        (fun q hq => s.withProcess_of_ne hq (s.mem.giving info) ⟨s.node none, .idle⟩)
        (changed_withProcess (q := ⟨s.node none, .idle⟩) (.refl (s.node none)) (s.mem.giving info))
        (.none rfl (.refl _)) (.refl _) fun a ha => ha
      · rw [Option.mem_def, hname] at hr'
        cases hr'
        exact absurd htype' htype
      · rw [hname] at hnone
        cases hnone
  | none =>
    cases hmap : s.mem.shmObjMap[name]? with
    | some i =>
      dsimp only [run] at hrun
      have hmap' : (s.mem.giving info).shmObjMap[name]? = some i := hmap
      rw [create_mapped hname hmap'] at hrun
      dsimp only at hrun
      rw [ShmSystemSharedInfo.giving_nextInfo, if_pos rfl] at hrun
      cases hrun
      refine effect_quiet (p := none) ⟨fun r hr => ?_, fun _ hnone => ?_⟩
        (fun q hq => s.withProcess_of_ne hq (s.mem.giving info) ⟨s.node none, .idle⟩)
        (changed_withProcess (q := ⟨s.node none, .idle⟩) (.refl (s.node none)) (s.mem.giving info))
        (.none rfl (.refl _)) (.refl _) fun a ha => ha
      · rw [Option.mem_def, hname] at hr
        cases hr
      · rw [hmap] at hnone
        cases hnone
    | none => exact effect_of_create_new h hfree hname hmap hrun

/-- **Every section has an effect.** -/
theorem effect_of_step (h : s.Inv) {l : TypedCall C} (hstep : (typedSystem C pid).step s l s') :
    HasEffect s s' l := by
  obtain ⟨hadmits, hrun⟩ := hstep
  cases l with
  | create t type name now info => exact effect_of_create h hadmits.2.2 hrun
  | destroyLocal t name =>
    cases hrun
    exact effect_quiet trivial
      (fun q hq => s.withProcess_of_ne hq s.mem ⟨destroyLocal name s.handles (s.node none), .idle⟩)
      (changed_withProcess (q := ⟨_, .idle⟩) (Changed.destroyLocal name s.handles _) s.mem)
      (.none rfl (.refl _)) (.refl _) fun a ha => ha
  | destroyShared t now => exact effect_of_destroyShared hrun
  | discovery p type key =>
    dsimp only [run] at hrun
    obtain ⟨⟨r, mem, node⟩, hd, hrun⟩ := Except.bind_eq_ok.mp hrun
    cases hrun
    obtain ⟨hc, hr, hptr, htypes, hkeep⟩ := Changed.discovery (h.numbered p) hd
    have hself : (s.withProcess p mem ⟨node, .idle⟩).node p = node := s.withProcess_self _ _ _
    refine ⟨p, none, some ⟨p, type, r⟩, fun _ => False,
      ⟨fun q hq => s.withProcess_of_ne hq mem ⟨node, .idle⟩,
        changed_withProcess (q := ⟨node, .idle⟩) hc mem, nofun, .none rfl htypes, fun a ha => ?_,
        fun hne => absurd rfl hne, ?_, alive_of_keeps hkeep, nofun⟩, ?_⟩
    · rcases List.mem_cons.mp ha with rfl | ha
      · exact Or.inr rfl
      · exact Or.inl ha
    · rintro a ⟨⟩
      refine ⟨List.mem_cons_self, rfl, ?_⟩
      show r < ((s.withProcess p mem ⟨node, .idle⟩).node p).nextRetention
      rw [hself]
      exact hr
    · have htarget : (((s.withProcess p mem ⟨node, .idle⟩).node p).retention r).ptr
          = found key s.mem (s.node p) := by
        rw [hself, hptr]
      constructor
      · intro hfit
        refine ⟨nofun, ?_, fun _ _ _ _ => id⟩
        rintro a ⟨⟩ i hi
        have hisa := hfit i (htarget ▸ hi)
        exact ⟨hkeep i hisa.1, hisa.2⟩
      · rintro ⟨_, hgiven, _⟩ i hi
        have hisa := hgiven _ rfl i (htarget.trans hi)
        exact ⟨fun hnone => hisa.1 (htypes.none_of_none hnone), hisa.2⟩
  | notify p =>
    cases hrun
    let q : Process := ⟨s.node p, .removed (s.node p).objRemovedList.keys⟩
    have hc : Changed (s.node p) q.node none := .refl (s.node p)
    exact effect_quiet (p := p) trivial (fun _ hq => s.withProcess_of_ne hq s.mem q)
      (changed_withProcess hc s.mem) (.none rfl (.refl _)) (.refl _) fun a ha => ha
  | monitor p =>
    dsimp only [run] at hrun
    obtain ⟨⟨mem, q'⟩, hm, hrun⟩ := Except.bind_eq_ok.mp hrun
    cases hrun
    obtain ⟨hc, hthere, htypes, hkeep⟩ := Changed.monitorStep (h.numbered p) hm
    refine ⟨p, attaching s.mem (s.process p), none, fun _ => False,
      ⟨fun q hq => s.withProcess_of_ne hq mem q', changed_withProcess hc mem,
        fun r i hatt => hkeep i (hthere (r, i) hatt), .none rfl htypes, fun a ha => Or.inl ha,
        fun _ a ha => ha, nofun, alive_of_keeps hkeep, nofun⟩, ?_⟩
    constructor
    · intro hfit
      exact ⟨fun r i hatt => hfit (r, i) hatt, nofun, fun _ _ _ _ => id⟩
    · rintro ⟨hatt, _⟩ e he
      exact hatt e.1 e.2 he
  | copyHandle a =>
    cases hrun
    refine effect_quiet (p := none) trivial (fun _ _ => rfl) (.refl _) (.none rfl (.refl _))
      (.refl _) fun b hb => ?_
    rcases List.mem_cons.mp hb with rfl | hb
    · assumption
    · exact hb
  | dropHandle a =>
    cases hrun
    exact effect_quiet (p := none) trivial (fun _ _ => rfl) (.refl _) (.none rfl (.refl _))
      (.refl _) fun b hb => List.mem_of_mem_erase hb

theorem fresh_inv (C : Type) [DecidableEq C] (pid : ℕ) : (fresh C pid).Inv :=
  ⟨fun _ => ⟨fun k r h => absurd h (empty_ne_some k r), fun k r h => absurd h (empty_ne_some k r)⟩,
    nofun, nofun⟩

end TypedManager

open TransitionSystem

/-- **When handles are of the type of their object.** An object was built as
what its `ObjectInfo` says; and in every state a run passes, every handle
which points anywhere points to an object that is there, and was built as its
type, exactly if the types fit in every step of the run. -/
theorem handles_typed_iff {C : Type} [DecidableEq C] {pid : ℕ}
    {tr : List (TypedManager C × TypedCall C)} {s : TypedManager C}
    (hr : (typedSystem C pid).Run tr s) :
    (∀ i o, s.mem.infos i = some o → s.builtAs i = some o.type)
      ∧ (Throughout TypedManager.WellTyped tr s ↔ Met TypedManager.Fits tr) := by
  have hinit : ∀ s, (typedSystem C pid).init s → s.WellTyped ∧ s.Inv := by
    rintro s rfl
    exact ⟨nofun, TypedManager.fresh_inv C pid⟩
  refine ⟨?_, hr.forall_iff (J := TypedManager.Inv) hinit ?_ ?_⟩
  · have hinv : s.Inv := hr.reachable.invariant (fun s hs => (hinit s hs).2)
      fun s l s' _ h hstep =>
        let ⟨_, _, _, _, he, _⟩ := TypedManager.effect_of_step h hstep
        he.inv h
    exact hinv.built
  · intro s l s' hP h hstep hfit
    obtain ⟨p, att, given, gone, he, hiff⟩ := TypedManager.effect_of_step h hstep
    exact ⟨(he.wellTyped_iff h hP).mpr (hiff.mp hfit), he.inv h⟩
  · intro s l s' hP h hstep hfit hP'
    obtain ⟨p, att, given, gone, he, hiff⟩ := TypedManager.effect_of_step h hstep
    exact hfit (hiff.mpr ((he.wellTyped_iff h hP).mp hP'))

/-- Names which keep their types: one is destroyed while it is held by the
owner and by another process, and created again; and what was released in
between is used for another object. -/
theorem handles_typed_iff_again : ∃ tr s, (typedSystem (Fin 1) 7).Run tr s
    ∧ s.held = [⟨none, "double", 2⟩, ⟨none, "int", 0⟩, ⟨some 0, "int", 0⟩, ⟨none, "int", 0⟩]
    ∧ Throughout TypedManager.WellTyped tr s := by
  have htrace : (trace TypedManager.next [] (TypedManager.fresh (Fin 1) 7)
      [.create 0 "int" "a" 1 0, .discovery (some 0) "int" "a", .destroyLocal 0 "a",
        .destroyShared 0 2, .create 0 "int" "a" 3 1, .notify (some 0), .monitor (some 0),
        .monitor (some 0), .monitor (some 0), .notify (some 0), .monitor (some 0),
        .create 0 "char" "c" 4 2, .dropHandle ⟨none, "char", 1⟩, .destroyLocal 0 "c",
        .destroyShared 0 5, .create 0 "double" "b" 6 0]).map
        (fun e => (e.2.held, decide (Met TypedManager.Fits e.1)))
      = some ([⟨none, "double", 2⟩, ⟨none, "int", 0⟩, ⟨some 0, "int", 0⟩, ⟨none, "int", 0⟩],
        true) := by decide +kernel
  obtain ⟨tr, s, hr, heq⟩ :=
    Run.exists_of_trace (S := typedSystem (Fin 1) 7) TypedManager.step_of_next rfl htrace
  obtain ⟨hheld, hmet⟩ := Prod.mk.inj heq
  exact ⟨tr, s, hr, hheld, (handles_typed_iff hr).2.mpr (of_decide_eq_true hmet)⟩

/-- **A handle of another type**: an `int` is destroyed while a handle of it
is held, and a `double` created under its name; or an `int` is discovered as
a `double`. **A handle to nothing**: the monitor gives up the reference to a
destroyed object, whose handle is held, and the next `destroy` releases it. -/
theorem handles_not_typed :
    (∃ s, (typedSystem (Fin 1) 7).Reachable s ∧ (⟨none, "int", 0⟩ : TypedHandle (Fin 1)) ∈ s.held
      ∧ s.target ⟨none, "int", 0⟩ = some 0 ∧ s.builtAs 0 = some "double" ∧ ¬ s.WellTyped)
    ∧ (∃ s, (typedSystem (Fin 1) 7).Reachable s
      ∧ (⟨some 0, "double", 0⟩ : TypedHandle (Fin 1)) ∈ s.held
      ∧ s.target ⟨some 0, "double", 0⟩ = some 0 ∧ s.builtAs 0 = some "int" ∧ ¬ s.WellTyped)
    ∧ ∃ s, (typedSystem (Fin 1) 7).Reachable s
      ∧ (⟨some 0, "int", 0⟩ : TypedHandle (Fin 1)) ∈ s.held
      ∧ s.target ⟨some 0, "int", 0⟩ = some 0 ∧ s.mem.infos 0 = none ∧ ¬ s.WellTyped := by
  have hbad : ∀ (s : TypedManager (Fin 1)) (h : TypedHandle (Fin 1)) (i : ℕ) (t : String),
      h ∈ s.held → s.target h = some i → s.builtAs i = some t → t ≠ h.type → ¬ s.WellTyped := by
    intro s h i t hmem htarget hbuilt hne hP
    have hsame := (hP h hmem i htarget).2
    rw [hbuilt] at hsame
    exact hne (Option.some.inj hsame)
  refine ⟨?_, ?_, ?_⟩
  · have htrace : (trace TypedManager.next [] (TypedManager.fresh (Fin 1) 7)
        [.create 0 "int" "a" 1 0, .destroyLocal 0 "a", .destroyShared 0 2,
          .create 0 "double" "a" 3 0]).map (fun e => (decide (⟨none, "int", 0⟩ ∈ e.2.held),
            e.2.target ⟨none, "int", 0⟩, e.2.builtAs 0))
        = some (true, some 0, some "double") := by decide +kernel
    obtain ⟨tr, s, hr, heq⟩ :=
      Run.exists_of_trace (S := typedSystem (Fin 1) 7) TypedManager.step_of_next rfl htrace
    simp only [Prod.mk.injEq] at heq
    obtain ⟨hmem, htarget, hbuilt⟩ := heq
    have hmem' := of_decide_eq_true hmem
    exact ⟨s, hr.reachable, hmem', htarget, hbuilt,
      hbad s _ 0 "double" hmem' htarget hbuilt (by decide)⟩
  · have htrace : (trace TypedManager.next [] (TypedManager.fresh (Fin 1) 7)
        [.create 0 "int" "a" 1 0, .discovery (some 0) "double" "a"]).map
          (fun e => (decide (⟨some 0, "double", 0⟩ ∈ e.2.held),
            e.2.target ⟨some 0, "double", 0⟩, e.2.builtAs 0))
        = some (true, some 0, some "int") := by decide +kernel
    obtain ⟨tr, s, hr, heq⟩ :=
      Run.exists_of_trace (S := typedSystem (Fin 1) 7) TypedManager.step_of_next rfl htrace
    simp only [Prod.mk.injEq] at heq
    obtain ⟨hmem, htarget, hbuilt⟩ := heq
    have hmem' := of_decide_eq_true hmem
    exact ⟨s, hr.reachable, hmem', htarget, hbuilt,
      hbad s _ 0 "int" hmem' htarget hbuilt (by decide)⟩
  · have htrace : (trace TypedManager.next [] (TypedManager.fresh (Fin 1) 7)
        [.create 0 "int" "a" 1 0, .create 0 "int" "b" 2 1, .discovery (some 0) "int" "a",
          .destroyLocal 0 "a", .destroyShared 0 3, .notify (some 0), .monitor (some 0),
          .monitor (some 0), .monitor (some 0), .destroyLocal 0 "b", .destroyShared 0 4]).map
          (fun e => (decide (⟨some 0, "int", 0⟩ ∈ e.2.held),
            e.2.target ⟨some 0, "int", 0⟩, e.2.mem.infos 0))
        = some (true, some 0, none) := by decide +kernel
    obtain ⟨tr, s, hr, heq⟩ :=
      Run.exists_of_trace (S := typedSystem (Fin 1) 7) TypedManager.step_of_next rfl htrace
    simp only [Prod.mk.injEq] at heq
    obtain ⟨hmem, htarget, hgone⟩ := heq
    have hmem' := of_decide_eq_true hmem
    exact ⟨s, hr.reachable, hmem', htarget, hgone,
      fun hP => (hP _ hmem' 0 htarget).1 hgone⟩

end ShmObjManager
