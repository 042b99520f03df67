import CoinData.ObjectSections
import CoinData.Runs

/-!
# Who is online

A writer, a publisher or a service keeps its `CommunicatorItem` in the
shared memory of its process, as an object of the manager under its own
name: what is constructed under a name there is already an item for shares
that item. The item has one flag, `is_online`, which every constructor sets
and every destructor clears, whoever else is using the item.

`MutableWriter` and `MutablePublisher` exchange what they hold for a new
one of another name: a writer is constructed before the one it replaces is
dropped, a publisher after.
-/

open Maps

namespace ShmObjManager

/-- Whose constructor and destructor set the flag, with the types its
messages have. -/
inductive LocalEnd where
  | writer (data : String)
  | publisher (data : String)
  | service (req ack : String)
deriving DecidableEq, Repr

/-- The `T` of the `create<T>` in the constructor. -/
def LocalEnd.itemType : LocalEnd → String
  | .writer data => "CommunicatorItem<ShmSharedPtr<" ++ data ++ ">>"
  | .publisher data => "CommunicatorItem<SharedCircularBuffer<ShmSharedPtr<" ++ data ++ ">>>"
  | .service req ack =>
    "CommunicatorItem<SharedCircularBuffer<ShmSharedPtr<pair<RequestData__<" ++ req
      ++ ">,AckData__<" ++ ack ++ ">>>>>"

/-- What has been constructed: its name, the retention of its item, and
whether a mutable communicator keeps it. -/
structure LocalObject where
  name : String
  buffer : ℕ
  kept : Bool
deriving DecidableEq, Repr

/-- `MutableWriter`, `MutablePublisher`: what it holds, and what has been
constructed to replace it. -/
structure MutableCommunicator where
  held : Option ℕ := none
  made : Option ℕ := none
deriving DecidableEq, Repr

/-- **The communicators of a process**: its shared memory and what it keeps
of it, `is_online` of the item behind an `ObjectInfo`, the objects which are
alive, and the mutable communicators. -/
structure Communicators where
  mem : ShmSystemSharedInfo
  owner : ExtNodeMapItem
  isOnline : ℕ → Bool
  object : ℕ → Option LocalObject
  nextObject : ℕ
  mutableComm : ℕ → MutableCommunicator

/-- Constructing and destroying, by clients and by mutable communicators. -/
inductive CommunicatorStep where
  | construct (kind : LocalEnd) (name : String) (now : ℕ)
  | destruct (object : ℕ)
  /-- `MutableWriter::redirect`: `Communicator::writer` is called. -/
  | redirectWriter (m : ℕ) (data name : String) (now : ℕ)
  /-- `MutableWriter::redirect`: the result is assigned to `writer_`. -/
  | assign (m : ℕ)
  /-- `disconnect`, or `MutablePublisher::redirect`: what is held is
  reset. -/
  | reset (m : ℕ)
  /-- `MutablePublisher::redirect`: the result of
  `Communicator::publisher` is assigned to `publisher_`, which is null. -/
  | redirectPublisher (m : ℕ) (data name : String) (now : ℕ)
deriving DecidableEq, Repr

namespace Communicators

/-- A constructor. `create` returns a null pointer for an item of another
type, and it is dereferenced. -/
def construct (s : Communicators) (kind : LocalEnd) (name : String) (now : ℕ) (kept : Bool) :
    Option Communicators :=
  match create kind.itemType name now s.mem s.owner with
  | (none, _) => none
  | (some ret, mem, owner) =>
    (owner.retention ret).ptr.map fun info =>
      { s with
        mem := mem
        owner := owner
        isOnline := Function.update s.isOnline info true
        object := Function.update s.object s.nextObject (some ⟨name, ret, kept⟩)
        nextObject := s.nextObject + 1 }

/-- A destructor, of an object which is alive. -/
def destruct (s : Communicators) (object : ℕ) : Option Communicators :=
  match s.object object with
  | none => none
  | some e =>
    (s.owner.retention e.buffer).ptr.map fun info =>
      { s with
        isOnline := Function.update s.isOnline info false
        object := Function.update s.object object none }

/-- The object a step destroys. -/
def dying (s : Communicators) : CommunicatorStep → Option ℕ
  | .destruct object => some object
  | .assign m => (s.mutableComm m).held
  | .reset m => (s.mutableComm m).held
  | _ => none

/-- Change a mutable communicator. -/
def setMutable (s : Communicators) (m : ℕ) (c : MutableCommunicator) : Communicators :=
  { s with mutableComm := Function.update s.mutableComm m c }

/-- What a mutable communicator holds is dropped. -/
def drop (s : Communicators) (m : ℕ) : Option Communicators :=
  match (s.mutableComm m).held with
  | none => some s
  | some object => s.destruct object

/-- Take a step, if it is possible. What a mutable communicator keeps is
dropped by it alone, and its mutex keeps others out until a redirection is
done. -/
def next (s : Communicators) : CommunicatorStep → Option Communicators
  | .construct kind name now => s.construct kind name now false
  | .destruct object =>
    match s.object object with
    | some ⟨_, _, false⟩ => s.destruct object
    | _ => none
  | .redirectWriter m data name now =>
    match s.mutableComm m with
    | ⟨held, none⟩ => (s.construct (.writer data) name now true).map
        fun s' => s'.setMutable m ⟨held, some s.nextObject⟩
    | ⟨_, some _⟩ => none
  | .assign m =>
    match s.mutableComm m with
    | ⟨_, none⟩ => none
    | ⟨_, some made⟩ => (s.drop m).map fun s' => s'.setMutable m ⟨some made, none⟩
  | .reset m =>
    match s.mutableComm m with
    | ⟨_, none⟩ => (s.drop m).map fun s' => s'.setMutable m ⟨none, none⟩
    | ⟨_, some _⟩ => none
  | .redirectPublisher m data name now =>
    match s.mutableComm m with
    | ⟨none, none⟩ => (s.construct (.publisher data) name now true).map
        fun s' => s'.setMutable m ⟨some s.nextObject, none⟩
    | _ => none

/-- A process before its first communicator. -/
def fresh (pid : ℕ) : Communicators :=
  ⟨.empty pid, .empty, fun _ => false, fun _ => none, 0, fun _ => {}⟩

end Communicators

/-- **The system of the communicators of process `pid`.** -/
def communicatorSystem (pid : ℕ) : TransitionSystem Communicators CommunicatorStep where
  init s := s = Communicators.fresh pid
  step s l s' := s.next l = some s'

/-! ## The items -/

namespace Communicators

/-- The `ObjectInfo` of the item of a name. -/
def item (s : Communicators) (name : String) : Option ℕ :=
  s.owner.objList[name]?.bind fun ret => (s.owner.retention ret).ptr

/-- The flag of the item of a name is set. -/
def Online (s : Communicators) (name : String) : Prop := ∃ i ∈ s.item name, s.isOnline i = true

/-- Something of the name is alive. -/
def Alive (s : Communicators) (name : String) : Prop :=
  ∃ id e, s.object id = some e ∧ e.name = name

/-- **The flag says who is there.** -/
def Truthful (s : Communicators) : Prop := ∀ name, s.Online name ↔ s.Alive name

/-- **What is destroyed is the last of its name.** -/
def LastOfName (s : Communicators) (l : CommunicatorStep) : Prop :=
  ∀ id ∈ s.dying l, ∀ e ∈ s.object id, ∀ id' < s.nextObject, ∀ e' ∈ s.object id',
    e'.name = e.name → id' = id

instance (s : Communicators) (l : CommunicatorStep) : Decidable (s.LastOfName l) := by
  unfold LastOfName
  infer_instance

/-- The invariant: every name has an item of its own, and what is alive
uses the item of its name. -/
structure Inv (s : Communicators) : Prop where
  sound : s.mem.Sound
  listed : ∀ (k : String) r, s.owner.objList[k]? = some r → r < s.owner.nextRetention
    ∧ ∃ i, (s.owner.retention r).ptr = some i ∧ s.mem.shmObjMap[k]? = some i
  waiting : ∀ (k : String), s.owner.objRemovedList[k]? = none
  object : ∀ id e, s.object id = some e → s.owner.objList[e.name]? = some e.buffer
  unborn : ∀ id, s.nextObject ≤ id → s.object id = none

variable {s s' : Communicators} {name : String}

/-- The item of a name is its item in the shared memory. -/
theorem Inv.mapped_of_item (h : s.Inv) {k : String} {i : ℕ} (hk : s.item k = some i) :
    s.mem.shmObjMap[k]? = some i := by
  obtain ⟨r, hr, hptr⟩ := Option.bind_eq_some_iff.mp hk
  obtain ⟨_, i', hptr', hi'⟩ := h.listed k r hr
  rw [hptr] at hptr'
  cases hptr'
  exact hi'

/-- Names do not share items. -/
theorem Inv.item_inj (h : s.Inv) {a b : String} {i : ℕ} (ha : s.item a = some i)
    (hb : s.item b = some i) : a = b :=
  h.sound.mapOneKey a b i (h.mapped_of_item ha) (h.mapped_of_item hb)

/-- An object is the one that was made last, or an earlier one. -/
theorem object_cases {e₀ e : LocalObject} {id : ℕ}
    (he : Function.update s.object s.nextObject (some e₀) id = some e) :
    e = e₀ ∨ s.object id = some e := by
  by_cases hid : id = s.nextObject
  · rw [hid, Function.update_self] at he
    exact .inl (Option.some.inj he).symm
  · rw [Function.update_of_ne hid] at he
    exact .inr he

/-- There are no objects beyond the one that was made last. -/
theorem Inv.unborn_update (h : s.Inv) (e : Option LocalObject) {id : ℕ} (hid : s.nextObject < id) :
    Function.update s.object s.nextObject e id = none := by
  rw [Function.update_of_ne hid.ne']
  exact h.unborn id hid.le

/-- What is alive has an item, which its destructor finds. -/
theorem Inv.item_of_object (h : s.Inv) {id : ℕ} {e : LocalObject} (he : s.object id = some e) :
    ∃ i, (s.owner.retention e.buffer).ptr = some i ∧ s.item e.name = some i := by
  have hlist := h.object id e he
  obtain ⟨_, i, hptr, _⟩ := h.listed e.name e.buffer hlist
  exact ⟨i, hptr, Option.bind_eq_some_iff.mpr ⟨_, hlist, hptr⟩⟩

/-- **What a constructor does**: the item of the name is there, and its
flag is set; the items of other names are left. -/
structure Constructed (s s' : Communicators) (name : String) : Prop where
  self : ∃ i, s'.item name = some i ∧ s'.isOnline i = true
  other : ∀ k, k ≠ name → s'.item k = s.item k ∧ ∀ i ∈ s.item k, s'.isOnline i = s.isOnline i
  object : ∃ r kept, s'.object = Function.update s.object s.nextObject (some ⟨name, r, kept⟩)

theorem Constructed.truthful (hc : Constructed s s' name) (hi : s.Inv) (h : s.Truthful) :
    s'.Truthful := by
  obtain ⟨r, kept, hobj⟩ := hc.object
  intro k
  by_cases hk : k = name
  · obtain ⟨i, hitem, hon⟩ := hc.self
    refine iff_of_true ⟨i, hk ▸ hitem, hon⟩ ⟨s.nextObject, ⟨name, r, kept⟩, ?_, hk.symm⟩
    rw [hobj, Function.update_self]
  · obtain ⟨hitem, hon⟩ := hc.other k hk
    have honline : s'.Online k ↔ s.Online k := by
      unfold Online
      rw [hitem]
      exact exists_congr fun i => and_congr_right fun hi => by rw [hon i hi]
    have halive : s'.Alive k ↔ s.Alive k := by
      constructor
      · rintro ⟨id, e, he, hname⟩
        rw [hobj] at he
        by_cases hid : id = s.nextObject
        · rw [hid, Function.update_self] at he
          cases he
          exact absurd hname.symm hk
        · rw [Function.update_of_ne hid] at he
          exact ⟨id, e, he, hname⟩
      · rintro ⟨id, e, he, hname⟩
        refine ⟨id, e, ?_, hname⟩
        rw [hobj, Function.update_of_ne, he]
        rintro rfl
        rw [hi.unborn _ le_rfl] at he
        cases he
    rw [honline, halive]
    exact h k

/-- A constructor which returns. -/
theorem Inv.construct (hi : s.Inv) {kind : LocalEnd} {now : ℕ} {kept : Bool}
    (hs : s.construct kind name now kept = some s') : s'.Inv ∧ Constructed s s' name := by
  unfold Communicators.construct at hs
  cases hname : s.owner.objList[name]? with
  | some r =>
    -- the item is there
    obtain ⟨hr, i, hptr, hmap⟩ := hi.listed name r hname
    rw [create_listed hname] at hs
    split at hs
    · cases hs
    · next r' mem owner heq =>
      simp only [Prod.mk.injEq] at heq
      obtain ⟨hr', rfl, rfl⟩ := heq
      split at hr'
      · cases hr'
        rw [hptr] at hs
        cases hs
        refine ⟨⟨hi.sound, hi.listed, hi.waiting, fun id e he => ?_, fun id hid => ?_⟩, ⟨⟨i, ?_, ?_⟩,
          fun k hk => ⟨rfl, fun j hj => ?_⟩, r, kept, rfl⟩⟩
        · rcases object_cases he with rfl | he
          · exact hname
          · exact hi.object id e he
        · exact hi.unborn_update _ hid
        · exact Option.bind_eq_some_iff.mpr ⟨r, hname, hptr⟩
        · exact Function.update_self ..
        · refine Function.update_of_ne ?_ _ _
          rintro rfl
          exact hk (hi.item_inj hj (Option.bind_eq_some_iff.mpr ⟨r, hname, hptr⟩))
      · cases hr'
  | none =>
    cases hmap : s.mem.shmObjMap[name]? with
    | some info =>
      rw [create_mapped hname hmap] at hs
      cases hs
    | none =>
      -- a new item
      obtain ⟨r, node, hcreate, hc⟩ := create_new hname hmap kind.itemType now
      rw [hcreate] at hs
      dsimp only at hs
      rw [hc.ptr] at hs
      cases hs
      obtain ⟨rfl, hnext⟩ : r = s.owner.nextRetention
          ∧ node.nextRetention = s.owner.nextRetention + 1 := by
        rcases hc.source with ⟨hrem, _⟩ | ⟨_, hr, hnext, _⟩
        · rw [hi.waiting name] at hrem
          cases hrem
        · exact ⟨hr, hnext⟩
      have hlisted := hc.objList
      have hptr := hc.ptr
      have hold : ∀ r, r < s.owner.nextRetention → node.retention r = s.owner.retention r :=
        fun r hr => hc.others r hr.ne
      have hmapped : ∀ k : String, (s.mem.shmObjMap.insertIfNew name s.mem.nextInfo)[k]? =
          if k = name then some s.mem.nextInfo else s.mem.shmObjMap[k]? :=
        insertIfNew_of_none hmap _
      have hother : ∀ k, k ≠ name → (node.objList[k]?.bind fun r => (node.retention r).ptr)
          = s.item k := by
        intro k hk
        rw [hlisted k, if_neg hk]
        unfold item
        cases hr : s.owner.objList[k]? with
        | none => rfl
        | some r =>
          show (node.retention r).ptr = _
          rw [hold r (hi.listed k r hr).1]
          rfl
      refine ⟨⟨hi.sound.create kind.itemType name now, fun k r hk => ?_, fun k => ?_,
        fun id e he => ?_, fun id hid => ?_⟩, ⟨⟨s.mem.nextInfo, ?_, Function.update_self ..⟩,
        fun k hk => ⟨hother k hk, fun j hj => ?_⟩, s.owner.nextRetention, kept, rfl⟩⟩
      · change node.objList[k]? = some r at hk
        rw [hlisted k] at hk
        show r < node.nextRetention ∧ ∃ i, (node.retention r).ptr = some i
          ∧ (s.mem.shmObjMap.insertIfNew name s.mem.nextInfo)[k]? = some i
        rw [hmapped k, hnext]
        split at hk
        · next hkn =>
          cases hk
          exact ⟨Nat.lt_succ_self _, _, hptr, if_pos hkn⟩
        · next hkn =>
          obtain ⟨hr, i, hptr', hmap'⟩ := hi.listed k r hk
          refine ⟨Nat.lt_succ_of_lt hr, i, ?_, ?_⟩
          · rw [hold r hr, hptr']
          · rw [if_neg hkn, hmap']
      · show node.objRemovedList[k]? = none
        rw [hc.objRemovedList k, hi.waiting k]
        exact ite_self _
      · show node.objList[e.name]? = some e.buffer
        rcases object_cases he with rfl | he
        · rw [hlisted, if_pos rfl]
        · have hlist' := hi.object id e he
          rw [hlisted, if_neg, hlist']
          intro hne
          rw [hne, hname] at hlist'
          cases hlist'
      · exact hi.unborn_update _ hid
      · show (node.objList[name]?.bind fun r => (node.retention r).ptr) = _
        rw [hlisted, if_pos rfl]
        exact hptr
      · refine Function.update_of_ne ?_ _ _
        rintro rfl
        obtain ⟨o, ho, _⟩ := hi.sound.mapped k _ (hi.mapped_of_item hj)
        exact absurd (hi.sound.lt_nextInfo ho) (lt_irrefl _)

/-- **What a destructor does**: the flag of the item of the name is
cleared. -/
structure Destructed (s s' : Communicators) (id : ℕ) (name : String) : Prop where
  object : ∃ e, s.object id = some e ∧ e.name = name
  object' : s'.object = Function.update s.object id none
  self : ¬ s'.Online name
  other : ∀ k, k ≠ name → (s'.Online k ↔ s.Online k)

/-- A destructor which returns. -/
theorem Inv.destruct (hi : s.Inv) {id : ℕ} (hs : s.destruct id = some s') :
    s'.Inv ∧ ∃ name, Destructed s s' id name := by
  unfold Communicators.destruct at hs
  cases he : s.object id with
  | none =>
    rw [he] at hs
    cases hs
  | some e =>
    obtain ⟨i, hptr, hitem⟩ := hi.item_of_object he
    rw [he] at hs
    dsimp only at hs
    rw [hptr] at hs
    cases hs
    refine ⟨⟨hi.sound, hi.listed, hi.waiting, fun id' e' he' => ?_, fun id' hid' => ?_⟩,
      e.name, ⟨⟨e, he, rfl⟩, rfl, ?_, fun k hk => ?_⟩⟩
    · change Function.update _ _ _ id' = _ at he'
      by_cases hid : id' = id
      · rw [hid, Function.update_self] at he'
        cases he'
      · rw [Function.update_of_ne hid] at he'
        exact hi.object id' e' he'
    · show Function.update _ _ _ id' = _
      by_cases hid : id' = id
      · rw [hid, Function.update_self]
      · rw [Function.update_of_ne hid]
        exact hi.unborn id' hid'
    · rintro ⟨j, hj, hon⟩
      change s.item e.name = some j at hj
      rw [hitem] at hj
      cases hj
      change Function.update s.isOnline i false i = true at hon
      rw [Function.update_self] at hon
      cases hon
    · refine exists_congr fun j => and_congr_right fun hj => ?_
      have hne : j ≠ i := by
        rintro rfl
        exact hk (hi.item_inj hj hitem)
      show Function.update s.isOnline i false j = true ↔ _
      rw [Function.update_of_ne hne]

/-- **The flag is right after a destructor** exactly if nothing else of the
name is alive. -/
theorem Destructed.truthful_iff {id : ℕ} (hd : Destructed s s' id name) (h : s.Truthful) :
    s'.Truthful ↔ ∀ id' e, s.object id' = some e → e.name = name → id' = id := by
  have halive : ∀ k, s'.Alive k ↔ ∃ id' e, id' ≠ id ∧ s.object id' = some e ∧ e.name = k := by
    intro k
    unfold Alive
    rw [hd.object']
    constructor
    · rintro ⟨id', e, he, hk⟩
      by_cases hid : id' = id
      · rw [hid, Function.update_self] at he
        cases he
      · rw [Function.update_of_ne hid] at he
        exact ⟨id', e, hid, he, hk⟩
    · rintro ⟨id', e, hid, he, hk⟩
      exact ⟨id', e, (Function.update_of_ne hid _ _).trans he, hk⟩
  obtain ⟨e, he, hname⟩ := hd.object
  constructor
  · intro h' id' e' he' hname'
    by_contra hid
    exact hd.self ((h' name).mpr ((halive name).mpr ⟨id', e', hid, he', hname'⟩))
  · intro hlast k
    rw [halive k]
    by_cases hk : k = name
    · subst hk
      refine iff_of_false hd.self ?_
      rintro ⟨id', e', hid, he', hname'⟩
      exact hid (hlast id' e' he' hname')
    · rw [hd.other k hk, h k]
      refine exists_congr fun id' => exists_congr fun e' => ?_
      refine ⟨fun ⟨he', hk'⟩ => ⟨?_, he', hk'⟩, fun ⟨_, he', hk'⟩ => ⟨he', hk'⟩⟩
      rintro rfl
      rw [he] at he'
      cases he'
      exact hk (hk'.symm.trans hname)

/-- The condition, about an object which is alive. -/
theorem Inv.lastOfName_iff (hi : s.Inv) {l : CommunicatorStep} {id : ℕ} {e : LocalObject}
    (hl : s.dying l = some id) (he : s.object id = some e) :
    s.LastOfName l ↔ ∀ id' e', s.object id' = some e' → e'.name = e.name → id' = id := by
  constructor
  · intro h id' e' he' hname
    refine h id hl e he id' ?_ e' he' hname
    by_contra hge
    rw [hi.unborn id' (not_lt.mp hge)] at he'
    cases he'
  · intro h id₁ hid₁ e₁ he₁ id' _ e' he' hname
    rw [Option.mem_def, hl] at hid₁
    cases hid₁
    rw [Option.mem_def, he] at he₁
    cases he₁
    exact h id' e' he' hname

/-- **What a step does**, next to what it does to the mutable
communicators: a constructor, a destructor, or nothing. -/
inductive Effect (s s' : Communicators) (l : CommunicatorStep) : Prop
  | construct (kind : LocalEnd) (name : String) (now : ℕ) (kept : Bool) (s₁ : Communicators)
      (f : ℕ → MutableCommunicator) :
      s.dying l = none → s.construct kind name now kept = some s₁ →
      s' = { s₁ with mutableComm := f } → Effect s s' l
  | destruct (id : ℕ) (s₁ : Communicators) (f : ℕ → MutableCommunicator) :
      s.dying l = some id → s.destruct id = some s₁ →
      s' = { s₁ with mutableComm := f } → Effect s s' l
  | none (f : ℕ → MutableCommunicator) :
      s.dying l = none → s' = { s with mutableComm := f } → Effect s s' l

/-- What a mutable communicator holds is dropped, if it holds anything. -/
theorem effect_of_drop {l : CommunicatorStep} {m : ℕ} {c : MutableCommunicator}
    (hl : s.dying l = (s.mutableComm m).held)
    (hs : ((s.drop m).map fun s' => s'.setMutable m c) = some s') : Effect s s' l := by
  obtain ⟨s₁, hdrop, rfl⟩ := Option.map_eq_some_iff.mp hs
  unfold drop at hdrop
  split at hdrop
  · next hheld =>
    cases hdrop
    exact .none _ (hl.trans hheld) rfl
  · next object hheld => exact .destruct object s₁ _ (hl.trans hheld) hdrop rfl

theorem effect_of_next {l : CommunicatorStep} (hs : s.next l = some s') : Effect s s' l := by
  cases l with
  | construct kind name now => exact .construct kind name now false s' _ rfl hs rfl
  | destruct object =>
    dsimp only [next] at hs
    split at hs
    · exact .destruct object s' _ rfl hs rfl
    · cases hs
  | redirectWriter m data name now | redirectPublisher m data name now =>
    dsimp only [next] at hs
    split at hs
    · obtain ⟨s₁, hcon, rfl⟩ := Option.map_eq_some_iff.mp hs
      exact .construct _ name now true s₁ _ rfl hcon rfl
    · cases hs
  | assign m =>
    dsimp only [next] at hs
    split at hs
    · cases hs
    · exact effect_of_drop rfl hs
  | reset m =>
    dsimp only [next] at hs
    split at hs
    · exact effect_of_drop rfl hs
    · cases hs

/-- The invariant is not about the mutable communicators. -/
theorem Inv.withMutable (h : s.Inv) (f : ℕ → MutableCommunicator) :
    ({ s with mutableComm := f } : Communicators).Inv :=
  ⟨h.sound, h.listed, h.waiting, h.object, h.unborn⟩

/-- A step keeps the invariant, and the flags are right after it exactly if
what it destroys is the last of its name. -/
theorem Effect.spec {l : CommunicatorStep} (he : Effect s s' l) (hi : s.Inv)
    (h : s.Truthful) : s'.Inv ∧ (s'.Truthful ↔ s.LastOfName l) := by
  cases he with
  | construct kind name now kept s₁ f hl hcon heq =>
    obtain ⟨hi₁, hc⟩ := hi.construct hcon
    rw [heq]
    refine ⟨hi₁.withMutable f, iff_of_true (hc.truthful hi h) fun id hid => ?_⟩
    rw [Option.mem_def, hl] at hid
    cases hid
  | destruct id s₁ f hl hdes heq =>
    obtain ⟨hi₁, name, hd⟩ := hi.destruct hdes
    obtain ⟨e, he, rfl⟩ := hd.object
    rw [heq, hi.lastOfName_iff hl he]
    exact ⟨hi₁.withMutable f, hd.truthful_iff h⟩
  | none f hl heq =>
    rw [heq]
    refine ⟨hi.withMutable f, iff_of_true h fun id hid => ?_⟩
    rw [Option.mem_def, hl] at hid
    cases hid

theorem fresh_inv (pid : ℕ) : (fresh pid).Inv where
  sound := ⟨fun _ _ => rfl, nofun, fun k i h => absurd h (empty_ne_some k i),
    fun k i h => absurd h (empty_ne_some k i), oneKey_empty, oneKey_empty⟩
  listed k r h := absurd h (empty_ne_some k r)
  waiting _ := Std.TreeMap.getElem?_emptyc
  object := nofun
  unborn _ _ := rfl

theorem fresh_truthful (pid : ℕ) : (fresh pid).Truthful := by
  intro name
  refine iff_of_false ?_ ?_
  · rintro ⟨i, _, hon⟩
    cases hon
  · rintro ⟨id, e, he, _⟩
    cases he

end Communicators

open TransitionSystem

/-- **When the flag says who is online.** In every state a run passes, the
flag of the item of a name is set exactly if a writer, publisher or service
of the name is alive, exactly if whatever the run destroys is the last of
its name. -/
theorem is_online_iff {pid : ℕ} {tr : List (Communicators × CommunicatorStep)}
    {s : Communicators} (hr : (communicatorSystem pid).Run tr s) :
    Throughout Communicators.Truthful tr s ↔ Met Communicators.LastOfName tr := by
  refine hr.forall_iff (J := Communicators.Inv) ?_ ?_ ?_
  · rintro s rfl
    exact ⟨Communicators.fresh_truthful pid, Communicators.fresh_inv pid⟩
  · intro s l s' h hi hstep hc
    obtain ⟨hi', hiff⟩ := (Communicators.effect_of_next hstep).spec hi h
    exact ⟨hiff.mpr hc, hi'⟩
  · intro s l s' h hi hstep hc h'
    exact hc (((Communicators.effect_of_next hstep).spec hi h).2.mp h')

/-- A publisher is redirected to another name, and a writer which shared
nothing is destroyed. -/
theorem is_online_iff_redirect : ∃ tr s, (communicatorSystem 7).Run tr s
    ∧ tr.length = 5 ∧ Throughout Communicators.Truthful tr s := by
  have htrace : (trace Communicators.next [] (Communicators.fresh 7)
      [.redirectPublisher 0 "int" "a" 1, .construct (.writer "int") "b" 2, .reset 0,
        .redirectPublisher 0 "int" "c" 3, .destruct 1]).map
        (fun e => (e.1.length, decide (Met Communicators.LastOfName e.1)))
      = some (5, true) := by decide +kernel
  obtain ⟨tr, s, hr, heq⟩ :=
    Run.exists_of_trace (S := communicatorSystem 7) (fun _ _ _ h => h) rfl htrace
  obtain ⟨hlen, hmet⟩ := Prod.mk.inj heq
  exact ⟨tr, s, hr, hlen, (is_online_iff hr).mpr (of_decide_eq_true hmet)⟩

/-- **A writer is redirected to the name it has**: the writer which is made
sets the flag, and the one it replaces clears it. -/
theorem is_online_not_iff : ∃ s, (communicatorSystem 7).Reachable s
    ∧ ¬ s.Online "a" ∧ s.Alive "a" := by
  have htrace : (trace Communicators.next [] (Communicators.fresh 7)
      [.redirectWriter 0 "int" "a" 1, .assign 0, .redirectWriter 0 "int" "a" 2, .assign 0]).map
        (fun e => ((e.2.item "a").map e.2.isOnline, e.2.object 1))
      = some (some false, some ⟨"a", 0, true⟩) := by decide +kernel
  obtain ⟨tr, s, hr, heq⟩ :=
    Run.exists_of_trace (S := communicatorSystem 7) (fun _ _ _ h => h) rfl htrace
  obtain ⟨hitem, hobj⟩ := Prod.mk.inj heq
  refine ⟨s, hr.reachable, ?_, 1, _, hobj, rfl⟩
  rintro ⟨i, hi, hon⟩
  rw [Option.mem_def.mp hi] at hitem
  rw [Option.map_some, hon] at hitem
  cases hitem

end ShmObjManager
