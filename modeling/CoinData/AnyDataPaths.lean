import CoinData.PathTrees
import Mathlib.Tactic.Common

/-!
# Parameters at dotted paths

`get`, `set` and `operator[]` of a node take a path: names separated by dots,
of which each but the last is to name a table. They go down the tree from
table to table.

If there is no table of a name, `get` and `set` make one: but they put it into
the table where they have begun, and under the whole path. None of the three
notices: the `operator[]` of the map, with which the table is looked up,
enters a null pointer under the name, and the virtual call which is to say
whether this is a table follows it. So a path that leads through a table which
is not there ends the program; if it is there, they do what they should
(`ParamNode.setsAndGets_iff`, `ParamNode.clean_iff`).

A value has one of the types `τ`, which is the `T` of `AnyDataItem<T>`. What
is written to the standard output is left out.
-/

/-- What a leaf holds: its key, its type, and its value. -/
structure ParamItem {τ : Type} (Value : τ → Type) where
  key : String
  type : τ
  value : Value type

/-- **A node**: `AnyDataItem<T>` or `AnyDataTable`, where a table has its own
key and pointers to the nodes below it, which may be null. -/
abbrev ParamNode {τ : Type} (Value : τ → Type) := PathTree String String (ParamItem Value)

/-- `NodeMap`. -/
abbrev NodeMap {τ : Type} (Value : τ → Type) := PathTree.Entries String String (ParamItem Value)

/-- How a call ends if it does not return. -/
inductive PathFault where
  /-- `std::runtime_error`. -/
  | runtimeError
  /-- `std::bad_any_cast`. -/
  | badAnyCast
  /-- A null pointer is followed. -/
  | nullDeref
  /-- A null pointer is followed that was entered for a name that is not
  there. -/
  | noEntry
deriving DecidableEq, Repr

/-- It is an exception. -/
def PathFault.Throws : PathFault → Prop
  | .runtimeError | .badAnyCast => True
  | .nullDeref | .noEntry => False

/-- The names in a path: what `find` and `substr` take from it, one after the
other, is what is between the dots. -/
def components (key : String) : List String := (key.toList.splitOn '.').map String.ofList

/-- The names of tables. -/
def tableNames (key : String) : List String := (components key).dropLast

/-- The last name. -/
def lastName (key : String) : String := (components key).getLastD ""

example : tableNames "net.eth0.mtu" = ["net", "eth0"] ∧ lastName "net.eth0.mtu" = "mtu" := by
  decide +kernel

/-- **A path is its tables and a last name.** -/
theorem tableNames_append (key : String) : tableNames key ++ [lastName key] = components key := by
  have hne : components key ≠ [] := fun h =>
    List.splitOn_ne_nil '.' key.toList (List.map_eq_nil_iff.mp h)
  unfold tableNames lastName
  rw [List.getLastD_eq_getLast?, List.getLast?_eq_some_getLast hne]
  exact List.dropLast_append_getLast hne

namespace ParamNode

variable {τ : Type} {Value : τ → Type} {β : Type}

/-- **Down the tree**: the loop over the names of tables, and then what is done
with the table it has come to. -/
def walk (f : NodeMap Value → Except PathFault β × NodeMap Value) :
    List String → NodeMap Value → Except PathFault β × NodeMap Value
  | [], nodes => f nodes
  | k :: ks, nodes =>
    match nodes k with
    | none => (.error .noEntry, Function.update nodes k (some none))
    | some none => (.error .nullDeref, nodes)
    | some (some (.leaf _)) => (.error .runtimeError, nodes)
    | some (some (.table label below)) =>
      let (r, below) := walk f ks below
      (r, Function.update nodes k (some (some (.table label below))))

/-- What `get` and `set` have done when a name is not there: there is a table
under the whole path. -/
def insertTable (key : String) :
    Except PathFault β × NodeMap Value → Except PathFault β × NodeMap Value
  | (.error .noEntry, nodes) =>
    (.error .noEntry, Function.update nodes key (some (some (.table key fun _ => none))))
  | r => r

/-- `as<T>()`. -/
def as [DecidableEq τ] (type : τ) : ParamNode Value → Except PathFault (Value type)
  | .leaf item =>
    if h : item.type = type then .ok (h ▸ item.value) else .error .badAnyCast
  | .table _ _ => .error .badAnyCast

/-- **`get<T>(key, value)`**. -/
def get [DecidableEq τ] (node : ParamNode Value) (key : String) (type : τ) (value : Value type) :
    Except PathFault (Value type) × ParamNode Value :=
  match node with
  | .leaf _ => (.error .runtimeError, node)
  | .table label nodes =>
    let k := lastName key
    let (r, nodes) := insertTable key <| walk (fun nodes =>
      match nodes k with
      | none => (.ok value, Function.update nodes k (some (some (.leaf ⟨k, type, value⟩))))
      | some none => (.error .nullDeref, nodes)
      | some (some n) => (as type n, nodes)) (tableNames key) nodes
    (r, .table label nodes)

/-- **`set<T>(key, value)`**. -/
def set (node : ParamNode Value) (key : String) (type : τ) (value : Value type) :
    Except PathFault Unit × ParamNode Value :=
  match node with
  | .leaf _ => (.error .runtimeError, node)
  | .table label nodes =>
    let k := lastName key
    let (r, nodes) := insertTable key <| walk (fun nodes =>
      (.ok (), Function.update nodes k (some (some (.leaf ⟨k, type, value⟩)))))
      (tableNames key) nodes
    (r, .table label nodes)

/-- What `operator[]` does at the end of the path. -/
def lookup (k : String) (nodes : NodeMap Value) :
    Except PathFault (ParamNode Value) × NodeMap Value :=
  match nodes k with
  | none => (.error .runtimeError, nodes)
  | some none => (.error .nullDeref, nodes)
  | some (some n) => (.ok n, nodes)

/-- **`operator[](key)`**. -/
def index (node : ParamNode Value) (key : String) :
    Except PathFault (ParamNode Value) × ParamNode Value :=
  match node with
  | .leaf _ => (.error .runtimeError, node)
  | .table label nodes =>
    let (r, nodes) := walk (lookup (lastName key)) (tableNames key) nodes
    (r, .table label nodes)

/-- `key()`. -/
def key : ParamNode Value → String
  | .leaf item => item.key
  | .table label _ => label

/-- **`add(value)`**. -/
def add (node value : ParamNode Value) : Except PathFault Unit × ParamNode Value :=
  match node with
  | .leaf _ => (.error .runtimeError, node)
  | .table label nodes =>
    match nodes (key value) with
    | some _ => (.error .runtimeError, node)
    | none =>
      (.ok (), .table label (Function.update nodes (key value) (some (some value))))

/-- `add<T>(key, value)`. -/
def addItem (node : ParamNode Value) (key : String) (type : τ) (value : Value type) :
    Except PathFault Unit × ParamNode Value :=
  add node (.leaf ⟨key, type, value⟩)

/-- The entries of `AnyDataTable(key, values)`, of which the last one of a key
counts. -/
def entriesOf (values : List (ParamNode Value)) : NodeMap Value :=
  values.foldl (fun nodes item => Function.update nodes (key item) (some (some item)))
    fun _ => none

/-- **`add(key, values)`**. -/
def addTable (node : ParamNode Value) (key : String) (values : List (ParamNode Value)) :
    Except PathFault Unit × ParamNode Value :=
  match node with
  | .leaf _ => (.error .runtimeError, node)
  | .table label nodes =>
    match nodes key with
    | some _ => (.error .runtimeError, node)
    | none =>
      (.ok (), .table label
        (Function.update nodes key (some (some (.table key (entriesOf values))))))

/-! ## Down the tree -/

section Walk

variable {f : NodeMap Value → Except PathFault β × NodeMap Value} {nodes below : NodeMap Value}
  {k : String} {ks : List String} {label : String}

theorem walk_cons_of_table (h : nodes k = some (some (.table label below))) :
    walk f (k :: ks) nodes = ((walk f ks below).1,
      Function.update nodes k (some (some (.table label (walk f ks below).2)))) := by
  simp only [walk, h]

/-- **If all tables are there**, what is done is done with the last one. -/
theorem walk_of_entriesAt (h : PathTree.entriesAt nodes ks = some below) :
    walk f ks nodes = ((f below).1, PathTree.putAt nodes ks (f below).2) := by
  induction ks generalizing nodes with
  | nil =>
    cases h
    rfl
  | cons k ks ih =>
    obtain ⟨label, nodes', hk, hbelow⟩ := PathTree.entriesAt_cons_eq_some.mp h
    rw [walk_cons_of_table hk, ih hbelow, PathTree.putAt_cons_of_table hk]

/-- If one is not, nothing is done. -/
theorem walk_of_none (h : PathTree.entriesAt nodes ks = none) :
    ∃ e, (walk f ks nodes).1 = .error e := by
  induction ks generalizing nodes with
  | nil => cases h
  | cons k ks ih =>
    cases hk : nodes k with
    | none => exact ⟨.noEntry, by simp only [walk, hk]⟩
    | some t =>
      cases t with
      | none => exact ⟨.nullDeref, by simp only [walk, hk]⟩
      | some t =>
        cases t with
        | leaf item => exact ⟨.runtimeError, by simp only [walk, hk]⟩
        | table label below =>
          rw [PathTree.entriesAt_cons_of_table hk] at h
          obtain ⟨e, he⟩ := ih h
          rw [walk_cons_of_table hk]
          exact ⟨e, he⟩

/-- **Who throws changes nothing**, if this is so for what is done at the
end. -/
theorem walk_throws (hf : ∀ nodes e, (f nodes).1 = .error e → e.Throws → (f nodes).2 = nodes)
    {e : PathFault} (he : (walk f ks nodes).1 = .error e) (hthrows : e.Throws) :
    (walk f ks nodes).2 = nodes := by
  induction ks generalizing nodes with
  | nil => exact hf nodes e he hthrows
  | cons k ks ih =>
    cases hk : nodes k with
    | none =>
      simp only [walk, hk] at he
      cases he
      exact absurd hthrows id
    | some t =>
      cases t with
      | none => simp only [walk, hk]
      | some t =>
        cases t with
        | leaf item => simp only [walk, hk]
        | table label below =>
          rw [walk_cons_of_table hk] at he ⊢
          dsimp only at he ⊢
          rw [ih he, ← hk]
          exact Function.update_eq_self k nodes

/-- The table under the whole path is there only if the program ends. -/
theorem insertTable_of_ne {r : Except PathFault β} (key : String) (hr : r ≠ .error .noEntry) :
    insertTable key (r, nodes) = (r, nodes) := by
  unfold insertTable
  split
  · next heq =>
    cases heq
    exact absurd rfl hr
  · rfl

theorem insertTable_fst (key : String) (r : Except PathFault β × NodeMap Value) :
    (insertTable key r).1 = r.1 := by
  unfold insertTable
  split <;> rfl

theorem insertTable_of_throws (key : String) {r : Except PathFault β × NodeMap Value}
    {e : PathFault} (he : r.1 = .error e) (hthrows : e.Throws) : insertTable key r = r := by
  obtain ⟨r, nodes⟩ := r
  refine insertTable_of_ne key ?_
  rintro rfl
  cases he
  exact hthrows

end Walk

/-! ## What is set, and what is got -/

section SetGet

variable {node : ParamNode Value} {nodes below : NodeMap Value} {key label : String} {type : τ}
  {value : Value type}

/-- **There is nothing at a path**: no entry for the last name, if the table in
which it is to be is there. -/
def Absent (node : ParamNode Value) (key : String) : Prop :=
  ∀ label below, node.resolve (tableNames key) = some (.table label below) →
    below (lastName key) = none

/-- **`set` and `get` work at a path**: `set` returns, there are tables along the
path then, `get` gives the value, whatever the default, and what is found at
other paths is what was found before; and `get` of what is not there enters
its default. -/
structure SetsAndGets [DecidableEq τ] (node : ParamNode Value) (key : String) (type : τ)
    (value : Value type) : Prop where
  set : ∃ node' : ParamNode Value, set node key type value = (.ok (), node')
    ∧ (∀ d, get node' key type d = (.ok value, node'))
    ∧ (∀ ks, ks <+: tableNames key →
      ∃ label below, node'.resolve ks = some (.table label below))
    ∧ ∀ js, PathTree.Parts js (components key) → node'.resolve js = node.resolve js
  get : Absent node key → ∀ d, ∃ node' : ParamNode Value, get node key type d = (.ok d, node')
    ∧ node'.resolve (components key) = some (.leaf ⟨lastName key, type, d⟩)

theorem set_of_entriesAt (h : PathTree.entriesAt nodes (tableNames key) = some below) :
    set (.table label nodes : ParamNode Value) key type value
      = (.ok (), .table label (PathTree.putAt nodes (tableNames key)
        (Function.update below (lastName key)
          (some (some (.leaf ⟨lastName key, type, value⟩)))))) := by
  unfold ParamNode.set
  dsimp only
  rw [walk_of_entriesAt h]
  rfl

/-- If the table is not there, `set` does not return. -/
theorem set_of_none (h : PathTree.entriesAt nodes (tableNames key) = none) :
    ∃ e, (set (.table label nodes : ParamNode Value) key type value).1 = .error e := by
  unfold ParamNode.set
  dsimp only
  rw [insertTable_fst]
  exact walk_of_none h

variable [DecidableEq τ]

/-- **`get` of what is not there.** -/
theorem get_of_absent (h : PathTree.entriesAt nodes (tableNames key) = some below)
    (hnone : below (lastName key) = none) :
    get (.table label nodes : ParamNode Value) key type value
      = (.ok value, .table label (PathTree.putAt nodes (tableNames key)
        (Function.update below (lastName key)
          (some (some (.leaf ⟨lastName key, type, value⟩)))))) := by
  unfold ParamNode.get
  dsimp only
  rw [walk_of_entriesAt h]
  simp only [hnone]
  rfl

/-- **`get` of a value of its type.** -/
theorem get_of_leaf (h : PathTree.entriesAt nodes (tableNames key) = some below) {d : Value type}
    {k : String} (hleaf : below (lastName key) = some (some (.leaf ⟨k, type, value⟩))) :
    get (.table label nodes : ParamNode Value) key type d = (.ok value, .table label nodes) := by
  unfold ParamNode.get
  dsimp only
  rw [walk_of_entriesAt h]
  simp only [hleaf, as, dite_true, PathTree.putAt_self h]
  rfl

/-- **`set` and `get` work at a path** that no leaf stands in, exactly if all its
tables are there. -/
theorem setsAndGets_iff
    (hleaf : ∀ ks item, ks <+: tableNames key → node.resolve ks ≠ some (.leaf item)) :
    SetsAndGets node key type value
      ↔ ∃ label below, node.resolve (tableNames key) = some (.table label below) := by
  cases node with
  | leaf item => exact absurd (PathTree.resolve_nil _) (hleaf [] item List.nil_prefix)
  | table label nodes =>
    constructor
    · intro h
      obtain ⟨node', hset, _⟩ := h.set
      cases hentries : PathTree.entriesAt nodes (tableNames key) with
      | none =>
        have herror : ∃ e, (set (.table label nodes : ParamNode Value) key type value).1
            = .error e := set_of_none hentries
        obtain ⟨e, he⟩ := herror
        rw [hset] at he
        cases he
      | some below =>
        obtain ⟨label', h⟩ := PathTree.entriesAt_eq_some.mp hentries
        exact ⟨label', below, h⟩
    · rintro ⟨label', below, h⟩
      have hentries : PathTree.entriesAt nodes (tableNames key) = some below :=
        PathTree.entriesAt_eq_some.mpr ⟨label', h⟩
      have hput : PathTree.entriesAt (PathTree.putAt nodes (tableNames key)
          (Function.update below (lastName key) (some (some (.leaf ⟨lastName key, type, value⟩)))))
          (tableNames key) = some (Function.update below (lastName key)
            (some (some (.leaf ⟨lastName key, type, value⟩)))) :=
        PathTree.entriesAt_putAt hentries
      refine ⟨⟨_, set_of_entriesAt hentries, fun d => ?_, fun ks hks => ?_, fun js hjs => ?_⟩,
        fun habsent d => ?_⟩
      · exact get_of_leaf hput (Function.update_self _ _ _)
      · obtain ⟨below', hbelow'⟩ := PathTree.entriesAt_of_prefix hput hks
        obtain ⟨label'', h''⟩ := PathTree.entriesAt_eq_some.mp hbelow'
        exact ⟨label'', below', h''⟩
      · rw [← tableNames_append] at hjs
        exact PathTree.resolve_putAt_of_parts hentries hjs
      · refine ⟨_, get_of_absent hentries (habsent label' below h), ?_⟩
        rw [← tableNames_append, PathTree.resolve_concat, PathTree.entriesAt_putAt hentries]
        simp

/-- A tree without a node. -/
def empty : ParamNode Value := .table "" fun _ => none

/-- A table is made, and then something is set in it. -/
theorem setsAndGets_iff_table : SetsAndGets
    (.table "" (Function.update (fun _ => none) "net" (some (some (.table "net" fun _ => none)))) :
      ParamNode fun _ : Unit => ℕ) "net.mtu" () 1500 := by
  have hnames : tableNames "net.mtu" = ["net"] := by decide +kernel
  have hnet : PathTree.resolve (.table "" (Function.update (fun _ => none) "net"
      (some (some (.table "net" fun _ => none)))) : ParamNode fun _ : Unit => ℕ) ["net"]
      = some (.table "net" fun _ => none) :=
    PathTree.resolve_cons_of_some (Function.update_self _ _ _)
  refine (setsAndGets_iff fun ks item hks h => ?_).mpr ⟨"net", _, hnames ▸ hnet⟩
  rw [hnames] at hks
  rcases List.prefix_cons_iff.mp hks with rfl | ⟨ks', rfl, hks'⟩
  · cases h
  · rw [List.prefix_nil.mp hks', hnet] at h
    cases h

/-- **A table that is not there**: nothing is set, and a table is entered under
the whole path. -/
theorem not_setsAndGets_empty : (set (empty : ParamNode fun _ : Unit => ℕ) "net.mtu" () 1500).1
      = .error .noEntry
    ∧ (∃ t, (set (empty : ParamNode fun _ : Unit => ℕ) "net.mtu" () 1500).2.resolve ["net.mtu"]
      = some t)
    ∧ (∀ ks item, ks <+: tableNames "net.mtu" →
      (empty : ParamNode fun _ : Unit => ℕ).resolve ks ≠ some (.leaf item))
    ∧ ¬ SetsAndGets (empty : ParamNode fun _ : Unit => ℕ) "net.mtu" () 1500 := by
  have hnames : tableNames "net.mtu" = ["net"] := by decide +kernel
  have hset : set (empty : ParamNode fun _ : Unit => ℕ) "net.mtu" () 1500 = (.error .noEntry,
      .table "" (Function.update (Function.update (fun _ => none) "net" (some none)) "net.mtu"
        (some (some (.table "net.mtu" fun _ => none))))) := by
    unfold ParamNode.set empty
    simp only [hnames, walk, insertTable]
  refine ⟨by rw [hset], ?_, fun ks item hks h => ?_, fun h => ?_⟩
  · rw [hset]
    exact ⟨_, PathTree.resolve_cons_of_some (Function.update_self _ _ _)⟩
  · rw [hnames] at hks
    rcases List.prefix_cons_iff.mp hks with rfl | ⟨ks, rfl, _⟩
    · cases h
    · cases h
  · obtain ⟨node', hset', _⟩ := h.set
    rw [hset] at hset'
    cases hset'

end SetGet

/-! ## What is looked up -/

/-- **There is no gap in a path**: the names that the tables of the path lead
to are there, as far as no leaf stands in the way, and no pointer is null. -/
structure Gapless (node : ParamNode Value) (key : String) : Prop where
  table : ∀ ks k label below, ks ++ [k] <+: tableNames key →
    node.resolve ks = some (.table label below) → ∃ t, below k = some (some t)
  last : ∀ label below, node.resolve (tableNames key) = some (.table label below) →
    below (lastName key) ≠ some none

/-- What `operator[]` is to do: to return what is there, or to throw. -/
def lookedUp : Option (ParamNode Value) → Except PathFault (ParamNode Value)
  | some n => .ok n
  | none => .error .runtimeError

/-- **The path is looked up, and who throws changes nothing.** -/
structure Clean [DecidableEq τ] (node : ParamNode Value) (key : String) : Prop where
  index : index node key = (lookedUp (node.resolve (components key)), node)
  get : ∀ type (value : Value type) e, (get node key type value).1 = .error e → e.Throws →
    (get node key type value).2 = node
  set : ∀ type (value : Value type) e, (set node key type value).1 = .error e → e.Throws →
    (set node key type value).2 = node
  add : ∀ value e, (add node value).1 = .error e → e.Throws → (add node value).2 = node
  addItem : ∀ k type (value : Value type) e, (addItem node k type value).1 = .error e →
    e.Throws → (addItem node k type value).2 = node
  addTable : ∀ k values e, (addTable node k values).1 = .error e → e.Throws →
    (addTable node k values).2 = node

section Index

variable {node : ParamNode Value} {nodes below : NodeMap Value} {key label k : String}
  {ks : List String}

/-- There is no gap from a table on. -/
def GaplessFrom (nodes : NodeMap Value) (ks : List String) (k : String) : Prop :=
  (∀ js j below, js ++ [j] <+: ks → PathTree.entriesAt nodes js = some below →
      ∃ t, below j = some (some t))
    ∧ ∀ below, PathTree.entriesAt nodes ks = some below → below k ≠ some none

theorem gaplessFrom_cons_of_table {i : String} (h : nodes i = some (some (.table label below))) :
    GaplessFrom nodes (i :: ks) k ↔ GaplessFrom below ks k := by
  refine and_congr ⟨fun hgap js j b hjs hb => ?_, fun hgap js j b hjs hb => ?_⟩ ?_
  · refine hgap (i :: js) j b ((List.prefix_cons_inj i).mpr hjs) ?_
    rwa [PathTree.entriesAt_cons_of_table h]
  · cases js with
    | nil =>
      obtain rfl : j = i := (List.cons_prefix_cons.mp hjs).1
      cases hb
      exact ⟨_, h⟩
    | cons i' js =>
      obtain ⟨rfl, hjs'⟩ := List.cons_prefix_cons.mp hjs
      rw [PathTree.entriesAt_cons_of_table h] at hb
      exact hgap js j b hjs' hb
  · rw [PathTree.entriesAt_cons_of_table h]

/-- A leaf in the way is no gap. -/
theorem gaplessFrom_cons_of_leaf {i : String} {item : ParamItem Value}
    (h : nodes i = some (some (.leaf item))) : GaplessFrom nodes (i :: ks) k := by
  have hnone : ∀ js, PathTree.entriesAt nodes (i :: js) = none := fun js => by
    simp only [PathTree.entriesAt, h]
  refine ⟨fun js j below hjs hb => ?_, fun below hb => ?_⟩
  · cases js with
    | nil =>
      obtain rfl : j = i := (List.cons_prefix_cons.mp hjs).1
      cases hb
      exact ⟨_, h⟩
    | cons i' js =>
      obtain ⟨rfl, _⟩ := List.cons_prefix_cons.mp hjs
      rw [hnone] at hb
      cases hb
  · rw [hnone] at hb
    cases hb

/-- A name that is not there is one. -/
theorem not_gaplessFrom_cons {i : String} (h : ∀ t, nodes i ≠ some (some t)) :
    ¬ GaplessFrom nodes (i :: ks) k := by
  intro hgap
  obtain ⟨t, ht⟩ := hgap.1 [] i nodes (List.prefix_append [i] ks) rfl
  exact h t ht

/-- **What is there is looked up** exactly if there is no gap. -/
theorem walk_lookup_iff : walk (lookup k) ks nodes
    = (lookedUp (PathTree.resolve (.table label nodes : ParamNode Value) (ks ++ [k])), nodes)
      ↔ GaplessFrom nodes ks k := by
  induction ks generalizing nodes label with
  | nil =>
    have hgap : GaplessFrom nodes [] k ↔ nodes k ≠ some none := by
      refine ⟨fun hgap => hgap.2 nodes rfl, fun hne => ⟨fun js j _ hjs _ => ?_, ?_⟩⟩
      · exact absurd (List.prefix_nil.mp hjs) (by simp)
      · rintro _ ⟨⟩
        exact hne
    rw [hgap, PathTree.resolve_concat]
    show lookup k nodes = (lookedUp (nodes k).join, nodes) ↔ _
    unfold lookup
    cases nodes k with
    | none => exact iff_of_true rfl (Option.some_ne_none _).symm
    | some t =>
      cases t with
      | none => exact iff_of_false (fun h => by cases h) fun h => h rfl
      | some n => exact iff_of_true rfl fun h => by cases h
  | cons i ks ih =>
    cases hi : nodes i with
    | none =>
      refine iff_of_false (fun h => ?_)
        (not_gaplessFrom_cons fun t ht => by rw [hi] at ht; cases ht)
      simp [walk, hi, PathTree.resolve, lookedUp] at h
    | some t =>
      cases t with
      | none =>
        refine iff_of_false (fun h => ?_)
          (not_gaplessFrom_cons fun t ht => by rw [hi] at ht; cases ht)
        simp [walk, hi, PathTree.resolve, lookedUp] at h
      | some t =>
        rw [List.cons_append, PathTree.resolve_cons_of_some hi]
        cases t with
        | leaf item =>
          refine iff_of_true ?_ (gaplessFrom_cons_of_leaf hi)
          cases ks <;> simp [walk, hi, PathTree.resolve, lookedUp]
        | table label' below =>
          have hbelow : _ ↔ GaplessFrom below ks k := @ih below label'
          rw [gaplessFrom_cons_of_table hi, ← hbelow, walk_cons_of_table hi,
            Prod.ext_iff, Prod.ext_iff]
          refine and_congr Iff.rfl ⟨fun h => ?_, fun h => ?_⟩
          · have hi' := congrFun h i
            dsimp only at hi'
            rw [Function.update_self, hi] at hi'
            simpa using hi'
          · dsimp only at h ⊢
            rw [h, ← hi]
            exact Function.update_eq_self i nodes

theorem gapless_iff : Gapless (.table label nodes : ParamNode Value) key
    ↔ GaplessFrom nodes (tableNames key) (lastName key) := by
  constructor
  · rintro ⟨htable, hlast⟩
    refine ⟨fun js j below hjs hb => ?_, fun below hb => ?_⟩
    · obtain ⟨label', h⟩ := PathTree.entriesAt_eq_some.mp hb
      exact htable js j label' below hjs h
    · obtain ⟨label', h⟩ := PathTree.entriesAt_eq_some.mp hb
      exact hlast label' below h
  · rintro ⟨htable, hlast⟩
    refine ⟨fun ks k label' below hks h => ?_, fun label' below h => ?_⟩
    · exact htable ks k below hks (PathTree.entriesAt_eq_some.mpr ⟨label', h⟩)
    · exact hlast below (PathTree.entriesAt_eq_some.mpr ⟨label', h⟩)

/-- **`operator[]` returns what is there, and throws otherwise,** exactly if
there is no gap. -/
theorem index_iff : index node key = (lookedUp (node.resolve (components key)), node)
    ↔ Gapless node key := by
  cases node with
  | leaf item =>
    refine iff_of_true ?_ ⟨fun ks k label below _ h => ?_, fun label below h => ?_⟩
    · have hnone : PathTree.resolve (.leaf item : ParamNode Value) (components key) = none := by
        rw [← tableNames_append]
        cases tableNames key <;> rfl
      rw [hnone]
      rfl
    · cases ks <;> cases h
    · cases hks : tableNames key <;> rw [hks] at h <;> cases h
  | table label nodes =>
    have hwalk : walk (lookup (lastName key)) (tableNames key) nodes
        = (lookedUp (PathTree.resolve (.table label nodes : ParamNode Value)
          (tableNames key ++ [lastName key])), nodes)
        ↔ GaplessFrom nodes (tableNames key) (lastName key) := walk_lookup_iff
    rw [gapless_iff, ← hwalk, tableNames_append]
    show ((walk (lookup (lastName key)) (tableNames key) nodes).1,
      PathTree.table label (walk (lookup (lastName key)) (tableNames key) nodes).2) = _ ↔ _
    rw [Prod.ext_iff, Prod.ext_iff]
    refine and_congr Iff.rfl ?_
    simp

end Index

/-! ## Who throws changes nothing -/

section Throws

variable {node : ParamNode Value} {key : String} {type : τ} {value : Value type} {e : PathFault}

theorem set_throws (he : (set node key type value).1 = .error e) (hthrows : e.Throws) :
    (set node key type value).2 = node := by
  cases node with
  | leaf item => rfl
  | table label nodes =>
    unfold ParamNode.set at he ⊢
    dsimp only at he ⊢
    rw [insertTable_fst] at he
    rw [insertTable_of_throws key he hthrows, walk_throws (fun _ _ h => by cases h) he hthrows]

theorem get_throws [DecidableEq τ] (he : (get node key type value).1 = .error e)
    (hthrows : e.Throws) : (get node key type value).2 = node := by
  cases node with
  | leaf item => rfl
  | table label nodes =>
    unfold ParamNode.get at he ⊢
    dsimp only at he ⊢
    rw [insertTable_fst] at he
    rw [insertTable_of_throws key he hthrows, walk_throws (fun nodes e he _ => ?_) he hthrows]
    split at he
    · cases he
    · rfl
    · rfl

theorem add_throws {value : ParamNode Value} (he : (add node value).1 = .error e) :
    (add node value).2 = node := by
  cases node with
  | leaf item => rfl
  | table label nodes =>
    unfold ParamNode.add at he ⊢
    dsimp only at he ⊢
    split
    · rfl
    · next hk =>
      rw [hk] at he
      cases he

theorem addTable_throws {values : List (ParamNode Value)}
    (he : (addTable node key values).1 = .error e) : (addTable node key values).2 = node := by
  cases node with
  | leaf item => rfl
  | table label nodes =>
    unfold ParamNode.addTable at he ⊢
    dsimp only at he ⊢
    split
    · rfl
    · next hk =>
      rw [hk] at he
      cases he

/-- **The path is looked up, and who throws changes nothing,** exactly if there
is no gap in the path. -/
theorem clean_iff [DecidableEq τ] : Clean node key ↔ Gapless node key := by
  refine ⟨fun h => index_iff.mp h.index, fun h => ⟨index_iff.mpr h, ?_, ?_, ?_, ?_, ?_⟩⟩
  · exact fun type value e => get_throws
  · exact fun type value e => set_throws
  · exact fun value e he _ => add_throws he
  · exact fun k type value e he _ => add_throws he
  · exact fun k values e he _ => addTable_throws he

/-- **A table that is not there** is looked up: neither is anything returned nor
an exception thrown, and a null pointer is entered. -/
theorem not_clean_empty : (index (empty : ParamNode fun _ : Unit => ℕ) "net.mtu").1
      = .error .noEntry
    ∧ (∃ label nodes, (index (empty : ParamNode fun _ : Unit => ℕ) "net.mtu").2
      = .table label nodes ∧ nodes "net" = some none)
    ∧ ¬ Clean (empty : ParamNode fun _ : Unit => ℕ) "net.mtu" := by
  have hnames : tableNames "net.mtu" = ["net"] := by decide +kernel
  have hindex : index (empty : ParamNode fun _ : Unit => ℕ) "net.mtu" = (.error .noEntry,
      .table "" (Function.update (fun _ => none) "net" (some none))) := by
    unfold ParamNode.index empty
    simp only [hnames, walk]
  refine ⟨by rw [hindex], ⟨"", _, by rw [hindex], Function.update_self _ _ _⟩, fun h => ?_⟩
  have hclean := congrArg Prod.fst h.index
  rw [hindex] at hclean
  unfold lookedUp at hclean
  split at hclean <;> cases hclean

end Throws

end ParamNode
