import Mathlib.Data.List.Basic
import Mathlib.Tactic.Common

/-!
# Parameters in TOML

A tree of parameters has items, each a leaf with a key and a value, and
tables, each a key and the nodes below it. `encode` writes a node into a
TOML table under the node's own key: an item as a value or an array, a
table as a new table in which the nodes below it are encoded in turn.
`decode` looks every node up under its key, and overwrites the values of
the leaves it finds.

The TOML library is not part of the code. What is used of it are the
fields of `Toml`, and what is relied on is `Toml.Lawful`: a table is a
finite map, an array keeps what is pushed in order, and `value_or` returns
a stored value of the type that is asked for.

Both sides address a node by its key alone, so that what is decoded from a
table depends on one entry of it (`decode_congr`), and what is encoded
into a table changes one entry (`encode_get_of_ne`). This is why the nodes
below a table, encoded one after the other, do not disturb each other.
-/

/-- The types of a single value. -/
inductive ScalarType where
  | int64
  | double
  | bool
  | string
deriving DecidableEq, Repr

/-- The values of a type; a `double` is given by its bits. -/
@[reducible] def ScalarType.Value : ScalarType → Type
  | .int64 => Int64
  | .double => BitVec 64
  | .bool => Bool
  | .string => String

/-- `T()`. -/
def ScalarType.default : (t : ScalarType) → t.Value
  | .int64 => (0 : Int64)
  | .double => 0#64
  | .bool => false
  | .string => ""

/-- The types of a leaf. There is no vector of `bool`. -/
inductive LeafType where
  | scalar (t : ScalarType)
  | vector (t : ScalarType) (ht : t ≠ .bool)
deriving DecidableEq

/-- The values of a leaf. -/
@[reducible] def LeafType.Value : LeafType → Type
  | .scalar t => t.Value
  | .vector t _ => List t.Value

/-! ## The TOML library -/

/-- **What is used of the library**: nodes, which may be single values,
arrays or tables; `get` is what `contains`, `at` and `operator[]` are
about. -/
structure Toml where
  Node : Type
  Table : Type
  Array : Type
  ofScalar : (t : ScalarType) → t.Value → Node
  /-- `node.value_or<T>(default)`. -/
  valueOr : (t : ScalarType) → Node → t.Value → t.Value
  ofTable : Table → Node
  asTable : Node → Option Table
  ofArray : Array → Node
  asArray : Node → Option Array
  emptyTable : Table
  get : Table → String → Option Node
  insertOrAssign : Table → String → Node → Table
  emptyArray : Array
  pushBack : Array → Node → Array
  /-- The elements, by their index. -/
  elements : Array → List Node

/-- **What is relied on.** -/
structure Toml.Lawful (T : Toml) : Prop where
  valueOr_ofScalar : ∀ t v d, T.valueOr t (T.ofScalar t v) d = v
  asTable_ofTable : ∀ table, T.asTable (T.ofTable table) = some table
  asArray_ofArray : ∀ array, T.asArray (T.ofArray array) = some array
  get_insertOrAssign_self : ∀ table key node,
    T.get (T.insertOrAssign table key node) key = some node
  get_insertOrAssign_of_ne : ∀ table key node key', key' ≠ key →
    T.get (T.insertOrAssign table key node) key' = T.get table key'
  elements_emptyArray : T.elements T.emptyArray = []
  elements_pushBack : ∀ array node,
    T.elements (T.pushBack array node) = T.elements array ++ [node]

/-! ## The adapters of the leaves -/

namespace LeafType

variable (T : Toml)

/-- What the adapter of the type makes of a value. -/
def toNode : (t : LeafType) → t.Value → T.Node
  | .scalar t, value => T.ofScalar t value
  | .vector t _, value =>
    T.ofArray (value.foldl (fun array v => T.pushBack array (T.ofScalar t v)) T.emptyArray)

/-- What the adapter of the type reads from a node; an array that is none is
dereferenced. -/
def ofNode : (t : LeafType) → T.Node → Option t.Value
  | .scalar t, node => some (T.valueOr t node t.default)
  | .vector t _, node =>
    (T.asArray node).map fun array => (T.elements array).map fun v => T.valueOr t v t.default

end LeafType

/-! ## The tree -/

/-- **A node**: `AnyDataItem<T>` or `AnyDataTable`. The entries of a table
are keyed by the nodes' own keys. -/
inductive AnyDataNode where
  | item (key : String) (type : LeafType) (value : type.Value)
  | table (key : String) (nodes : List AnyDataNode)

namespace AnyDataNode

/-- `key()`. -/
def key : AnyDataNode → String
  | .item key _ _ => key
  | .table key _ => key

mutual

/-- The entries of every table have different keys, as those of a map do. -/
def Keyed : AnyDataNode → Prop
  | .item _ _ _ => True
  | .table _ nodes => (nodes.map key).Nodup ∧ AllKeyed nodes

/-- The same for the nodes of a list. -/
def AllKeyed : List AnyDataNode → Prop
  | [] => True
  | node :: nodes => node.Keyed ∧ AllKeyed nodes

end

mutual

/-- The same keys, the same shape, and leaves of the same types. -/
def SameShape : AnyDataNode → AnyDataNode → Prop
  | .item key type _, .item key' type' _ => key = key' ∧ type = type'
  | .table key nodes, .table key' nodes' => key = key' ∧ AllSameShape nodes nodes'
  | _, _ => False

/-- The same for the nodes of a list. -/
def AllSameShape : List AnyDataNode → List AnyDataNode → Prop
  | [], [] => True
  | node :: nodes, node' :: nodes' => node.SameShape node' ∧ AllSameShape nodes nodes'
  | _, _ => False

end

section Codec

variable (T : Toml)

mutual

/-- **`encode`** into a table. What it writes for a table is a new one; each
node below is encoded into the table that `at` then finds under the key. -/
def encode : AnyDataNode → T.Table → Option T.Table
  | .item key type value, parser => some (T.insertOrAssign parser key (type.toNode T value))
  | .table key nodes, parser =>
    encodeNodes key nodes (T.insertOrAssign parser key (T.ofTable T.emptyTable))

/-- The loop over the nodes of a table. -/
def encodeNodes (key : String) : List AnyDataNode → T.Table → Option T.Table
  | [], parser => some parser
  | node :: nodes, parser => do
    let entry ← T.get parser key
    let table ← T.asTable entry
    let table ← encode node table
    encodeNodes key nodes (T.insertOrAssign parser key (T.ofTable table))

end

mutual

/-- **`decode`** from a table: the node with the values that were found. A
node whose key is not there stays as it is. -/
def decode : AnyDataNode → T.Table → Option AnyDataNode
  | .item key type value, parser =>
    match T.get parser key with
    | none => some (.item key type value)
    | some entry => (type.ofNode T entry).map (.item key type)
  | .table key nodes, parser =>
    match T.get parser key with
    | none => some (.table key nodes)
    | some _ => (decodeNodes key nodes parser).map (.table key)

/-- The loop over the nodes of a table. -/
def decodeNodes (key : String) : List AnyDataNode → T.Table → Option (List AnyDataNode)
  | [], _ => some []
  | node :: nodes, parser => do
    let entry ← T.get parser key
    let table ← T.asTable entry
    let node ← decode node table
    let nodes ← decodeNodes key nodes parser
    some (node :: nodes)

end

end Codec

end AnyDataNode

/-! ## A leaf -/

namespace LeafType

variable {T : Toml}

/-- What an array holds after a vector was pushed to it. -/
theorem elements_foldl (hT : T.Lawful) (t : ScalarType) (value : List t.Value) (array : T.Array) :
    T.elements (value.foldl (fun array v => T.pushBack array (T.ofScalar t v)) array) =
      T.elements array ++ value.map (T.ofScalar t) := by
  induction value generalizing array with
  | nil => simp
  | cons v value ih =>
    rw [List.foldl_cons, ih, hT.elements_pushBack, List.append_assoc]
    rfl

/-- **A leaf is read as it was written.** -/
theorem ofNode_toNode (hT : T.Lawful) (type : LeafType) (value : type.Value) :
    type.ofNode T (type.toNode T value) = some value := by
  cases type with
  | scalar t =>
    show some (T.valueOr t (T.ofScalar t value) t.default) = some value
    rw [hT.valueOr_ofScalar]
  | vector t ht =>
    simp only [toNode, ofNode, hT.asArray_ofArray, Option.map_some, elements_foldl hT,
      hT.elements_emptyArray, List.nil_append, List.map_map, Option.some.injEq]
    refine List.map_id'' (fun v => ?_) value
    exact hT.valueOr_ofScalar t v t.default

end LeafType

namespace AnyDataNode

variable {T : Toml}

/-! ## What a node's key decides -/

theorem decodeNodes_congr {key : String} {parser parser' : T.Table}
    (h : T.get parser key = T.get parser' key) (nodes : List AnyDataNode) :
    decodeNodes T key nodes parser = decodeNodes T key nodes parser' := by
  induction nodes with
  | nil => rfl
  | cons node nodes ih => simp only [decodeNodes, h, ih]

/-- **What is decoded depends on the entry under the node's key only.** -/
theorem decode_congr {node : AnyDataNode} {parser parser' : T.Table}
    (h : T.get parser node.key = T.get parser' node.key) :
    node.decode T parser = node.decode T parser' := by
  cases node with
  | item key type value =>
    change T.get parser key = T.get parser' key at h
    simp only [decode, h]
  | table key nodes =>
    change T.get parser key = T.get parser' key at h
    simp only [decode, h, decodeNodes_congr h]

theorem encodeNodes_get_of_ne (hT : T.Lawful) {key k : String} (hk : k ≠ key)
    {nodes : List AnyDataNode} {parser parser' : T.Table}
    (h : encodeNodes T key nodes parser = some parser') :
    T.get parser' k = T.get parser k := by
  induction nodes generalizing parser with
  | nil =>
    cases h
    rfl
  | cons node nodes ih =>
    simp only [encodeNodes, Option.bind_eq_bind, Option.bind_eq_some_iff] at h
    obtain ⟨_, _, _, _, table, _, h⟩ := h
    rw [ih h, hT.get_insertOrAssign_of_ne _ _ _ _ hk]

/-- **What is encoded changes the entry under the node's key only.** -/
theorem encode_get_of_ne (hT : T.Lawful) {node : AnyDataNode} {k : String} (hk : k ≠ node.key)
    {parser parser' : T.Table} (h : node.encode T parser = some parser') :
    T.get parser' k = T.get parser k := by
  cases node with
  | item key type value =>
    cases h
    exact hT.get_insertOrAssign_of_ne _ _ _ _ hk
  | table key nodes =>
    change k ≠ key at hk
    rw [encodeNodes_get_of_ne hT hk h, hT.get_insertOrAssign_of_ne _ _ _ _ hk]

theorem SameShape.key_eq {node node' : AnyDataNode} (h : node.SameShape node') :
    node'.key = node.key := by
  cases node <;> cases node' <;> simp only [SameShape] at h
  · exact h.1.symm
  · exact h.1.symm

/-! ## The round trip -/

/-- What is in the table is the node: any tree of its shape is decoded to
it. -/
def Holds (T : Toml) (node : AnyDataNode) (parser : T.Table) : Prop :=
  ∀ node', node.SameShape node' → node'.decode T parser = some node

/-- The same for the nodes below a key. -/
def AllHold (T : Toml) (key : String) (nodes : List AnyDataNode) (parser : T.Table) : Prop :=
  ∀ nodes', AllSameShape nodes nodes' → decodeNodes T key nodes' parser = some nodes

/-- What does not touch the entry of a node leaves it in the table. -/
theorem Holds.congr {node : AnyDataNode} {parser parser' : T.Table} (h : node.Holds T parser)
    (hget : T.get parser' node.key = T.get parser node.key) : node.Holds T parser' := by
  intro node' hshape
  rw [← h node' hshape]
  refine decode_congr ?_
  rw [hshape.key_eq]
  exact hget

/-- A node and those after it. -/
theorem AllHold.cons (hT : T.Lawful) {key : String} {node : AnyDataNode} {nodes : List AnyDataNode}
    {parser table : T.Table} (hentry : T.get parser key = some (T.ofTable table))
    (hnode : node.Holds T table) (hnodes : AllHold T key nodes parser) :
    AllHold T key (node :: nodes) parser := by
  intro nodes' hshape
  cases nodes' with
  | nil => simp only [AllSameShape] at hshape
  | cons node' nodes' =>
    simp only [AllSameShape] at hshape
    simp only [decodeNodes, hentry, hT.asTable_ofTable, hnode node' hshape.1,
      hnodes nodes' hshape.2, Option.bind_eq_bind, Option.bind_some]

mutual

/-- **What was encoded is in the table.** -/
theorem encode_holds (hT : T.Lawful) : ∀ (node : AnyDataNode) (_ : node.Keyed)
    (parser : T.Table), ∃ parser', node.encode T parser = some parser' ∧ node.Holds T parser'
  | .item key type value, _, parser => by
    refine ⟨_, rfl, fun node' hshape => ?_⟩
    cases node' with
    | table key' nodes' => simp only [SameShape] at hshape
    | item key' type' value' =>
      simp only [SameShape] at hshape
      obtain ⟨rfl, rfl⟩ := hshape
      simp only [decode, hT.get_insertOrAssign_self, type.ofNode_toNode hT, Option.map_some]
  | .table key nodes, hkeyed, parser => by
    simp only [Keyed] at hkeyed
    have hentry := hT.get_insertOrAssign_self parser key (T.ofTable T.emptyTable)
    obtain ⟨parser', table', hencode, hentry', _, hholds⟩ :=
      encodeNodes_holds hT nodes hkeyed.1 hkeyed.2 key _ _ hentry
    refine ⟨parser', hencode, fun node' hshape => ?_⟩
    cases node' with
    | item key' type' value' => simp only [SameShape] at hshape
    | table key' nodes' =>
      simp only [SameShape] at hshape
      obtain ⟨rfl, hnodes⟩ := hshape
      simp only [decode, hentry', hholds nodes' hnodes, Option.map_some]

/-- The nodes of a table are encoded into the table under its key, and none
is disturbed by those after it. -/
theorem encodeNodes_holds (hT : T.Lawful) : ∀ (nodes : List AnyDataNode)
    (_ : (nodes.map AnyDataNode.key).Nodup) (_ : AllKeyed nodes) (key : String) (parser sub : T.Table)
    (_ : T.get parser key = some (T.ofTable sub)),
    ∃ parser' sub', encodeNodes T key nodes parser = some parser' ∧
      T.get parser' key = some (T.ofTable sub') ∧
      (∀ k ∉ nodes.map AnyDataNode.key, T.get sub' k = T.get sub k) ∧
      AllHold T key nodes parser'
  | [], _, _, key, parser, sub, hentry => by
    refine ⟨parser, sub, rfl, hentry, fun _ _ => rfl, fun nodes' hshape => ?_⟩
    cases nodes' with
    | nil => rfl
    | cons node' nodes' => simp only [AllSameShape] at hshape
  | node :: nodes, hnodup, hkeyed, key, parser, sub, hentry => by
    simp only [AllKeyed] at hkeyed
    rw [List.map_cons, List.nodup_cons] at hnodup
    obtain ⟨sub₁, hencode, hnode⟩ := encode_holds hT node hkeyed.1 sub
    obtain ⟨parser', sub', hencodes, hentry', hothers, hnodes⟩ :=
      encodeNodes_holds hT nodes hnodup.2 hkeyed.2 key
        (T.insertOrAssign parser key (T.ofTable sub₁)) sub₁ (hT.get_insertOrAssign_self _ _ _)
    refine ⟨parser', sub', ?_, hentry', fun k hk => ?_, ?_⟩
    · simp only [encodeNodes, hentry, hT.asTable_ofTable, hencode, Option.bind_eq_bind,
        Option.bind_some]
      exact hencodes
    · rw [List.map_cons, List.mem_cons, not_or] at hk
      rw [hothers k hk.2, encode_get_of_ne hT hk.1 hencode]
    · exact hnodes.cons hT hentry' (hnode.congr (hothers _ hnodup.1))

end

/-- **The round trip.** A tree encoded into an empty table, and decoded into
any tree with the same keys, shape and types, gives the values of the
leaves as they were. -/
theorem decode_encode {T : Toml} (hT : T.Lawful) {node node' : AnyDataNode} (hkeyed : node.Keyed)
    (hshape : node.SameShape node') :
    (node.encode T T.emptyTable).bind (node'.decode T) = some node := by
  obtain ⟨parser, hencode, hholds⟩ := encode_holds hT node hkeyed T.emptyTable
  rw [hencode, Option.bind_some]
  exact hholds node' hshape

end AnyDataNode

/-! ## A library that does what is relied on -/

/-- A node of TOML, with the entries of a table as a list. -/
inductive TomlNode where
  | scalar (t : ScalarType) (value : t.Value)
  | array (elements : List TomlNode)
  | table (entries : List (String × TomlNode))

/-- Tables as lists of entries, arrays as lists of nodes. -/
def entryLists : Toml where
  Node := TomlNode
  Table := List (String × TomlNode)
  Array := List TomlNode
  ofScalar := .scalar
  valueOr t node value :=
    match node with
    | .scalar t' value' => if h : t' = t then h ▸ value' else value
    | _ => value
  ofTable := .table
  asTable
    | .table entries => some entries
    | _ => none
  ofArray := .array
  asArray
    | .array elements => some elements
    | _ => none
  emptyTable := []
  get entries key := entries.lookup key
  insertOrAssign entries key node := (key, node) :: entries.filter fun entry => entry.1 ≠ key
  emptyArray := []
  pushBack elements node := elements ++ [node]
  elements elements := elements

/-- Entries under other keys are found as before. -/
theorem lookup_filter_of_ne {key key' : String} (h : key' ≠ key)
    (entries : List (String × TomlNode)) :
    (entries.filter fun entry => entry.1 ≠ key).lookup key' = entries.lookup key' := by
  induction entries with
  | nil => rfl
  | cons entry entries ih =>
    by_cases hentry : entry.1 = key
    · rw [List.filter_cons_of_neg (by simpa using hentry), ih, List.lookup_cons,
        beq_false_of_ne (hentry.symm ▸ h)]
    · rw [List.filter_cons_of_pos (by simpa using hentry), List.lookup_cons, List.lookup_cons, ih]

theorem entryLists_lawful : entryLists.Lawful where
  valueOr_ofScalar t value _ := dif_pos (rfl : t = t)
  asTable_ofTable _ := rfl
  asArray_ofArray _ := rfl
  get_insertOrAssign_self _ _ _ := List.lookup_cons_self
  get_insertOrAssign_of_ne entries key node key' h := by
    show List.lookup key' ((key, node) :: entries.filter fun entry => entry.1 ≠ key) = _
    rw [List.lookup_cons, beq_false_of_ne h]
    exact lookup_filter_of_ne h entries
  elements_emptyArray := rfl
  elements_pushBack _ _ := rfl

namespace AnyDataNode

/-- A table in a table, read into one with other values. -/
theorem decode_encode_nested :
    ((table "robot" [item "id" (.scalar .int64) (7 : Int64),
        table "arm" [item "joints" (.vector .string (by decide)) ["elbow", "wrist"],
          item "on" (.scalar .bool) true]]).encode entryLists entryLists.emptyTable).bind
      ((table "robot" [item "id" (.scalar .int64) (0 : Int64),
        table "arm" [item "joints" (.vector .string (by decide)) ["none"],
          item "on" (.scalar .bool) false]]).decode entryLists) =
      some (table "robot" [item "id" (.scalar .int64) (7 : Int64),
        table "arm" [item "joints" (.vector .string (by decide)) ["elbow", "wrist"],
          item "on" (.scalar .bool) true]]) :=
  decode_encode entryLists_lawful (by simp [Keyed, AllKeyed, key]) (by simp [SameShape, AllSameShape])

end AnyDataNode
