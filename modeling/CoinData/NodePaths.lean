import CoinData.AnyDataText

/-!
# Paths of objects

An object is discovered by a path, which is a key alone, or a node and a key:
`/node/key`. The node is what is between the first two slashes, and the key is
what is behind the second one. It is found by its position, and what is behind is
cut out from the next position on: without a second slash there is no position,
and the next one is zero, so that the whole path is the key.

A path is given back by what is read of it, then, but for this: a node alone, as
in `/node`, reads as `/node//node` does. `readNodeIdx_iff` says that there are no
others.
-/

namespace ShmObjManager

/-- `std::string::find_first_of`; none is `npos`. -/
def findFirstOf (str : Text) (c : Char) (pos : ℕ) : Option ℕ :=
  ((str.drop pos).findIdx? (· = c)).map (· + pos)

/-- `pos + 1`. The position after `npos` is zero. -/
def nextPos : Option ℕ → ℕ
  | none => 0
  | some pos => pos + 1

/-- `substr(0, pos)`. -/
def substrTo (str : Text) : Option ℕ → Text
  | none => str
  | some pos => str.take pos

/-- **`read_node_idx_`**: the node and the key of a path. -/
def readNodeIdx (str : Text) : Text × Text :=
  if str = [] then ([], [])
  else if str.head? = some '/' then
    let pos := findFirstOf str '/' 1
    let node := substrTo str pos
    let node := if node.head? = some '/' then node.drop 1 else node
    let key := str.drop (nextPos pos)
    (node, key)
  else ([], str)

variable {node key s t : Text}

/-- The node of a path is what is behind its slash, up to a position. -/
theorem readNodeIdx_slash {rest : Text} {pos : Option ℕ}
    (hpos : rest.findIdx? (· = '/') = pos) :
    readNodeIdx ('/' :: rest)
      = (substrTo rest pos, ('/' :: rest).drop (nextPos (pos.map (· + 1)))) := by
  have hfind : findFirstOf ('/' :: rest) '/' 1 = pos.map (· + 1) := congrArg _ hpos
  unfold readNodeIdx
  rw [if_neg (List.cons_ne_nil _ _), if_pos List.head?_cons, hfind]
  cases pos <;> rfl

/-- **What is read of a path** of a node and a key. -/
theorem readNodeIdx_of_key (hnode : '/' ∉ node) (key : Text) :
    readNodeIdx ('/' :: node ++ '/' :: key) = (node, key) := by
  have hpos : (node ++ '/' :: key).findIdx? (· = '/') = some node.length := by
    rw [List.findIdx?_append, List.findIdx?_eq_none_iff.mpr, List.findIdx?_cons]
    · simp
    · intro c hc
      exact decide_eq_false fun heq => hnode (heq ▸ hc)
  refine (readNodeIdx_slash hpos).trans ?_
  simp [substrTo, nextPos]

/-- **What is read of a path** without a second slash: its key is itself. -/
theorem readNodeIdx_of_node (hnode : '/' ∉ node) :
    readNodeIdx ('/' :: node) = (node, '/' :: node) := by
  have hpos : node.findIdx? (· = '/') = none := by
    rw [List.findIdx?_eq_none_iff]
    intro c hc
    exact decide_eq_false fun heq => hnode (heq ▸ hc)
  exact readNodeIdx_slash hpos

/-- A path has a second slash, or has none. -/
theorem path_cases (hs : s.head? = some '/') :
    ∃ node, '/' ∉ node ∧ (s = '/' :: node ∨ ∃ key, s = '/' :: node ++ '/' :: key) := by
  obtain ⟨rest, rfl⟩ := List.head?_eq_some_iff.mp hs
  by_cases hrest : '/' ∈ rest
  · obtain ⟨node, key, rfl, hnode⟩ := List.eq_append_cons_of_mem hrest
    exact ⟨node, hnode, Or.inr ⟨key, rfl⟩⟩
  · exact ⟨rest, hrest, Or.inl rfl⟩

/-- **A node alone, and the path that reads the same.** -/
def Doubled (s t : Text) : Prop :=
  ∃ node, '/' ∉ node ∧ s = '/' :: node ∧ t = '/' :: node ++ '/' :: '/' :: node

theorem Doubled.readNodeIdx_eq (h : Doubled s t) : readNodeIdx s = readNodeIdx t := by
  obtain ⟨node, hnode, rfl, rfl⟩ := h
  rw [readNodeIdx_of_node hnode, readNodeIdx_of_key hnode]

theorem Doubled.ne (h : Doubled s t) : s ≠ t := by
  obtain ⟨node, _, rfl, rfl⟩ := h
  intro heq
  have hlen := congrArg List.length heq
  simp at hlen

theorem Doubled.slash (h : Doubled s t) : s.head? = some '/' ∧ t.head? = some '/' := by
  obtain ⟨node, _, rfl, rfl⟩ := h
  exact ⟨rfl, rfl⟩

/-- **Only these read the same**, of two different paths. -/
theorem doubled_of_readNodeIdx_eq (hs : s.head? = some '/') (ht : t.head? = some '/')
    (hne : s ≠ t) (h : readNodeIdx s = readNodeIdx t) : Doubled s t ∨ Doubled t s := by
  obtain ⟨node, hnode, rfl | ⟨key, rfl⟩⟩ := path_cases hs <;>
    obtain ⟨node', hnode', rfl | ⟨key', rfl⟩⟩ := path_cases ht
  · rw [readNodeIdx_of_node hnode, readNodeIdx_of_node hnode'] at h
    exact absurd (congrArg Prod.snd h) hne
  · rw [readNodeIdx_of_node hnode, readNodeIdx_of_key hnode'] at h
    cases h
    exact Or.inl ⟨_, hnode, rfl, rfl⟩
  · rw [readNodeIdx_of_key hnode, readNodeIdx_of_node hnode'] at h
    cases h
    exact Or.inr ⟨_, hnode, rfl, rfl⟩
  · rw [readNodeIdx_of_key hnode, readNodeIdx_of_key hnode'] at h
    cases h
    exact absurd rfl hne

/-- A path of a node and a key is read back. -/
def ReadsBack (node key : Text) : Prop :=
  node ≠ [] → '/' ∉ node → readNodeIdx ('/' :: node ++ '/' :: key) = (node, key)

/-- Two different paths do not read the same. -/
def ReadsApart (s t : Text) : Prop :=
  s.head? = some '/' → t.head? = some '/' → s ≠ t → readNodeIdx s ≠ readNodeIdx t

/-- **Paths are read back, and read apart**, exactly if they are not a node alone
and the path that reads the same. -/
theorem readNodeIdx_iff (node key s t : Text) :
    ReadsBack node key ∧ ReadsApart s t ↔ ¬ (Doubled s t ∨ Doubled t s) := by
  constructor
  · rintro ⟨_, hapart⟩ (hd | hd)
    · exact hapart hd.slash.1 hd.slash.2 hd.ne hd.readNodeIdx_eq
    · exact hapart hd.slash.2 hd.slash.1 hd.ne.symm hd.readNodeIdx_eq.symm
  · intro hnot
    exact ⟨fun _ hnode => readNodeIdx_of_key hnode key,
      fun hs ht hne heq => hnot (doubled_of_readNodeIdx_eq hs ht hne heq)⟩

/-- `/camera` reads as `/camera//camera` does. -/
theorem readNodeIdx_not_apart : ¬ ∀ node key s t : Text, ReadsBack node key ∧ ReadsApart s t := by
  intro h
  have hapart := (h [] [] "/camera".toList "/camera//camera".toList).2
  exact hapart rfl rfl (by decide) (by decide)

end ShmObjManager
