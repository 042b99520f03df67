import CoinData.AnyDataText
import CoinData.Results
import CoinData.Separators

/-!
# Communicators in the environment

`COIN_NODE_COMMUNICATIONS` names targets for communicators: items `key:value`,
separated by semicolons. A regular expression takes the variable apart at runs of
semicolons, and another one takes each item apart at runs of colons, both with the
blanks around. `listed` is the map that the variable stands for: an item without a
colon is none, and a later one overrides an earlier one.

An item is read through an iterator, which is moved on once and then dereferenced.
If there is nothing behind the first colons of an item, or there are none, then the
iterator is at its end: `communicators_eq_listed_iff` says that the map is `listed`
only if there is no such item.
-/

/-- What goes wrong. -/
inductive TokenFault where
  /-- The end of a sequence is dereferenced. -/
  | endOfSequence
deriving DecidableEq, Repr

namespace LocalChannal

/-- `std::regex re("\\s*;+\\s*")`. -/
def semicolons : Separator Char := .runs isSpace (· = ';')

/-- `std::regex re_blank("\\s*:+\\s*")`. -/
def colons : Separator Char := .runs isSpace (· = ':')

/-- The key and the value of an item: `it_blank->str()` and `(++it_blank)->str()`. -/
def readItem (s : Text) : Except TokenFault (Text × Text) :=
  match colons.tokens s with
  | key :: value :: _ => .ok (key, value)
  | _ => .error .endOfSequence

/-- `insert_or_assign`. -/
def insertOrAssign (comms : Text → Option Text) (item : Text × Text) : Text → Option Text :=
  Function.update comms item.1 (some item.2)

/-- `while(it != end)`. -/
def readItems : List Text → (Text → Option Text) → Except TokenFault (Text → Option Text)
  | [], nodeCommunicators => .ok nodeCommunicators
  | s :: it, nodeCommunicators => do
    let item ← readItem s
    readItems it (insertOrAssign nodeCommunicators item)

/-- **`communicators`**, by what `getenv` returns. -/
def communicators (communicationsStr : Option Text) : Except TokenFault (Text → Option Text) :=
  match communicationsStr with
  | none => .ok fun _ => none
  | some str =>
    if str = [] then .ok fun _ => none
    else readItems (semicolons.tokens str) fun _ => none

/-- **`register_mutable_communicator_`**: the communicator is redirected to the
target that is listed for it. -/
def registerMutableCommunicator {μ : Type} (communicationsStr : Option Text)
    (redirect : μ → Text → μ) (mutableCommunicator : Text → Option μ) (id : Text) (mc : μ) :
    Except TokenFault (Text → Option μ) := do
  let comms ← communicators communicationsStr
  match comms id with
  | some target => .ok (Function.update mutableCommunicator id (some (redirect mc target)))
  | none => .ok (Function.update mutableCommunicator id (some mc))

/-! ## What the variable stands for -/

/-- **The item that a piece is**, if it has a colon: the first two of what stands
between colons. Of `a:b:c` this is `b` under `a`, and `c` stands for nothing. -/
def keyValue (piece : Text) : Option (Text × Text) :=
  match colons.pieces piece with
  | key :: value :: _ => some (key, value)
  | _ => none

/-- **The map that a text stands for.** -/
def listed (str : Text) : Text → Option Text :=
  ((semicolons.pieces str).filterMap keyValue).foldl insertOrAssign fun _ => none

/-- There is something behind the first colons of a piece. -/
def HasValue (piece : Text) : Prop := ∃ e ∈ colons.search piece, e.2 ≠ []

/-- The variable is not there or empty, or each piece of it has a value. -/
def HasValues (communicationsStr : Option Text) : Prop :=
  ∀ str ∈ communicationsStr, str ≠ [] → ∀ piece ∈ semicolons.tokens str, HasValue piece

/-- A piece is no item exactly if it has no colon. -/
theorem keyValue_eq_none {piece : Text} : keyValue piece = none ↔ ':' ∉ piece := by
  have hsearch : colons.search piece = none ↔ ':' ∉ piece := by
    refine (Separator.search_runs_eq_none fun x hx => ?_).trans ?_
    · obtain rfl : x = ':' := of_decide_eq_true hx
      decide
    · simp [List.forall_mem_ne']
  rw [← hsearch]
  unfold keyValue
  cases hs : colons.search piece with
  | none => exact iff_of_true (by rw [Separator.pieces_of_none hs]) rfl
  | some e =>
    rw [Separator.pieces_of_some hs]
    have hne : colons.pieces e.2 ≠ [] := Separator.pieces_ne_nil e.2
    obtain ⟨q, ps, hq⟩ := List.exists_cons_of_ne_nil hne
    rw [hq]
    exact iff_of_false nofun nofun

/-! ## What is read -/

/-- What is read of a piece is the item that it is. -/
theorem readItem_of_hasValue {piece : Text} (h : HasValue piece) :
    ∃ e, readItem piece = .ok e ∧ keyValue piece = some e := by
  obtain ⟨key, value, ps, htokens⟩ := Separator.tokens_eq_cons_cons.mpr h
  refine ⟨(key, value), ?_, ?_⟩
  · unfold readItem
    rw [htokens]
  · unfold keyValue
    rcases Separator.pieces_eq_tokens colons piece with hp | hp
    · rw [hp, htokens]
    · rw [hp, htokens]
      rfl

theorem readItem_of_not_hasValue {piece : Text} (h : ¬ HasValue piece) :
    readItem piece = .error .endOfSequence := by
  unfold readItem
  split
  · next key value ps htokens =>
    exact absurd (Separator.tokens_eq_cons_cons.mp ⟨key, value, ps, htokens⟩) h
  · rfl

/-- **What the loop puts in** are the items. -/
theorem readItems_of_hasValue {it : List Text} (h : ∀ piece ∈ it, HasValue piece)
    (comms : Text → Option Text) :
    readItems it comms = .ok ((it.filterMap keyValue).foldl insertOrAssign comms) := by
  induction it generalizing comms with
  | nil => rfl
  | cons s it ih =>
    obtain ⟨hs, hit⟩ := List.forall_mem_cons.mp h
    obtain ⟨item, hread, hkv⟩ := readItem_of_hasValue hs
    rw [readItems, hread, Except.ok_bind, ih hit, List.filterMap_cons_some hkv, List.foldl_cons]

/-- **The loop fails** at the first piece that has no value. -/
theorem readItems_of_not_hasValue {it : List Text} (h : ¬ ∀ piece ∈ it, HasValue piece)
    (comms : Text → Option Text) : readItems it comms = .error .endOfSequence := by
  induction it generalizing comms with
  | nil => exact absurd nofun h
  | cons s it ih =>
    rw [readItems]
    by_cases hs : HasValue s
    · obtain ⟨item, hread, _⟩ := readItem_of_hasValue hs
      rw [hread, Except.ok_bind]
      exact ih (fun hit => h (List.forall_mem_cons.mpr ⟨hs, hit⟩)) _
    · rw [readItem_of_not_hasValue hs]
      rfl

/-- A last piece that is empty is no item. -/
theorem filterMap_pieces (str : Text) :
    (semicolons.pieces str).filterMap keyValue = (semicolons.tokens str).filterMap keyValue := by
  rcases Separator.pieces_eq_tokens semicolons str with h | h
  · rw [h]
  · rw [h, List.filterMap_append]
    exact List.append_nil _

/-- **The variable can be read.** -/
theorem communicators_of_hasValues {communicationsStr : Option Text}
    (h : HasValues communicationsStr) :
    communicators communicationsStr = .ok (listed (communicationsStr.getD [])) := by
  unfold communicators
  cases communicationsStr with
  | none => rfl
  | some str =>
    dsimp only
    by_cases hstr : str = []
    · rw [if_pos hstr, hstr]
      rfl
    · rw [if_neg hstr, readItems_of_hasValue (h str rfl hstr), ← filterMap_pieces]
      rfl

/-- **The map is the one the variable stands for**, exactly if the variable is
not there or empty, or else each piece that is visited has a value. -/
theorem communicators_eq_listed_iff (communicationsStr : Option Text) :
    communicators communicationsStr = .ok (listed (communicationsStr.getD []))
      ↔ HasValues communicationsStr := by
  refine ⟨fun h => ?_, communicators_of_hasValues⟩
  rintro str ⟨⟩ hstr
  by_contra hnot
  unfold communicators at h
  dsimp only at h
  rw [if_neg hstr, readItems_of_not_hasValue hnot] at h
  cases h

/-- **A communicator that is registered** is redirected to its target, if there
is one for it. -/
theorem registerMutableCommunicator_of_hasValues {μ : Type} {communicationsStr : Option Text}
    (h : HasValues communicationsStr) (redirect : μ → Text → μ)
    (mutableCommunicator : Text → Option μ) (id : Text) (mc : μ) :
    registerMutableCommunicator communicationsStr redirect mutableCommunicator id mc
      = .ok (Function.update mutableCommunicator id
        (some ((listed (communicationsStr.getD []) id).elim mc (redirect mc)))) := by
  unfold registerMutableCommunicator
  rw [communicators_of_hasValues h, Except.ok_bind]
  cases listed (communicationsStr.getD []) id <;> rfl

/-- A name without a target. -/
theorem communicators_ne_listed : ¬ ∀ communicationsStr,
    communicators communicationsStr = .ok (listed (communicationsStr.getD [])) := by
  intro h
  have hfault : communicators (some "front".toList) = .error .endOfSequence := rfl
  have hok := h (some "front".toList)
  rw [hfault] at hok
  cases hok

end LocalChannal
