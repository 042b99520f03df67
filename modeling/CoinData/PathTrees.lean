import Mathlib.Data.List.Infix
import Mathlib.Logic.Function.Basic

/-!
# Trees of tables

A tree is a leaf, or a table which has trees under its keys. A key may be
there without a tree, so that there are three things an entry can be: none, an
empty one, or one with a tree.

A path is a list of keys, and leads through tables. To replace the entries of
the table at its end changes what is found at the paths that the path is a
prefix of, and nothing at those which part from it.
-/

/-- **A tree** with keys `κ`, labels `δ` of the tables, and leaves `α`. -/
inductive PathTree (κ δ α : Type*)
  | leaf (a : α)
  | table (label : δ) (entries : κ → Option (Option (PathTree κ δ α)))

namespace PathTree

variable {κ δ α : Type*}

/-- The entries of a table. -/
abbrev Entries (κ δ α : Type*) := κ → Option (Option (PathTree κ δ α))

/-- A path is a proper part of no other one of the two. -/
def Parts (p q : List κ) : Prop := ¬ p <+: q ∧ ¬ q <+: p

/-- The tree at a path. -/
def resolve : PathTree κ δ α → List κ → Option (PathTree κ δ α)
  | t, [] => some t
  | .leaf _, _ :: _ => none
  | .table _ entries, k :: ks =>
    match entries k with
    | some (some t) => t.resolve ks
    | _ => none

/-- The entries of the table at a path. -/
def entriesAt : Entries κ δ α → List κ → Option (Entries κ δ α)
  | entries, [] => some entries
  | entries, k :: ks =>
    match entries k with
    | some (some (.table _ below)) => entriesAt below ks
    | _ => none

/-- Replace the entries of the table at a path, if there is one. -/
def putAt [DecidableEq κ] : Entries κ δ α → List κ → Entries κ δ α → Entries κ δ α
  | _, [], new => new
  | entries, k :: ks, new =>
    match entries k with
    | some (some (.table label below)) =>
      Function.update entries k (some (some (.table label (putAt below ks new))))
    | _ => entries

variable {entries below new : Entries κ δ α} {k : κ} {ks js : List κ} {label : δ} {a : α}

@[simp] theorem resolve_nil (t : PathTree κ δ α) : t.resolve [] = some t := by
  cases t <;> rfl

theorem resolve_cons_of_some {t : PathTree κ δ α} (h : entries k = some (some t)) :
    (table label entries).resolve (k :: ks) = t.resolve ks := by
  show (match entries k with | some (some t) => t.resolve ks | _ => none) = _
  rw [h]

/-- Only one entry counts. -/
theorem resolve_cons_congr {entries' : Entries κ δ α} {label' : δ} (h : entries k = entries' k) :
    (table label entries).resolve (k :: ks) = (table label' entries').resolve (k :: ks) := by
  show (match entries k with | some (some t) => t.resolve ks | _ => none) = _
  rw [h]
  rfl

theorem entriesAt_cons_of_table (h : entries k = some (some (.table label below))) :
    entriesAt entries (k :: ks) = entriesAt below ks := by
  show (match entries k with | some (some (.table _ below)) => entriesAt below ks | _ => none) = _
  rw [h]

/-- **A path that leads to a table** goes through tables. -/
theorem entriesAt_cons_eq_some : entriesAt entries (k :: ks) = some new ↔
    ∃ label below, entries k = some (some (.table label below)) ∧ entriesAt below ks = some new := by
  constructor
  · intro h
    unfold entriesAt at h
    split at h
    · next label below hk => exact ⟨label, below, hk, h⟩
    · cases h
  · rintro ⟨label, below, hk, h⟩
    rw [entriesAt_cons_of_table hk]
    exact h

/-- What leads to a table leads through tables. -/
theorem entriesAt_of_prefix (h : entriesAt entries ks = some new) (hjs : js <+: ks) :
    ∃ below, entriesAt entries js = some below := by
  induction js generalizing entries ks with
  | nil => exact ⟨entries, rfl⟩
  | cons j js ih =>
    obtain ⟨ks, rfl⟩ := hjs
    obtain ⟨label, below, hj, hbelow⟩ := entriesAt_cons_eq_some.mp h
    rw [entriesAt_cons_of_table hj]
    exact ih hbelow (List.prefix_append js ks)

/-- **The tree at a path is a table** exactly if the path leads to its
entries. -/
theorem entriesAt_eq_some : entriesAt entries ks = some new ↔
    ∃ label', (table label entries).resolve ks = some (.table label' new) := by
  induction ks generalizing entries label with
  | nil =>
    constructor
    · rintro ⟨⟩
      exact ⟨label, rfl⟩
    · rintro ⟨_, ⟨⟩⟩
      rfl
  | cons k ks ih =>
    rw [entriesAt_cons_eq_some]
    constructor
    · rintro ⟨label', below, hk, h⟩
      rw [resolve_cons_of_some hk]
      exact ih.mp h
    · rintro ⟨label', h⟩
      unfold resolve at h
      split at h
      · next t hk =>
        cases t with
        | leaf a =>
          cases ks with
          | nil => cases h
          | cons _ _ => cases h
        | table label'' below => exact ⟨label'', below, hk, ih.mpr ⟨label', h⟩⟩
      · cases h

/-- **The tree at a path with one more key** is the one under this key in the
table at the path. -/
theorem resolve_concat : (table label entries).resolve (ks ++ [k])
    = (entriesAt entries ks).bind fun below => (below k).join := by
  induction ks generalizing entries label with
  | nil =>
    show (match entries k with | some (some t) => t.resolve [] | _ => none) = (entries k).join
    cases entries k with
    | none => rfl
    | some t => cases t <;> simp
  | cons j ks ih =>
    cases hj : entries j with
    | none => simp [resolve, entriesAt, hj]
    | some t =>
      cases t with
      | none => simp [resolve, entriesAt, hj]
      | some t =>
        rw [List.cons_append, resolve_cons_of_some hj]
        cases t with
        | leaf a => cases ks <;> simp [resolve, entriesAt, hj]
        | table label' below =>
          rw [entriesAt_cons_of_table hj]
          exact ih

section Put

variable [DecidableEq κ]

theorem putAt_cons_of_table (h : entries k = some (some (.table label below))) :
    putAt entries (k :: ks) new
      = Function.update entries k (some (some (.table label (putAt below ks new)))) := by
  show (match entries k with
    | some (some (.table label below)) =>
      Function.update entries k (some (some (.table label (putAt below ks new))))
    | _ => entries) = _
  rw [h]

/-- To put back what is there changes nothing. -/
theorem putAt_self (h : entriesAt entries ks = some new) : putAt entries ks new = entries := by
  induction ks generalizing entries with
  | nil => exact (Option.some.inj h).symm
  | cons k ks ih =>
    obtain ⟨label, below, hk, h⟩ := entriesAt_cons_eq_some.mp h
    rw [putAt_cons_of_table hk, ih h, ← hk]
    exact Function.update_eq_self k entries

/-- **The entries at the path are the new ones.** -/
theorem entriesAt_putAt {old : Entries κ δ α} (h : entriesAt entries ks = some old) :
    entriesAt (putAt entries ks new) ks = some new := by
  induction ks generalizing entries with
  | nil => rfl
  | cons k ks ih =>
    obtain ⟨label, below, hk, h⟩ := entriesAt_cons_eq_some.mp h
    rw [putAt_cons_of_table hk, entriesAt_cons_of_table (Function.update_self k _ entries)]
    exact ih h

/-- **What is found at a path that parts from another one** does not depend on
the entry at this one. -/
theorem resolve_putAt_of_parts {old : Entries κ δ α} {v : Option (Option (PathTree κ δ α))}
    (h : entriesAt entries ks = some old) (hparts : Parts js (ks ++ [k])) :
    (table label (putAt entries ks (Function.update old k v))).resolve js
      = (table label entries).resolve js := by
  induction ks generalizing entries js label with
  | nil =>
    obtain rfl := Option.some.inj h
    cases js with
    | nil => exact absurd List.nil_prefix hparts.1
    | cons j js =>
      have hne : j ≠ k := by
        rintro rfl
        exact hparts.2 (List.prefix_cons_inj j |>.mpr List.nil_prefix)
      exact resolve_cons_congr (Function.update_of_ne hne _ _)
  | cons i ks ih =>
    obtain ⟨label', below, hi, hbelow⟩ := entriesAt_cons_eq_some.mp h
    rw [putAt_cons_of_table hi]
    cases js with
    | nil => exact absurd List.nil_prefix hparts.1
    | cons j js =>
      by_cases hj : j = i
      · subst hj
        rw [resolve_cons_of_some (Function.update_self j _ entries), resolve_cons_of_some hi]
        refine ih hbelow ⟨fun hprefix => hparts.1 ?_, fun hprefix => hparts.2 ?_⟩
        · exact (List.prefix_cons_inj j).mpr hprefix
        · exact (List.prefix_cons_inj j).mpr hprefix
      · exact resolve_cons_congr (Function.update_of_ne hj _ _)

end Put

end PathTree
