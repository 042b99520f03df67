import Mathlib.Data.Fintype.Card
import Std.Data.TreeMap

/-!
# Maps without repeated values

A table from keys to resources, to which an entry is added unless its key
is taken, and from which entries are erased. Such a table *owns* its
resources as long as no two keys have the same one (`OneKey`): erasing the
key of a resource then takes the resource out of the table, and a resource
that was not in it may be added.

The last section is about the number of parties which hold on to a
resource, when one of them takes it or gives it up.
-/

namespace Maps

variable {κ ν : Type} [Ord κ] [Std.TransOrd κ] [Std.LawfulEqOrd κ]
variable {m : Std.TreeMap κ ν compare} {k : κ} {v : ν}

/-- Some key has the value. -/
def HasValue (m : Std.TreeMap κ ν compare) (v : ν) : Prop := ∃ k : κ, m[k]? = some v

/-- **Every value has one key.** -/
def OneKey (m : Std.TreeMap κ ν compare) : Prop :=
  ∀ (k k' : κ) (v : ν), m[k]? = some v → m[k']? = some v → k = k'

instance [DecidableEq ν] (m : Std.TreeMap κ ν compare) (v : ν) : Decidable (HasValue m v) :=
  decidable_of_iff (∃ e ∈ m.toList, e.2 = v) (by
    constructor
    · rintro ⟨e, he, rfl⟩
      exact ⟨e.1, Std.TreeMap.mem_toList_iff_getElem?_eq_some.mp he⟩
    · rintro ⟨k, hk⟩
      exact ⟨(k, v), Std.TreeMap.mem_toList_iff_getElem?_eq_some.mpr hk, rfl⟩)

section Lookup

variable [DecidableEq κ]

theorem insertIfNew_of_none (h : m[k]? = none) (v : ν) (a : κ) :
    (m.insertIfNew k v)[a]? = if a = k then some v else m[a]? := by
  have hk : k ∉ m := by
    rw [Std.TreeMap.mem_iff_isSome_getElem?, h]
    exact Bool.false_ne_true
  rw [Std.TreeMap.getElem?_insertIfNew]
  simp only [Std.LawfulEqOrd.compare_eq_iff_eq, hk, not_false_eq_true, and_true]
  exact if_congr eq_comm rfl rfl

omit [Std.LawfulEqOrd κ] [DecidableEq κ] in
theorem insertIfNew_of_some {w : ν} (h : m[k]? = some w) (v : ν) (a : κ) :
    (m.insertIfNew k v)[a]? = m[a]? := by
  have hk : k ∈ m := by
    rw [Std.TreeMap.mem_iff_isSome_getElem?, h]
    rfl
  rw [Std.TreeMap.getElem?_insertIfNew]
  simp only [hk, not_true_eq_false, and_false, if_false]

theorem getElem?_erase (m : Std.TreeMap κ ν compare) (k a : κ) :
    (m.erase k)[a]? = if a = k then none else m[a]? := by
  rw [Std.TreeMap.getElem?_erase]
  simp only [Std.LawfulEqOrd.compare_eq_iff_eq]
  exact if_congr eq_comm rfl rfl

/-- An entry after an insertion is the new one or an old one. -/
theorem insertIfNew_cases {a : κ} {w : ν} (h : (m.insertIfNew k v)[a]? = some w) :
    (a = k ∧ w = v ∧ m[k]? = none) ∨ m[a]? = some w := by
  cases hk : m[k]? with
  | some u =>
    rw [insertIfNew_of_some hk] at h
    exact Or.inr h
  | none =>
    rw [insertIfNew_of_none hk] at h
    split at h
    · next ha => exact Or.inl ⟨ha, (Option.some.inj h).symm, rfl⟩
    · exact Or.inr h

/-- An entry after an erasure is an old one. -/
theorem erase_some {a : κ} {w : ν} (h : (m.erase k)[a]? = some w) : a ≠ k ∧ m[a]? = some w := by
  rw [getElem?_erase] at h
  split at h
  · cases h
  · next ha => exact ⟨ha, h⟩

theorem hasValue_insertIfNew (h : m[k]? = none) {w : ν} :
    HasValue (m.insertIfNew k v) w ↔ w = v ∨ HasValue m w := by
  constructor
  · rintro ⟨a, ha⟩
    rcases insertIfNew_cases ha with ⟨_, hw, _⟩ | ha
    · exact Or.inl hw
    · exact Or.inr ⟨a, ha⟩
  · rintro (hw | ⟨a, ha⟩)
    · refine ⟨k, ?_⟩
      rw [insertIfNew_of_none h, if_pos rfl, hw]
    · refine ⟨a, ?_⟩
      rw [insertIfNew_of_none h, if_neg, ha]
      rintro rfl
      rw [h] at ha
      cases ha

theorem hasValue_erase (hm : OneKey m) (hk : m[k]? = some v) {w : ν} :
    HasValue (m.erase k) w ↔ HasValue m w ∧ w ≠ v := by
  constructor
  · rintro ⟨a, ha⟩
    obtain ⟨hak, ha⟩ := erase_some ha
    refine ⟨⟨a, ha⟩, ?_⟩
    rintro rfl
    exact hak (hm a k w ha hk)
  · rintro ⟨⟨a, ha⟩, hw⟩
    refine ⟨a, ?_⟩
    rw [getElem?_erase, if_neg, ha]
    rintro rfl
    rw [hk] at ha
    exact hw (Option.some.inj ha).symm

/-- **A resource which is not in the table may be added.** -/
theorem OneKey.insertIfNew (hm : OneKey m) (hv : ¬ HasValue m v) :
    OneKey (m.insertIfNew k v) := by
  intro a b w ha hb
  rcases insertIfNew_cases ha with ⟨hak, haw, _⟩ | ha'
  · rcases insertIfNew_cases hb with ⟨hbk, _, _⟩ | hb'
    · rw [hak, hbk]
    · exact absurd ⟨b, haw ▸ hb'⟩ hv
  · rcases insertIfNew_cases hb with ⟨_, hbw, _⟩ | hb'
    · exact absurd ⟨a, hbw ▸ ha'⟩ hv
    · exact hm a b w ha' hb'

theorem OneKey.erase (hm : OneKey m) : OneKey (m.erase k) := by
  intro a b w ha hb
  exact hm a b w (erase_some ha).2 (erase_some hb).2

omit [Std.LawfulEqOrd κ] [DecidableEq κ] in
/-- The empty table has no entry. -/
theorem empty_ne_some (k : κ) (v : ν) : (∅ : Std.TreeMap κ ν compare)[k]? ≠ some v := by
  rw [Std.TreeMap.getElem?_emptyc]
  exact nofun

omit [Std.LawfulEqOrd κ] [DecidableEq κ] in
theorem oneKey_empty : OneKey (∅ : Std.TreeMap κ ν compare) :=
  fun a _ w ha => absurd ha (empty_ne_some a w)

end Lookup

/-! ## Holders of a resource -/

section Holders

variable {ι : Type} [Fintype ι] {p q : ι → Prop} [DecidablePred p] [DecidablePred q]

/-- **One party takes the resource**, and the others keep or leave it as
they did. -/
theorem card_holders_take {c : ι} (hp : ¬ p c) (hq : q c) (h : ∀ d, d ≠ c → (q d ↔ p d)) :
    (Finset.univ.filter q).card = (Finset.univ.filter p).card + 1 := by
  classical
  have hnot : c ∉ Finset.univ.filter p := by
    simp [hp]
  rw [← Finset.card_insert_of_notMem hnot]
  congr 1
  ext d
  by_cases hd : d = c
  · subst hd
    simp [hq]
  · simp [hd, h d hd]

/-- Nobody holds a resource without holders. -/
theorem not_holder {c : ι} (h : (Finset.univ.filter p).card = 0) : ¬ p c := by
  intro hp
  have hmem : c ∈ Finset.univ.filter p := by simp [hp]
  rw [Finset.card_eq_zero.mp h] at hmem
  exact absurd hmem (Finset.notMem_empty c)

end Holders

end Maps
