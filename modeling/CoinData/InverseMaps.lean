import Mathlib.Logic.Function.Basic
import Mathlib.Tactic.Common

/-!
# Maps and their inverses

A table leads from keys to numbers, and a second one leads back, from a number to its
entry, which has the key in it. The two are **mutually inverse** if a key has a number
exactly if the number has an entry with that key. They stay so if an entry is added to
both, under a key and a number that are free, and if an entry is erased from both.

An entry is added as `emplace` does it: not at all, if its key is taken.
-/

namespace InverseMaps

section Operations

variable {α ν : Type*} [DecidableEq α] {m : α → Option ν} {k a : α} {v w : ν}

/-- `emplace`. -/
def emplace (m : α → Option ν) (k : α) (v : ν) : α → Option ν :=
  match m k with
  | none => Function.update m k (some v)
  | some _ => m

/-- `erase`. -/
def erase (m : α → Option ν) (k : α) : α → Option ν := Function.update m k none

theorem emplace_of_none (h : m k = none) (v : ν) :
    emplace m k v = Function.update m k (some v) := by
  unfold emplace
  rw [h]

@[simp] theorem erase_self (m : α → Option ν) (k : α) : erase m k k = none :=
  Function.update_self ..

theorem erase_of_ne (m : α → Option ν) (h : a ≠ k) : erase m k a = m a :=
  Function.update_of_ne h _ _

/-- What is erased may have been changed before. -/
theorem erase_update (m : α → Option ν) (k : α) (v : Option ν) :
    erase (Function.update m k v) k = erase m k :=
  Function.update_idem ..

/-- What is there after an erasure was there before, under another key. -/
theorem of_erase (h : erase m k a = some v) : a ≠ k ∧ m a = some v := by
  have hne : a ≠ k := by
    rintro rfl
    rw [erase_self] at h
    cases h
  exact ⟨hne, (erase_of_ne m hne).symm.trans h⟩

end Operations

variable {α β ω : Type*} [DecidableEq α] [DecidableEq β] {key : ω → α} {m : α → Option β}
  {rev : β → Option ω} {k : α} {b : β} {e : ω}

/-- **Mutually inverse**: a key has a number exactly if the number has an entry with
that key. -/
def Inverse (key : ω → α) (m : α → Option β) (rev : β → Option ω) : Prop :=
  ∀ k b, m k = some b ↔ ∃ e, rev b = some e ∧ key e = k

namespace Inverse

omit [DecidableEq α] [DecidableEq β] in
theorem empty : Inverse key (fun _ => none : α → Option β) fun _ => none := by
  intro k b
  constructor
  · intro hk
    cases hk
  · rintro ⟨e, ⟨⟩, _⟩

omit [DecidableEq α] [DecidableEq β] in
/-- A key has the number of its entry. -/
theorem of_rev (h : Inverse key m rev) (he : rev b = some e) : m (key e) = some b :=
  (h (key e) b).mpr ⟨e, he, rfl⟩

omit [DecidableEq α] [DecidableEq β] in
/-- **Another key has another number.** -/
theorem key_eq (h : Inverse key m rev) {k' : α} (hk : m k = some b) (hk' : m k' = some b) :
    k' = k := by
  obtain ⟨e, he, rfl⟩ := (h k b).mp hk
  obtain ⟨e', he', rfl⟩ := (h k' b).mp hk'
  rw [Option.some.inj (he.symm.trans he')]

/-- **An entry is added to both.** -/
theorem emplace (h : Inverse key m rev) (hk : m (key e) = none) (hb : rev b = none) :
    Inverse key (InverseMaps.emplace m (key e) b) (InverseMaps.emplace rev b e) := by
  rw [emplace_of_none hk, emplace_of_none hb]
  intro k b'
  by_cases hb' : b' = b
  · subst hb'
    rw [Function.update_self]
    constructor
    · intro hm
      by_cases hkey : k = key e
      · exact ⟨e, rfl, hkey.symm⟩
      · -- the number was free
        rw [Function.update_of_ne hkey] at hm
        obtain ⟨e', he', _⟩ := (h k b').mp hm
        cases hb.symm.trans he'
    · rintro ⟨e', ⟨⟩, rfl⟩
      exact Function.update_self ..
  · rw [Function.update_of_ne hb']
    by_cases hkey : k = key e
    · subst hkey
      rw [Function.update_self]
      constructor
      · intro heq
        exact absurd (Option.some.inj heq).symm hb'
      · -- the key was free
        rintro ⟨e', he', hkey⟩
        cases hk.symm.trans ((h (key e) b').mpr ⟨e', he', hkey⟩)
    · rw [Function.update_of_ne hkey]
      exact h k b'

/-- **An entry is erased from both.** -/
theorem erase (h : Inverse key m rev) (hk : m k = some b) :
    Inverse key (InverseMaps.erase m k) (InverseMaps.erase rev b) := by
  intro k' b'
  constructor
  · intro hm
    obtain ⟨hne, hm⟩ := of_erase hm
    obtain ⟨e, he, rfl⟩ := (h k' b').mp hm
    have hb : b' ≠ b := by
      rintro rfl
      exact hne (h.key_eq hk hm)
    exact ⟨e, (erase_of_ne rev hb).trans he, rfl⟩
  · rintro ⟨e, he, rfl⟩
    obtain ⟨hb, he⟩ := of_erase he
    have hne : key e ≠ k := by
      rintro rfl
      exact hb (Option.some.inj ((h.of_rev he).symm.trans hk))
    exact (erase_of_ne m hne).trans (h.of_rev he)

end Inverse

end InverseMaps
