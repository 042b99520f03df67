import Mathlib.Data.Set.Finite.Basic
import Mathlib.Logic.Relation
import Mathlib.Order.WellFounded

/-!
# Shared ownership

Things own things, and some are owned from outside: they are *roots*. What
is to be kept is what can be reached from a root. An implementation which
counts owners keeps something else: what has an owner. The two are the same
as long as nothing owns itself through others, since then who goes back from
owner to owner comes to a root (`Ownership.Acyclic.kept_iff`).
-/

/-- **Who owns what**: the things owned from outside, and by each other. -/
structure Ownership (α : Type*) where
  root : α → Prop
  owns : α → α → Prop

namespace Ownership

variable {α : Type*} {G G' : Ownership α} {x y : α}

/-- A thing can be reached from a root. -/
def Reachable (G : Ownership α) (x : α) : Prop :=
  ∃ r, G.root r ∧ Relation.ReflTransGen G.owns r x

theorem Reachable.of_root (h : G.root x) : G.Reachable x := ⟨x, h, .refl⟩

theorem Reachable.owned (h : G.Reachable x) (hxy : G.owns x y) : G.Reachable y := by
  obtain ⟨r, hr, hpath⟩ := h
  exact ⟨r, hr, hpath.tail hxy⟩

/-- What is reachable is reachable from an induction over the paths. -/
theorem Reachable.induction {P : α → Prop} (hroot : ∀ x, G.root x → P x)
    (howns : ∀ x y, P x → G.owns x y → P y) (h : G.Reachable x) : P x := by
  obtain ⟨r, hr, hpath⟩ := h
  induction hpath with
  | refl => exact hroot r hr
  | tail _ hxy ih => exact howns _ _ ih hxy

/-- Where the roots of one are reachable in the other, and so is what their
reachable things own, all is. -/
theorem Reachable.mono (hroot : ∀ x, G.root x → G'.Reachable x)
    (howns : ∀ x y, G.Reachable x → G'.Reachable x → G.owns x y → G'.Reachable y)
    (h : G.Reachable x) : G'.Reachable x := by
  refine (h.induction (P := fun x => G.Reachable x ∧ G'.Reachable x) (fun x hx => ?_)
    fun x y hx hxy => ?_).2
  · exact ⟨.of_root hx, hroot x hx⟩
  · exact ⟨hx.1.owned hxy, howns x y hx.1 hx.2 hxy⟩

/-- Nothing owns itself through others. -/
def Acyclic (G : Ownership α) : Prop := ∀ x, ¬ Relation.TransGen G.owns x x

/-- Fewer owners make no circle. -/
theorem Acyclic.mono (h : G.Acyclic) (howns : ∀ x y, G'.owns x y → G.owns x y) : G'.Acyclic :=
  fun x hx => h x (Relation.TransGen.mono howns _ _ hx)

/-- Where nothing owns itself through others, who goes back from owner to
owner among finitely many things comes to an end. -/
theorem Acyclic.wellFounded (h : G.Acyclic) {K : Set α} (hfin : K.Finite) :
    WellFounded fun x y : K => Relation.TransGen G.owns x.1 y.1 := by
  have := hfin.to_subtype
  have htrans : IsTrans K fun x y => Relation.TransGen G.owns x.1 y.1 :=
    ⟨fun _ _ _ hxy hyz => hxy.trans hyz⟩
  have hirrefl : Std.Irrefl fun x y : K => Relation.TransGen G.owns x.1 y.1 :=
    ⟨fun x => h x.1⟩
  exact Finite.wellFounded_of_trans_of_irrefl _

/-- **Counting owners is tracing.** If what is kept is finite, contains
every root and what it owns, and if each kept thing is a root or has an
owner that is kept, then it is what can be reached. -/
theorem Acyclic.kept_iff (h : G.Acyclic) {K : Set α} (hfin : K.Finite)
    (hroot : ∀ x, G.root x → x ∈ K) (howns : ∀ x ∈ K, ∀ y, G.owns x y → y ∈ K)
    (howned : ∀ y ∈ K, G.root y ∨ ∃ x ∈ K, G.owns x y) :
    x ∈ K ↔ G.Reachable x := by
  refine ⟨fun hx => ?_, fun hx => hx.induction hroot fun x y hx hxy => howns x hx y hxy⟩
  -- back from owner to owner
  have key : ∀ z : K, G.Reachable z.1 := by
    intro z
    induction z using (h.wellFounded hfin).induction with
    | _ z ih =>
      rcases howned z.1 z.2 with hz | ⟨y, hy, hyz⟩
      · exact .of_root hz
      · exact (ih ⟨y, hy⟩ (.single hyz)).owned hyz
  exact key ⟨x, hx⟩

/-- **A thing does not need what it owns itself** in order to be reached. -/
theorem Acyclic.reachable_of_others (h : G.Acyclic) (hx : G.Reachable x)
    (hroot : ∀ y, G.root y → G'.root y) (howns : ∀ y z, y ≠ x → G.owns y z → G'.owns y z) :
    G'.Reachable x := by
  -- what is lost can be reached from the thing
  have key : ∀ {y}, G.Reachable y → G'.Reachable y ∨ Relation.TransGen G.owns x y := by
    intro y hy
    refine hy.induction (P := fun y => G'.Reachable y ∨ Relation.TransGen G.owns x y)
      (fun y hy => Or.inl (.of_root (hroot y hy))) fun y z hy hyz => ?_
    by_cases hxy : y = x
    · rw [hxy] at hyz
      exact Or.inr (.single hyz)
    · exact hy.imp (fun hy => hy.owned (howns y z hxy hyz)) fun hy => hy.tail hyz
  exact (key hx).resolve_right (h x)

/-- **A change of the owner.** If `x` is given from one owner to another one,
who could be reached, and does not come to own itself by that, then nothing
is lost. -/
theorem Acyclic.reachable_of_moved (h : G'.Acyclic)
    (hroot : ∀ y, G.root y → G'.root y ∨ y = x)
    (howns : ∀ y z, G.owns y z → G'.owns y z ∨ z = x)
    (hnew : G'.root x ∨ ∃ o, G.Reachable o ∧ G'.owns o x) (hy : G.Reachable y) :
    G'.Reachable y := by
  -- what is lost at first can be reached from `x`
  have key : ∀ {y}, G.Reachable y → G'.Reachable y ∨ Relation.ReflTransGen G'.owns x y := by
    intro y hy
    refine hy.induction (P := fun y => G'.Reachable y ∨ Relation.ReflTransGen G'.owns x y)
      (fun y hy => ?_) fun y z hy hyz => ?_
    · rcases hroot y hy with hy | rfl
      · exact Or.inl (.of_root hy)
      · exact Or.inr .refl
    · rcases howns y z hyz with hyz | rfl
      · exact hy.imp (fun hy => hy.owned hyz) fun hy => hy.tail hyz
      · exact Or.inr .refl
  have hx : G'.Reachable x := by
    rcases hnew with hx | ⟨o, ho, hox⟩
    · exact .of_root hx
    · refine ((key ho).resolve_right fun hpath => ?_).owned hox
      exact h x (.tail' hpath hox)
  rcases key hy with hy | hpath
  · exact hy
  · obtain ⟨r, hr, hrx⟩ := hx
    exact ⟨r, hr, hrx.trans hpath⟩

end Ownership
