import Mathlib.Tactic.Common
import Mathlib.Data.List.Basic
import Mathlib.Data.List.Nodup

/-!
# Doubly linked lists in a heap

A doubly linked list is a family of cells with a link in each direction.
`Linked prev next before p l after` says that following `next` from `p`
visits the cells of `l` in order and ends at `after`, and that each cell's
`prev` is the cell visited before it, the first one's being `before`. The
links are two functions on cells, so nothing depends on how cells store
them.

Inserting and removing a cell each rewrite the links of at most three
cells. `Linked.insert` and `Linked.remove` state what those rewrites must
leave, once for a cell at the front, in the middle and at the end.
-/

variable {α : Type*} {prev next prev' next' : α → α}
variable {before before' p after after' a b : α} {l l₁ l₂ : List α}

/-- **A segment of a doubly linked list**: from `p`, entered from `before`,
the cells of `l` in order, left to `after`. -/
def Linked (prev next : α → α) : α → α → List α → α → Prop
  | _, p, [], after => p = after
  | before, p, a :: l, after =>
    p = a ∧ prev a = before ∧ Linked prev next a (next a) l after

/-- The cells that following `next` from `p` visits before `null`. -/
inductive Reaches (next : α → α) (null : α) : α → α → Prop
  | here {p : α} : p ≠ null → Reaches next null p p
  | there {p a : α} : p ≠ null → Reaches next null (next p) a → Reaches next null p a

namespace Linked

@[simp] theorem nil_iff : Linked prev next before p [] after ↔ p = after := Iff.rfl

theorem cons_iff : Linked prev next before p (a :: l) after
    ↔ p = a ∧ prev a = before ∧ Linked prev next a (next a) l after := Iff.rfl

/-- A segment starts at its first cell. -/
theorem first_eq (h : Linked prev next before p l after) :
    p = l.headD after := by
  cases l with
  | nil => exact h
  | cons a l => exact h.1

/-- **A segment splits where the list does.** -/
theorem append_iff : Linked prev next before p (l₁ ++ l₂) after
    ↔ ∃ mid, Linked prev next before p l₁ mid
        ∧ Linked prev next (l₁.getLastD before) mid l₂ after := by
  induction l₁ generalizing before p with
  | nil =>
    rw [List.nil_append, List.getLastD_nil]
    exact ⟨fun h => ⟨p, rfl, h⟩, fun ⟨_, hp, h⟩ => hp ▸ h⟩
  | cons a l₁ ih =>
    rw [List.cons_append, cons_iff, ih, List.getLastD_cons]
    constructor
    · rintro ⟨hp, hb, mid, h₁, h₂⟩
      exact ⟨mid, ⟨hp, hb, h₁⟩, h₂⟩
    · rintro ⟨mid, ⟨hp, hb, h₁⟩, h₂⟩
      exact ⟨hp, hb, mid, h₁, h₂⟩

/-- A segment depends only on the links of its own cells. -/
theorem congr (hp : ∀ a ∈ l, prev' a = prev a) (hn : ∀ a ∈ l, next' a = next a)
    (h : Linked prev next before p l after) :
    Linked prev' next' before p l after := by
  induction l generalizing before p with
  | nil => exact h
  | cons a l ih =>
    obtain ⟨hpa, hb, hl⟩ := h
    refine ⟨hpa, (hp a List.mem_cons_self).trans hb, ?_⟩
    rw [hn a List.mem_cons_self]
    exact ih (fun c hc => hp c (List.mem_cons_of_mem a hc))
      (fun c hc => hn c (List.mem_cons_of_mem a hc)) hl

/-- The link back from a cell is the cell before it. -/
theorem prev_of_append (h : Linked prev next before p (l₁ ++ a :: l₂) after) :
    prev a = l₁.getLastD before := by
  obtain ⟨_, _, h₂⟩ := append_iff.mp h
  exact h₂.2.1

/-- The link out of a cell is the cell after it. -/
theorem next_of_append (h : Linked prev next before p (l₁ ++ a :: l₂) after) :
    next a = l₂.headD after := by
  obtain ⟨_, _, h₂⟩ := append_iff.mp h
  exact h₂.2.2.first_eq

/-- The first cell links back to what the segment is entered from. -/
theorem prev_of_head? (h : Linked prev next before p l after) (ha : l.head? = some a) :
    prev a = before := by
  obtain ⟨l, rfl⟩ := List.head?_eq_some_iff.mp ha
  exact h.2.1

/-- The last cell links to what the segment is left to. -/
theorem next_of_getLast? (h : Linked prev next before p l after) (ha : l.getLast? = some a) :
    next a = after := by
  obtain ⟨l, rfl⟩ := List.getLast?_eq_some_iff.mp ha
  exact h.next_of_append

/-- **The two links are mutually inverse** on the cells of a list. -/
theorem next_eq_iff {null : α} (hnull : null ∉ l) (h : Linked prev next null p l null)
    (ha : a ∈ l) (hb : b ∈ l) : next a = b ↔ prev b = a := by
  constructor
  · rintro rfl
    obtain ⟨l₁, l₂, rfl⟩ := List.append_of_mem ha
    have hnext := h.next_of_append
    cases l₂ with
    | nil =>
      rw [hnext] at hb
      exact absurd hb hnull
    | cons c l₂ =>
      rw [hnext, List.headD_cons]
      rw [List.append_cons] at h
      exact h.prev_of_append.trans (List.getLastD_concat ..)
  · rintro rfl
    obtain ⟨l₁, l₂, rfl⟩ := List.append_of_mem hb
    have hprev := h.prev_of_append
    rcases List.eq_nil_or_concat l₁ with rfl | ⟨l, c, rfl⟩
    · rw [hprev] at ha
      exact absurd ha hnull
    · rw [List.concat_eq_append] at h hprev
      rw [hprev, List.getLastD_concat]
      rw [List.append_assoc] at h
      exact h.next_of_append

/-- **The walk visits the cells of the list**, all of them and nothing
else. -/
theorem reaches_iff {null : α} (hnull : null ∉ l)
    (h : Linked prev next before p l null) : Reaches next null p a ↔ a ∈ l := by
  induction l generalizing before p with
  | nil =>
    refine ⟨fun hr => ?_, fun hm => by cases hm⟩
    cases hr with
    | here hne => exact absurd h hne
    | there hne _ => exact absurd h hne
  | cons c l ih =>
    obtain ⟨rfl, _, hl⟩ := h
    obtain ⟨hc, hnull'⟩ := List.ne_and_not_mem_of_not_mem_cons hnull
    constructor
    · intro hr
      cases hr with
      | here _ => exact List.mem_cons_self
      | there _ hr => exact List.mem_cons_of_mem p ((ih hnull' hl).mp hr)
    · intro hm
      rcases List.mem_cons.mp hm with rfl | hm
      · exact .here (Ne.symm hc)
      · exact .there (Ne.symm hc) ((ih hnull' hl).mpr hm)

section Relinking

variable [DecidableEq α]

/-- Redirecting the way in of a segment. -/
theorem relink_first (hd : l.Nodup) (h : Linked prev next before p l after)
    (hp : ∀ a ∈ l, prev' a = if l.head? = some a then before' else prev a)
    (hn : ∀ a ∈ l, next' a = next a) :
    Linked prev' next' before' p l after := by
  cases l with
  | nil => exact h
  | cons a l =>
    obtain ⟨hpa, _, hl⟩ := h
    refine ⟨hpa, ?_, ?_⟩
    · rw [hp a List.mem_cons_self, List.head?_cons, if_pos rfl]
    · rw [hn a List.mem_cons_self]
      refine hl.congr (fun c hc => ?_) (fun c hc => hn c (List.mem_cons_of_mem a hc))
      have hne : a ≠ c := fun he => (List.nodup_cons.mp hd).1 (he ▸ hc)
      rw [hp c (List.mem_cons_of_mem a hc), List.head?_cons,
        if_neg (fun he => hne (Option.some.inj he))]

/-- Redirecting the way out of a segment. -/
theorem relink_last (hd : l.Nodup) (h : Linked prev next before p l after)
    (hp : ∀ a ∈ l, prev' a = prev a)
    (hn : ∀ a ∈ l, next' a = if l.getLast? = some a then after' else next a) :
    Linked prev' next' before (if l = [] then after' else p) l after' := by
  induction l generalizing before p with
  | nil => rfl
  | cons a l ih =>
    obtain ⟨hpa, hb, hl⟩ := h
    obtain ⟨ha, hd'⟩ := List.nodup_cons.mp hd
    rw [if_neg (List.cons_ne_nil a l)]
    refine ⟨hpa, (hp a List.mem_cons_self).trans hb, ?_⟩
    have hn' : ∀ c ∈ l, next' c = if l.getLast? = some c then after' else next c := by
      intro c hc
      rw [hn c (List.mem_cons_of_mem a hc)]
      cases l with
      | nil => cases hc
      | cons d l => rw [List.getLast?_cons_cons]
    have hrec := ih hd' hl (fun c hc => hp c (List.mem_cons_of_mem a hc)) hn'
    cases l with
    | nil =>
      rw [hn a List.mem_cons_self, List.getLast?_singleton, if_pos rfl]
      exact hrec
    | cons d l =>
      have hne : (a :: d :: l).getLast? ≠ some a := by
        rw [List.getLast?_cons_cons]
        exact fun he => ha (List.mem_of_getLast? he)
      rw [hn a List.mem_cons_self, if_neg hne]
      rw [if_neg (List.cons_ne_nil d l)] at hrec
      exact hrec

/-- **Inserting a cell.** The new cell links to its neighbours, the cell
before it links forward to it, the cell after it links back to it, and no
other link changes. -/
theorem insert (hd : (l₁ ++ l₂).Nodup)
    (h : Linked prev next before p (l₁ ++ l₂) after)
    (hpb : prev' b = l₁.getLastD before) (hnb : next' b = l₂.headD after)
    (hp : ∀ a ∈ l₁ ++ l₂, prev' a = if l₂.head? = some a then b else prev a)
    (hn : ∀ a ∈ l₁ ++ l₂, next' a = if l₁.getLast? = some a then b else next a) :
    Linked prev' next' before (if l₁ = [] then b else p) (l₁ ++ b :: l₂) after := by
  obtain ⟨mid, h₁, h₂⟩ := append_iff.mp h
  have hdis : ∀ c ∈ l₁, c ∉ l₂ := fun c hc₁ hc₂ =>
    (List.disjoint_of_nodup_append hd) hc₁ hc₂
  refine append_iff.mpr ⟨b, ?_, rfl, hpb, ?_⟩
  · refine h₁.relink_last (List.Nodup.of_append_left hd) (fun c hc => ?_)
      (fun c hc => hn c (List.mem_append_left l₂ hc))
    rw [hp c (List.mem_append_left l₂ hc),
      if_neg (fun he => hdis c hc (List.mem_of_head? he))]
  · rw [hnb, ← h₂.first_eq]
    refine h₂.relink_first (List.Nodup.of_append_right hd)
      (fun c hc => hp c (List.mem_append_right l₁ hc)) (fun c hc => ?_)
    rw [hn c (List.mem_append_right l₁ hc),
      if_neg (fun he => hdis c (List.mem_of_getLast? he) hc)]

/-- **Removing a cell.** Its neighbours link to each other, and no other
link of the remaining cells changes. -/
theorem remove (hd : (l₁ ++ l₂).Nodup)
    (h : Linked prev next before p (l₁ ++ b :: l₂) after)
    (hp : ∀ a ∈ l₁ ++ l₂, prev' a = if l₂.head? = some a then prev b else prev a)
    (hn : ∀ a ∈ l₁ ++ l₂, next' a = if l₁.getLast? = some a then next b else next a) :
    Linked prev' next' before (if l₁ = [] then next b else p) (l₁ ++ l₂) after := by
  obtain ⟨mid, h₁, _, hprev, h₂⟩ := append_iff.mp h
  have hdis : ∀ c ∈ l₁, c ∉ l₂ := fun c hc₁ hc₂ =>
    (List.disjoint_of_nodup_append hd) hc₁ hc₂
  refine append_iff.mpr ⟨next b, ?_, ?_⟩
  · refine h₁.relink_last (List.Nodup.of_append_left hd) (fun c hc => ?_)
      (fun c hc => hn c (List.mem_append_left l₂ hc))
    rw [hp c (List.mem_append_left l₂ hc),
      if_neg (fun he => hdis c hc (List.mem_of_head? he))]
  · rw [← hprev]
    refine h₂.relink_first (List.Nodup.of_append_right hd)
      (fun c hc => hp c (List.mem_append_right l₁ hc)) (fun c hc => ?_)
    rw [hn c (List.mem_append_right l₁ hc),
      if_neg (fun he => hdis c (List.mem_of_getLast? he) hc)]

end Relinking

end Linked
