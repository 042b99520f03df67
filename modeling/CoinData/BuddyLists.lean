import CoinData.BuddyAttach

/-!
# The lists of a buddy system

The links of free blocks are in their headers, and are rewritten whenever a block is
attached, taken, cut, merged or put in its place: each time the block is initialized
anew, with both neighbours as arguments. One link back that is left as it was would lead
a later merge astray.

None is. In every state that is reached, by whichever calls, each list begins without a
link back and ends without a link forward, is in the order of the addresses, and has
links which lead back the way they came (`WellLinked`).
-/

/-- **The list of level `k` is well linked**, and visits the blocks at `l`. -/
structure WellLinked (s : Buddy) (k : ℕ) (l : List ℕ) : Prop where
  /-- These are the blocks that following the list visits, in the order of their
  addresses. -/
  visits : ∀ a, Reaches (nextLink s.mem) 0 (s.head.list k) a ↔ a ∈ l
  increasing : l.Pairwise (· < ·)
  /-- It begins at the first block, and leads from each one to the one behind it. -/
  head_eq : s.head.list k = l.headD 0
  next_eq : ∀ l₁ a b l₂, l = l₁ ++ a :: b :: l₂ → nextLink s.mem a = b
  /-- The links are mutually inverse. -/
  inverse : ∀ a ∈ l, ∀ b ∈ l, nextLink s.mem a = b ↔ prevLink s.mem b = a
  /-- Nothing is in front of the first block, and nothing behind the last one. -/
  previous_first : ∀ a, l.head? = some a → prevLink s.mem a = 0
  next_last : ∀ a, l.getLast? = some a → nextLink s.mem a = 0
  /-- The blocks are free, and of the level. -/
  isFree : ∀ a ∈ l, (blockHead s.mem a).isFree = 1
  level : ∀ a ∈ l, (blockHead s.mem a).level = k

namespace BuddyState

variable {σ : BuddyState} {R : List Block} {A : Pool} {n : ℕ}

/-- The lists of a state that represents a pool. -/
theorem Inv.wellLinked (h : σ.Inv R A) (k : ℕ) :
    WellLinked σ.buddy k ((A.free k).map Block.addr) := by
  have hlinked := h.free.linked k
  have hnull : 0 ∉ (A.free k).map Block.addr := by
    intro h0
    obtain ⟨b, hb, hb0⟩ := List.mem_map.mp h0
    exact h.regions.spaced.ne_zero (h.pool.place h.regions (h.pool.mem_of_free hb)) hb0
  exact {
    visits := fun a => hlinked.reaches_iff hnull
    increasing := List.pairwise_map.mpr (h.pool.sorted k)
    head_eq := hlinked.first_eq
    next_eq := by
      intro l₁ a b l₂ hl
      rw [hl] at hlinked
      exact hlinked.next_of_append
    inverse := fun a ha b hb => hlinked.next_eq_iff hnull ha hb
    previous_first := fun a ha => hlinked.prev_of_head? ha
    next_last := fun a ha => hlinked.next_of_getLast? ha
    isFree := by
      intro a ha
      obtain ⟨b, hb, rfl⟩ := List.mem_map.mp ha
      exact h.free.marked k b hb
    level := by
      intro a ha
      obtain ⟨b, hb, rfl⟩ := List.mem_map.mp ha
      rw [(h.free.holds k b hb).level]
      exact h.pool.level_eq k b hb }

/-- A call whose regions come in the order of their addresses is offered. -/
theorem Allows.offers {c : BuddyCall} (h : σ.Allows c) : σ.Offers c := by
  cases c with
  | attach addr size pid =>
    obtain ⟨hpos, -, hstop, hafter⟩ := h
    exact ⟨hpos, hstop, fun r hr => .inl (hafter r hr)⟩
  | malloc | free | write => exact h

/-- **All lists are well linked in every reachable state**, and regions that are attached
in the order of their addresses, requests of any size and releases do not fail there. -/
theorem buddy_wellLinked (hσ : (buddyAttachSystem n).Reachable σ) :
    (∀ k, ∃ l, WellLinked σ.buddy k l)
      ∧ ∀ c, σ.Allows c → ∃ σ', (buddyAttachSystem n).step σ c σ' := by
  obtain ⟨R, A, h⟩ := exists_serves_offered hσ
  refine ⟨fun k => ?_, fun c hallows => ?_⟩
  · obtain ⟨live, -, hinv⟩ := h
    exact ⟨_, hinv.wellLinked k⟩
  · obtain ⟨σ', -, -, hrun, -⟩ := h.returns hallows
    exact ⟨σ', hallows.offers, hrun⟩

/-- Two regions of two pages each. Three pages are allocated, and the first one is released
again. -/
theorem buddy_wellLinked_two_regions : ∃ σ, (buddyAttachSystem 0).Reachable σ
    ∧ σ.buddy.head.list 0 = 0x10000 ∧ nextLink σ.buddy.mem 0x10000 = 0x21000
    ∧ ∀ k, ∃ l, WellLinked σ.buddy k l := by
  have hrun : (TransitionSystem.trace nextOffered [] fresh
      [.attach 0x10000 0x2000 7, .attach 0x20000 0x2000 8, .malloc 100, .malloc 100,
        .malloc 100, .free 0x1003c]).map
      (fun r => (r.2.buddy.head.list 0, nextLink r.2.buddy.mem 0x10000))
      = some (0x10000, 0x21000) := by
    decide +kernel
  obtain ⟨⟨tr, σ⟩, hr, heq⟩ := Option.map_eq_some_iff.mp hrun
  obtain ⟨hlist, hnext⟩ := Prod.mk.inj heq
  have hσ := reachable_of_offered hr
  exact ⟨σ, hσ, hlist, hnext, (buddy_wellLinked hσ).1⟩

end BuddyState
