import CoinData.BuddyRequests

/-!
# Regions in any order

So far regions were attached one behind the other. Here a region is attached
wherever it is apart from the others, and it may be too small for a page.

A region which holds a page is put in its place among the free blocks of its
level, with one exception: if it lies in front of all of them, the block
before the first one is relinked, and there is none. A region which does not
hold a page has no level. What is returned for it is the largest number
there is, and the array of lists is indexed with it.
-/

/-! ## The system -/

namespace BuddyState

/-- **What callers respect**: regions are in the half of the address space
that is a process's, and apart from each other; the rest is as in
`Allows`. -/
def Offers (σ : BuddyState) : BuddyCall → Prop
  | .attach addr size _ => 0 < addr ∧ addr + size ≤ 2 ^ 63
      ∧ ∀ r ∈ σ.regions, r.1 + r.2 ≤ addr ∨ addr + size ≤ r.1
  | .malloc size => σ.Allows (.malloc size)
  | .free addr => σ.Allows (.free addr)
  | .write addr byte => σ.Allows (.write addr byte)

instance (σ : BuddyState) : (c : BuddyCall) → Decidable (σ.Offers c)
  | .attach addr size _ => inferInstanceAs (Decidable (0 < addr ∧ addr + size ≤ 2 ^ 63
      ∧ ∀ r ∈ σ.regions, r.1 + r.2 ≤ addr ∨ addr + size ≤ r.1))
  | .malloc size => inferInstanceAs (Decidable (σ.Allows (.malloc size)))
  | .free addr => inferInstanceAs (Decidable (σ.Allows (.free addr)))
  | .write addr byte => inferInstanceAs (Decidable (σ.Allows (.write addr byte)))

/-- Perform a call that is offered. -/
def nextOffered (σ : BuddyState) (c : BuddyCall) : Option BuddyState :=
  if σ.Offers c then (σ.run c).toOption else none

end BuddyState

/-- **The buddy system with regions in any order**, from a freshly
initialized head over a segment of `size` bytes. -/
def buddyAttachSystem (size : ℕ) : TransitionSystem BuddyState BuddyCall where
  init := (buddySystem size).init
  step σ c σ' := σ.Offers c ∧ σ.run c = .ok σ'

/-- The scripted runs of the system. -/
theorem BuddyState.step_of_nextOffered {n : ℕ} {σ σ' : BuddyState} {c : BuddyCall}
    (h : σ.nextOffered c = some σ') : (buddyAttachSystem n).step σ c σ' := by
  unfold BuddyState.nextOffered at h
  split at h
  · next hoffers => exact ⟨hoffers, Except.toOption_eq_some.mp h⟩
  · cases h

theorem BuddyState.reachable_of_offered {σ : BuddyState} {cs : List BuddyCall}
    {tr : List (BuddyState × BuddyCall)}
    (h : TransitionSystem.trace BuddyState.nextOffered [] BuddyState.fresh cs = some (tr, σ)) :
    (buddyAttachSystem 0).Reachable σ :=
  (TransitionSystem.Run.of_trace (fun _ _ _ h => BuddyState.step_of_nextOffered h)
    (.start ⟨rfl, rfl, rfl⟩) h).reachable

/-! ## What attaching should do -/

/-- **A block is added**: the list of level `k` has gained the block at `a`,
in its place, and the other lists are as they were. -/
structure Adds (s s' : Buddy) (k a : ℕ) : Prop where
  level_lt : k < maxBlockNum
  added : ∃ l₁ l₂, FreeList s k (l₁ ++ l₂) ∧ FreeList s' k (l₁ ++ a :: l₂)
    ∧ (l₁ ++ a :: l₂).Pairwise (· < ·)
  marked : MarkedFree s'.mem a
  others : ∀ j, j ≠ k → ∃ l, FreeList s j l ∧ FreeList s' j l

/-- **`buddyAttchMemory` does what it should**: it refuses a region which
does not hold a page, and adds any other one to the list of its level. -/
def AttachMeets (s : Buddy) (addr size pid : ℕ) : Prop :=
  ∃ result s', buddyAttchMemory s addr size pid = .ok (result, s')
    ∧ (result < 0 ∧ size < pageSize ∧ s' = s
      ∨ result = 0 ∧ Adds s s' (calculateBlockLevel size) addr)

/-- A region which does not hold a page has no list. -/
theorem buddyAttchMemory_small {s : Buddy} {addr size : ℕ} (pid : ℕ) (hpos : 0 < addr)
    (hsmall : size < pageSize) : buddyAttchMemory s addr size pid = .error .outOfBounds := by
  have hlevel : calculateBlockLevel size = 2 ^ 64 - 1 := if_pos hsmall
  unfold buddyAttchMemory
  rw [if_neg hpos.ne', hlevel]
  exact if_pos (by decide)

/-- The place of an address in a list. -/
theorem exists_place {l : List Block} {a : ℕ} (hs : l.Pairwise fun b c => b.addr < c.addr)
    (hne : ∀ c ∈ l, c.addr ≠ a) : ∃ l₁ l₂, l = l₁ ++ l₂ ∧ (∀ c ∈ l₁, c.addr < a)
      ∧ ∀ c ∈ l₂, a < c.addr := by
  induction l with
  | nil => exact ⟨[], [], rfl, nofun, nofun⟩
  | cons d l ih =>
    obtain ⟨hd, hs⟩ := List.pairwise_cons.mp hs
    obtain ⟨hda, hne⟩ := List.forall_mem_cons.mp hne
    rcases lt_or_gt_of_ne hda with hlow | hhigh
    · obtain ⟨l₁, l₂, rfl, h₁, h₂⟩ := ih hs hne
      exact ⟨d :: l₁, l₂, rfl, List.forall_mem_cons.mpr ⟨hlow, h₁⟩, h₂⟩
    · exact ⟨[], d :: l, rfl, nofun,
        List.forall_mem_cons.mpr ⟨hhigh, fun c hc => hhigh.trans (hd c hc)⟩⟩

namespace BuddyState

variable {σ σ' : BuddyState} {R : List Block} {A : Pool} {n addr size : ℕ}

/-- The lists of a pool are in the order of the addresses. -/
theorem Serves.sorted (h : σ.Serves R A) (k : ℕ) :
    ((A.free k).map Block.addr).Pairwise (· < ·) := by
  obtain ⟨live, -, hinv⟩ := h
  exact List.pairwise_map.mpr (hinv.pool.sorted k)

/-- **What attaching a region of at least a page does**: the free blocks of
its level lie before and behind it. If all of them lie behind it, a null
pointer is dereferenced, otherwise the region is put between them. -/
theorem Serves.attach (h : σ.Serves R A) (pid : ℕ) (hpage : pageSize ≤ size)
    (hoffers : σ.Offers (.attach addr size pid)) :
    ∃ l₁ l₂, A.free (calculateBlockLevel size) = l₁ ++ l₂ ∧ (∀ c ∈ l₁, c.addr < addr)
      ∧ (∀ c ∈ l₂, addr < c.addr)
      ∧ (l₁ = [] ∧ l₂ ≠ [] ∧ buddyAttchMemory σ.buddy addr size pid = .error .nullDeref
        ∨ (l₁ = [] → l₂ = []) ∧ ∃ s' r,
          buddyAttchMemory σ.buddy addr size pid = .ok (0, s') ∧ r.addr = addr
          ∧ (BuddyState.mk s' ((addr, size) :: σ.regions) σ.live).Serves (r :: R)
            ⟨Function.update A.free (calculateBlockLevel size) (l₁ ++ r :: l₂), A.used⟩) := by
  obtain ⟨live, hlive, hinv⟩ := h
  obtain ⟨hpos, hstop, hapart⟩ := hoffers
  obtain ⟨r, hraddr, hrlevel, hrfirst, -, hridx, hrpid, hrstop, hregions⟩ :=
    hinv.newRegion pid hpos hpage (by omega) (by omega) hapart
  have hne : ∀ c ∈ A.free (calculateBlockLevel size), c.addr ≠ addr := by
    intro c hc
    obtain ⟨r', hr', -, hlow, hhigh⟩ := hinv.pool.region hinv.regions (hinv.pool.mem_of_free hc)
    have hlt := c.addr_lt_stop
    have hlt' := r.addr_lt_stop
    rcases (List.pairwise_cons.mp hregions.apart).1 r' hr' with hbelow | habove
    · omega
    · omega
  obtain ⟨l₁, l₂, hsplit, h₁, h₂⟩ := exists_place (hinv.pool.sorted _) hne
  refine ⟨l₁, l₂, hsplit, h₁, h₂, ?_⟩
  by_cases hfront : l₁ = [] → l₂ = []
  · obtain ⟨s', r', hcall, hraddr', -, -, hinv'⟩ := hinv.attachAmong pid hpos hpage (by omega)
      (by omega) hapart hsplit h₁ h₂ hfront
    exact Or.inr ⟨hfront, s', r', hcall, hraddr', live, hlive, hinv'⟩
  · push Not at hfront
    obtain ⟨rfl, hne₂⟩ := hfront
    obtain ⟨e, l, rfl⟩ := List.exists_cons_of_ne_nil hne₂
    rw [List.nil_append, ← hrlevel] at hsplit
    exact Or.inl ⟨rfl, hne₂, buddyAttchMemory_front hinv.pool hinv.free hrlevel hraddr hrfirst hridx
      hrpid hregions hsplit (h₂ e List.mem_cons_self)⟩

/-- **Every call that is offered keeps a pool served.** -/
theorem Serves.offered (h : σ.Serves R A) {c : BuddyCall} (hoffers : σ.Offers c)
    (hrun : σ.run c = .ok σ') : ∃ R' A', σ'.Serves R' A' := by
  cases c with
  | attach addr size pid =>
    dsimp only [BuddyState.run] at hrun
    rcases lt_or_ge size pageSize with hsmall | hpage
    · rw [buddyAttchMemory_small pid hoffers.1 hsmall] at hrun
      cases hrun
    · obtain ⟨l₁, l₂, -, -, -, ⟨-, -, hcall⟩ | ⟨-, s', r, hcall, -, hserves⟩⟩ :=
        h.attach pid hpage hoffers
      · rw [hcall] at hrun
        cases hrun
      · rw [hcall] at hrun
        cases hrun
        exact ⟨_, _, hserves⟩
  | malloc size =>
    have hallows : σ.Allows (.malloc size) := hoffers
    exact h.step hallows hrun
  | free addr =>
    have hallows : σ.Allows (.free addr) := hoffers
    exact h.step hallows hrun
  | write addr byte =>
    have hallows : σ.Allows (.write addr byte) := hoffers
    exact h.step hallows hrun

/-- **Every reachable state serves a pool.** -/
theorem exists_serves_offered (hσ : (buddyAttachSystem n).Reachable σ) :
    ∃ R A, σ.Serves R A := by
  refine hσ.invariant (I := fun σ => ∃ R A, σ.Serves R A) (fun σ hinit => ?_) ?_
  · have hinit' : (buddySystem n).init σ := hinit
    exact ⟨_, _, (Inv.init hinit').serves⟩
  · rintro σ c σ' - ⟨R, A, h⟩ ⟨hoffers, hrun⟩
    exact h.offered hoffers hrun

/-- **Attaching does what it should exactly if** the region holds a page,
and is not in front of all free blocks of its level. -/
theorem Serves.attachMeets_iff (h : σ.Serves R A) {pid : ℕ}
    (hoffers : σ.Offers (.attach addr size pid)) :
    AttachMeets σ.buddy addr size pid ↔ pageSize ≤ size
      ∧ (σ.buddy.head.list (calculateBlockLevel size) = 0
        ∨ σ.buddy.head.list (calculateBlockLevel size) < addr) := by
  rcases lt_or_ge size pageSize with hsmall | hpage
  · refine iff_of_false ?_ fun hmeets => not_le.mpr hsmall hmeets.1
    rintro ⟨result, s', hcall, -⟩
    rw [buddyAttchMemory_small pid hoffers.1 hsmall] at hcall
    cases hcall
  rw [and_iff_right hpage]
  have hlist := (h.freeList (calculateBlockLevel size)).linked.first_eq
  obtain ⟨l₁, l₂, hsplit, h₁, h₂, hcases⟩ := h.attach pid hpage hoffers
  rcases hcases with ⟨rfl, hne₂, hcall⟩ | ⟨hfront, s', r, hcall, hraddr, hserves⟩
  · -- the list begins behind the region
    obtain ⟨e, l, rfl⟩ := List.exists_cons_of_ne_nil hne₂
    rw [hsplit] at hlist
    change _ = e.addr at hlist
    have he := h₂ e List.mem_cons_self
    refine iff_of_false ?_ ?_
    · rintro ⟨result, s', hcall', -⟩
      rw [hcall] at hcall'
      cases hcall'
    · rw [hlist]
      omega
  · have hlevel : calculateBlockLevel size < maxBlockNum :=
      (calculateBlockLevel_spec hpage (by have := hoffers.2.1; omega)).1.trans (by decide)
    have hself := hserves.freeList (calculateBlockLevel size)
    have hsorted := hserves.sorted (calculateBlockLevel size)
    dsimp only at hself hsorted
    rw [Function.update_self, List.map_append, List.map_cons, hraddr] at hself hsorted
    have hold := h.freeList (calculateBlockLevel size)
    rw [hsplit, List.map_append] at hold
    refine iff_of_true ⟨0, s', hcall, Or.inr ⟨rfl, hlevel, ⟨_, _, hold, hself, hsorted⟩, ?_,
      fun j hj => ?_⟩⟩ ?_
    · obtain ⟨live, -, hinv⟩ := hserves
      have hmem : r ∈ Function.update A.free (calculateBlockLevel size) (l₁ ++ r :: l₂)
          (calculateBlockLevel size) := by
        rw [Function.update_self]
        exact List.mem_append_right l₁ List.mem_cons_self
      exact hraddr ▸ hinv.free.marked _ r hmem
    · have hother := hserves.freeList j
      dsimp only at hother
      rw [Function.update_of_ne hj] at hother
      exact ⟨_, h.freeList j, hother⟩
    · rw [hsplit] at hlist
      cases l₁ with
      | cons d l₁ =>
        change _ = d.addr at hlist
        rw [hlist]
        exact Or.inr (h₁ d List.mem_cons_self)
      | nil =>
        obtain rfl := hfront rfl
        exact Or.inl hlist

/-- **`buddyAttchMemory` on a region that is apart from the others**, in
every state reached, does what it should exactly if the region holds a page,
and if the list of its level is empty or begins in front of it. -/
theorem buddyAttach_meets_iff (hσ : (buddyAttachSystem n).Reachable σ) {pid : ℕ}
    (hoffers : σ.Offers (.attach addr size pid)) :
    AttachMeets σ.buddy addr size pid ↔ pageSize ≤ size
      ∧ (σ.buddy.head.list (calculateBlockLevel size) = 0
        ∨ σ.buddy.head.list (calculateBlockLevel size) < addr) := by
  obtain ⟨R, A, h⟩ := exists_serves_offered hσ
  exact h.attachMeets_iff hoffers

/-- A region between two others, whose blocks are all of one level. -/
theorem buddyAttach_meets_iff_between : ∃ σ, (buddyAttachSystem 0).Reachable σ
    ∧ σ.regions = [(0x40000, 0x1000), (0x10000, 0x1000)]
    ∧ (AttachMeets σ.buddy 0x20000 0x1fff 7 ↔ True) := by
  have hrun : (TransitionSystem.trace nextOffered [] fresh
      [.attach 0x10000 0x1000 7, .attach 0x40000 0x1000 7]).map
      (fun r => (r.2.regions, r.2.buddy.head.list (calculateBlockLevel 0x1fff)))
      = some ([(0x40000, 0x1000), (0x10000, 0x1000)], 0x10000) := by
    decide +kernel
  obtain ⟨⟨tr, σ⟩, hr, heq⟩ := Option.map_eq_some_iff.mp hrun
  obtain ⟨hregions, hlist⟩ := Prod.mk.inj heq
  dsimp only at hregions hlist
  have hσ := reachable_of_offered hr
  have hoffers : σ.Offers (.attach 0x20000 0x1fff 7) := by
    dsimp only [Offers]
    rw [hregions]
    decide
  refine ⟨σ, hσ, hregions, (buddyAttach_meets_iff hσ hoffers).trans (iff_true_intro ?_)⟩
  rw [hlist]
  decide

/-- **A region in front of another one, and one which is too small**: a null
pointer is dereferenced, and the array of lists is indexed out of range. -/
theorem buddyAttach_not_meets : ∃ σ, (buddyAttachSystem 0).Reachable σ
    ∧ σ.regions = [(0x20000, 0x1000)]
    ∧ σ.Offers (.attach 0x10000 0x1000 7) ∧ ¬ AttachMeets σ.buddy 0x10000 0x1000 7
    ∧ σ.Offers (.attach 0x30000 100 7) ∧ ¬ AttachMeets σ.buddy 0x30000 100 7 := by
  have hrun : (TransitionSystem.trace nextOffered [] fresh [.attach 0x20000 0x1000 7]).map
      (fun r => (r.2.regions, r.2.buddy.head.list (calculateBlockLevel 0x1000)))
      = some ([(0x20000, 0x1000)], 0x20000) := by
    decide +kernel
  obtain ⟨⟨tr, σ⟩, hr, heq⟩ := Option.map_eq_some_iff.mp hrun
  obtain ⟨hregions, hlist⟩ := Prod.mk.inj heq
  dsimp only at hregions hlist
  have hσ := reachable_of_offered hr
  obtain ⟨R, A, hserves⟩ := exists_serves_offered hσ
  have hfront : σ.Offers (.attach 0x10000 0x1000 7) := by
    dsimp only [Offers]
    rw [hregions]
    decide
  have hsmall : σ.Offers (.attach 0x30000 100 7) := by
    dsimp only [Offers]
    rw [hregions]
    decide
  refine ⟨σ, hσ, hregions, hfront, fun hmeets => ?_, hsmall, fun hmeets => ?_⟩
  · obtain ⟨-, hzero | hlt⟩ := (hserves.attachMeets_iff hfront).mp hmeets
    · rw [hlist] at hzero
      cases hzero
    · rw [hlist] at hlt
      exact absurd hlt (by decide)
  · exact absurd ((hserves.attachMeets_iff hsmall).mp hmeets).1 (by decide)

end BuddyState
