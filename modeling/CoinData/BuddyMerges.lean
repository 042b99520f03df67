import CoinData.BuddyAttach

/-!
# How often a release merges

The outer loop of `buddyFree` has no bound of its own: it ends when the block has been put
on a list. A turn that does not put it there has merged it with a buddy, and the block is
a level higher then. But a merge of two blocks of a region is a block of it again, which
is no larger than the region. So there are at most as many merges as there are levels
above the block, and the array of lists is never read beyond the level of the region.
-/

namespace Rises

variable {c j e k : ℕ} {turns : List FreeTurn}

/-- The levels of the turns, one after the other. -/
theorem levels (h : Rises c j turns e k) :
    turns.map FreeTurn.level = List.range' j turns.length := by
  induction h with
  | inserted => rfl
  | merged _ _ ih =>
    rw [List.map_cons, ih, List.length_cons, List.range'_succ]

/-- Each merge is one level up. -/
theorem level_eq (h : Rises c j turns e k) : j + turns.countP (fun t => t.after ≠ 0) = k := by
  induction h with
  | inserted => rfl
  | merged hd _ ih =>
    rw [List.countP_cons, if_pos (decide_eq_true hd), ← ih]
    omega

/-- No turn is above the last one. -/
theorem level_le (h : Rises c j turns e k) : ∀ t ∈ turns, t.level ≤ k := by
  induction h with
  | inserted =>
    intro t ht
    rw [List.mem_singleton.mp ht]
  | merged _ h ih =>
    have hle := h.level_eq
    refine List.forall_mem_cons.mpr ⟨?_, ih⟩
    dsimp only
    omega

/-- The last turn puts the block on its list. -/
theorem getLast?_eq (h : Rises c j turns e k) : turns.getLast? = some ⟨e, k, 0⟩ := by
  induction h with
  | inserted => rfl
  | merged _ _ ih => rw [List.getLast?_cons, ih, Option.getD_some]

end Rises

/-! ## The release -/

/-- `buddyFree`, with the turns of its outer loop. -/
def buddyFreeLogged (s : Buddy) (addr : ℕ) : Except Fault (Buddy × List FreeTurn) :=
  let head := addr - buddyCalculateBlockHeadSize
  if (blockHead s.mem head).isFree ≠ 0 then .error .abort
  else if !crc32Check s.mem head buddyCalculateBlockHeadSize then .error .abort
  else freeLoopLogged (maxBlockNum + 2) s head

/-- **What is logged is the call itself.** -/
theorem buddyFreeLogged_fst (s : Buddy) (addr : ℕ) :
    (buddyFreeLogged s addr).map Prod.fst = buddyFree s addr := by
  unfold buddyFreeLogged buddyFree
  dsimp only
  split
  · rfl
  · split
    · rfl
    · exact freeLoopLogged_fst _ s _

/-- **A release settles**: what its turns do with the block at `c`, in a region of level
`L`. -/
structure Settles (σ σ' : BuddyState) (c L : ℕ) (turns : List FreeTurn) : Prop where
  /-- From turn to turn the block goes one level up. -/
  levels : turns.map FreeTurn.level = List.range' (σ.level c) turns.length
  /-- There are no more merges than levels above the block. -/
  merges : σ.level c + turns.countP (fun t => t.after ≠ 0) ≤ L
  /-- The array of lists is read in range. -/
  bounded : ∀ t ∈ turns, t.level ≤ L
  level_lt : L < maxBlockNum
  /-- The last turn puts the block, with what it was merged with, on the list of its level
  and on no other one. -/
  inserted : ∃ t, turns.getLast? = some t ∧ t.after = 0
    ∧ t.head ≤ c ∧ σ.stop c ≤ t.head + 2 ^ t.level * pageSize
    ∧ ∀ k, σ'.OnList k t.head ↔ k = t.level

namespace BuddyState

variable {σ σ' : BuddyState} {R : List Block} {A : Pool} {b e : Block} {n addr a size k : ℕ}

/-- The list a free block is on. -/
theorem Serves.onList_iff (h : σ.Serves R A) (he : e ∈ A.free e.level) :
    σ.OnList k e.addr ↔ k = e.level := by
  obtain ⟨live, -, hinv⟩ := h
  have hlist : σ.OnList k e.addr ↔ ∃ b ∈ A.free k, b.addr = e.addr := hinv.onList_iff
  rw [hlist]
  constructor
  · rintro ⟨b, hb, hba⟩
    have hbe := hinv.pool.eq_of_addr hinv.regions (hinv.pool.mem_of_free hb)
      (hinv.pool.mem_of_free he) hba
    rw [← hbe]
    exact (hinv.pool.level_eq k b hb).symm
  · rintro rfl
    exact ⟨e, he, rfl⟩

/-- The level of the only region there is bounds all others. -/
theorem Serves.level_le (h : σ.Serves R A) (hregion : σ.regions = [(a, size)])
    (hb : b ∈ A.blocks) : b.level ≤ calculateBlockLevel size ∧ calculateBlockLevel size < 31 := by
  obtain ⟨live, -, hinv⟩ := h
  obtain ⟨r, hr, -, h₁, h₂⟩ := hinv.pool.region hinv.regions hb
  have hmem : (r.addr, r.level) ∈ R.map fun r => (r.addr, r.level) := List.mem_map_of_mem hr
  rw [← hinv.attached] at hmem
  dsimp only at hmem
  rw [hregion, List.map_singleton, List.mem_singleton] at hmem
  rw [← (Prod.mk.inj hmem).2]
  exact ⟨Block.level_le_of_within h₁ h₂, hinv.regions.level_lt r hr⟩

/-- **A release of a live allocation**, with its turns. -/
theorem Serves.freeLogged (h : σ.Serves R A) (hlive : ∃ e ∈ σ.live, e.1 = addr) :
    ∃ b σ' turns e, b ∈ A.used ∧ addr = b.addr + buddyCalculateBlockHeadSize
      ∧ σ.run (.free addr) = .ok σ' ∧ buddyFreeLogged σ.buddy addr = .ok (σ'.buddy, turns)
      ∧ σ'.regions = σ.regions
      ∧ σ'.Serves R ⟨Pool.release maxBlockNum A.free b, A.used.erase b⟩
      ∧ Rises b.addr b.level turns e.addr e.level
      ∧ e ∈ Pool.release maxBlockNum A.free b e.level ∧ e.addr ≤ b.addr ∧ b.stop ≤ e.stop := by
  obtain ⟨b, s', hb, hea, hcall, hserves, -⟩ := h.free hlive
  obtain ⟨live, -, hinv⟩ := h
  obtain ⟨s'', turns, e, hloop, hrises, he, haddr, hstop, -⟩ := freeLoopLogged_spec hinv.regions
    (hinv.pool.perm (List.perm_cons_erase hb)) hinv.free (hinv.held b hb)
    (show 31 ≤ b.level + maxBlockNum by unfold maxBlockNum; omega)
  have hlogged : buddyFreeLogged σ.buddy addr = .ok (s'', turns) := by
    unfold buddyFreeLogged
    rw [hea, Nat.add_sub_cancel]
    dsimp only
    rw [hinv.busy b hb, if_neg (by decide), (hinv.held b hb).crc32Check, if_neg (by decide)]
    exact hloop
  have hfst := buddyFreeLogged_fst σ.buddy addr
  rw [hlogged, hcall] at hfst
  cases hfst
  refine ⟨b, ⟨s'', σ.regions, σ.live.filter fun e => e.1 ≠ addr⟩, turns, e, hb, hea, ?_, hlogged,
    rfl, hserves, hrises, he, haddr, hstop⟩
  dsimp only [BuddyState.run]
  rw [hcall]
  rfl

/-- **A release comes to an end in every reachable state** with one region: it merges at
most up to the level of the region, and puts the block on one list. -/
theorem buddyFree_settles (hσ : (buddyAttachSystem n).Reachable σ)
    (hregion : σ.regions = [(a, size)]) (hlive : ∃ e ∈ σ.live, e.1 = addr) :
    ∃ σ' turns, σ.run (.free addr) = .ok σ'
      ∧ buddyFreeLogged σ.buddy addr = .ok (σ'.buddy, turns)
      ∧ Settles σ σ' (addr - buddyCalculateBlockHeadSize) (calculateBlockLevel size) turns := by
  obtain ⟨R, A, h⟩ := exists_serves_offered hσ
  obtain ⟨b, σ', turns, e, hb, rfl, hrun, hlogged, hregions, hserves, hrises, he, haddr, hstop⟩ :=
    h.freeLogged hlive
  have hblock : e ∈ (Pool.mk (Pool.release maxBlockNum A.free b) (A.used.erase b)).blocks := by
    obtain ⟨live, -, hinv⟩ := hserves
    exact hinv.pool.mem_of_free he
  obtain ⟨hle, hlt⟩ := hserves.level_le (hregions.trans hregion) hblock
  have hbl : σ.level b.addr = b.level ∧ σ.stop b.addr = b.stop := by
    obtain ⟨live, -, hinv⟩ := h
    exact ⟨hinv.level_eq (Pool.mem_of_used hb), hinv.stop_eq (Pool.mem_of_used hb)⟩
  refine ⟨σ', turns, hrun, hlogged, ?_⟩
  rw [Nat.add_sub_cancel]
  exact {
    levels := by
      rw [hbl.1]
      exact hrises.levels
    merges := by
      rw [hbl.1, hrises.level_eq]
      exact hle
    bounded := fun t ht => (hrises.level_le t ht).trans hle
    level_lt := hlt.trans (by decide)
    inserted := by
      refine ⟨_, hrises.getLast?_eq, rfl, haddr, ?_, fun k => hserves.onList_iff he⟩
      rw [hbl.2]
      exact hstop }

/-- A page of a region of four is released, and merged twice. -/
theorem buddyFree_settles_four_pages : ∃ σ σ' turns, (buddyAttachSystem 0).Reachable σ
    ∧ σ.run (.free 0x1003c) = .ok σ'
    ∧ buddyFreeLogged σ.buddy 0x1003c = .ok (σ'.buddy, turns)
    ∧ Settles σ σ' 0x10000 2 turns := by
  have hrun : (TransitionSystem.trace nextOffered [] fresh
      [.attach 0x10000 0x4000 7, .malloc 100]).map (fun r => (r.2.regions, r.2.live))
      = some ([(0x10000, 0x4000)], [(0x1003c, 100)]) := by
    decide +kernel
  obtain ⟨⟨tr, σ⟩, hr, heq⟩ := Option.map_eq_some_iff.mp hrun
  obtain ⟨hregions, hlive⟩ := Prod.mk.inj heq
  dsimp only at hregions hlive
  have hσ := reachable_of_offered hr
  obtain ⟨σ', turns, hcall, hlogged, hsettles⟩ := buddyFree_settles hσ hregions
    (show ∃ e ∈ σ.live, e.1 = 0x1003c by rw [hlive]; decide)
  exact ⟨σ, σ', turns, hσ, hcall, hlogged, hsettles⟩

end BuddyState
