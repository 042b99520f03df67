import CoinData.BuddyAllocate
import CoinData.Dyadic

/-!
# Merging siblings, and merging neighbours

A buddy system is meant to merge the two halves of one block. The test the
allocator uses looks at level, flag and distance, not at where a block lies
in its region, so that it may accept a neighbour that is not the other half
(`MeetsSibling` excludes it) and refuse the other half (`AcceptsSibling`
excludes it). Here, on pools over one region, it is shown what depends on
this: blocks stay aligned in their region exactly if a release only meets
siblings, and if siblings are accepted whenever they are met, then no block
and its sibling are ever both free, so that a pool without blocks in use
has coalesced into the whole region.
-/

namespace Block

/-- The block starts at a multiple of its size in the region that starts at
`a`. -/
def Aligned (a : ℕ) (b : Block) : Prop := b.bytes ∣ b.addr - a

/-- Where the other half of the block's parent starts. -/
def siblingAddr (a : ℕ) (b : Block) : ℕ := a + sibling b.bytes (b.addr - a)

variable {a : ℕ} {b c : Block}

theorem addr_ne_siblingAddr (b : Block) (a : ℕ) : b.addr ≠ b.siblingAddr a := by
  intro h
  have hne := sibling_ne (x := b.addr - a) b.bytes_pos
  unfold siblingAddr at h
  omega

/-- A merge is aligned exactly if the two are siblings. -/
theorem aligned_merge_iff (ha : a ≤ b.addr) (hc : a ≤ c.addr) (hb : b.Aligned a)
    (hl : b.level = c.level) (hm : b.memoryIdx = c.memoryIdx)
    (h : c.stop = b.addr ∨ b.stop = c.addr) :
    (b.merge c).Aligned a ↔ c.addr = b.siblingAddr a := by
  obtain ⟨haddr, hlevel, -, -⟩ := merge_spec hl hm h
  have hbytes : c.bytes = b.bytes := by
    unfold bytes
    rw [hl]
  have hbig : (b.merge c).bytes = 2 * b.bytes := by
    unfold bytes
    rw [hlevel, pow_succ]
    ring
  have hadj : c.addr - a = b.addr - a + b.bytes ∨ b.addr - a = c.addr - a + b.bytes := by
    unfold stop at h
    rw [hbytes] at h
    omega
  have hmin : min b.addr c.addr - a = min (b.addr - a) (c.addr - a) := by omega
  unfold Aligned siblingAddr
  rw [haddr, hbig, hmin, dvd_min_iff b.bytes_pos hb hadj]
  omega

/-- The halves of an aligned block are aligned. -/
theorem aligned_halves (ha : a ≤ b.addr) (hb : b.Aligned a) (hpos : 0 < b.level) :
    b.lower.Aligned a ∧ b.upper.Aligned a := by
  have hbytes : b.bytes = 2 * b.lower.bytes := by
    show 2 ^ b.level * pageSize = 2 * (2 ^ (b.level - 1) * pageSize)
    rw [show b.level = b.level - 1 + 1 by omega, pow_succ, Nat.add_sub_cancel]
    ring
  have hlow : b.lower.bytes ∣ b.addr - a := (Dvd.intro_left 2 hbytes.symm).trans hb
  refine ⟨hlow, ?_⟩
  have hup : b.upper.addr - a = (b.addr - a) + b.lower.bytes := by
    show b.addr + 2 ^ (b.level - 1) * pageSize - a = b.addr - a + 2 ^ (b.level - 1) * pageSize
    omega
  show b.lower.bytes ∣ b.upper.addr - a
  rw [hup]
  exact Nat.dvd_add hlow (Nat.dvd_refl _)

end Block

namespace Pool

variable {a fuel : ℕ} {F F' : ℕ → List Block} {u l₁ l₂ : List Block} {b c d e r : Block}

/-! ## The climb of a release -/

/-- **The blocks a release comes to** by merging with siblings only, from
the block `b`, when `F` are the free blocks at the start. -/
inductive Climbs (a : ℕ) (F : ℕ → List Block) (b : Block) : Block → Prop
  | start : Climbs a F b b
  | up {c e : Block} : Climbs a F b c → e ∈ F c.level → e.addr = c.siblingAddr a →
      c.isBuddy e = true → Climbs a F b (c.merge e)

/-- The first free block the block is taken for a buddy of, if there is one,
is its sibling. -/
def MeetsSibling (a : ℕ) (F : ℕ → List Block) (b : Block) : Prop :=
  ∀ d ∈ F b.level, b.isBuddy d = true →
    b.siblingAddr a ≤ d.addr ∧ ∃ e ∈ F b.level, e.addr = b.siblingAddr a ∧ b.isBuddy e = true

/-- If the sibling is free then it is taken for a buddy. -/
def AcceptsSibling (a : ℕ) (F : ℕ → List Block) (b : Block) : Prop :=
  ∀ e ∈ F b.level, e.addr = b.siblingAddr a → b.isBuddy e = true

theorem Climbs.level_le (h : Climbs a F b c) : b.level ≤ c.level := by
  induction h with
  | start => exact le_rfl
  | @up c e _ _ _ _ ih => exact ih.trans (Nat.le_succ c.level)

/-- A climb depends on the levels from the block's on. -/
theorem Climbs.congr (hF : ∀ k, b.level ≤ k → F k = F' k) (h : Climbs a F b c) :
    Climbs a F' b c := by
  induction h with
  | start => exact .start
  | up h he hs hb ih => exact .up ih (hF _ h.level_le ▸ he) hs hb

theorem Climbs.head (he : e ∈ F b.level) (hs : e.addr = b.siblingAddr a)
    (hb : b.isBuddy e = true) (h : Climbs a F (b.merge e) c) : Climbs a F b c := by
  induction h with
  | start => exact .up .start he hs hb
  | up _ he' hs' hb' ih => exact .up ih he' hs' hb'

theorem Climbs.cases_head (h : Climbs a F b c) : c = b ∨ ∃ e ∈ F b.level,
    e.addr = b.siblingAddr a ∧ b.isBuddy e = true ∧ Climbs a F (b.merge e) c := by
  induction h with
  | start => exact Or.inl rfl
  | @up c e _ he hs hb ih =>
    right
    rcases ih with rfl | ⟨f, hf, hfs, hfb, hclimb⟩
    · exact ⟨e, he, hs, hb, .start⟩
    · exact ⟨f, hf, hfs, hfb, .up hclimb he hs hb⟩

/-! ## What a placement says about buddies -/

/-- A block that is put on its list is not taken for a buddy of any block
there: behind the first larger address there is none. -/
theorem Inv.no_buddy {R : List Block} (hA : (Pool.mk F (b :: u)).Inv R) (hR : Regions R)
    (hF : F b.level = l₁ ++ l₂) (h₁ : Passes b l₁)
    (h₂ : ∀ c ∈ l₂.head?, b.isBuddy c = false ∧ b.addr < c.addr) :
    ∀ d ∈ F b.level, b.isBuddy d = false := by
  have hbU : b ∈ (Pool.mk F (b :: u)).used := List.mem_cons_self
  intro d hd
  have hd' := hd
  rw [hF] at hd'
  rcases List.mem_append.mp hd' with hd₁ | hd₂
  · exact (h₁ d hd₁).1
  · cases l₂ with
    | nil => cases hd₂
    | cons c l₂ =>
      obtain ⟨hc, hlt⟩ := h₂ c rfl
      rcases List.mem_cons.mp hd₂ with rfl | hd₂
      · exact hc
      · have hcF : c ∈ F b.level := hF ▸ List.mem_append_right l₁ List.mem_cons_self
        have hsorted := hA.sorted b.level
        rw [show (Pool.mk F (b :: u)).free b.level = l₁ ++ c :: l₂ from hF] at hsorted
        have hcd := (List.pairwise_cons.mp (List.pairwise_append.mp hsorted).2.1).1 d hd₂
        have hap := hA.apart_free_used hR hcF hbU
        have hcstop := c.addr_lt_stop
        have hdstop := d.addr_lt_stop
        have hbl := hA.level_lt hR (mem_of_used hbU)
        by_contra hbd
        obtain ⟨-, -, -, -, hside⟩ := (Block.isBuddy_iff (by omega)).mp (Bool.eq_true_of_not_eq_false hbd)
        unfold Block.Apart at hap
        omega

/-- Blocks of a pool over one region start in it. -/
theorem Inv.le_addr {A : Pool} (hA : A.Inv [r]) (hR : Regions [r]) (hb : b ∈ A.blocks) :
    r.addr ≤ b.addr := by
  obtain ⟨r', hr', -, hle, -⟩ := hA.region hR hb
  rw [← List.mem_singleton.mp hr']
  exact hle

/-- Where a block is merged, the block it is merged with is its sibling
exactly if it met no other block before. -/
theorem Inv.meetsSibling_iff (hA : (Pool.mk F (b :: u)).Inv [r])
    (hF : F b.level = l₁ ++ d :: l₂) (h₁ : Passes b l₁) (hd : b.isBuddy d = true) :
    MeetsSibling a F b ↔ d.addr = b.siblingAddr a := by
  have hdF : d ∈ F b.level := hF ▸ List.mem_append_right l₁ List.mem_cons_self
  have hsorted := hA.sorted b.level
  rw [show (Pool.mk F (b :: u)).free b.level = l₁ ++ d :: l₂ from hF] at hsorted
  have hbehind : ∀ e ∈ F b.level, b.isBuddy e = true → d.addr ≤ e.addr := by
    intro e he heb
    rw [hF] at he
    rcases List.mem_append.mp he with he | he
    · rw [(h₁ e he).1] at heb
      cases heb
    · rcases List.mem_cons.mp he with rfl | he
      · exact le_rfl
      · exact le_of_lt ((List.pairwise_cons.mp (List.pairwise_append.mp hsorted).2.1).1 e he)
  constructor
  · intro h
    obtain ⟨hle, e, he, hes, heb⟩ := h d hdF hd
    have := hbehind e he heb
    omega
  · intro h e he heb
    exact ⟨h ▸ hbehind e he heb, d, hdF, h, hd⟩

/-! ## Alignment -/

/-- All blocks are aligned in the region. -/
def AlignedAll (a : ℕ) (A : Pool) : Prop := ∀ b ∈ A.blocks, b.Aligned a

/-- A block that is not aligned has no buddy among aligned blocks, so a
release puts it on its list as it is. -/
theorem Inv.mem_release_of_not_aligned (hA : (Pool.mk F (b :: u)).Inv [r]) (hR : Regions [r])
    (hal : ∀ k, ∀ d ∈ F k, d.Aligned r.addr) (hb : ¬ b.Aligned r.addr)
    (hfuel : 31 ≤ b.level + fuel) : b ∈ Pool.release fuel F b b.level := by
  have hbU : b ∈ (Pool.mk F (b :: u)).used := List.mem_cons_self
  have hlevel := hA.level_lt hR (mem_of_used hbU)
  have hle := hA.le_addr hR (mem_of_used hbU)
  have hno : ∀ d ∈ F b.level, ¬ b.isBuddy d = true := by
    intro d hd hbd
    obtain ⟨hl, -, -, -, hside⟩ := (Block.isBuddy_iff (by omega)).mp hbd
    have hdle := hA.le_addr hR (hA.mem_of_free (A := ⟨F, b :: u⟩) hd)
    have hbytes : d.bytes = b.bytes := by
      unfold Block.bytes
      rw [hl]
    have hdal : b.bytes ∣ d.addr - r.addr := hbytes ▸ hal _ d hd
    refine hb ?_
    unfold Block.stop at hside
    rcases hside with h | h
    · have heq : b.addr - r.addr = d.addr - r.addr + b.bytes := by omega
      show b.bytes ∣ b.addr - r.addr
      rw [heq]
      exact Nat.dvd_add hdal (Nat.dvd_refl _)
    · have heq : b.addr - r.addr = d.addr - r.addr - b.bytes := by omega
      show b.bytes ∣ b.addr - r.addr
      rw [heq]
      exact Nat.dvd_sub hdal (Nat.dvd_refl _)
  cases fuel with
  | zero => omega
  | succ fuel =>
    rw [Pool.release]
    rcases place_cases b (F b.level) with ⟨l₁, c, l₂, hF, -, hc, -⟩ | ⟨l₁, l₂, -, -, -, hp⟩
    · exact absurd hc (hno c (hF ▸ List.mem_append_right l₁ List.mem_cons_self))
    · rw [hp]
      show b ∈ Function.update F b.level (l₁ ++ b :: l₂) b.level
      rw [Function.update_self]
      exact List.mem_append_right l₁ List.mem_cons_self

/-- The free blocks and the block in hand are aligned. -/
theorem Inv.alignedAll_cons_iff (hA : (Pool.mk F (b :: u)).Inv [r]) :
    AlignedAll a ⟨F, b :: u⟩ ↔ (∀ k, ∀ d ∈ F k, d.Aligned a) ∧ b.Aligned a
      ∧ ∀ d ∈ u, d.Aligned a := by
  unfold AlignedAll
  constructor
  · intro h
    exact ⟨fun k d hd => h d (hA.mem_of_free (A := ⟨F, b :: u⟩) hd),
      h b (mem_of_used List.mem_cons_self),
      fun d hd => h d (mem_of_used (List.mem_cons_of_mem b hd))⟩
  · rintro ⟨h₁, h₂, h₃⟩ d hd
    rcases hA.mem_blocks.mp hd with ⟨k, hk⟩ | hd
    · exact h₁ k d hk
    · rcases List.mem_cons.mp hd with rfl | hd
      · exact h₂
      · exact h₃ d hd

/-- What a merge leaves on the lists was there before. -/
theorem mem_of_mem_update {k j : ℕ} (hF : F k = l₁ ++ d :: l₂)
    (hc : c ∈ Function.update F k (l₁ ++ l₂) j) : c ∈ F j := by
  by_cases hj : j = k
  · rw [hj, Function.update_self] at hc
    rw [hj, hF]
    exact List.perm_middle.mem_iff.mpr (List.mem_cons_of_mem d hc)
  · rwa [Function.update_of_ne hj] at hc

/-- Merging changes no list above the level. -/
theorem update_of_level_lt {k : ℕ} {l : List Block} (hk : (b.merge d).level ≤ k) :
    Function.update F b.level l k = F k :=
  Function.update_of_ne (show k ≠ b.level by
    have : b.level + 1 ≤ k := hk
    omega) _ _

/-- A property of all blocks a release comes to, after a merge with the
sibling. -/
theorem forall_climbs_merge_iff {P : (ℕ → List Block) → Block → Prop}
    (hP : ∀ F F' : ℕ → List Block, ∀ c, F c.level = F' c.level → (P F c ↔ P F' c))
    (hA : (Pool.mk F (b :: u)).Inv [r]) (hR : Regions [r])
    (hF : F b.level = l₁ ++ d :: l₂) (hd : b.isBuddy d = true) (hs : d.addr = b.siblingAddr a) :
    (∀ c, Climbs a F b c → P F c) ↔ P F b
      ∧ ∀ c, Climbs a (Function.update F b.level (l₁ ++ l₂)) (b.merge d) c →
        P (Function.update F b.level (l₁ ++ l₂)) c := by
  have hdF : d ∈ F b.level := hF ▸ List.mem_append_right l₁ List.mem_cons_self
  have hsame : ∀ k, (b.merge d).level ≤ k → Function.update F b.level (l₁ ++ l₂) k = F k :=
    fun k hk => update_of_level_lt hk
  constructor
  · intro h
    refine ⟨h b .start, fun c hc => (hP _ _ c (hsame _ hc.level_le)).mpr ?_⟩
    exact h c ((hc.congr hsame).head hdF hs hd)
  · rintro ⟨hb, h⟩ c hc
    rcases hc.cases_head with rfl | ⟨e, he, hes, -, hec⟩
    · exact hb
    · have hed : e = d := hA.eq_of_addr hR (hA.mem_of_free (A := ⟨F, b :: u⟩) he)
        (hA.mem_of_free (A := ⟨F, b :: u⟩) hdF) (hes.trans hs.symm)
      rw [hed] at hec
      have hec' := hec.congr (show ∀ k, (b.merge d).level ≤ k →
        F k = Function.update F b.level (l₁ ++ l₂) k from fun k hk => (hsame k hk).symm)
      exact (hP _ _ c (hsame _ hec'.level_le)).mp (h c hec')

theorem meetsSibling_congr (hF : F c.level = F' c.level) :
    MeetsSibling a F c ↔ MeetsSibling a F' c := by
  unfold MeetsSibling
  rw [hF]

theorem acceptsSibling_congr (hF : F c.level = F' c.level) :
    AcceptsSibling a F c ↔ AcceptsSibling a F' c := by
  unfold AcceptsSibling
  rw [hF]

/-- **A release keeps all blocks aligned exactly if every block it comes to
only meets its sibling.** -/
theorem Inv.alignedAll_release_iff (hA : (Pool.mk F (b :: u)).Inv [r]) (hR : Regions [r])
    (hal : AlignedAll r.addr ⟨F, b :: u⟩) (hfuel : 31 ≤ b.level + fuel) :
    AlignedAll r.addr ⟨Pool.release fuel F b, u⟩
      ↔ ∀ c, Climbs r.addr F b c → MeetsSibling r.addr F c := by
  induction fuel generalizing F b with
  | zero =>
    have hlt := hA.level_lt hR (mem_of_used (List.mem_cons_self (a := b)))
    omega
  | succ fuel ih =>
    have hbU : b ∈ (Pool.mk F (b :: u)).used := List.mem_cons_self
    obtain ⟨halF, halb, halu⟩ := hA.alignedAll_cons_iff.mp hal
    have hlevel := hA.level_lt hR (mem_of_used hbU)
    have hble := hA.le_addr hR (mem_of_used hbU)
    rcases place_cases b (F b.level) with ⟨l₁, d, l₂, hF, h₁, hd, hp⟩ | ⟨l₁, l₂, hF, h₁, h₂, hp⟩
    · have hdF : d ∈ F b.level := hF ▸ List.mem_append_right l₁ List.mem_cons_self
      have hdle := hA.le_addr hR (hA.mem_of_free (A := ⟨F, b :: u⟩) hdF)
      have hA' := hA.merge hR hF hd
      have hfuel' : 31 ≤ (b.merge d).level + fuel := by
        show 31 ≤ b.level + 1 + fuel
        omega
      have halF' : ∀ k, ∀ c ∈ Function.update F b.level (l₁ ++ l₂) k, c.Aligned r.addr :=
        fun k c hc => halF k c (mem_of_mem_update hF hc)
      obtain ⟨hl, -, -, hm, hside⟩ := (Block.isBuddy_iff (by omega)).mp hd
      have hmerge := Block.aligned_merge_iff hble hdle halb hl hm hside
      have hmeets := hA.meetsSibling_iff (a := r.addr) hF h₁ hd
      rw [Pool.release, hp]
      by_cases hs : d.addr = b.siblingAddr r.addr
      · rw [forall_climbs_merge_iff (P := MeetsSibling r.addr)
          (fun F F' c h => meetsSibling_congr h) hA hR hF hd hs]
        have hal' := hA'.alignedAll_cons_iff.mpr ⟨halF', hmerge.mpr hs, halu⟩
        exact (ih hA' hal' hfuel').trans ⟨fun h => ⟨hmeets.mpr hs, h⟩, fun h => h.2⟩
      · -- a neighbour that is not the sibling gives a block that stays
        refine ⟨fun h => ?_, fun h => absurd (hmeets.mp (h b .start)) hs⟩
        have hmem := hA'.mem_release_of_not_aligned hR halF' (fun h => hs (hmerge.mp h)) hfuel'
        exact absurd (hmerge.mp (h _ ((hA'.release hR hfuel').mem_of_free hmem))) hs
    · have hno := hA.no_buddy hR hF h₁ h₂
      have hno' : ∀ d ∈ F b.level, ¬ b.isBuddy d = true := fun d hd hbd => by
        rw [hno d hd] at hbd
        cases hbd
      have hA' := hA.release hR hfuel
      rw [Pool.release, hp] at hA' ⊢
      refine ⟨fun _ c hc => ?_, fun _ d hd => ?_⟩
      · rcases hc.cases_head with rfl | ⟨e, he, -, heb, -⟩
        · exact fun d hd hbd => absurd hbd (hno' d hd)
        · exact absurd heb (hno' e he)
      · rcases hA'.mem_blocks.mp hd with ⟨k, hk⟩ | hd
        · change d ∈ Function.update F b.level (l₁ ++ b :: l₂) k at hk
          by_cases hkb : k = b.level
          · rw [hkb, Function.update_self] at hk
            rcases List.mem_cons.mp (List.perm_middle.mem_iff.mp hk) with rfl | hk
            · exact halb
            · exact halF b.level d (hF ▸ hk)
          · rw [Function.update_of_ne hkb] at hk
            exact halF k d hk
        · exact halu d hd

/-! ## No block and its sibling both free -/

/-- No free block has a free sibling, unless one of the two starts at an
address of `X`. -/
def UnpairedBut (a : ℕ) (X : Set ℕ) (F : ℕ → List Block) : Prop :=
  ∀ k, ∀ b ∈ F k, ∀ c ∈ F k, c.addr = b.siblingAddr a → b.addr ∈ X ∨ c.addr ∈ X

/-- **A release leaves no block and its sibling both free**, if every block
it comes to meets only its sibling, and accepts it. -/
theorem Inv.unpaired_release (hA : (Pool.mk F (b :: u)).Inv [r]) (hR : Regions [r])
    (hal : AlignedAll r.addr ⟨F, b :: u⟩) (hU : UnpairedBut r.addr ∅ F)
    (hfuel : 31 ≤ b.level + fuel)
    (hc : ∀ c, Climbs r.addr F b c → MeetsSibling r.addr F c ∧ AcceptsSibling r.addr F c) :
    UnpairedBut r.addr ∅ (Pool.release fuel F b) := by
  induction fuel generalizing F b with
  | zero =>
    have hlt := hA.level_lt hR (mem_of_used (List.mem_cons_self (a := b)))
    omega
  | succ fuel ih =>
    have hbU : b ∈ (Pool.mk F (b :: u)).used := List.mem_cons_self
    obtain ⟨halF, halb, halu⟩ := hA.alignedAll_cons_iff.mp hal
    have hlevel := hA.level_lt hR (mem_of_used hbU)
    have hble := hA.le_addr hR (mem_of_used hbU)
    rw [Pool.release]
    rcases place_cases b (F b.level) with ⟨l₁, d, l₂, hF, h₁, hd, hp⟩ | ⟨l₁, l₂, hF, h₁, h₂, hp⟩
    · have hdF : d ∈ F b.level := hF ▸ List.mem_append_right l₁ List.mem_cons_self
      have hdle := hA.le_addr hR (hA.mem_of_free (A := ⟨F, b :: u⟩) hdF)
      have hA' := hA.merge hR hF hd
      obtain ⟨hl, -, -, hm, hside⟩ := (Block.isBuddy_iff (by omega)).mp hd
      have hs := (hA.meetsSibling_iff (a := r.addr) hF h₁ hd).mp (hc b .start).1
      have hmerge := (Block.aligned_merge_iff hble hdle halb hl hm hside).mpr hs
      rw [hp]
      refine ih hA' ?_ (fun k c hc d hd => ?_) ?_ ?_
      · exact hA'.alignedAll_cons_iff.mpr
          ⟨fun k c hc => halF k c (mem_of_mem_update hF hc), hmerge, halu⟩
      · exact hU k c (mem_of_mem_update hF hc) d (mem_of_mem_update hF hd)
      · show 31 ≤ b.level + 1 + fuel
        omega
      · exact ((forall_climbs_merge_iff
          (P := fun F c => MeetsSibling r.addr F c ∧ AcceptsSibling r.addr F c)
          (fun F F' c h => and_congr (meetsSibling_congr h) (acceptsSibling_congr h))
          hA hR hF hd hs).mp hc).2
    · have hno := hA.no_buddy hR hF h₁ h₂
      -- the block on the list has no sibling there, and is nobody's
      have hnos : ∀ d ∈ F b.level, d.addr ≠ b.siblingAddr r.addr := fun d hd hds => by
        have hbd := (hc b .start).2 d hd hds
        rw [hno d hd] at hbd
        cases hbd
      have hnos' : ∀ d ∈ F b.level, b.addr ≠ d.siblingAddr r.addr := fun d hd hbs => by
        have hdal := halF b.level d hd
        have hdle := hA.le_addr hR (hA.mem_of_free (A := ⟨F, b :: u⟩) hd)
        have hbytes : d.bytes = b.bytes := by
          unfold Block.bytes
          rw [hA.level_eq b.level d hd]
        refine hnos d hd ?_
        unfold Block.siblingAddr at hbs ⊢
        unfold Block.Aligned at hdal
        rw [hbytes] at hbs hdal
        rw [show b.addr - r.addr = sibling b.bytes (d.addr - r.addr) by omega,
          sibling_sibling b.bytes_pos hdal]
        omega
      have hself := b.addr_ne_siblingAddr r.addr
      rw [hp]
      intro k c hc d hd hs
      change c ∈ Function.update F b.level (l₁ ++ b :: l₂) k at hc
      change d ∈ Function.update F b.level (l₁ ++ b :: l₂) k at hd
      by_cases hk : k = b.level
      · rw [hk, Function.update_self] at hc hd
        rcases List.mem_cons.mp (List.perm_middle.mem_iff.mp hc) with hcb | hc' <;>
          rcases List.mem_cons.mp (List.perm_middle.mem_iff.mp hd) with hdb | hd'
        · rw [hcb, hdb] at hs
          exact absurd hs hself
        · rw [hcb] at hs
          exact absurd hs (hnos d (hF ▸ hd'))
        · rw [hdb] at hs
          exact absurd hs (hnos' c (hF ▸ hc'))
        · exact hU b.level c (hF ▸ hc') d (hF ▸ hd') hs
      · rw [Function.update_of_ne hk] at hc hd
        exact hU k c hc d hd hs

/-! ## Allocations -/

section Allocate

variable {A : Pool} {idx level : ℕ} {l : List Block} {X : Set ℕ}

/-- The blocks of a cut pool are those before, and the halves. -/
theorem mem_split_free {k : ℕ} (hF : A.free (idx + 1) = b :: l)
    (hc : c ∈ (A.split idx).free k) :
    (k = idx ∧ (c = b.lower ∨ c = b.upper)) ∨ (k ≠ idx ∧ c ∈ A.free k) := by
  rw [split_free hF] at hc
  by_cases hk : k = idx
  · rw [hk, Function.update_self] at hc
    exact Or.inl ⟨hk, List.mem_pair.mp hc⟩
  · rw [Function.update_of_ne hk] at hc
    refine Or.inr ⟨hk, ?_⟩
    by_cases hk' : k = idx + 1
    · rw [hk', Function.update_self] at hc
      rw [hk', hF]
      exact List.mem_cons_of_mem b hc
    · rwa [Function.update_of_ne hk'] at hc

/-- A cut pairs no blocks but the two halves. -/
theorem unpairedBut_split (hF : A.free (idx + 1) = b :: l) (hX : b.addr ∈ X)
    (hU : UnpairedBut r.addr X A.free) : UnpairedBut r.addr X (A.split idx).free := by
  intro k c hc d hd hs
  rcases mem_split_free hF hc with ⟨hk, rfl | rfl⟩ | ⟨hk, hc⟩
  · exact Or.inl hX
  · rcases mem_split_free hF hd with ⟨-, rfl | rfl⟩ | ⟨hk', -⟩
    · exact Or.inr hX
    · exact absurd hs (b.upper.addr_ne_siblingAddr r.addr)
    · exact absurd hk hk'
  · rcases mem_split_free hF hd with ⟨hk', -⟩ | ⟨-, hd⟩
    · exact absurd hk' hk
    · exact hU k c hc d hd hs

/-- **Cutting downwards** keeps blocks aligned, and pairs no blocks but
those that start where the first one does. -/
theorem Inv.splitDown_siblings (hA : A.Inv [r]) (hR : Regions [r])
    (hal : AlignedAll r.addr A) (hF : A.free idx = b :: l) (hle : level ≤ idx)
    (hnil : ∀ j, level ≤ j → j < idx → A.free j = []) (hX : b.addr ∈ X)
    (hU : UnpairedBut r.addr X A.free) :
    AlignedAll r.addr (A.splitDown level idx)
      ∧ UnpairedBut r.addr X (A.splitDown level idx).free := by
  induction idx generalizing A b l with
  | zero => exact ⟨hal, hU⟩
  | succ idx ih =>
    rw [Pool.splitDown]
    split
    · next hcut =>
      have hbF : b ∈ A.free (idx + 1) := hF ▸ List.mem_cons_self
      have hidx := hA.lt_of_mem hbF
      have hblevel := hA.level_eq _ b hbF
      have hnil' := hnil idx (by omega) (by omega)
      have hA' := hA.split hidx hnil'
      have hF₁ : (A.split idx).free idx = b.lower :: [b.upper] := by
        rw [split_free hF, Function.update_self]
      obtain ⟨hlow, hup⟩ := Block.aligned_halves (hA.le_addr hR (hA.mem_of_free hbF))
        (hal b (hA.mem_of_free hbF)) (by omega)
      refine ih hA' (fun c hc => ?_) hF₁ (by omega) (fun j hj hlt => ?_) hX
        (unpairedBut_split hF hX hU)
      · rcases hA'.mem_blocks.mp hc with ⟨k, hk⟩ | hc
        · rcases mem_split_free hF hk with ⟨-, rfl | rfl⟩ | ⟨-, hk⟩
          · exact hlow
          · exact hup
          · exact hal c (hA.mem_of_free hk)
        · rw [split_used] at hc
          exact hal c (mem_of_used hc)
      · rw [split_free_of_lt hlt]
        exact hnil j hj (by omega)
    · exact ⟨hal, hU⟩

/-- **An allocation** keeps blocks aligned. -/
theorem Inv.alignedAll_allocate (hA : A.Inv [r]) (hR : Regions [r])
    (hal : AlignedAll r.addr A) (hF : A.free idx = b :: l) (hle : level ≤ idx)
    (hnil : ∀ j, level ≤ j → j < idx → A.free j = []) :
    AlignedAll r.addr (A.allocate level idx) := by
  have hidx := hA.lt_of_mem (hF ▸ List.mem_cons_self : b ∈ A.free idx)
  have hA' := hA.splitDown hidx hnil
  obtain ⟨hal', -⟩ := hA.splitDown_siblings (X := Set.univ) hR hal hF hle hnil (Set.mem_univ _)
    (fun _ _ _ _ _ _ => Or.inl (Set.mem_univ _))
  exact fun c hc => hal' c (hA'.mem_of_take hc)

/-- **An allocation** leaves no block and its sibling both free, if there were
none before: the block taken is the one that the cuts may have paired. -/
theorem Inv.unpaired_allocate (hA : A.Inv [r]) (hR : Regions [r])
    (hal : AlignedAll r.addr A) (hF : A.free idx = b :: l) (hle : level ≤ idx)
    (hnil : ∀ j, level ≤ j → j < idx → A.free j = []) (hU : UnpairedBut r.addr ∅ A.free) :
    UnpairedBut r.addr ∅ (A.allocate level idx).free := by
  have hidx := hA.lt_of_mem (hF ▸ List.mem_cons_self : b ∈ A.free idx)
  have hA' := hA.splitDown hidx hnil
  obtain ⟨-, hU'⟩ := hA.splitDown_siblings (X := {b.addr}) hR hal hF hle hnil rfl
    (fun k c hc d hd hs => (hU k c hc d hd hs).elim (fun h => h.elim) (fun h => h.elim))
  obtain ⟨c, t, hc, hca⟩ := splitDown_head hF hle
  have hfree : (A.allocate level idx).free
      = Function.update (A.splitDown level idx).free level t := by
    unfold Pool.allocate
    rw [take_eq hc]
  have hcF : c ∈ (A.splitDown level idx).free level := hc ▸ List.mem_cons_self
  have hsorted := hA'.sorted level
  rw [hc] at hsorted
  -- what is left starts elsewhere
  have hleft : ∀ k, ∀ d ∈ (A.allocate level idx).free k,
      d ∈ (A.splitDown level idx).free k ∧ d.addr ≠ b.addr := by
    intro k d hd
    rw [hfree] at hd
    by_cases hk : k = level
    · rw [hk, Function.update_self] at hd
      have hlt := (List.pairwise_cons.mp hsorted).1 d hd
      rw [hk, hc]
      exact ⟨List.mem_cons_of_mem c hd, by omega⟩
    · rw [Function.update_of_ne hk] at hd
      refine ⟨hd, fun he => hk ?_⟩
      exact hA'.level_of_addr hR hd hcF (he.trans hca.symm)
  intro k d hd e he hs
  obtain ⟨hd', hdne⟩ := hleft k d hd
  obtain ⟨he', hene⟩ := hleft k e he
  rcases hU' k d hd' e he' hs with h | h
  · exact absurd h hdne
  · exact absurd h hene

end Allocate

/-! ## A pool without blocks in use -/

/-- Where a free block of a pool over one region lies, and how long it is. -/
theorem Inv.free_within {A : Pool} {k : ℕ} (hA : A.Inv [r]) (hR : Regions [r])
    (hb : b ∈ A.free k) :
    r.addr ≤ b.addr ∧ b.stop ≤ r.stop ∧ k ≤ r.level ∧ b.bytes = 2 ^ k * pageSize := by
  obtain ⟨r', hr', -, hle, hstop⟩ := hA.region hR (hA.mem_of_free hb)
  rw [List.mem_singleton.mp hr'] at hle hstop
  have hbytes : b.bytes = 2 ^ k * pageSize := by
    unfold Block.bytes
    rw [hA.level_eq k b hb]
  refine ⟨hle, hstop, ?_, hbytes⟩
  rw [← hA.level_eq k b hb]
  exact Block.level_le_of_within hle hstop

/-- Where nothing is in use, every byte of the region is in a free block. -/
theorem Inv.exists_free {A : Pool} (hA : A.Inv [r]) (hused : A.used = []) {x : ℕ}
    (hlow : r.addr ≤ x) (hhigh : x < r.stop) : ∃ k, ∃ b ∈ A.free k, b.addr ≤ x ∧ x < b.stop := by
  have hpos := cover_pos_of_mem (List.mem_singleton.mpr rfl : r ∈ [r])
    (Block.mem_iff.mpr ⟨rfl, hlow, hhigh⟩)
  rw [← hA.cover_eq] at hpos
  obtain ⟨b, hb, hbx⟩ := cover_pos_iff.mp hpos
  obtain ⟨-, h₁, h₂⟩ := Block.mem_iff.mp hbx
  rcases hA.mem_blocks.mp hb with ⟨k, hk⟩ | hb
  · exact ⟨k, b, hk, h₁, h₂⟩
  · rw [hused] at hb
    cases hb

/-- **A free block of the least level there is fills the region**, in a pool
which is aligned, has nothing in use and no block free together with its
sibling: otherwise the sibling would be free. -/
theorem Inv.level_of_least {A : Pool} {k : ℕ} (hA : A.Inv [r]) (hR : Regions [r])
    (hal : AlignedAll r.addr A) (hU : UnpairedBut r.addr ∅ A.free) (hused : A.used = [])
    (hb : b ∈ A.free k) (hmin : ∀ j, j < k → A.free j = []) : k = r.level := by
  obtain ⟨hle, hstop, hk, hbytes⟩ := hA.free_within hR hb
  have hdvd := hal b (hA.mem_of_free hb)
  by_contra hne
  have hlt := b.addr_lt_stop
  have hrstop : r.stop = r.addr + r.bytes := rfl
  have hbstop : b.stop = b.addr + b.bytes := rfl
  have hwide : 2 * b.bytes ∣ r.bytes := by
    rw [hbytes]
    unfold Block.bytes
    rw [← Nat.mul_assoc, ← pow_succ']
    exact Nat.mul_dvd_mul_right (Nat.pow_dvd_pow 2 (by omega)) _
  obtain ⟨-, hs⟩ := sibling_within b.bytes_pos hdvd hwide (Nat.dvd_zero r.bytes)
    (Nat.zero_le _) (by omega)
  have hbpos := b.bytes_pos
  -- the block at the sibling's address
  obtain ⟨j, d, hd, hd₁, hd₂⟩ := hA.exists_free hused (x := b.siblingAddr r.addr)
    (Nat.le_add_right _ _) (by unfold Block.siblingAddr; omega)
  obtain ⟨hdle, -, -, hdbytes⟩ := hA.free_within hR hd
  have hddvd := hal d (hA.mem_of_free hd)
  have hdstop : d.stop = d.addr + d.bytes := rfl
  have hsdvd := dvd_sibling b.bytes_pos hdvd
  unfold Block.siblingAddr at hd₁ hd₂
  by_cases hjk : j = k
  · -- of the same level: it is the sibling
    subst hjk
    have hsame : d.bytes = b.bytes := hdbytes.trans hbytes.symm
    unfold Block.Aligned at hddvd
    rw [hsame] at hddvd
    obtain ⟨p, hp⟩ := hsdvd
    obtain ⟨q, hq⟩ := hddvd
    have hpq : p = q := by
      have h₁ : b.bytes * q ≤ b.bytes * p := by omega
      have h₂ : b.bytes * p < b.bytes * (q + 1) := by
        rw [Nat.mul_succ]
        omega
      have := Nat.le_of_mul_le_mul_left h₁ hbpos
      have := Nat.lt_of_mul_lt_mul_left h₂
      omega
    have hpair : d.addr = b.siblingAddr r.addr := by
      unfold Block.siblingAddr
      rw [hp, hpq]
      omega
    exact (hU j b hb d hd hpair).elim (fun h => h.elim) (fun h => h.elim)
  · -- of a higher level: it contains the block itself
    have hjk' : k < j := by
      by_contra hcon
      rw [hmin j (by omega)] at hd
      cases hd
    have hwide' : 2 * b.bytes ∣ d.bytes := by
      rw [hbytes, hdbytes, ← Nat.mul_assoc, ← pow_succ']
      exact Nat.mul_dvd_mul_right (Nat.pow_dvd_pow 2 (by omega)) _
    obtain ⟨h₁, h₂⟩ := sibling_within b.bytes_pos hsdvd hwide' hddvd (by omega) (by omega)
    rw [sibling_sibling b.bytes_pos hdvd] at h₁ h₂
    have hdb : d ≠ b := by
      rintro rfl
      exact hjk ((hA.level_eq j d hd).symm.trans (hA.level_eq k d hb))
    have hap := hA.apart_of_ne hR (hA.mem_of_free hd) (hA.mem_of_free hb) hdb
    unfold Block.Apart at hap
    omega

/-- **A pool over one region that is aligned, has nothing in use and no block
free together with its sibling has coalesced**: its only block is the
region. -/
theorem Inv.coalesced {A : Pool} (hA : A.Inv [r]) (hR : Regions [r])
    (hal : AlignedAll r.addr A) (hU : UnpairedBut r.addr ∅ A.free) (hused : A.used = []) :
    (∃ b, A.free r.level = [b] ∧ b.addr = r.addr) ∧ ∀ k, k ≠ r.level → A.free k = [] := by
  have hnil : ∀ k, k ≠ r.level → A.free k = [] := by
    intro k hk
    by_contra hne
    -- the least level with a free block is that of the region
    obtain ⟨j, hj, hmin⟩ : ∃ j, A.free j ≠ [] ∧ ∀ i, i < j → A.free i = [] :=
      have hex : ∃ j, A.free j ≠ [] := ⟨k, hne⟩
      ⟨Nat.find hex, Nat.find_spec hex, fun i hi => not_not.mp (Nat.find_min hex hi)⟩
    obtain ⟨b, l, hbl⟩ := List.exists_cons_of_ne_nil hj
    have hjr := hA.level_of_least hR hal hU hused
      (hbl ▸ List.mem_cons_self : b ∈ A.free j) hmin
    obtain ⟨c, l', hcl⟩ := List.exists_cons_of_ne_nil hne
    obtain ⟨-, -, hkr, -⟩ := hA.free_within hR (hcl ▸ List.mem_cons_self : c ∈ A.free k)
    exact hne (hmin k (by omega))
  refine ⟨?_, hnil⟩
  obtain ⟨k, b, hb, -, -⟩ := hA.exists_free hused le_rfl r.addr_lt_stop
  have hk : k = r.level := by
    by_contra hne
    rw [hnil k hne] at hb
    cases hb
  rw [hk] at hb
  have haddr : ∀ c ∈ A.free r.level, c.addr = r.addr := fun c hc => by
    obtain ⟨hle, hstop, -, hbytes⟩ := hA.free_within hR hc
    have hrstop : r.stop = r.addr + r.bytes := rfl
    have hcstop : c.stop = c.addr + c.bytes := rfl
    have hrbytes : r.bytes = 2 ^ r.level * pageSize := rfl
    omega
  obtain ⟨c, t, hct⟩ := List.exists_cons_of_ne_nil (List.ne_nil_of_mem hb)
  have hsorted := hA.sorted r.level
  rw [hct] at hsorted haddr
  refine ⟨c, ?_, haddr c List.mem_cons_self⟩
  rw [hct]
  cases t with
  | nil => rfl
  | cons d t =>
    have hlt := (List.pairwise_cons.mp hsorted).1 d List.mem_cons_self
    have h₁ := haddr c List.mem_cons_self
    have h₂ := haddr d (List.mem_cons_of_mem c List.mem_cons_self)
    omega

end Pool
