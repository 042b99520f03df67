import CoinData.BuddyRefinement

/-!
# Releasing a block in memory

`buddyFree` walks the list of the block's level for a buddy or a place.
Every way the walk can end is shown to do to the lists what
`Pool.release` does: the blocks passed over change nothing, a buddy is
unlinked and merged with the block, and otherwise the block is linked in
where its address belongs. The walk ends, and no link it follows leaves
the free blocks.

The outer loop is also read with its turns (`freeLoopLogged`): each one but
the last is a merge, and takes the block one level up.
-/

/-! ## The walk of a list -/

section Scan

variable {R : List Block} {F : ℕ → List Block} {u l₁ l₂ q : List Block} {b c d : Block}
variable {s : Buddy} {n : ℕ}

/-- **The walk passes over blocks** that are neither buddies nor behind the
released block. -/
theorem freeScan_passes (hA : (Pool.mk F u).Inv R) (hR : Regions R) (h : Represents s F)
    (hb : Holds s.mem b) (hF : F b.level = q ++ (l₁ ++ d :: l₂)) (hp : Pool.Passes b l₁) :
    freeScan s b.addr (l₁.length + n) (((l₁ ++ d :: l₂).map Block.addr).headD 0)
      = freeScan s b.addr n d.addr := by
  induction l₁ generalizing q with
  | nil => rw [List.length_nil, Nat.zero_add]; rfl
  | cons c l₁ ih =>
    obtain ⟨⟨hnb, hle⟩, hp'⟩ := Pool.passes_cons.mp hp
    have hmem : ∀ e ∈ c :: l₁ ++ d :: l₂, e ∈ F b.level := fun e he =>
      hF ▸ List.mem_append_right q he
    have hplace : ∀ e ∈ c :: l₁ ++ d :: l₂, e.addr ≠ 0 := fun e he =>
      hR.spaced.ne_zero (hA.place hR (hA.mem_of_free (A := ⟨F, u⟩) (hmem e he)))
    have hnext : (blockHead s.mem c.addr).next = ((l₁ ++ d :: l₂).map Block.addr).headD 0 :=
      h.next_eq (k := b.level) hF
    have hnext0 : (blockHead s.mem c.addr).next ≠ 0 := by
      rw [hnext]
      cases l₁ with
      | nil => exact hplace d (List.mem_cons_of_mem c List.mem_cons_self)
      | cons e l₁ => exact hplace e (List.mem_cons_of_mem c List.mem_cons_self)
    have hbuddy := buddyIsBuddy_of_holds hb (h.holds b.level c (hmem c List.mem_cons_self))
    rw [List.length_cons, Nat.add_right_comm]
    show freeScan s b.addr (l₁.length + n + 1) c.addr = _
    rw [freeScan, if_neg (hplace c List.mem_cons_self), hbuddy, hnb,
      if_neg Bool.false_ne_true, if_neg hle, if_neg hnext0, hnext]
    exact ih (q := q ++ [c]) (by rw [hF, List.append_assoc]; rfl) hp'

/-- **What `buddyRemoveBlock` does to the lists**: its block is taken off. What happens to
the block itself afterwards does not matter. -/
theorem Represents.remove {k : ℕ} (hA : (Pool.mk F u).Inv R) (hR : Regions R)
    (h : Represents s F) (hF : F k = l₁ ++ c :: l₂) {r : ℕ × ByteStore} {m : ByteStore}
    (hr : r = buddyRemoveBlock s.mem (s.head.list k) c.addr)
    (hm : ∀ j, ∀ f ∈ F j, f ≠ c → blockHead m f.addr = blockHead r.2 f.addr) :
    Relinks (places R) (freeAddrs F) s.mem r.2
      ∧ Represents ⟨s.head.setList k r.1, m⟩ (Function.update F k (l₁ ++ l₂)) := by
  have hS := hR.spaced
  have hcF : c ∈ F k := hF ▸ List.mem_append_right l₁ List.mem_cons_self
  have hk : k < maxBlockNum := hA.lt_of_mem hcF
  have hfP : ∀ {j : ℕ} {f : Block}, f ∈ F j → f.addr ∈ places R := fun hf =>
    hA.place hR (hA.mem_of_free (A := ⟨F, u⟩) hf)
  have hsub := hA.freeAddrs_subset hR
  obtain ⟨hfst, hrel, hprev, hnext⟩ := buddyRemoveBlock_spec (m := s.mem) (a := c.addr)
    (l := s.head.list k) hS (fun hne => hsub (h.prev_mem hF hne))
    (fun hne => hsub (h.next_mem hF hne))
  rw [← hr] at hfst hrel hprev hnext
  refine ⟨hrel.mono ?_, h.unlink hA hR hF (fun j => ?_) (fun j f hf hfc => ⟨?_, ?_⟩)
    (fun j f hf hfc => ?_) (fun j f hf hfc => ?_)⟩
  · rintro a ⟨ha, rfl | rfl⟩
    · exact h.prev_mem hF (hS.ne_zero ha)
    · exact h.next_mem hF (hS.ne_zero ha)
  · have hfirst := h.first_iff hA hF
    rw [hfst]
    by_cases hl : l₁ = []
    · rw [if_pos (hfirst.mpr hl)]
      exact list_setList_front hk (fun hne => absurd hl hne)
    · rw [if_neg (fun he => hl (hfirst.mp he))]
      exact (list_setList_front (p := l₁ = []) hk (fun _ => rfl)).trans
        (by rw [if_neg (fun h => hl h.2), if_neg (fun h => hl h.2)])
  · exact (hrel.holds (hfP hf) (h.holds j f hf)).congr (hm j f hf hfc)
  · show (blockHead m f.addr).isFree = 1
    rw [hm j f hf hfc]
    exact hrel.marked _ (hfP hf) (h.marked j f hf)
  · show (blockHead m f.addr).previous = _
    rw [hm j f hf hfc, if_congr (head?_eq_some_iff (hS.ne_zero (hfP hf))) rfl rfl, ← h.next_eq hF]
    exact hprev _ (hfP hf)
  · show (blockHead m f.addr).next = _
    rw [hm j f hf hfc, if_congr (getLast?_eq_some_iff (hS.ne_zero (hfP hf))) rfl rfl,
      ← h.prev_eq hF]
    exact hnext _ (hfP hf)

/-- **Merging a block with a buddy**, which is taken off its list. -/
theorem Represents.merged (hA : (Pool.mk F (b :: u)).Inv R) (hR : Regions R)
    (h : Represents s F) (hb : Holds s.mem b) (hF : F b.level = l₁ ++ c :: l₂)
    {r : ℕ × ByteStore} {m : ByteStore}
    (hr : r = buddyRemoveBlock s.mem (s.head.list b.level) c.addr)
    (hm : m = initFreeBlock r.2 (b.merge c).addr 0 0
      ((blockHead r.2 (b.merge c).addr).level + 1) (blockHead r.2 (b.merge c).addr).isFirst) :
    Represents ⟨s.head.setList b.level r.1, m⟩ (Function.update F b.level (l₁ ++ l₂))
      ∧ Holds m (b.merge c)
      ∧ WritesOnly (insert (b.merge c).addr (freeAddrs F)) s.mem m
      ∧ MarkedFree m (b.merge c).addr ∧ KeepsMarks (places R) s.mem m := by
  have hS := hR.spaced
  have hbU : b ∈ (Pool.mk F (b :: u)).used := List.mem_cons_self
  have hlevel := hA.level_lt hR (Pool.mem_of_used hbU)
  have hcF : c ∈ F b.level := hF ▸ List.mem_append_right l₁ List.mem_cons_self
  have hfree : ∀ {j : ℕ} {f : Block}, f ∈ F j → f ∈ (Pool.mk F (b :: u)).blocks :=
    fun hf => hA.mem_of_free (A := ⟨F, b :: u⟩) hf
  have hbP := hA.place hR (Pool.mem_of_used hbU)
  have hcP := hA.place hR (hfree hcF)
  have hcl : c.level = b.level := hA.level_eq b.level c hcF
  -- the merge starts where one of the two starts, `e`
  obtain ⟨e, hebc, hmerge, -⟩ := Block.merge_eq hcl.symm
  have hmergeaddr : (b.merge c).addr = e.addr := by rw [hmerge]
  rw [hmergeaddr] at hm ⊢
  have heP : e.addr ∈ places R := by
    rcases hebc with rfl | rfl
    · exact hbP
    · exact hcP
  have hw : WritesOnly {e.addr} r.2 m := hm ▸ writesOnly_initFreeBlock
  obtain ⟨hrel, hrep⟩ := h.remove hA hR hF (m := m) hr fun j f hf hfc => by
    refine hS.blockHead_of_writesOnly heP (hA.place hR (hfree hf)) ?_ hw
    rcases hebc with rfl | rfl
    · exact (hA.apart_free_used hR hf hbU).addr_ne
    · exact fun he => hfc (hA.eq_of_addr hR (hfree hf) (hfree hcF) he)
  have he : Holds r.2 e := by
    rcases hebc with rfl | rfl
    · exact hrel.holds hbP hb
    · exact hrel.holds heP (h.holds _ _ hcF)
  have hel : e.level + 1 < 2 ^ 64 := by
    rcases hebc with rfl | rfl <;> omega
  have hfirst : e.isFirst < 2 ^ 32 := he.isFirst ▸ isFirst_lt r.2 e.addr
  rw [he.level, he.isFirst] at hm
  obtain ⟨hmark, hmarks⟩ := KeepsMarks.initFreeBlock (m := r.2) hS heP (Nat.two_pow_pos 64)
    (Nat.two_pow_pos 64) hel hfirst
  rw [← hm] at hmark hmarks
  refine ⟨hrep, ?_, (hrel.writes.mono (Set.subset_insert _ _)).trans (hw.mono ?_), hmark,
    .trans hrel.marked hmarks⟩
  · rw [hmerge, hm]
    exact he.initFreeBlock hS heP (by decide) (by decide) hel hfirst
  · exact Set.singleton_subset_iff.mpr (Or.inl rfl)

/-- **The walk meets a buddy**: it is unlinked, and the two are merged. -/
theorem freeScan_merge (hA : (Pool.mk F (b :: u)).Inv R) (hR : Regions R) (h : Represents s F)
    (hb : Holds s.mem b) (hF : F b.level = l₁ ++ c :: l₂) (hbc : b.isBuddy c = true) :
    ∃ s', freeScan s b.addr (n + 1) c.addr = .ok ((b.merge c).addr, s')
      ∧ Represents s' (Function.update F b.level (l₁ ++ l₂)) ∧ Holds s'.mem (b.merge c)
      ∧ WritesOnly (insert (b.merge c).addr (freeAddrs F)) s.mem s'.mem
      ∧ MarkedFree s'.mem (b.merge c).addr ∧ KeepsMarks (places R) s.mem s'.mem
      ∧ s'.head.memoryIdx = s.head.memoryIdx := by
  have hcF : c ∈ F b.level := hF ▸ List.mem_append_right l₁ List.mem_cons_self
  have hc0 := hR.spaced.ne_zero (hA.place hR (hA.mem_of_free (A := ⟨F, b :: u⟩) hcF))
  have hcl : c.level = b.level := hA.level_eq b.level c hcF
  obtain ⟨e, -, hmerge, haddr⟩ := Block.merge_eq hcl.symm
  have hmergeaddr : (b.merge c).addr = e.addr := by rw [hmerge]
  have hbuddy := buddyIsBuddy_of_holds hb (h.holds b.level c hcF)
  obtain ⟨r, hr⟩ : ∃ r, r = buddyRemoveBlock s.mem (s.head.list b.level) c.addr := ⟨_, rfl⟩
  obtain ⟨hrep, hhold, hw, hmark, hmarks⟩ := h.merged hA hR hb hF hr rfl
  refine ⟨_, ?_, hrep, hhold, hw, hmark, hmarks, rfl⟩
  rw [freeScan, if_neg hc0, hbuddy, if_pos hbc, (h.holds b.level c hcF).level, hcl, haddr,
    ← hmergeaddr]
  dsimp only
  rw [← hr]

/-- **Putting a block in front of another one.** -/
theorem Represents.before (hA : (Pool.mk F (b :: u)).Inv R) (hR : Regions R)
    (h : Represents s F) (hb : Holds s.mem b) (hF : F b.level = l₁ ++ d :: l₂)
    {m₁ m₂ m₃ : ByteStore}
    (hm₁ : m₁ = relinkBlock s.mem b.addr (prevLink s.mem d.addr) d.addr)
    (hm₂ : m₂ = relinkBlock m₁ d.addr b.addr (nextLink m₁ d.addr))
    (hm₃ : m₃ = if prevLink s.mem d.addr ≠ 0 then
      relinkBlock m₂ (prevLink s.mem d.addr) (prevLink m₂ (prevLink s.mem d.addr)) b.addr
      else m₂) :
    Represents ⟨if l₁ = [] then s.head.setList b.level b.addr else s.head, m₃⟩
        (Function.update F b.level (l₁ ++ b :: d :: l₂))
      ∧ WritesOnly (insert b.addr (freeAddrs F)) s.mem m₃
      ∧ KeepsMarks (places R) s.mem m₃ := by
  have hS := hR.spaced
  have hbU : b ∈ (Pool.mk F (b :: u)).used := List.mem_cons_self
  have hlevel := hA.level_lt hR (Pool.mem_of_used hbU)
  have hdF : d ∈ F b.level := hF ▸ List.mem_append_right l₁ List.mem_cons_self
  have hfP : ∀ {j : ℕ} {f : Block}, f ∈ F j → f.addr ∈ places R := fun hf =>
    hA.place hR (hA.mem_of_free (A := ⟨F, b :: u⟩) hf)
  have hbP := hA.place hR (Pool.mem_of_used hbU)
  have hfb : ∀ {j : ℕ} {f : Block}, f ∈ F j → f.addr ≠ b.addr := fun hf =>
    (hA.apart_free_used hR hf hbU).addr_ne
  have hsub := hA.freeAddrs_subset hR
  have hpP : prevLink s.mem d.addr ≠ 0 → prevLink s.mem d.addr ∈ places R :=
    fun hne => hsub (h.prev_mem hF hne)
  have hpb : b.addr ≠ prevLink s.mem d.addr := by
    intro heq
    obtain ⟨j, f, hf, hfa⟩ := h.prev_mem hF (heq ▸ hS.ne_zero hbP)
    exact hfb hf (hfa.trans heq.symm)
  have hdlt := hS.lt _ (hfP hdF)
  have hblt := hS.lt _ hbP
  have hrel₁ : Relinks (places R) {b.addr} s.mem m₁ :=
    hm₁ ▸ .relinkBlock hS hbP (prevLink_lt _ _) hdlt
  have hrel₂ : Relinks (places R) {d.addr} m₁ m₂ :=
    hm₂ ▸ .relinkBlock hS (hfP hdF) hblt (nextLink_lt _ _)
  obtain ⟨hrel₃, hprev₃, hnext₃⟩ := relinkNext_spec hS hpP hblt hm₃
  have hprev : ∀ a ∈ places R, prevLink m₃ a
      = if a = d.addr then b.addr else if a = b.addr then prevLink s.mem d.addr
        else prevLink s.mem a := by
    intro a ha
    rw [hprev₃ a ha, hm₂, prevLink_relinkBlock hS (hfP hdF) ha hblt (nextLink_lt _ _), hm₁,
      prevLink_relinkBlock hS hbP ha (prevLink_lt _ _) hdlt]
  have hnext : ∀ a ∈ places R, nextLink m₃ a
      = if a = prevLink s.mem d.addr then b.addr else if a = b.addr then d.addr
        else nextLink s.mem a := by
    intro a ha
    rw [hnext₃ a ha, hm₂, nextLink_relinkPrev hS (hfP hdF) ha hblt, hm₁,
      nextLink_relinkBlock hS hbP ha (prevLink_lt _ _) hdlt]
  have hW : Relinks (places R) (insert b.addr (freeAddrs F)) s.mem m₃ := by
    refine ((hrel₁.mono ?_).trans (hrel₂.mono ?_)).trans (hrel₃.mono ?_)
    · exact Set.singleton_subset_iff.mpr (Or.inl rfl)
    · exact Set.singleton_subset_iff.mpr (Or.inr ⟨_, d, hdF, rfl⟩)
    · rintro a ⟨ha, rfl⟩
      exact Or.inr (h.prev_mem hF (hS.ne_zero ha))
  have hmark : MarkedFree m₃ b.addr := by
    refine hrel₃.marked _ hbP (hrel₂.marked _ hbP ?_)
    show (blockHead m₁ b.addr).isFree = 1
    rw [hm₁, hS.blockHead_relinkBlock hbP hbP (prevLink_lt _ _) hdlt, if_pos rfl]
  refine ⟨h.link hA hR hF hW hb hmark (fun j => ?_) ?_ ?_ (fun k f hf => ?_) (fun k f hf => ?_),
    hW.writes, hW.marked⟩
  · by_cases hl : l₁ = []
    · rw [if_pos hl]
      exact list_setList_front (lt_trans hlevel (by decide)) (fun hne => absurd hl hne)
    · rw [if_neg hl, if_neg (fun he => hl he.2)]
  · rw [hprev _ hbP, if_neg (hfb hdF).symm, if_pos rfl, h.prev_eq hF]
  · rw [hnext _ hbP, if_neg hpb, if_pos rfl]
    rfl
  · rw [hprev _ (hfP hf), if_neg (hfb hf), if_congr (head?_eq_some_iff (hS.ne_zero (hfP hf)))
      rfl rfl]
    rfl
  · rw [hnext _ (hfP hf), if_neg (hfb hf), if_congr (getLast?_eq_some_iff
      (hS.ne_zero (hfP hf))) rfl rfl, h.prev_eq hF]

/-- **The walk meets a larger address**: the block is put in front of it. -/
theorem freeScan_before (hA : (Pool.mk F (b :: u)).Inv R) (hR : Regions R) (h : Represents s F)
    (hb : Holds s.mem b) (hF : F b.level = l₁ ++ d :: l₂) (hbd : b.isBuddy d = false)
    (hlt : b.addr < d.addr) :
    ∃ s', freeScan s b.addr (n + 1) d.addr = .ok (0, s')
      ∧ Represents s' (Function.update F b.level (l₁ ++ b :: d :: l₂))
      ∧ WritesOnly (insert b.addr (freeAddrs F)) s.mem s'.mem
      ∧ KeepsMarks (places R) s.mem s'.mem
      ∧ s'.head.memoryIdx = s.head.memoryIdx := by
  have hdF : d ∈ F b.level := hF ▸ List.mem_append_right l₁ List.mem_cons_self
  have hd0 := hR.spaced.ne_zero (hA.place hR (hA.mem_of_free (A := ⟨F, b :: u⟩) hdF))
  have hfirst := h.prev_eq_zero_iff hA hR hF
  have hbuddy := buddyIsBuddy_of_holds hb (h.holds b.level d hdF)
  obtain ⟨m₁, hm₁⟩ : ∃ m₁, m₁ = relinkBlock s.mem b.addr (prevLink s.mem d.addr) d.addr := ⟨_, rfl⟩
  obtain ⟨m₂, hm₂⟩ : ∃ m₂, m₂ = relinkBlock m₁ d.addr b.addr (nextLink m₁ d.addr) := ⟨_, rfl⟩
  obtain ⟨m₃, hm₃⟩ : ∃ m₃, m₃ = if prevLink s.mem d.addr ≠ 0 then
      relinkBlock m₂ (prevLink s.mem d.addr) (prevLink m₂ (prevLink s.mem d.addr)) b.addr
      else m₂ := ⟨_, rfl⟩
  obtain ⟨hrep, hw, hmarks⟩ := h.before hA hR hb hF hm₁ hm₂ hm₃
  refine ⟨_, ?_, hrep, hw, hmarks, ?_⟩
  · rw [freeScan, if_neg hd0, hbuddy, hbd, if_neg Bool.false_ne_true, if_pos hlt, hb.level]
    by_cases hl : l₁ = []
    · have h0 := hfirst.mpr hl
      rw [if_pos (show (blockHead s.mem d.addr).previous = 0 from h0), if_pos hl, hm₃,
        if_neg (not_not.mpr h0), hm₂, hm₁]
      rfl
    · have h0 := fun h => hl (hfirst.mp h)
      rw [if_neg (show (blockHead s.mem d.addr).previous ≠ 0 from h0), if_neg hl, hm₃,
        if_pos h0, hm₂, hm₁]
      rfl
  · dsimp only
    split <;> rfl

/-- **Putting a block at the end of a list.** -/
theorem Represents.append (hA : (Pool.mk F (b :: u)).Inv R) (hR : Regions R)
    (h : Represents s F) (hb : Holds s.mem b) (hF : F b.level = l₁ ++ [d]) {m₁ m₂ : ByteStore}
    (hm₁ : m₁ = relinkBlock s.mem d.addr (prevLink s.mem d.addr) b.addr)
    (hm₂ : m₂ = relinkBlock m₁ b.addr d.addr 0) :
    Represents ⟨s.head, m₂⟩ (Function.update F b.level (l₁ ++ [d] ++ [b]))
      ∧ WritesOnly (insert b.addr (freeAddrs F)) s.mem m₂
      ∧ KeepsMarks (places R) s.mem m₂ := by
  have hS := hR.spaced
  have hbU : b ∈ (Pool.mk F (b :: u)).used := List.mem_cons_self
  have hdF : d ∈ F b.level := hF ▸ List.mem_append_right l₁ List.mem_cons_self
  have hfP : ∀ {j : ℕ} {f : Block}, f ∈ F j → f.addr ∈ places R := fun hf =>
    hA.place hR (hA.mem_of_free (A := ⟨F, b :: u⟩) hf)
  have hbP := hA.place hR (Pool.mem_of_used hbU)
  have hfb : ∀ {j : ℕ} {f : Block}, f ∈ F j → f.addr ≠ b.addr := fun hf =>
    (hA.apart_free_used hR hf hbU).addr_ne
  have hdlt := hS.lt _ (hfP hdF)
  have hblt := hS.lt _ hbP
  have hrel₁ : Relinks (places R) {d.addr} s.mem m₁ :=
    hm₁ ▸ .relinkBlock hS (hfP hdF) (prevLink_lt _ _) hblt
  have hrel₂ : Relinks (places R) {b.addr} m₁ m₂ := hm₂ ▸ .relinkBlock hS hbP hdlt (by decide)
  have hprev : ∀ a ∈ places R, prevLink m₂ a = if a = b.addr then d.addr else prevLink s.mem a := by
    intro a ha
    rw [hm₂, prevLink_relinkBlock hS hbP ha hdlt (by decide), hm₁,
      prevLink_relinkNext hS (hfP hdF) ha hblt]
  have hnext : ∀ a ∈ places R, nextLink m₂ a
      = if a = b.addr then 0 else if a = d.addr then b.addr else nextLink s.mem a := by
    intro a ha
    rw [hm₂, nextLink_relinkBlock hS hbP ha hdlt (by decide), hm₁,
      nextLink_relinkBlock hS (hfP hdF) ha (prevLink_lt _ _) hblt]
  have hW : Relinks (places R) (insert b.addr (freeAddrs F)) s.mem m₂ := by
    refine (hrel₁.mono ?_).trans (hrel₂.mono ?_)
    · exact Set.singleton_subset_iff.mpr (Or.inr ⟨_, d, hdF, rfl⟩)
    · exact Set.singleton_subset_iff.mpr (Or.inl rfl)
  have hmark : MarkedFree m₂ b.addr := by
    show (blockHead m₂ b.addr).isFree = 1
    rw [hm₂, hS.blockHead_relinkBlock hbP hbP hdlt (by decide), if_pos rfl]
  have hnil : F b.level = (l₁ ++ [d]) ++ [] := by rw [List.append_nil]; exact hF
  refine ⟨h.link hA hR hnil hW hb hmark (fun j => ?_) ?_ ?_ (fun k f hf => ?_)
    (fun k f hf => ?_), hW.writes, hW.marked⟩
  · exact (if_neg (fun he => List.append_ne_nil_of_right_ne_nil l₁
      (List.cons_ne_nil d []) he.2)).symm
  · rw [hprev _ hbP, if_pos rfl, List.map_append, List.map_singleton, List.getLastD_concat]
  · rw [hnext _ hbP, if_pos rfl]
    rfl
  · rw [hprev _ (hfP hf), if_neg (hfb hf), if_neg (fun he => by cases he)]
  · rw [hnext _ (hfP hf), if_neg (hfb hf), if_congr (getLast?_eq_some_iff
      (hS.ne_zero (hfP hf))) rfl rfl, List.map_append, List.map_singleton, List.getLastD_concat]

/-- **The walk meets the end of the list**: the block is put there. -/
theorem freeScan_after (hA : (Pool.mk F (b :: u)).Inv R) (hR : Regions R) (h : Represents s F)
    (hb : Holds s.mem b) (hF : F b.level = l₁ ++ [d]) (hbd : b.isBuddy d = false)
    (hle : ¬ b.addr < d.addr) :
    ∃ s', freeScan s b.addr (n + 1) d.addr = .ok (0, s')
      ∧ Represents s' (Function.update F b.level (l₁ ++ [d] ++ [b]))
      ∧ WritesOnly (insert b.addr (freeAddrs F)) s.mem s'.mem
      ∧ KeepsMarks (places R) s.mem s'.mem
      ∧ s'.head.memoryIdx = s.head.memoryIdx := by
  have hdF : d ∈ F b.level := hF ▸ List.mem_append_right l₁ List.mem_cons_self
  have hd0 := hR.spaced.ne_zero (hA.place hR (hA.mem_of_free (A := ⟨F, b :: u⟩) hdF))
  have hbuddy := buddyIsBuddy_of_holds hb (h.holds b.level d hdF)
  have hnext : (blockHead s.mem d.addr).next = 0 := h.next_eq hF
  obtain ⟨hrep, hw, hmarks⟩ := h.append hA hR hb hF rfl rfl
  refine ⟨_, ?_, hrep, hw, hmarks, rfl⟩
  rw [freeScan, if_neg hd0, hbuddy, hbd, if_neg Bool.false_ne_true, if_neg hle, if_pos hnext]
  rfl

end Scan

/-! ## The turns of the loop -/

/-- **A turn of the outer loop of `buddyFree`**: the block it begins with, the level at
which it reads the array of lists, and the block the next turn begins with, or `NULL` if
there is none. -/
structure FreeTurn where
  head : ℕ
  level : ℕ
  after : ℕ
deriving DecidableEq, Repr

/-- `freeLoop`, with the turns it takes. -/
def freeLoopLogged : ℕ → Buddy → ℕ → Except Fault (Buddy × List FreeTurn)
  | 0, _, _ => .error .diverges
  | fuel + 1, s, head =>
    if head = 0 then .ok (s, [])
    else if !crc32Check s.mem head buddyCalculateBlockHeadSize then .error .abort
    else
      let level := (blockHead s.mem head).level
      let insertPoint := s.head.list level
      if maxBlockNum ≤ level then .error .outOfBounds
      else if insertPoint = 0 then
        .ok (⟨s.head.setList level head, relinkBlock s.mem head 0 0⟩, [⟨head, level, 0⟩])
      else do
        let (after, s) ← freeScan s head addressCount insertPoint
        let (s, turns) ← freeLoopLogged fuel s after
        .ok (s, ⟨head, level, after⟩ :: turns)

/-- **What is logged is the loop itself.** -/
theorem freeLoopLogged_fst (fuel : ℕ) (s : Buddy) (head : ℕ) :
    (freeLoopLogged fuel s head).map Prod.fst = freeLoop fuel s head := by
  induction fuel generalizing s head with
  | zero => rfl
  | succ fuel ih =>
    rw [freeLoopLogged, freeLoop]
    split
    · rfl
    · split
      · rfl
      · dsimp only
        split
        · rfl
        · split
          · rfl
          · cases freeScan s head addressCount (s.head.list (blockHead s.mem head).level) with
            | error e => rfl
            | ok r =>
              show Except.map _ (freeLoopLogged fuel r.2 r.1 >>= _) = freeLoop fuel r.2 r.1
              rw [← ih]
              cases freeLoopLogged fuel r.2 r.1 <;> rfl

/-- **The turns of a release**, from the block at `c` of level `j` on: each one but the
last merges the block with a buddy, and it goes one level up. The last one inserts it, as
the block at `e` of level `k`. -/
inductive Rises : ℕ → ℕ → List FreeTurn → ℕ → ℕ → Prop
  | inserted {c j : ℕ} : Rises c j [⟨c, j, 0⟩] c j
  | merged {c j d e k : ℕ} {turns : List FreeTurn} : d ≠ 0 → Rises d (j + 1) turns e k →
      Rises c j (⟨c, j, d⟩ :: turns) e k

/-! ## The loop over the levels -/

section Loop

variable {R : List Block} {F : ℕ → List Block} {u : List Block} {b c : Block}
variable {s : Buddy} {fuel k : ℕ}

/-- A merge starts where one of the two blocks starts. -/
theorem insert_merge_subset {l₁ l₂ : List Block} (hF : F k = l₁ ++ c :: l₂) :
    insert (b.merge c).addr (freeAddrs F) ⊆ insert b.addr (freeAddrs F) := by
  refine Set.insert_subset ?_ (Set.subset_insert _ _)
  unfold Block.merge
  split
  · exact Or.inl rfl
  · exact Or.inr ⟨k, c, hF ▸ List.mem_append_right l₁ List.mem_cons_self, rfl⟩

/-- Without a block there are no other free addresses. -/
theorem freeAddrs_remove {l₁ l₂ : List Block} (hF : F k = l₁ ++ c :: l₂) :
    freeAddrs (Function.update F k (l₁ ++ l₂)) ⊆ freeAddrs F := by
  rintro a ⟨j, d, hd, rfl⟩
  refine ⟨j, d, ?_, rfl⟩
  by_cases hj : j = k
  · rw [hj, Function.update_self] at hd
    rw [hj, hF]
    exact List.perm_middle.mem_iff.mpr (List.mem_cons_of_mem c hd)
  · rwa [Function.update_of_ne hj] at hd

/-- A merge frees no address but those of the two blocks. -/
theorem insert_freeAddrs_merge {l₁ l₂ : List Block} (hF : F k = l₁ ++ c :: l₂) :
    insert (b.merge c).addr (freeAddrs (Function.update F k (l₁ ++ l₂)))
      ⊆ insert b.addr (freeAddrs F) :=
  (Set.insert_subset_insert (freeAddrs_remove hF)).trans (insert_merge_subset hF)

/-- **The walk of one level**, in the terms of `Pool.place`. -/
theorem freeScan_spec (hA : (Pool.mk F (b :: u)).Inv R) (hR : Regions R) (h : Represents s F)
    (hb : Holds s.mem b) (hne : F b.level ≠ []) :
    (∃ l₁ c l₂ s', F b.level = l₁ ++ c :: l₂ ∧ b.isBuddy c = true
      ∧ Pool.place b (F b.level) = .merged (b.merge c) (l₁ ++ l₂)
      ∧ freeScan s b.addr addressCount (s.head.list b.level) = .ok ((b.merge c).addr, s')
      ∧ Represents s' (Function.update F b.level (l₁ ++ l₂)) ∧ Holds s'.mem (b.merge c)
      ∧ WritesOnly (insert (b.merge c).addr (freeAddrs F)) s.mem s'.mem
      ∧ MarkedFree s'.mem (b.merge c).addr ∧ KeepsMarks (places R) s.mem s'.mem
      ∧ s'.head.memoryIdx = s.head.memoryIdx)
    ∨ (∃ l s', Pool.place b (F b.level) = .inserted l
      ∧ freeScan s b.addr addressCount (s.head.list b.level) = .ok (0, s')
      ∧ Represents s' (Function.update F b.level l)
      ∧ WritesOnly (insert b.addr (freeAddrs F)) s.mem s'.mem
      ∧ KeepsMarks (places R) s.mem s'.mem
      ∧ s'.head.memoryIdx = s.head.memoryIdx) := by
  have hlen := hA.length_lt hR b.level
  rcases Pool.place_cases b (F b.level) with
    ⟨l₁, c, l₂, hF, hp, hc, hpl⟩ | ⟨l₁, l₂, hF, hp, hc, hpl⟩
  · left
    rw [hF, List.length_append, List.length_cons] at hlen
    obtain ⟨n, hn⟩ : ∃ n, addressCount = l₁.length + (n + 1) :=
      ⟨addressCount - l₁.length - 1, by omega⟩
    have hwalk := freeScan_passes (n := n + 1) hA hR h hb (q := []) hF hp
    obtain ⟨s', hs, hrest⟩ := freeScan_merge (n := n) hA hR h hb hF hc
    refine ⟨l₁, c, l₂, s', hF, hc, hpl, ?_, hrest⟩
    rw [h.list_eq, hF, hn, hwalk, hs]
  · right
    cases l₂ with
    | cons d l₂ =>
      obtain ⟨hd, hlt⟩ := hc d rfl
      rw [hF, List.length_append, List.length_cons] at hlen
      obtain ⟨n, hn⟩ : ∃ n, addressCount = l₁.length + (n + 1) :=
        ⟨addressCount - l₁.length - 1, by omega⟩
      have hwalk := freeScan_passes (n := n + 1) hA hR h hb (q := []) hF hp
      obtain ⟨s', hs, hrest⟩ := freeScan_before (n := n) hA hR h hb hF hd hlt
      refine ⟨_, s', hpl, ?_, hrest⟩
      rw [h.list_eq, hF, hn, hwalk, hs]
    | nil =>
      -- the walk passes over all blocks but the last, and ends there
      rcases List.eq_nil_or_concat l₁ with rfl | ⟨l, d, rfl⟩
      · exact absurd hF hne
      · rw [List.concat_eq_append] at hF hp hpl
        rw [List.append_nil] at hF
        obtain ⟨hd, hle⟩ := hp d (List.mem_append_right l List.mem_cons_self)
        have hp' : Pool.Passes b l := fun e he => hp e (List.mem_append_left _ he)
        rw [hF, List.length_append, List.length_singleton] at hlen
        obtain ⟨n, hn⟩ : ∃ n, addressCount = l.length + (n + 1) :=
          ⟨addressCount - l.length - 1, by omega⟩
        have hwalk := freeScan_passes (n := n + 1) hA hR h hb (q := []) hF hp'
        obtain ⟨s', hs, hrest⟩ := freeScan_after (n := n) hA hR h hb hF hd hle
        refine ⟨_, s', hpl, ?_, hrest⟩
        rw [h.list_eq, hF, hn, hwalk, hs]

/-- **Putting a block on a list that is empty.** -/
theorem Represents.alone (hA : (Pool.mk F (b :: u)).Inv R) (hR : Regions R)
    (h : Represents s F) (hb : Holds s.mem b) (hnil : F b.level = []) :
    Represents ⟨s.head.setList b.level b.addr, relinkBlock s.mem b.addr 0 0⟩
        (Function.update F b.level [b])
      ∧ WritesOnly (insert b.addr (freeAddrs F)) s.mem (relinkBlock s.mem b.addr 0 0)
      ∧ KeepsMarks (places R) s.mem (relinkBlock s.mem b.addr 0 0) := by
  have hS := hR.spaced
  have hbP := hA.place hR (Pool.mem_of_used List.mem_cons_self)
  have hlevel := hA.level_lt hR (Pool.mem_of_used List.mem_cons_self)
  have hfP : ∀ {j : ℕ} {f : Block}, f ∈ F j → f.addr ∈ places R := fun hf =>
    hA.place hR (hA.mem_of_free (A := ⟨F, b :: u⟩) hf)
  have hfb : ∀ {j : ℕ} {f : Block}, f ∈ F j → f.addr ≠ b.addr := fun hf =>
    (hA.apart_free_used hR hf List.mem_cons_self).addr_ne
  have hrel : Relinks (places R) {b.addr} s.mem (relinkBlock s.mem b.addr 0 0) :=
    .relinkBlock hS hbP (by decide) (by decide)
  refine ⟨?_, hrel.writes.mono (Set.singleton_subset_iff.mpr (Or.inl rfl)), hrel.marked⟩
  refine h.link hA hR (show F b.level = [] ++ [] from hnil) hrel hb ?_ (fun j => ?_) ?_ ?_
    (fun k f hf => ?_) (fun k f hf => ?_)
  · show (blockHead _ _).isFree = 1
    rw [hS.blockHead_relinkBlock hbP hbP (by decide) (by decide), if_pos rfl]
  · exact list_setList_front (lt_trans hlevel (by decide)) (fun hne => absurd rfl hne)
  · rw [prevLink_relinkBlock hS hbP hbP (by decide) (by decide), if_pos rfl]
    rfl
  · rw [nextLink_relinkBlock hS hbP hbP (by decide) (by decide), if_pos rfl]
    rfl
  · rw [prevLink_relinkBlock hS hbP (hfP hf) (by decide) (by decide), if_neg (hfb hf)]
    rfl
  · rw [nextLink_relinkBlock hS hbP (hfP hf) (by decide) (by decide), if_neg (hfb hf)]
    rfl

/-- **A turn of the loop**, in the terms of `Pool.place`. -/
theorem freeTurn_spec (hR : Regions R) (hA : (Pool.mk F (b :: u)).Inv R) (h : Represents s F)
    (hb : Holds s.mem b) :
    (∃ l₁ c l₂ s', F b.level = l₁ ++ c :: l₂ ∧ b.isBuddy c = true
      ∧ Pool.place b (F b.level) = .merged (b.merge c) (l₁ ++ l₂)
      ∧ (∀ n, freeLoopLogged (n + 1) s b.addr = (do
          let (s, turns) ← freeLoopLogged n s' (b.merge c).addr
          .ok (s, ⟨b.addr, b.level, (b.merge c).addr⟩ :: turns)))
      ∧ Represents s' (Function.update F b.level (l₁ ++ l₂)) ∧ Holds s'.mem (b.merge c)
      ∧ WritesOnly (insert (b.merge c).addr (freeAddrs F)) s.mem s'.mem
      ∧ MarkedFree s'.mem (b.merge c).addr ∧ KeepsMarks (places R) s.mem s'.mem
      ∧ s'.head.memoryIdx = s.head.memoryIdx)
    ∨ (∃ l s', Pool.place b (F b.level) = .inserted l
      ∧ (∀ n, freeLoopLogged (n + 2) s b.addr = .ok (s', [⟨b.addr, b.level, 0⟩]))
      ∧ Represents s' (Function.update F b.level l)
      ∧ WritesOnly (insert b.addr (freeAddrs F)) s.mem s'.mem
      ∧ KeepsMarks (places R) s.mem s'.mem
      ∧ s'.head.memoryIdx = s.head.memoryIdx) := by
  have hS := hR.spaced
  have hbP := hA.place hR (Pool.mem_of_used List.mem_cons_self)
  have hlevel := hA.level_lt hR (Pool.mem_of_used List.mem_cons_self)
  have hmax : ¬ maxBlockNum ≤ b.level := by
    unfold maxBlockNum
    omega
  have hempty : s.head.list b.level = 0 ↔ F b.level = [] :=
    Represents.list_eq_zero_iff (A := ⟨F, b :: u⟩) hA hR h b.level
  by_cases hnil : F b.level = []
  · -- the list is empty, and becomes the block
    right
    have hlist : s.head.list b.level = 0 := hempty.mpr hnil
    obtain ⟨hrep, hw, hmarks⟩ := h.alone hA hR hb hnil
    refine ⟨[b], _, ?_, fun n => ?_, hrep, hw, hmarks, rfl⟩
    · rw [hnil]
      rfl
    · rw [freeLoopLogged, if_neg (hS.ne_zero hbP), hb.crc32Check, if_neg (by decide), hb.level,
        if_neg hmax, if_pos hlist]
  · have hlist : s.head.list b.level ≠ 0 := fun h0 => hnil (hempty.mp h0)
    have hturn : ∀ n, freeLoopLogged (n + 1) s b.addr = (do
        let (after, s) ← freeScan s b.addr addressCount (s.head.list b.level)
        let (s, turns) ← freeLoopLogged n s after
        .ok (s, ⟨b.addr, b.level, after⟩ :: turns)) := by
      intro n
      rw [freeLoopLogged, if_neg (hS.ne_zero hbP), hb.crc32Check, if_neg (by decide), hb.level,
        if_neg hmax, if_neg hlist]
    rcases freeScan_spec hA hR h hb hnil with
      ⟨l₁, c, l₂, s', hF, hc, hpl, hs, hrest⟩ | ⟨l, s', hpl, hs, hrest⟩
    · refine .inl ⟨l₁, c, l₂, s', hF, hc, hpl, fun n => ?_, hrest⟩
      rw [hturn, hs]
      rfl
    · refine .inr ⟨l, s', hpl, fun n => ?_, hrest⟩
      rw [hturn, hs]
      rfl

/-- **The loop of `buddyFree`**: it releases the block, in the sense of
`Pool.release`, by a merge for each level the block goes up. -/
theorem freeLoopLogged_spec (hR : Regions R) (hA : (Pool.mk F (b :: u)).Inv R)
    (h : Represents s F) (hb : Holds s.mem b) (hfuel : 31 ≤ b.level + fuel) :
    ∃ s' turns e, freeLoopLogged (fuel + 2) s b.addr = .ok (s', turns)
      ∧ Rises b.addr b.level turns e.addr e.level ∧ e ∈ Pool.release fuel F b e.level
      ∧ e.addr ≤ b.addr ∧ b.stop ≤ e.stop
      ∧ Represents s' (Pool.release fuel F b)
      ∧ WritesOnly (insert b.addr (freeAddrs F)) s.mem s'.mem
      ∧ KeepsMarks (places R) s.mem s'.mem
      ∧ s'.head.memoryIdx = s.head.memoryIdx := by
  have hlevel := hA.level_lt hR (Pool.mem_of_used List.mem_cons_self)
  induction fuel generalizing F b s with
  | zero => omega
  | succ fuel ih =>
    rw [Pool.release]
    rcases freeTurn_spec hR hA h hb with
      ⟨l₁, c, l₂, s', hF, hc, hpl, hturn, hrep, hhold, hw, -, hmarks, hidx⟩ |
      ⟨l, s', hpl, hturn, hrep, hw, hmarks, hidx⟩
    · have hA' := hA.merge hR hF hc
      have hP := hA'.place hR (Pool.mem_of_used List.mem_cons_self)
      obtain ⟨s'', turns, e, hs', hrises, he, haddr, hstop, hrep', hw', hmarks', hidx'⟩ :=
        ih hA' hrep hhold (show 31 ≤ b.level + 1 + fuel by omega)
          (hA'.level_lt hR (Pool.mem_of_used List.mem_cons_self))
      obtain ⟨hl, -, -, hm, hside⟩ := (Block.isBuddy_iff hlevel).mp hc
      obtain ⟨hma, -, -, hms⟩ := Block.merge_spec hl hm hside
      refine ⟨s'', _, e, ?_, .merged (hR.spaced.ne_zero hP) hrises, ?_, ?_, ?_, ?_,
        (hw.mono (insert_merge_subset hF)).trans (hw'.mono (insert_freeAddrs_merge hF)),
        hmarks.trans hmarks', hidx'.trans hidx⟩
      · rw [hturn, hs']
        rfl
      · rw [hpl]
        exact he
      · exact haddr.trans (hma.trans_le (min_le_left ..))
      · exact (le_max_left ..).trans (hms.symm.trans_le hstop)
      · rw [hpl]
        exact hrep'
    · refine ⟨s', _, b, hturn (fuel + 1), .inserted, ?_, le_rfl, le_rfl, ?_, hw, hmarks, hidx⟩
      · rw [hpl]
        dsimp only
        rw [Function.update_self]
        exact Pool.mem_of_place hpl
      · rw [hpl]
        exact hrep

theorem freeLoop_spec (hR : Regions R) (hA : (Pool.mk F (b :: u)).Inv R)
    (h : Represents s F) (hb : Holds s.mem b) (hfuel : 31 ≤ b.level + fuel) :
    ∃ s', freeLoop (fuel + 2) s b.addr = .ok s' ∧ Represents s' (Pool.release fuel F b)
      ∧ WritesOnly (insert b.addr (freeAddrs F)) s.mem s'.mem
      ∧ KeepsMarks (places R) s.mem s'.mem
      ∧ s'.head.memoryIdx = s.head.memoryIdx := by
  obtain ⟨s', turns, e, hs, -, -, -, -, hrest⟩ := freeLoopLogged_spec hR hA h hb hfuel
  refine ⟨s', ?_, hrest⟩
  rw [← freeLoopLogged_fst, hs]
  rfl

/-- **Releasing a block in use.** The call returns, and releases the block
the address belongs to. -/
theorem buddyFree_spec (hR : Regions R) (hA : (Pool.mk F (b :: u)).Inv R)
    (h : Represents s F) (hb : Holds s.mem b) (hused : (blockHead s.mem b.addr).isFree = 0) :
    ∃ s', buddyFree s (b.addr + buddyCalculateBlockHeadSize) = .ok s'
      ∧ Represents s' (Pool.release maxBlockNum F b)
      ∧ WritesOnly (insert b.addr (freeAddrs F)) s.mem s'.mem
      ∧ KeepsMarks (places R) s.mem s'.mem
      ∧ s'.head.memoryIdx = s.head.memoryIdx := by
  have hfuel : 31 ≤ b.level + maxBlockNum := by
    unfold maxBlockNum
    omega
  obtain ⟨s', hs, hrest⟩ := freeLoop_spec hR hA h hb hfuel
  refine ⟨s', ?_, hrest⟩
  unfold buddyFree
  rw [Nat.add_sub_cancel]
  dsimp only
  rw [hused, if_neg (by decide), hb.crc32Check, if_neg (by decide)]
  exact hs

/-- **A block which is merged when it is released**: where the merge begins
is marked free, and no header is written but there and at free blocks. -/
theorem buddyFree_merge (hR : Regions R) (hA : (Pool.mk F (b :: u)).Inv R)
    (h : Represents s F) (hb : Holds s.mem b) (hused : (blockHead s.mem b.addr).isFree = 0)
    {d : Block} {l : List Block} (hplace : Pool.place b (F b.level) = .merged d l) :
    ∃ s', buddyFree s (b.addr + buddyCalculateBlockHeadSize) = .ok s'
      ∧ MarkedFree s'.mem d.addr ∧ WritesOnly (insert d.addr (freeAddrs F)) s.mem s'.mem := by
  rcases freeTurn_spec hR hA h hb with
    ⟨l₁, c, l₂, s₁, hF, hc, hpl, hturn, hrep, hhold, hw, hmark, -, -⟩ | ⟨l', s₁, hpl, -⟩
  swap
  · rw [hplace] at hpl
    cases hpl
  rw [hplace] at hpl
  cases hpl
  have hA' := hA.merge hR hF hc
  obtain ⟨s', turns, e, hs', -, -, -, -, -, hw', hmarks', -⟩ := freeLoopLogged_spec hR hA' hrep
    hhold (Nat.le_add_left 31 (b.merge c).level)
  refine ⟨s', ?_, hmarks' _ (hA'.place hR (Pool.mem_of_used List.mem_cons_self)) hmark,
    hw.trans (hw'.mono (Set.insert_subset_insert (freeAddrs_remove hF)))⟩
  unfold buddyFree
  rw [Nat.add_sub_cancel]
  dsimp only
  rw [hused, if_neg (by decide), hb.crc32Check, if_neg (by decide)]
  show freeLoop (33 + 1) s b.addr = _
  rw [← freeLoopLogged_fst, hturn, hs']
  rfl

/-- **What is free after a release** was free before, or is the block. -/
theorem freeAddrs_release (fuel : ℕ) (F : ℕ → List Block) (b : Block) :
    freeAddrs (Pool.release fuel F b) ⊆ insert b.addr (freeAddrs F) := by
  induction fuel generalizing F b with
  | zero => exact Set.subset_insert _ _
  | succ fuel ih =>
    rw [Pool.release]
    rcases Pool.place_cases b (F b.level) with ⟨l₁, c, l₂, hF, -, -, hpl⟩ | ⟨l₁, l₂, hF, -, -, hpl⟩
    · rw [hpl]
      exact (ih _ _).trans (insert_freeAddrs_merge hF)
    · rw [hpl]
      rintro a ⟨j, d, hd, rfl⟩
      dsimp only at hd
      by_cases hj : j = b.level
      · rw [hj, Function.update_self] at hd
        rcases List.mem_cons.mp (List.perm_middle.mem_iff.mp hd) with rfl | hd
        · exact Or.inl rfl
        · exact Or.inr ⟨b.level, d, hF ▸ hd, rfl⟩
      · rw [Function.update_of_ne hj] at hd
        exact Or.inr ⟨j, d, hd, rfl⟩

end Loop
