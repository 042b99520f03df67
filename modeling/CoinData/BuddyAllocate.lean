import CoinData.BuddyRelease

/-!
# Attaching memory and allocating blocks in memory

`buddyMalloc` looks for a level with a free block, cuts blocks down to the
level of the request and takes the first one there. The search stops at
the first level from the request's on that has a free block, so the lists
in between are empty, and each cut turns an empty list into the two
halves: this is what `Pool.splitDown` and `Pool.take` do.
-/

section Allocate

variable {R : List Block} {A : Pool} {b c : Block} {l : List Block}
variable {s : Buddy} {idx k level n size : ℕ}

/-! ## The search -/

theorem level_le_searchLevel (h : BuddyHead) (n level : ℕ) : level ≤ searchLevel h n level := by
  induction n generalizing level with
  | zero => exact le_rfl
  | succ n ih =>
    rw [searchLevel]
    split
    · exact le_rfl
    · split
      · exact (Nat.le_succ level).trans (ih (level + 1))
      · exact Nat.le_succ level

/-- **Where the search ends**: at the first nonempty list, or past them all. -/
theorem searchLevel_spec {h : BuddyHead} (hl : level < maxBlockNum)
    (hn : maxBlockNum ≤ level + n) :
    level ≤ searchLevel h n level ∧ searchLevel h n level ≤ maxBlockNum
      ∧ (∀ j, level ≤ j → j < searchLevel h n level → h.list j = 0)
      ∧ (searchLevel h n level < maxBlockNum → h.list (searchLevel h n level) ≠ 0) := by
  induction n generalizing level with
  | zero => omega
  | succ n ih =>
    rw [searchLevel]
    split
    · next hne => exact ⟨le_rfl, le_of_lt hl, fun j h₁ h₂ => by omega, fun _ => hne⟩
    · next hz =>
      have hz' : h.list level = 0 := not_not.mp hz
      split
      · next hlt =>
        obtain ⟨h₁, h₂, h₃, h₄⟩ := ih hlt (by omega)
        refine ⟨by omega, h₂, fun j hj hj' => ?_, h₄⟩
        by_cases heq : j = level
        · rw [heq]
          exact hz'
        · exact h₃ j (by omega) hj'
      · refine ⟨by omega, by omega, fun j hj hj' => ?_, fun hlt => by omega⟩
        rw [show j = level by omega]
        exact hz'

/-! ## Taking the first block off a list -/

/-- The first block of a list has no link back. -/
theorem Represents.prev_head (h : Represents s A.free) (hF : A.free k = b :: l) :
    prevLink s.mem b.addr = 0 := h.prev_eq (show A.free k = [] ++ b :: l from hF)

/-- **Taking the first block off a list**: the next one loses its link
back. What happens to the block itself afterwards does not matter. -/
theorem Represents.pop (hA : A.Inv R) (hR : Regions R) (h : Represents s A.free)
    (hF : A.free k = b :: l) {m₁ m₂ : ByteStore}
    (hm₁ : m₁ = if nextLink s.mem b.addr ≠ 0 then relinkBlock s.mem (nextLink s.mem b.addr) 0
      (nextLink s.mem (nextLink s.mem b.addr)) else s.mem)
    (hm₂ : ∀ j, ∀ c ∈ A.free j, c ≠ b → blockHead m₂ c.addr = blockHead m₁ c.addr) :
    Relinks (places R) (freeAddrs A.free) s.mem m₁
      ∧ (∀ a ∈ places R, prevLink m₁ a = if a = nextLink s.mem b.addr then 0
          else prevLink s.mem a)
      ∧ Represents ⟨s.head.setList k (nextLink s.mem b.addr), m₂⟩
          (Function.update A.free k l) := by
  have hS := hR.spaced
  have hF' : A.free k = [] ++ b :: l := hF
  have hbF : b ∈ A.free k := hF ▸ List.mem_cons_self
  have hplace : ∀ j, ∀ c ∈ A.free j, c.addr ∈ places R := fun j c hc =>
    hA.place hR (hA.mem_of_free hc)
  have hsub : freeAddrs A.free ⊆ places R := hA.freeAddrs_subset hR
  obtain ⟨hrel, hprev, hnext⟩ := relinkPrev_spec hS (fun hne => hsub (h.next_mem hF' hne))
    (by decide) hm₁
  refine ⟨hrel.mono ?_, hprev, ?_⟩
  · rintro a ⟨ha, rfl⟩
    exact h.next_mem hF' (hS.ne_zero ha)
  · refine h.unlink hA hR hF' (fun j => ?_) (fun j c hc hne => ⟨?_, ?_⟩) (fun j c hc hne => ?_)
      (fun j c hc hne => ?_)
    · exact list_setList_front (hA.lt_of_mem hbF) (fun hne => absurd rfl hne)
    · exact (hrel.holds (hplace j c hc) (h.holds j c hc)).congr (hm₂ j c hc hne)
    · exact (congrArg BlockHead.isFree (hm₂ j c hc hne)).trans
        (hrel.marked _ (hplace j c hc) (h.marked j c hc))
    · rw [if_congr (head?_eq_some_iff (hS.ne_zero (hplace j c hc))) rfl rfl, h.prev_head hF,
        ← h.next_eq hF']
      exact (congrArg BlockHead.previous (hm₂ j c hc hne)).trans (hprev _ (hplace j c hc))
    · exact (congrArg BlockHead.next (hm₂ j c hc hne)).trans (hnext _ (hplace j c hc))

/-- **The last step of `buddyMalloc`**: the first block of the level is
taken into use. -/
theorem takeBlock_spec (size : ℕ) (hA : A.Inv R) (hR : Regions R) (h : Represents s A.free)
    (hF : A.free k = b :: l) :
    (takeBlock s k size).1 = b.addr + buddyCalculateBlockHeadSize
      ∧ Represents (takeBlock s k size).2 (A.take k).free
      ∧ Holds (takeBlock s k size).2.mem b
      ∧ (blockHead (takeBlock s k size).2.mem b.addr).isFree = 0
      ∧ WritesOnly (freeAddrs A.free) s.mem (takeBlock s k size).2.mem
      ∧ (takeBlock s k size).2.head.memoryIdx = s.head.memoryIdx := by
  have hS := hR.spaced
  have hbF : b ∈ A.free k := hF ▸ List.mem_cons_self
  have hbP := hA.place hR (hA.mem_of_free hbF)
  have hret : s.head.list k = b.addr := by rw [h.list_eq, hF]; rfl
  obtain ⟨m₁, hm₁⟩ : ∃ m₁, m₁ = if nextLink s.mem b.addr ≠ 0 then relinkBlock s.mem
      (nextLink s.mem b.addr) 0 (nextLink s.mem (nextLink s.mem b.addr)) else s.mem := ⟨_, rfl⟩
  obtain ⟨m₂, hm₂⟩ : ∃ m₂, m₂ = Layout.size.set (initUsedBlock m₁ b.addr) b.addr size := ⟨_, rfl⟩
  have htake : takeBlock s k size = (b.addr + buddyCalculateBlockHeadSize,
      ⟨s.head.setList k (nextLink s.mem b.addr), m₂⟩) := by
    unfold takeBlock
    rw [hret]
    dsimp only
    rw [if_neg (hS.ne_zero hbP), hm₂, hm₁]
    rfl
  have hw : WritesOnly {b.addr} m₁ m₂ :=
    hm₂ ▸ writesOnly_initUsedBlock.trans (writesOnly_set (by decide))
  have hkeep : ∀ j, ∀ c ∈ A.free j, c ≠ b → blockHead m₂ c.addr = blockHead m₁ c.addr :=
    fun j c hc hne => hS.blockHead_of_writesOnly hbP (hA.place hR (hA.mem_of_free hc))
      (fun he => hne (hA.eq_of_addr hR (hA.mem_of_free hc) (hA.mem_of_free hbF) he)) hw
  obtain ⟨hrel, -, hrep⟩ := h.pop hA hR hF hm₁ hkeep
  have hhold := hrel.holds hbP (h.holds k b hbF)
  have hhead : ∃ w, blockHead m₂ b.addr = { blockHead m₁ b.addr with
      previous := 0, next := 0, size := w, isFree := 0, crc := crc32 } := by
    obtain ⟨w, hw⟩ := blockHead_resize (m := initUsedBlock m₁ b.addr) (a := b.addr) (v := size)
    refine ⟨w, ?_⟩
    rw [hm₂, hw, blockHead_initUsedBlock_self (hS.ne_zero hbP)]
  obtain ⟨w, hhead⟩ := hhead
  rw [htake]
  refine ⟨rfl, ?_, ⟨?_, ?_⟩, ?_, ?_, rfl⟩
  · rw [Pool.take_eq hF]
    exact hrep
  · have hblock := hhold.block
    unfold blockAt at hblock ⊢
    dsimp only
    rw [hhead]
    exact hblock
  · dsimp only
    rw [hhead]
  · dsimp only
    rw [hhead]
  · refine hrel.writes.trans (hw.mono ?_)
    exact Set.singleton_subset_iff.mpr ⟨k, b, hbF, rfl⟩

/-! ## Cutting blocks -/

theorem listEnd_null (m : ByteStore) : listEnd m addressCount 0 = .ok 0 := by
  obtain ⟨n, hn⟩ : ∃ n, addressCount = n + 1 := ⟨2 ^ 64 - 1, by decide⟩
  rw [hn, listEnd, if_pos rfl]

/-- **What cutting leaves in the headers of the halves.** The lower half is
at `a`, the upper one at `c`. -/
theorem halves_heads {S : Set ℕ} (hS : Spaced S) {m₁ m₃ m₄ m₅ m₆ m₇ : ByteStore} {a c : ℕ}
    (ha : a ∈ S) (hc : c ∈ S) (hac : a ≠ c) (hidx : idx < 2 ^ 64)
    (hm₃ : m₃ = Layout.previous.set (Layout.next.set m₁ a 0) a 0)
    (hm₄ : m₄ = Layout.hostPid.set m₃ c (blockHead m₃ a).hostPid)
    (hm₅ : m₅ = Layout.memoryIdx.set m₄ c (blockHead m₄ a).memoryIdx)
    (hm₆ : m₆ = initFreeBlock m₅ c a 0 idx 1)
    (hm₇ : m₇ = initFreeBlock m₆ a (blockHead m₆ a).previous c idx 0) :
    WritesOnly {a, c} m₁ m₇
      ∧ blockHead m₇ a = { blockHead m₁ a with
          previous := 0, next := c, size := 0, level := idx, isFree := 1, isFirst := 0,
          crc := crc32 }
      ∧ blockHead m₇ c = { blockHead m₁ c with
          previous := a, next := 0, size := 0, level := idx, isFree := 1, isFirst := 1,
          hostPid := (blockHead m₁ a).hostPid, memoryIdx := (blockHead m₁ a).memoryIdx,
          crc := crc32 } := by
  have hw₃ : WritesOnly {a} m₁ m₃ :=
    hm₃ ▸ (writesOnly_set (by decide)).trans (writesOnly_set (by decide))
  have hw₄ : WritesOnly {c} m₃ m₄ := hm₄ ▸ writesOnly_set (by decide)
  have hw₅ : WritesOnly {c} m₄ m₅ := hm₅ ▸ writesOnly_set (by decide)
  have hw₆ : WritesOnly {c} m₅ m₆ := hm₆ ▸ writesOnly_initFreeBlock
  have hw₇ : WritesOnly {a} m₆ m₇ := hm₇ ▸ writesOnly_initFreeBlock
  have ha₃ : blockHead m₃ a = { blockHead m₁ a with previous := 0, next := 0 } :=
    hm₃ ▸ blockHead_unlink
  have ha₆ : blockHead m₆ a = blockHead m₃ a :=
    hS.blockHead_of_writesOnly hc ha hac ((hw₄.trans hw₅).trans hw₆)
  have ha₄ : blockHead m₄ a = blockHead m₃ a := hS.blockHead_of_writesOnly hc ha hac hw₄
  have hpid : (blockHead m₁ a).hostPid < 2 ^ 64 := by
    unfold blockHead
    exact (Layout.hostPid.get_lt m₁ a).trans_eq (by decide)
  have hmidx : (blockHead m₁ a).memoryIdx < 2 ^ 64 := by
    unfold blockHead
    exact (Layout.memoryIdx.get_lt m₁ a).trans_eq (by decide)
  have hc₅ : blockHead m₅ c = { blockHead m₁ c with
      hostPid := (blockHead m₁ a).hostPid, memoryIdx := (blockHead m₁ a).memoryIdx } := by
    rw [hm₅, ha₄, hm₄, ha₃, blockHead_own hpid hmidx,
      hS.blockHead_of_writesOnly ha hc hac.symm hw₃]
  have hsub₁ : ({a} : Set ℕ) ⊆ {a, c} := Set.singleton_subset_iff.mpr (Or.inl rfl)
  have hsub₂ : ({c} : Set ℕ) ⊆ {a, c} := Set.singleton_subset_iff.mpr (Or.inr rfl)
  refine ⟨((((hw₃.mono hsub₁).trans (hw₄.mono hsub₂)).trans (hw₅.mono hsub₂)).trans
    (hw₆.mono hsub₂)).trans (hw₇.mono hsub₁), ?_, ?_⟩
  · rw [hm₇, ha₆, ha₃, blockHead_initFreeBlock_self (hS.ne_zero ha) (Nat.two_pow_pos 64)
      (hS.lt c hc) hidx (by decide), ha₆, ha₃]
  · rw [hS.blockHead_of_writesOnly ha hc hac.symm hw₇, hm₆,
      blockHead_initFreeBlock_self (hS.ne_zero hc) (hS.lt a ha) (by decide) hidx (by decide), hc₅]

/-- The upper half of a block starts where the code cuts the block. -/
theorem upper_addr (hA : A.Inv R) (hR : Regions R) (hb : b ∈ A.free (idx + 1)) :
    b.upper.addr = b.addr + calculateBlockSize idx := by
  have hlevel := hA.level_eq _ b hb
  have hlt := hA.level_lt hR (hA.mem_of_free hb)
  rw [calculateBlockSize_of_lt (by omega)]
  show b.addr + 2 ^ (b.level - 1) * pageSize = _
  rw [hlevel, Nat.add_sub_cancel]

/-- **What a turn of the splitting loop does**: `m₁` is the memory when the first block
has been taken off its list, and the other ones as the halves are initialized. -/
theorem splitBlock_eq (hA : A.Inv R) (hR : Regions R) (h : Represents s A.free)
    (hF : A.free (idx + 1) = b :: l) (hnil : A.free idx = []) {m₁ m₃ m₄ m₅ m₆ m₇ : ByteStore}
    (hm₁ : m₁ = if nextLink s.mem b.addr ≠ 0 then relinkBlock s.mem (nextLink s.mem b.addr) 0
      (nextLink s.mem (nextLink s.mem b.addr)) else s.mem)
    (hm₃ : m₃ = Layout.previous.set (Layout.next.set m₁ b.addr 0) b.addr 0)
    (hm₄ : m₄ = Layout.hostPid.set m₃ b.upper.addr (blockHead m₃ b.addr).hostPid)
    (hm₅ : m₅ = Layout.memoryIdx.set m₄ b.upper.addr (blockHead m₄ b.addr).memoryIdx)
    (hm₆ : m₆ = initFreeBlock m₅ b.upper.addr b.addr 0 idx 1)
    (hm₇ : m₇ = initFreeBlock m₆ b.addr (blockHead m₆ b.addr).previous b.upper.addr idx 0) :
    splitBlock s idx
      = .ok ⟨(s.head.setList (idx + 1) (nextLink s.mem b.addr)).setList idx b.addr, m₇⟩ := by
  have hbF : b ∈ A.free (idx + 1) := hF ▸ List.mem_cons_self
  have hret : s.head.list (idx + 1) = b.addr := by rw [h.list_eq, hF]; rfl
  have hrest : nextLink s.mem b.addr = (l.map Block.addr).headD 0 :=
    h.next_eq (show A.free (idx + 1) = [] ++ b :: l from hF)
  have hup := upper_addr hA hR hbF
  -- the next block is of the level that is written to it
  have hrelink : (if nextLink s.mem b.addr ≠ 0 then
      initFreeBlock s.mem (nextLink s.mem b.addr) 0 (blockHead s.mem (nextLink s.mem b.addr)).next
        (idx + 1) (blockHead s.mem (nextLink s.mem b.addr)).isFirst else s.mem) = m₁ := by
    rw [hm₁]
    split
    · next hne =>
      rw [hrest] at hne
      obtain ⟨c, hc, hca⟩ := List.mem_map.mp (headD_mem hne)
      have hcF : c ∈ A.free (idx + 1) := hF ▸ List.mem_cons_of_mem b hc
      have hlevel := (h.holds _ c hcF).level
      rw [hA.level_eq _ c hcF, hca, ← hrest] at hlevel
      unfold relinkBlock
      rw [hlevel]
      rfl
    · rfl
  have hend : (s.head.setList (idx + 1) (nextLink s.mem b.addr)).list idx = 0 := by
    rw [BuddyHead.list_setList, if_neg (by omega)]
    exact (h.list_eq_zero_iff hA hR idx).mpr hnil
  unfold splitBlock
  rw [hret]
  dsimp only
  rw [show (blockHead s.mem b.addr).next = nextLink s.mem b.addr from rfl, hrelink, hend, ← hup,
    listEnd_null, ← hm₃, ← hm₄, ← hm₅, ← hm₆, ← hm₇]
  rfl

/-- Where the halves of a block lie. -/
theorem upper_within (hb : 0 < b.level) : b.addr < b.upper.addr ∧ b.upper.addr < b.stop := by
  obtain ⟨-, hmid, hstop⟩ := Block.halves_spec hb
  have hlow := b.lower.addr_lt_stop
  have hup := b.upper.addr_lt_stop
  rw [hmid] at hlow
  rw [hstop] at hup
  exact ⟨hlow, hup⟩

/-- **One turn of the splitting loop.** -/
theorem splitBlock_spec (hA : A.Inv R) (hR : Regions R) (h : Represents s A.free)
    (hF : A.free (idx + 1) = b :: l) (hnil : A.free idx = []) :
    ∃ s', splitBlock s idx = .ok s' ∧ Represents s' (A.split idx).free
      ∧ WritesOnly (insert b.upper.addr (freeAddrs A.free)) s.mem s'.mem
      ∧ s'.head.memoryIdx = s.head.memoryIdx := by
  have hS := hR.spaced
  have hbF : b ∈ A.free (idx + 1) := hF ▸ List.mem_cons_self
  have hbB := hA.mem_of_free hbF
  have hbP := hA.place hR hbB
  have hblevel : b.level = idx + 1 := hA.level_eq _ b hbF
  have hidx : idx + 1 < 31 := hblevel ▸ hA.level_lt hR hbB
  -- the upper half is a block of the pool after the cut
  have hA' := hA.split (show idx + 1 < maxBlockNum from lt_trans hidx (by decide)) hnil
  have hfree' := Pool.split_free hF
  have hupF : b.upper ∈ (A.split idx).free idx := by
    rw [hfree', Function.update_self]
    exact List.mem_cons_of_mem _ List.mem_cons_self
  have hcP := hA'.place hR (hA'.mem_of_free hupF)
  obtain ⟨hac, hcstop⟩ := upper_within (b := b) (by omega)
  have hother : ∀ j, ∀ c ∈ A.free j, c ≠ b → c.addr ≠ b.addr ∧ c.addr ≠ b.upper.addr := by
    intro j c hc hne
    have hap := hA.apart_of_ne hR (hA.mem_of_free hc) hbB hne
    have hclt := c.addr_lt_stop
    unfold Block.Apart at hap
    omega
  obtain ⟨m₁, hm₁⟩ : ∃ m₁, m₁ = if nextLink s.mem b.addr ≠ 0 then relinkBlock s.mem
      (nextLink s.mem b.addr) 0 (nextLink s.mem (nextLink s.mem b.addr)) else s.mem := ⟨_, rfl⟩
  obtain ⟨m₃, hm₃⟩ : ∃ m₃, m₃ = Layout.previous.set (Layout.next.set m₁ b.addr 0) b.addr 0 :=
    ⟨_, rfl⟩
  obtain ⟨m₄, hm₄⟩ : ∃ m₄, m₄ = Layout.hostPid.set m₃ b.upper.addr (blockHead m₃ b.addr).hostPid :=
    ⟨_, rfl⟩
  obtain ⟨m₅, hm₅⟩ : ∃ m₅, m₅ = Layout.memoryIdx.set m₄ b.upper.addr
      (blockHead m₄ b.addr).memoryIdx := ⟨_, rfl⟩
  obtain ⟨m₆, hm₆⟩ : ∃ m₆, m₆ = initFreeBlock m₅ b.upper.addr b.addr 0 idx 1 := ⟨_, rfl⟩
  obtain ⟨m₇, hm₇⟩ : ∃ m₇, m₇ = initFreeBlock m₆ b.addr (blockHead m₆ b.addr).previous
      b.upper.addr idx 0 := ⟨_, rfl⟩
  obtain ⟨hw, hheadb, hheadc⟩ := halves_heads hS hbP hcP (ne_of_lt hac)
    (by omega) hm₃ hm₄ hm₅ hm₆ hm₇
  have hkeep : ∀ j, ∀ c ∈ A.free j, c ≠ b → blockHead m₇ c.addr = blockHead m₁ c.addr := by
    intro j c hc hne
    obtain ⟨h₁, h₂⟩ := hother j c hc hne
    refine hw.blockHead_eq (fun w hw => ?_)
    have hcP' := hA.place hR (hA.mem_of_free hc)
    rcases hw with rfl | rfl
    · exact hS.apart _ hcP' _ hbP h₁
    · exact hS.apart _ hcP' _ hcP h₂
  obtain ⟨hrel, -, hrep⟩ := h.pop hA hR hF hm₁ hkeep
  have hhold := hrel.holds hbP (h.holds _ b hbF)
  have hblock := hhold.block
  unfold blockAt at hblock
  have hpid : (blockHead m₁ b.addr).hostPid = b.hostPid := congrArg Block.hostPid hblock
  have hmidx : (blockHead m₁ b.addr).memoryIdx = b.memoryIdx := congrArg Block.memoryIdx hblock
  have hpred : b.level - 1 = idx := by omega
  refine ⟨_, splitBlock_eq hA hR h hF hnil hm₁ hm₃ hm₄ hm₅ hm₆ hm₇, ?_, ?_, rfl⟩
  · rw [hfree']
    refine hrep.update (fun j hj => ?_) (fun j hj c hc => rfl) ?_ (fun c hc => ?_)
    · rw [BuddyHead.list_setList, if_neg (fun h => hj h.1)]
    · show Linked _ _ 0 _ [b.addr, b.upper.addr] 0
      rw [BuddyHead.list_setList, if_pos ⟨rfl, lt_trans (Nat.lt_of_succ_lt hidx) (by decide)⟩]
      refine ⟨rfl, congrArg BlockHead.previous hheadb, ?_, congrArg BlockHead.previous hheadc, ?_⟩
      · exact congrArg BlockHead.next hheadb
      · exact congrArg BlockHead.next hheadc
    · rcases List.mem_pair.mp hc with rfl | rfl
      · refine ⟨⟨?_, congrArg BlockHead.crc hheadb⟩, congrArg BlockHead.isFree hheadb⟩
        show blockAt m₇ b.addr = _
        unfold blockAt Block.lower
        rw [hheadb, hpred, ← hpid, ← hmidx]
      · refine ⟨⟨?_, congrArg BlockHead.crc hheadc⟩, congrArg BlockHead.isFree hheadc⟩
        unfold blockAt
        rw [hheadc, hpid, hmidx, ← hpred]
        rfl
  · refine (hrel.writes.mono (Set.subset_insert _ _)).trans (hw.mono ?_)
    rintro a (rfl | rfl)
    · exact Or.inr ⟨idx + 1, b, hbF, rfl⟩
    · exact Or.inl rfl

/-- The addresses at which cutting a block at `a` from level `idx` down to
`level` starts new blocks. -/
def halves (a level idx : ℕ) : Set ℕ :=
  {x | ∃ i, level ≤ i ∧ i < idx ∧ x = a + calculateBlockSize i}

theorem halves_succ {a level idx : ℕ} : halves a level idx ⊆ halves a level (idx + 1) := by
  rintro x ⟨i, h₁, h₂, h₃⟩
  exact ⟨i, h₁, by omega, h₃⟩

/-- One cut adds the upper half to the addresses of free blocks. -/
theorem freeAddrs_split (hF : A.free (idx + 1) = b :: l) :
    freeAddrs (A.split idx).free ⊆ insert b.upper.addr (freeAddrs A.free) := by
  rintro a ⟨j, d, hd, rfl⟩
  rw [Pool.split_free hF] at hd
  by_cases hj : j = idx
  · rw [hj, Function.update_self] at hd
    rcases List.mem_pair.mp hd with rfl | rfl
    · exact Or.inr ⟨idx + 1, b, hF ▸ List.mem_cons_self, rfl⟩
    · exact Or.inl rfl
  · rw [Function.update_of_ne hj] at hd
    by_cases hj' : j = idx + 1
    · rw [hj', Function.update_self] at hd
      exact Or.inr ⟨idx + 1, d, hF ▸ List.mem_cons_of_mem b hd, rfl⟩
    · rw [Function.update_of_ne hj'] at hd
      exact Or.inr ⟨j, d, hd, rfl⟩

/-- **The splitting loop** cuts the first block of level `idx` down, as the
pool does. -/
theorem splitDown_spec (hA : A.Inv R) (hR : Regions R) (h : Represents s A.free)
    (hF : A.free idx = b :: l) (hle : level ≤ idx)
    (hnil : ∀ j, level ≤ j → j < idx → A.free j = []) :
    ∃ s', splitDown level idx s = .ok s' ∧ Represents s' (A.splitDown level idx).free
      ∧ freeAddrs (A.splitDown level idx).free
          ⊆ halves b.addr level idx ∪ freeAddrs A.free
      ∧ WritesOnly (halves b.addr level idx ∪ freeAddrs A.free) s.mem s'.mem
      ∧ s'.head.memoryIdx = s.head.memoryIdx := by
  induction idx generalizing A b l s with
  | zero =>
    exact ⟨s, rfl, h, Set.subset_union_right, .refl _ _, rfl⟩
  | succ idx ih =>
    have hne : s.head.list (idx + 1) ≠ 0 := fun h0 => by
      rw [(h.list_eq_zero_iff hA hR (idx + 1)).mp h0] at hF
      cases hF
    have hne' : A.free (idx + 1) ≠ [] := hF ▸ List.cons_ne_nil b l
    rw [splitDown, Pool.splitDown]
    by_cases hlt : level < idx + 1
    · rw [if_pos ⟨hne, hlt⟩, if_pos ⟨hne', hlt⟩]
      have hbF : b ∈ A.free (idx + 1) := hF ▸ List.mem_cons_self
      have hidx := hA.lt_of_mem hbF
      have hnil' := hnil idx (by omega) (by omega)
      obtain ⟨s₁, hs₁, hrep₁, hw₁, hidx₁⟩ := splitBlock_spec hA hR h hF hnil'
      have hF₁ : (A.split idx).free idx = b.lower :: [b.upper] := by
        rw [Pool.split_free hF, Function.update_self]
      obtain ⟨s', hs', hrep, hsub, hw, hmidx⟩ :=
        ih (hA.split hidx hnil') hrep₁ hF₁ (by omega) (fun j hj hjlt => by
          rw [Pool.split_free_of_lt hjlt]
          exact hnil j hj (by omega))
      have hinsert : insert b.upper.addr (freeAddrs A.free)
          ⊆ halves b.addr level (idx + 1) ∪ freeAddrs A.free :=
        Set.insert_subset (Or.inl ⟨idx, by omega, by omega, upper_addr hA hR hbF⟩)
          Set.subset_union_right
      have hunion : halves b.lower.addr level idx ∪ freeAddrs (A.split idx).free
          ⊆ halves b.addr level (idx + 1) ∪ freeAddrs A.free :=
        Set.union_subset (halves_succ.trans Set.subset_union_left)
          ((freeAddrs_split hF).trans hinsert)
      refine ⟨s', ?_, hrep, hsub.trans hunion, (hw₁.mono hinsert).trans (hw.mono hunion),
        hmidx.trans hidx₁⟩
      rw [hs₁]
      exact hs'
    · rw [if_neg (fun h => hlt h.2), if_neg (fun h => hlt h.2)]
      exact ⟨s, rfl, h, Set.subset_union_right, .refl _ _, rfl⟩

/-! ## The allocation -/

/-- **An allocation in the pool**: cut the first block of level `idx` down
to `level` and take the first block there. -/
def Pool.allocate (A : Pool) (level idx : ℕ) : Pool := (A.splitDown level idx).take level

/-- If no list from the level of the request on has a block, the call returns
`NULL` and changes nothing. -/
theorem buddyMalloc_null
    (hlevel : calculateWhichLevel ((size + buddyCalculateBlockHeadSize) % 2 ^ 64) = level)
    (hlist : ∀ j, level ≤ j → s.head.list j = 0) : buddyMalloc s size = .ok (0, s) := by
  have hle := level_le_searchLevel s.head maxBlockNum level
  unfold buddyMalloc
  rw [hlevel]
  dsimp only
  have hsplit : splitDown level (searchLevel s.head maxBlockNum level) s = .ok s := by
    cases hidx : searchLevel s.head maxBlockNum level with
    | zero => rfl
    | succ i => rw [splitDown, if_neg (fun h => h.1 (hlist (i + 1) (by omega)))]
  rw [hsplit]
  show Except.ok (takeBlock s level size) = _
  unfold takeBlock
  rw [hlist level le_rfl]
  rfl

/-- **Allocating.** The call returns. If no list from the level of the
request on has a block it returns `NULL` and changes nothing; otherwise it
takes the first block of the first such list, cut down to the level. -/
theorem buddyMalloc_spec (hA : A.Inv R) (hR : Regions R) (h : Represents s A.free)
    (hlevel : calculateWhichLevel ((size + buddyCalculateBlockHeadSize) % 2 ^ 64) = level)
    (hlt : level < maxBlockNum) (hidx : searchLevel s.head maxBlockNum level = idx) :
    (idx = maxBlockNum ∧ (∀ j, level ≤ j → A.free j = []) ∧ buddyMalloc s size = .ok (0, s))
    ∨ (∃ b c s', b ∈ A.free idx ∧ s.head.list idx = b.addr
      ∧ (∀ j, level ≤ j → j < idx → A.free j = [])
      ∧ buddyMalloc s size = .ok (b.addr + buddyCalculateBlockHeadSize, s')
      ∧ (A.allocate level idx).Inv R ∧ Represents s' (A.allocate level idx).free
      ∧ (A.allocate level idx).used = c :: A.used ∧ c.addr = b.addr ∧ c.level = level
      ∧ Holds s'.mem c ∧ (blockHead s'.mem c.addr).isFree = 0
      ∧ WritesOnly (halves b.addr level idx ∪ freeAddrs A.free) s.mem s'.mem
      ∧ s'.head.memoryIdx = s.head.memoryIdx) := by
  obtain ⟨h₁, h₂, h₃, h₄⟩ := searchLevel_spec (h := s.head) (n := maxBlockNum) hlt (by omega)
  rw [hidx] at h₁ h₂ h₃ h₄
  have hnil : ∀ j, level ≤ j → j < idx → A.free j = [] := fun j hj hj' =>
    (h.list_eq_zero_iff hA hR j).mp (h₃ j hj hj')
  by_cases hmax : idx = maxBlockNum
  · left
    have hall : ∀ j, level ≤ j → A.free j = [] := fun j hj => by
      by_cases hj' : j < maxBlockNum
      · exact hnil j hj (by omega)
      · exact hA.free_nil j (not_lt.mp hj')
    have hlist : ∀ j, level ≤ j → s.head.list j = 0 := fun j hj =>
      (h.list_eq_zero_iff hA hR j).mpr (hall j hj)
    exact ⟨hmax, hall, buddyMalloc_null hlevel hlist⟩
  · right
    cases hF : A.free idx with
    | nil => exact absurd ((h.list_eq_zero_iff hA hR idx).mpr hF) (h₄ (by omega))
    | cons b l =>
      obtain ⟨s₁, hs₁, hrep₁, hsub, hw₁, hmidx₁⟩ := splitDown_spec hA hR h hF h₁ hnil
      obtain ⟨c, t, hc, hca⟩ := Pool.splitDown_head hF h₁
      have hA₁ := hA.splitDown (by omega : idx < maxBlockNum) hnil
      obtain ⟨hret, hrep, hhold, hfree, hw, hmidx⟩ := takeBlock_spec size hA₁ hR hrep₁ hc
      have hclevel : c.level = level := hA₁.level_eq level c (hc ▸ List.mem_cons_self)
      refine ⟨b, c, (takeBlock s₁ level size).2, List.mem_cons_self, ?_, hnil, ?_, hA₁.take, hrep,
        ?_, hca, hclevel, hhold, hfree, hw₁.trans (hw.mono hsub), hmidx.trans hmidx₁⟩
      · rw [h.list_eq, hF]
        rfl
      · unfold buddyMalloc
        rw [hlevel]
        dsimp only
        rw [hidx, hs₁, ← hca, ← hret]
        rfl
      · unfold Pool.allocate
        rw [Pool.take_eq hc]
        dsimp only
        rw [Pool.splitDown_used]

/-! ## Attaching a region -/

/-- **Attaching a region to the pool**: the region becomes the last block of
its level. -/
def Pool.attach (A : Pool) (r : Block) : Pool :=
  ⟨Function.update A.free r.level (A.free r.level ++ [r]), A.used⟩

/-- A region that is not attached yet, as a block in hand. -/
theorem Pool.Inv.addRegion {F : ℕ → List Block} {u : List Block} {r : Block}
    (hA : (Pool.mk F u).Inv R) (hR : Regions (r :: R)) :
    (Pool.mk F (r :: u)).Inv (r :: R) where
  level_eq := hA.level_eq
  free_nil := hA.free_nil
  sorted := hA.sorted
  page := by
    have hR' := hR.tail
    intro b hb r' hr' hidx
    rcases List.mem_cons.mp (List.perm_middle.mem_iff.mp hb) with rfl | hb
    · rw [hR.eq_of_memoryIdx hr' List.mem_cons_self hidx]
    · rcases List.mem_cons.mp hr' with rfl | hr'
      · obtain ⟨r'', hr'', hidx', -⟩ := hA.region hR' hb
        exact absurd (hidx.trans hidx'.symm) ((List.pairwise_cons.mp hR.idx_ne).1 r'' hr'')
      · exact hA.page b hb r' hr' hidx
  cover_eq := fun x => by
    have hold := hA.cover_eq x
    unfold Pool.blocks at hold ⊢
    rw [cover_append] at hold
    rw [cover_append, cover_cons, cover_cons]
    dsimp only at hold ⊢
    omega

/-- The walk of `buddyInsertBlock` ends at the first block with a larger
address, or else at the last one. -/
theorem insertPoint_spec {F : ℕ → List Block} {q l₂ : List Block} {a : ℕ} (h : Represents s F)
    (hF : F k = q ++ (l ++ b :: l₂)) (hne : ∀ c ∈ F k, c.addr ≠ 0) (hlt : ∀ c ∈ l, ¬ a < c.addr)
    (hstop : l₂ = [] ∨ a < b.addr) :
    insertPoint s.mem a (l.length + (n + 1)) (((l ++ b :: l₂).map Block.addr).headD 0)
      = .ok b.addr := by
  induction l generalizing q with
  | nil =>
    have hnext : (blockHead s.mem b.addr).next = (l₂.map Block.addr).headD 0 :=
      h.next_eq (k := k) hF
    rw [List.length_nil, Nat.zero_add]
    show insertPoint s.mem a (n + 1) b.addr = _
    rw [insertPoint]
    rcases hstop with rfl | hlt
    · rw [hnext]
      exact if_neg (not_not.mpr rfl)
    · rw [if_pos hlt]
      exact ite_self _
  | cons c l ih =>
    obtain ⟨hc, hl⟩ := List.forall_mem_cons.mp hlt
    have hnext : (blockHead s.mem c.addr).next = ((l ++ b :: l₂).map Block.addr).headD 0 :=
      h.next_eq (k := k) hF
    have hnext0 : (blockHead s.mem c.addr).next ≠ 0 := by
      rw [hnext]
      cases l with
      | nil => exact hne b (hF ▸ List.mem_append_right q (List.mem_cons_of_mem c List.mem_cons_self))
      | cons e l =>
        exact hne e (hF ▸ List.mem_append_right q (List.mem_cons_of_mem c List.mem_cons_self))
    rw [List.length_cons, Nat.add_right_comm]
    show insertPoint s.mem a (l.length + (n + 1) + 1) c.addr = _
    rw [insertPoint, if_pos hnext0, if_neg hc, hnext]
    exact ih (q := q ++ [c]) (by rw [hF, List.append_assoc]; rfl) hl

/-- **Putting a block between two blocks of a list.** -/
theorem Represents.between {F : ℕ → List Block} {u l₁ l₂ : List Block} {d e : Block}
    (hA : (Pool.mk F (b :: u)).Inv R) (hR : Regions R) (h : Represents s F) (hb : Holds s.mem b)
    (hF : F b.level = l₁ ++ d :: e :: l₂) {m₁ m₂ m₃ : ByteStore}
    (hm₁ : m₁ = relinkBlock s.mem d.addr (prevLink s.mem d.addr) b.addr)
    (hm₂ : m₂ = relinkBlock m₁ b.addr d.addr e.addr)
    (hm₃ : m₃ = relinkBlock m₂ e.addr b.addr (nextLink m₂ e.addr)) :
    Represents ⟨s.head, m₃⟩ (Function.update F b.level (l₁ ++ [d] ++ b :: e :: l₂))
      ∧ WritesOnly (insert b.addr (freeAddrs F)) s.mem m₃ := by
  have hS := hR.spaced
  have hbU : b ∈ (Pool.mk F (b :: u)).used := List.mem_cons_self
  have hdF : d ∈ F b.level := hF ▸ List.mem_append_right l₁ List.mem_cons_self
  have heF : e ∈ F b.level :=
    hF ▸ List.mem_append_right l₁ (List.mem_cons_of_mem d List.mem_cons_self)
  have hfP : ∀ {j : ℕ} {f : Block}, f ∈ F j → f.addr ∈ places R := fun hf =>
    hA.place hR (hA.mem_of_free (A := ⟨F, b :: u⟩) hf)
  have hbP := hA.place hR (Pool.mem_of_used hbU)
  have hfb : ∀ {j : ℕ} {f : Block}, f ∈ F j → f.addr ≠ b.addr := fun hf =>
    (hA.apart_free_used hR hf hbU).addr_ne
  have hdlt := hS.lt _ (hfP hdF)
  have helt := hS.lt _ (hfP heF)
  have hblt := hS.lt _ hbP
  have hrel₁ : Relinks (places R) {d.addr} s.mem m₁ :=
    hm₁ ▸ .relinkBlock hS (hfP hdF) (prevLink_lt _ _) hblt
  have hrel₂ : Relinks (places R) {b.addr} m₁ m₂ := hm₂ ▸ .relinkBlock hS hbP hdlt helt
  have hrel₃ : Relinks (places R) {e.addr} m₂ m₃ :=
    hm₃ ▸ .relinkBlock hS (hfP heF) hblt (nextLink_lt _ _)
  have hprev : ∀ a ∈ places R, prevLink m₃ a
      = if a = e.addr then b.addr else if a = b.addr then d.addr else prevLink s.mem a := by
    intro a ha
    rw [hm₃, prevLink_relinkBlock hS (hfP heF) ha hblt (nextLink_lt _ _), hm₂,
      prevLink_relinkBlock hS hbP ha hdlt helt, hm₁, prevLink_relinkNext hS (hfP hdF) ha hblt]
  have hnext : ∀ a ∈ places R, nextLink m₃ a
      = if a = b.addr then e.addr else if a = d.addr then b.addr else nextLink s.mem a := by
    intro a ha
    rw [hm₃, nextLink_relinkPrev hS (hfP heF) ha hblt, hm₂,
      nextLink_relinkBlock hS hbP ha hdlt helt, hm₁,
      nextLink_relinkBlock hS (hfP hdF) ha (prevLink_lt _ _) hblt]
  have hW : Relinks (places R) (insert b.addr (freeAddrs F)) s.mem m₃ := by
    refine ((hrel₁.mono ?_).trans (hrel₂.mono ?_)).trans (hrel₃.mono ?_)
    · exact Set.singleton_subset_iff.mpr (Or.inr ⟨_, d, hdF, rfl⟩)
    · exact Set.singleton_subset_iff.mpr (Or.inl rfl)
    · exact Set.singleton_subset_iff.mpr (Or.inr ⟨_, e, heF, rfl⟩)
  have hmark : MarkedFree m₃ b.addr := by
    refine hrel₃.marked _ hbP ?_
    show (blockHead m₂ b.addr).isFree = 1
    rw [hm₂, hS.blockHead_relinkBlock hbP hbP hdlt helt, if_pos rfl]
  have hsplit : F b.level = (l₁ ++ [d]) ++ e :: l₂ := by rw [hF, List.append_assoc]; rfl
  refine ⟨h.link hA hR hsplit hW hb hmark (fun j => ?_) ?_ ?_ (fun k f hf => ?_)
    (fun k f hf => ?_), hW.writes⟩
  · exact (if_neg (fun he => List.append_ne_nil_of_right_ne_nil l₁
      (List.cons_ne_nil d []) he.2)).symm
  · rw [hprev _ hbP, if_neg (hfb heF).symm, if_pos rfl, List.map_append, List.map_singleton,
      List.getLastD_concat]
  · rw [hnext _ hbP, if_pos rfl]
    rfl
  · rw [hprev _ (hfP hf), if_neg (hfb hf), if_congr (head?_eq_some_iff (hS.ne_zero (hfP hf)))
      rfl rfl]
    rfl
  · rw [hnext _ (hfP hf), if_neg (hfb hf), if_congr (getLast?_eq_some_iff
      (hS.ne_zero (hfP hf))) rfl rfl, List.map_append, List.map_singleton, List.getLastD_concat]

/-- **`buddyInsertBlock`** puts a block between those with smaller and those
with larger addresses, unless there are only larger ones. -/
theorem buddyInsertBlock_spec {F : ℕ → List Block} {u l₁ l₂ : List Block}
    (hA : (Pool.mk F (b :: u)).Inv R) (hR : Regions R) (h : Represents s F) (hb : Holds s.mem b)
    (hmark : MarkedFree s.mem b.addr) (hprev : prevLink s.mem b.addr = 0)
    (hnext : nextLink s.mem b.addr = 0) (hF : F b.level = l₁ ++ l₂)
    (h₁ : ∀ c ∈ l₁, c.addr < b.addr) (h₂ : ∀ c ∈ l₂, b.addr < c.addr)
    (hfront : l₁ = [] → l₂ = []) :
    ∃ list m, buddyInsertBlock s.mem (s.head.list b.level) b.addr = .ok (list, m)
      ∧ Represents ⟨s.head.setList b.level list, m⟩
          (Function.update F b.level (l₁ ++ b :: l₂))
      ∧ WritesOnly (insert b.addr (freeAddrs F)) s.mem m := by
  have hlevel := hA.level_lt hR (Pool.mem_of_used (List.mem_cons_self : b ∈ b :: u))
  have hne : ∀ c ∈ F b.level, c.addr ≠ 0 := fun c hc =>
    hR.spaced.ne_zero (hA.place hR (hA.mem_of_free (A := ⟨F, b :: u⟩) hc))
  rcases List.eq_nil_or_concat l₁ with rfl | ⟨l, d, rfl⟩
  · -- the list is empty
    obtain rfl := hfront rfl
    have hlist : s.head.list b.level = 0 := by rw [h.list_eq, hF]; rfl
    refine ⟨b.addr, s.mem, ?_, ?_, .refl _ _⟩
    · unfold buddyInsertBlock
      rw [if_pos hlist]
    · refine h.link hA hR hF (.refl _ ∅ s.mem) hb hmark (fun j => ?_) hprev hnext
        (fun k f hf => rfl) (fun k f hf => rfl)
      exact list_setList_front (lt_trans hlevel (by decide)) (fun hne => absurd rfl hne)
  rw [List.concat_eq_append] at h₁ hF ⊢
  have hsplit : F b.level = l ++ d :: l₂ := by rw [hF, List.append_assoc]; rfl
  have hdF : d ∈ F b.level := hsplit ▸ List.mem_append_right l List.mem_cons_self
  have hd := h₁ d (List.mem_append_right l List.mem_cons_self)
  have hlow : ∀ c ∈ l ++ [d], ¬ b.addr < c.addr := fun c hc => (h₁ c hc).not_gt
  have hlist : s.head.list b.level ≠ 0 := by
    rw [h.list_eq, hsplit]
    cases l with
    | nil => exact hne d hdF
    | cons e l => exact hne e (hsplit ▸ List.mem_cons_self)
  have hlen := hA.length_lt hR b.level
  cases l₂ with
  | nil =>
    -- the walk ends at the last block
    rw [List.append_nil] at hF
    rw [hF, List.length_append, List.length_singleton] at hlen
    obtain ⟨n, hn⟩ : ∃ n, addressCount = l.length + (n + 1) :=
      ⟨addressCount - l.length - 1, by omega⟩
    have hwalk := insertPoint_spec (n := n) (q := []) (a := b.addr) h hsplit hne
      (fun c hc => hlow c (List.mem_append_left [d] hc)) (Or.inl rfl)
    obtain ⟨hrep, hw, -⟩ := h.append hA hR hb hF rfl rfl
    refine ⟨s.head.list b.level, _, ?_, ?_, hw⟩
    · unfold buddyInsertBlock
      rw [if_neg hlist, hn, h.list_eq, hsplit, hwalk]
      show (if b.addr < d.addr then _ else _) = _
      rw [if_neg hd.not_gt]
      rfl
    · rw [BuddyHead.setList_self]
      exact hrep
  | cons e l₂ =>
    -- the walk ends at the first larger block, which has one before it
    have he := h₂ e List.mem_cons_self
    rw [hF, List.length_append, List.length_cons] at hlen
    obtain ⟨n, hn⟩ : ∃ n, addressCount = (l ++ [d]).length + (n + 1) :=
      ⟨addressCount - (l ++ [d]).length - 1, by omega⟩
    have hwalk := insertPoint_spec (n := n) (q := []) (a := b.addr) h hF hne hlow (Or.inr he)
    obtain ⟨hrep, hw⟩ := h.between hA hR hb hsplit rfl rfl rfl
    have hprevious : (blockHead s.mem e.addr).previous = d.addr := by
      have heq := h.prev_eq hF
      rw [List.map_append, List.map_singleton, List.getLastD_concat] at heq
      exact heq
    refine ⟨s.head.list b.level, _, ?_, ?_, hw⟩
    · unfold buddyInsertBlock
      rw [if_neg hlist, hn, h.list_eq, hF, hwalk]
      show (if b.addr < e.addr then _ else _) = _
      rw [if_pos he]
      dsimp only
      rw [hprevious, if_neg (hne d hdF)]
      rfl
    · rw [BuddyHead.setList_self]
      exact hrep

/-- **In front of all others a block is not inserted**: what is before the
first block is `NULL`, and is dereferenced. -/
theorem buddyInsertBlock_front {F : ℕ → List Block} {u l₂ : List Block} {e : Block}
    (hA : (Pool.mk F u).Inv R) (hR : Regions R) (h : Represents s F) (hF : F k = e :: l₂)
    {a : ℕ} (he : a < e.addr) : buddyInsertBlock s.mem (s.head.list k) a = .error .nullDeref := by
  have hne : ∀ c ∈ F k, c.addr ≠ 0 := fun c hc =>
    hR.spaced.ne_zero (hA.place hR (hA.mem_of_free (A := ⟨F, u⟩) hc))
  have hlist : s.head.list k = e.addr := by rw [h.list_eq, hF]; rfl
  have hwalk := insertPoint_spec (n := addressCount - 1) (q := []) (l := []) (a := a) h hF hne
    nofun (Or.inr he)
  have hprevious : (blockHead s.mem e.addr).previous = 0 :=
    (h.prev_eq (show F k = [] ++ e :: l₂ from hF)).trans rfl
  unfold buddyInsertBlock
  rw [if_neg (hlist ▸ hne e (hF ▸ List.mem_cons_self)), hlist]
  change (insertPoint s.mem a addressCount e.addr >>= _) = _
  rw [show insertPoint s.mem a addressCount e.addr = .ok e.addr from hwalk]
  show (if a < e.addr then _ else _) = _
  rw [if_pos he]
  dsimp only
  rw [hprevious, if_pos rfl]

/-- **What `buddyAttchMemory` does before it inserts the block**: it
initializes the header of the region, which is a block of its level. -/
theorem buddyAttchMemory_eq {r : Block} {addr q : ℕ} (hA : A.Inv R)
    (h : Represents s A.free) (hlevel : r.level = calculateBlockLevel size)
    (haddr : r.addr = addr) (hfirst : r.isFirst = 1)
    (hidx : r.memoryIdx = (s.head.memoryIdx + 1) % 2 ^ 64)
    (hpid : r.hostPid = Layout.hostPid.get (Layout.hostPid.set s.mem addr q) addr)
    (hR : Regions (r :: R)) :
    ∃ m, buddyAttchMemory s addr size q = (do
        let (list, m) ← buddyInsertBlock m (s.head.list r.level) addr
        .ok (0, ⟨{ s.head with memoryIdx := r.memoryIdx }.setList r.level list, m⟩))
      ∧ Represents ⟨{ s.head with memoryIdx := r.memoryIdx }, m⟩ A.free ∧ Holds m r
      ∧ (blockHead m addr).isFree = 1 ∧ prevLink m addr = 0 ∧ nextLink m addr = 0
      ∧ WritesOnly {addr} s.mem m := by
  have hA₁ : (Pool.mk A.free (r :: A.used)).Inv (r :: R) := Pool.Inv.addRegion hA hR
  have hS := hR.spaced
  have hrU : r ∈ (Pool.mk A.free (r :: A.used)).used := List.mem_cons_self
  have hrP := hA₁.place hR (Pool.mem_of_used hrU)
  have hrlevel := hA₁.level_lt hR (Pool.mem_of_used hrU)
  have haddr0 := hS.ne_zero hrP
  subst haddr
  obtain ⟨m₁, hm₁⟩ : ∃ m₁, m₁ = Layout.memoryIdx.set (Layout.hostPid.set s.mem r.addr q) r.addr
      r.memoryIdx := ⟨_, rfl⟩
  obtain ⟨m₂, hm₂⟩ : ∃ m₂, m₂ = initFreeBlock m₁ r.addr 0 0 r.level 1 := ⟨_, rfl⟩
  have hw : WritesOnly {r.addr} s.mem m₂ := by
    rw [hm₂, hm₁]
    exact ((writesOnly_set (by decide)).trans (writesOnly_set (by decide))).trans
      writesOnly_initFreeBlock
  have hidx64 : r.memoryIdx < 2 ^ 64 := by
    rw [hidx]
    exact Nat.mod_lt _ (Nat.two_pow_pos 64)
  have hhead : blockHead m₂ r.addr = { blockHead s.mem r.addr with
      previous := 0, next := 0, size := 0, level := r.level, isFree := 1, isFirst := 1,
      hostPid := r.hostPid, memoryIdx := r.memoryIdx, crc := crc32 } := by
    rw [hm₂, blockHead_initFreeBlock_self haddr0 (by decide) (by decide) (by omega) (by decide),
      hm₁, blockHead_own' hidx64, ← hpid]
  have hhold : Holds m₂ r := by
    refine ⟨?_, congrArg BlockHead.crc hhead⟩
    unfold blockAt
    rw [hhead, ← hfirst]
  have hkeep : ∀ j, ∀ c ∈ A.free j, blockHead m₂ c.addr = blockHead s.mem c.addr := fun j c hc =>
    hS.blockHead_of_writesOnly hrP
      (hA₁.place hR (hA₁.mem_of_free (A := ⟨A.free, r :: A.used⟩) hc))
      (hA₁.apart_free_used hR hc hrU).addr_ne hw
  refine ⟨m₂, ?_, h.frame (fun j => rfl) hkeep, hhold, congrArg BlockHead.isFree hhead,
    congrArg BlockHead.previous hhead, congrArg BlockHead.next hhead, hw⟩
  have hmax : ¬ maxBlockNum ≤ r.level := by
    unfold maxBlockNum
    omega
  unfold buddyAttchMemory
  rw [if_neg haddr0, ← hlevel]
  dsimp only
  rw [if_neg hmax, ← hidx, ← hm₁, ← hm₂]

/-- **Attaching a region**, behind some free blocks of its level or where
there are none. The call returns, and adds the region as a free block; its
level is that of its size. -/
theorem buddyAttchMemory_spec {r : Block} {addr q : ℕ} {l₁ l₂ : List Block} (hA : A.Inv R)
    (h : Represents s A.free) (hlevel : r.level = calculateBlockLevel size)
    (haddr : r.addr = addr) (hfirst : r.isFirst = 1)
    (hidx : r.memoryIdx = (s.head.memoryIdx + 1) % 2 ^ 64)
    (hpid : r.hostPid = Layout.hostPid.get (Layout.hostPid.set s.mem addr q) addr)
    (hR : Regions (r :: R)) (hF : A.free r.level = l₁ ++ l₂) (h₁ : ∀ c ∈ l₁, c.addr < addr)
    (h₂ : ∀ c ∈ l₂, addr < c.addr) (hfront : l₁ = [] → l₂ = []) :
    ∃ s', buddyAttchMemory s addr size q = .ok (0, s')
      ∧ (Pool.mk (Function.update A.free r.level (l₁ ++ r :: l₂)) A.used).Inv (r :: R)
      ∧ Represents s' (Function.update A.free r.level (l₁ ++ r :: l₂))
      ∧ WritesOnly (insert addr (freeAddrs A.free)) s.mem s'.mem
      ∧ s'.head.memoryIdx = r.memoryIdx := by
  have hA₁ : (Pool.mk A.free (r :: A.used)).Inv (r :: R) := Pool.Inv.addRegion hA hR
  obtain ⟨m, hcall, hrep, hhold, hmark, hprev, hnext, hw⟩ :=
    buddyAttchMemory_eq hA h hlevel haddr hfirst hidx hpid hR
  subst haddr
  obtain ⟨list, m', hinsert, hrep', hw'⟩ :=
    buddyInsertBlock_spec hA₁ hR hrep hhold hmark hprev hnext hF h₁ h₂ hfront
  refine ⟨⟨{ s.head with memoryIdx := r.memoryIdx }.setList r.level list, m'⟩, ?_, ?_, hrep',
    (hw.mono (Set.singleton_subset_iff.mpr (Or.inl rfl))).trans hw', rfl⟩
  · rw [hcall, show buddyInsertBlock m (s.head.list r.level) r.addr = .ok (list, m') from hinsert]
    rfl
  · exact hA₁.insert hR hF (fun c hc => (h₁ c hc).not_gt)
      (fun c hc => h₂ c (List.mem_of_head? hc))

/-- **Attaching a region in front of all free blocks** of its level does not
return. -/
theorem buddyAttchMemory_front {r e : Block} {addr q : ℕ} {l₂ : List Block} (hA : A.Inv R)
    (h : Represents s A.free) (hlevel : r.level = calculateBlockLevel size)
    (haddr : r.addr = addr) (hfirst : r.isFirst = 1)
    (hidx : r.memoryIdx = (s.head.memoryIdx + 1) % 2 ^ 64)
    (hpid : r.hostPid = Layout.hostPid.get (Layout.hostPid.set s.mem addr q) addr)
    (hR : Regions (r :: R)) (hF : A.free r.level = e :: l₂) (he : addr < e.addr) :
    buddyAttchMemory s addr size q = .error .nullDeref := by
  obtain ⟨m, hcall, hrep, -⟩ := buddyAttchMemory_eq hA h hlevel haddr hfirst hidx hpid hR
  have hinsert := buddyInsertBlock_front hA hR.tail hrep hF he
  rw [hcall]
  rw [show buddyInsertBlock m (s.head.list r.level) addr = .error .nullDeref from hinsert]
  rfl

end Allocate
