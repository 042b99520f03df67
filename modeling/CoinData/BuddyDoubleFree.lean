import CoinData.BuddyAttach
import Mathlib.Logic.Relation

/-!
# Releasing a block twice

`buddyFree` finds out about a second release of an address by the mark in
the header before it, which says that the block is free. The first release
sets it, when it puts the block on a list or merges it with a block behind
it. If it merges the block with one in front of it, the header written is
that of the other one, and the mark is never set: the address has become an
address inside a free block.

Whatever is released in between makes no difference: no mark is lost by a
release, and what is inside a free block stays inside one.
-/

/-- **A second release is noticed**: the mark is there, and the call aborts
before it has written anything. -/
def Detects (s : Buddy) (addr : ℕ) : Prop :=
  (blockHead s.mem (addr - buddyCalculateBlockHeadSize)).isFree ≠ 0
    ∧ buddyFree s addr = .error .abort

theorem detects_iff (s : Buddy) (addr : ℕ) : Detects s addr
    ↔ (blockHead s.mem (addr - buddyCalculateBlockHeadSize)).isFree ≠ 0 :=
  and_iff_left_of_imp fun h => if_pos h

namespace BuddyState

/-- A live allocation is released. -/
def Frees (σ σ' : BuddyState) : Prop :=
  ∃ addr, σ.Offers (.free addr) ∧ σ.run (.free addr) = .ok σ'

/-- **The block of an address has a buddy in front of it** on the list of
its level. -/
def MergesBelow (σ : BuddyState) (addr : ℕ) : Prop :=
  ∃ c, σ.OnList (σ.level (addr - buddyCalculateBlockHeadSize)) c
    ∧ c < addr - buddyCalculateBlockHeadSize
    ∧ buddyIsBuddy (addr - buddyCalculateBlockHeadSize)
        (blockHead σ.buddy.mem (addr - buddyCalculateBlockHeadSize))
        c (blockHead σ.buddy.mem c) = true

end BuddyState

/-- **Where a block is merged downwards.** The first buddy on the list is in
front of the block if any is. -/
theorem Pool.merges_below_iff {b : Block} {l : List Block}
    (hs : l.Pairwise fun c d => c.addr < d.addr) :
    (∃ c ∈ l, c.addr < b.addr ∧ b.isBuddy c = true)
      ↔ ∃ d l', Pool.place b l = .merged d l' ∧ d.addr < b.addr := by
  rcases Pool.place_cases b l with ⟨l₁, c, l₂, rfl, hp, hc, hpl⟩ | ⟨l₁, l₂, rfl, hp, hhead, hpl⟩
  · rw [hpl]
    by_cases hlt : c.addr < b.addr
    · refine iff_of_true ⟨c, List.mem_append_right _ List.mem_cons_self, hlt, hc⟩ ⟨_, _, rfl, ?_⟩
      unfold Block.merge
      rw [if_neg hlt.not_gt]
      exact hlt
    · refine iff_of_false ?_ ?_
      · rintro ⟨d, hd, hdb, hbuddy⟩
        rcases List.mem_append.mp hd with hd | hd
        · rw [(hp d hd).1] at hbuddy
          cases hbuddy
        · rcases List.mem_cons.mp hd with rfl | hd
          · exact hlt hdb
          · have hcd := (List.pairwise_cons.mp (List.pairwise_append.mp hs).2.1).1 d hd
            omega
      · rintro ⟨d, l', heq, hdb⟩
        cases heq
        unfold Block.merge at hdb
        split at hdb
        · exact lt_irrefl _ hdb
        · exact hlt hdb
  · rw [hpl]
    refine iff_of_false ?_ ?_
    · rintro ⟨d, hd, hdb, hbuddy⟩
      rcases List.mem_append.mp hd with hd | hd
      · rw [(hp d hd).1] at hbuddy
        cases hbuddy
      · cases l₂ with
        | nil => cases hd
        | cons e l₂ =>
          have hbe := (hhead e rfl).2
          rcases List.mem_cons.mp hd with rfl | hd
          · omega
          · have hed := (List.pairwise_cons.mp (List.pairwise_append.mp hs).2.1).1 d hd
            omega
    · rintro ⟨d, l', heq, -⟩
      cases heq

namespace BuddyState

variable {σ σ' σ₁ σ₂ : BuddyState} {R : List Block} {A : Pool} {b : Block} {a addr n : ℕ}

/-- **A page where no block starts**: it is inside a block, or in none. -/
structure Hidden (σ : BuddyState) (R : List Block) (A : Pool) (a : ℕ) : Prop where
  serves : σ.Serves R A
  place : a ∈ places R
  inside : ∀ d ∈ A.blocks, d.addr ≠ a

/-- Free blocks have their headers at the pages of the regions. -/
theorem Serves.freeAddrs_subset (h : σ.Serves R A) : freeAddrs A.free ⊆ places R := by
  obtain ⟨live, -, hinv⟩ := h
  exact hinv.pool.freeAddrs_subset hinv.regions

/-- A header at a page is left alone, if headers are written at other pages
only. -/
theorem Serves.blockHead_eq (h : σ.Serves R A) {W : Set ℕ} {m m' : ByteStore}
    (hw : WritesOnly W m m') (hW : W ⊆ places R) (ha : a ∈ places R) (hne : a ∉ W) :
    blockHead m' a = blockHead m a := by
  obtain ⟨live, -, hinv⟩ := h
  refine hw.blockHead_eq fun w hmem => hinv.regions.spaced.apart a ha w (hW hmem) ?_
  rintro rfl
  exact hne hmem

/-- **What a release does to the headers at the pages.** No mark is lost;
and where no block starts, the header is left alone, and none starts
afterwards. -/
theorem Serves.frees (h : σ.Serves R A) (hf : σ.Frees σ') : ∃ A', σ'.Serves R A'
    ∧ KeepsMarks (places R) σ.buddy.mem σ'.buddy.mem
    ∧ ∀ a, σ.Hidden R A a → σ'.Hidden R A' a
      ∧ blockHead σ'.buddy.mem a = blockHead σ.buddy.mem a := by
  obtain ⟨addr, hlive, hrun⟩ := hf
  obtain ⟨b, s', hb, rfl, hcall, hserves, hw, hmarks⟩ := h.free hlive
  dsimp only [BuddyState.run] at hrun
  rw [hcall] at hrun
  cases hrun
  refine ⟨_, hserves, hmarks, fun a ha => ?_⟩
  have hba : b.addr ≠ a := ha.inside b (Pool.mem_of_used hb)
  have hfree : a ∉ freeAddrs A.free := by
    rintro ⟨k, e, he, hea⟩
    obtain ⟨live, -, hinv⟩ := h
    exact ha.inside e (hinv.pool.mem_of_free he) hea
  have hnot : a ∉ insert b.addr (freeAddrs A.free) := by
    rintro (hab | hmem)
    · exact hba hab.symm
    · exact hfree hmem
  refine ⟨⟨hserves, ha.place, fun d hd => ?_⟩, h.blockHead_eq hw ?_ ha.place hnot⟩
  · rintro rfl
    rcases List.mem_append.mp hd with hd | hd
    · obtain ⟨j, -, hd⟩ := mem_gather.mp hd
      exact hnot (freeAddrs_release _ _ _ ⟨j, d, hd, rfl⟩)
    · exact ha.inside d (Pool.mem_of_used (List.mem_of_mem_erase hd)) rfl
  · refine Set.insert_subset ?_ h.freeAddrs_subset
    obtain ⟨live, -, hinv⟩ := h
    exact hinv.pool.place hinv.regions (Pool.mem_of_used hb)

/-- The marks are kept by any number of releases. -/
theorem Serves.marked (h : σ₁.Serves R A) (ha : a ∈ places R) (hm : MarkedFree σ₁.buddy.mem a)
    (hf : Relation.ReflTransGen Frees σ₁ σ₂) : MarkedFree σ₂.buddy.mem a := by
  suffices hall : ∃ A', σ₂.Serves R A' ∧ MarkedFree σ₂.buddy.mem a by
    obtain ⟨A', -, hm'⟩ := hall
    exact hm'
  induction hf with
  | refl => exact ⟨A, h, hm⟩
  | tail _ hlast ih =>
    obtain ⟨A', h', hm'⟩ := ih
    obtain ⟨A'', h'', hmarks, -⟩ := h'.frees hlast
    exact ⟨A'', h'', hmarks a ha hm'⟩

/-- Where no block starts, the header is kept by any number of releases. -/
theorem Hidden.blockHead_eq (h : σ₁.Hidden R A a) (hf : Relation.ReflTransGen Frees σ₁ σ₂) :
    blockHead σ₂.buddy.mem a = blockHead σ₁.buddy.mem a := by
  suffices hall : ∃ A', σ₂.Hidden R A' a
      ∧ blockHead σ₂.buddy.mem a = blockHead σ₁.buddy.mem a by
    obtain ⟨A', -, heq⟩ := hall
    exact heq
  induction hf with
  | refl => exact ⟨A, h, rfl⟩
  | tail _ hlast ih =>
    obtain ⟨A', h', heq⟩ := ih
    obtain ⟨A'', -, -, hkeep⟩ := h'.serves.frees hlast
    obtain ⟨h'', heq'⟩ := hkeep a h'
    exact ⟨A'', h'', heq'.trans heq⟩

/-- The block in front, in the terms of the pool. -/
theorem Serves.mergesBelow_iff (h : σ.Serves R A) (hb : b ∈ A.used) :
    σ.MergesBelow (b.addr + buddyCalculateBlockHeadSize)
      ↔ ∃ d l, Pool.place b (A.free b.level) = .merged d l ∧ d.addr < b.addr := by
  obtain ⟨live, -, hinv⟩ := h
  rw [← Pool.merges_below_iff (hinv.pool.sorted b.level)]
  have hlevel : σ.level b.addr = b.level := hinv.level_eq (Pool.mem_of_used hb)
  have hlist : ∀ c, σ.OnList b.level c ↔ ∃ d ∈ A.free b.level, d.addr = c := fun _ =>
    hinv.onList_iff
  unfold MergesBelow
  rw [Nat.add_sub_cancel, hlevel]
  constructor
  · rintro ⟨c, hc, hlt, hbuddy⟩
    obtain ⟨d, hd, rfl⟩ := (hlist c).mp hc
    rw [buddyIsBuddy_of_holds (hinv.held b hb) (hinv.holds (hinv.pool.mem_of_free hd))] at hbuddy
    exact ⟨d, hd, hlt, hbuddy⟩
  · rintro ⟨d, hd, hlt, hbuddy⟩
    refine ⟨d.addr, (hlist _).mpr ⟨d, hd, rfl⟩, hlt, ?_⟩
    rw [buddyIsBuddy_of_holds (hinv.held b hb) (hinv.holds (hinv.pool.mem_of_free hd))]
    exact hbuddy

/-- **What the first release leaves in the header of the block**: the mark,
unless the block is merged with one in front of it, when it is left as it
was. -/
theorem Serves.first_free (h : σ.Serves R A) (hlive : ∃ e ∈ σ.live, e.1 = addr) :
    ∃ σ₁ A₁, σ.run (.free addr) = .ok σ₁ ∧ σ₁.Serves R A₁
      ∧ addr - buddyCalculateBlockHeadSize ∈ places R
      ∧ (¬ σ.MergesBelow addr →
        MarkedFree σ₁.buddy.mem (addr - buddyCalculateBlockHeadSize))
      ∧ (σ.MergesBelow addr → σ₁.Hidden R A₁ (addr - buddyCalculateBlockHeadSize)
        ∧ (blockHead σ₁.buddy.mem (addr - buddyCalculateBlockHeadSize)).isFree = 0) := by
  obtain ⟨b, s', hb, rfl, hcall, hserves, -⟩ := h.free hlive
  have hrun : σ.run (.free (b.addr + buddyCalculateBlockHeadSize)) = .ok
      ⟨s', σ.regions, σ.live.filter fun e => e.1 ≠ b.addr + buddyCalculateBlockHeadSize⟩ := by
    dsimp only [BuddyState.run]
    rw [hcall]
    rfl
  have hbelow := h.mergesBelow_iff hb
  rw [Nat.add_sub_cancel]
  obtain ⟨live, -, hinv⟩ := id h
  have hA : (Pool.mk A.free (b :: A.used.erase b)).Inv R := hinv.pool.perm (List.perm_cons_erase hb)
  have hplace := hinv.pool.place hinv.regions (Pool.mem_of_used hb)
  refine ⟨_, _, hrun, hserves, hplace, fun hnot => ?_, fun hbelow' => ?_⟩
  · rcases Pool.place_cases b (A.free b.level) with ⟨l₁, c, l₂, hF, -, hc, hpl⟩ |
      ⟨l₁, l₂, hF, -, -, hpl⟩
    · -- the merge begins where the block does
      have haddr : (b.merge c).addr = b.addr := by
        have hle : ¬ (b.merge c).addr < b.addr := fun hlt => hnot (hbelow.mpr ⟨_, _, hpl, hlt⟩)
        unfold Block.merge at hle ⊢
        split at hle
        · next hlt => rw [if_pos hlt]
        · next hge =>
          rw [if_neg hge]
          exact le_antisymm (not_lt.mp hge) (not_lt.mp hle)
      obtain ⟨s₁, hcall₁, hmark, -⟩ := buddyFree_merge hinv.regions hA hinv.free (hinv.held b hb)
        (hinv.busy b hb) hpl
      rw [hcall] at hcall₁
      cases hcall₁
      exact haddr ▸ hmark
    · -- the block is on the list
      obtain ⟨live₁, -, hinv₁⟩ := hserves
      refine hinv₁.free.marked b.level b ?_
      show b ∈ Pool.release maxBlockNum A.free b b.level
      unfold maxBlockNum
      rw [Pool.release, hpl]
      dsimp only
      rw [Function.update_self]
      exact List.mem_append_right l₁ List.mem_cons_self
  · obtain ⟨d, l, hpl, hlt⟩ := hbelow.mp hbelow'
    obtain ⟨s₁, hcall₁, -, hw⟩ := buddyFree_merge hinv.regions hA hinv.free (hinv.held b hb)
      (hinv.busy b hb) hpl
    rw [hcall] at hcall₁
    cases hcall₁
    have hfree : b.addr ∉ freeAddrs A.free := by
      rintro ⟨k, e, he, hea⟩
      exact (hinv.pool.apart_free_used hinv.regions he hb).addr_ne hea
    -- the merge begins where a free block does
    rcases Pool.place_cases b (A.free b.level) with ⟨l₁, c, l₂, hF, -, -, hpl'⟩ |
      ⟨l₁, l₂, -, -, -, hpl'⟩
    swap
    · rw [hpl] at hpl'
      cases hpl'
    rw [hpl] at hpl'
    cases hpl'
    have hcaddr : (b.merge c).addr = c.addr := by
      unfold Block.merge at hlt ⊢
      split at hlt
      · exact absurd hlt (lt_irrefl _)
      · next hge => rw [if_neg hge]
    have hcfree : (b.merge c).addr ∈ freeAddrs A.free :=
      ⟨b.level, c, hF ▸ List.mem_append_right l₁ List.mem_cons_self, hcaddr.symm⟩
    rw [Set.insert_eq_of_mem hcfree] at hw
    refine ⟨⟨hserves, hplace, fun e he => ?_⟩, ?_⟩
    · rintro heb
      rcases List.mem_append.mp he with he | he
      · obtain ⟨j, -, he⟩ := mem_gather.mp he
        have hrelease : Pool.release maxBlockNum A.free b
            = Pool.release 31 (Function.update A.free b.level (l₁ ++ l₂)) (b.merge c) := by
          unfold maxBlockNum
          rw [Pool.release, hpl]
        dsimp only at he
        rw [hrelease] at he
        have hmem := freeAddrs_release _ _ _ ⟨j, e, he, heb⟩
        exact hfree (Set.insert_subset hcfree (freeAddrs_remove hF) hmem)
      · have hpair := (List.pairwise_append.mp (hA.apart hinv.regions)).2.1
        exact ((List.pairwise_cons.mp hpair).1 e he).addr_ne heb.symm
    · rw [h.blockHead_eq hw h.freeAddrs_subset hplace hfree]
      exact hinv.busy b hb

/-- **A second release is noticed exactly if** the first one has not merged
the block with one in front of it, whatever is released in between. -/
theorem doubleFree_detected_iff (hσ : (buddyAttachSystem n).Reachable σ)
    (hlive : ∃ e ∈ σ.live, e.1 = addr) :
    ∃ σ₁, σ.run (.free addr) = .ok σ₁ ∧ ∀ σ₂, Relation.ReflTransGen Frees σ₁ σ₂ →
      (Detects σ₂.buddy addr ↔ ¬ σ.MergesBelow addr) := by
  obtain ⟨R, A, h⟩ := exists_serves_offered hσ
  obtain ⟨σ₁, A₁, hrun, h₁, hplace, hmarked, hhidden⟩ := h.first_free hlive
  refine ⟨σ₁, hrun, fun σ₂ hf => (detects_iff _ _).trans ?_⟩
  by_cases hbelow : σ.MergesBelow addr
  · obtain ⟨hhid, hzero⟩ := hhidden hbelow
    refine iff_of_false (not_not.mpr ?_) (not_not.mpr hbelow)
    rw [hhid.blockHead_eq hf, hzero]
  · refine iff_of_true ?_ hbelow
    rw [show _ = 1 from h₁.marked hplace (hmarked hbelow) hf]
    exact one_ne_zero

/-- A region of one page, which is allocated and released, twice. -/
theorem doubleFree_detected_iff_page : ∃ σ σ₁, (buddyAttachSystem 0).Reachable σ
    ∧ σ.live = [(0x1003c, 1)] ∧ σ.run (.free 0x1003c) = .ok σ₁ ∧ Detects σ₁.buddy 0x1003c := by
  have hrun : (TransitionSystem.trace nextOffered [] fresh
      [.attach 0x10000 0x1000 7, .malloc 1]).map
      (fun r => (r.2.live, r.2.level 0x10000, r.2.buddy.head.list 0))
      = some ([(0x1003c, 1)], 0, 0) := by
    decide +kernel
  obtain ⟨⟨tr, σ⟩, hr, heq⟩ := Option.map_eq_some_iff.mp hrun
  obtain ⟨hlive, heq⟩ := Prod.mk.inj heq
  obtain ⟨hlevel, hlist⟩ := Prod.mk.inj heq
  dsimp only at hlive hlevel hlist
  have hσ := reachable_of_offered hr
  have hmem : ∃ e ∈ σ.live, e.1 = 0x1003c := ⟨_, hlive ▸ List.mem_cons_self, rfl⟩
  obtain ⟨σ₁, hfree, hdetects⟩ := doubleFree_detected_iff hσ hmem
  refine ⟨σ, σ₁, hσ, hlive, hfree, (hdetects σ₁ .refl).mpr ?_⟩
  rintro ⟨c, hc, -⟩
  unfold OnList at hc
  rw [show 0x1003c - buddyCalculateBlockHeadSize = 0x10000 from rfl, hlevel, hlist] at hc
  cases hc with
  | here hne => exact hne rfl
  | there hne _ => exact hne rfl

/-- **Four pages, all allocated. The second and the third are released**, and
are merged; releasing the third one again returns, and puts it on the list
of single pages. -/
theorem doubleFree_not_detected : ∃ σ σ₁ s, (buddyAttachSystem 0).Reachable σ
    ∧ (∃ e ∈ σ.live, e.1 = 0x1203c) ∧ σ.run (.free 0x1203c) = .ok σ₁
    ∧ buddyFree σ₁.buddy 0x1203c = .ok s ∧ s.head.list 0 = 0x12000
    ∧ ¬ Detects σ₁.buddy 0x1203c := by
  have hrun : (TransitionSystem.trace nextOffered [] fresh
      [.attach 0x10000 0x4000 7, .malloc 1, .malloc 1, .malloc 1, .malloc 1, .free 0x1103c]).bind
      (fun r => (r.2.run (.free 0x1203c)).toOption.bind fun σ₁ =>
        (buddyFree σ₁.buddy 0x1203c).toOption.map fun s => (r.2.live, s.head.list 0))
      = some ([(0x1303c, 1), (0x1203c, 1), (0x1003c, 1)], 0x12000) := by
    decide +kernel
  obtain ⟨⟨tr, σ⟩, hr, heq⟩ := Option.bind_eq_some_iff.mp hrun
  obtain ⟨σ₁, hfree, heq⟩ := Option.bind_eq_some_iff.mp heq
  obtain ⟨s, hagain, heq⟩ := Option.map_eq_some_iff.mp heq
  obtain ⟨hlive, hlist⟩ := Prod.mk.inj heq
  dsimp only at hlive hfree
  have hfree' := Except.toOption_eq_some.mp hfree
  have hagain' := Except.toOption_eq_some.mp hagain
  refine ⟨σ, σ₁, s, reachable_of_offered hr, ⟨(0x1203c, 1), ?_, rfl⟩, hfree', hagain', hlist,
    fun hdetects => ?_⟩
  · rw [hlive]
    decide
  · have habort := hdetects.2
    rw [hagain'] at habort
    cases habort

end BuddyState
