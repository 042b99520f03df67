import CoinData.Buddy
import CoinData.Cover
import Mathlib.Data.List.Pairwise
import Mathlib.Data.Set.Basic
import Mathlib.Order.Interval.Finset.Nat

/-!
# The block pool of a buddy system

Away from the memory it lies in, a buddy system is a **pool**: for each
level the list of its free blocks, and the blocks in use. This module
states the operations of the allocator on pools, as functions on lists –
cutting the first block of a level into halves, taking it, putting a
released block on the list of its level or merging it with a buddy there –
and proves what they preserve.

What a pool owes is that its blocks cut up the attached regions exactly: no
byte of a region is in two blocks, none is in no block. It is stated by
counting, as one equation between covers (`Pool.Inv.cover_eq`): the blocks
of the pool cover each byte as often as the regions do. An operation then
preserves it because the blocks it removes cover what the blocks it adds
do, and disjointness, containment and completeness are all read off.
-/

/-- **A block**: where it is, how large, and what its header says about who
it belongs to. A region is given as the block that fills it. -/
structure Block where
  addr : ℕ
  level : ℕ
  isFirst : ℕ
  hostPid : ℕ
  memoryIdx : ℕ
deriving DecidableEq, Repr

namespace Block

/-- How many bytes the block has. -/
def bytes (b : Block) : ℕ := 2 ^ b.level * pageSize

/-- The first address after the block. -/
def stop (b : Block) : ℕ := b.addr + b.bytes

/-- Whether the block contains a byte, given with the index of the region
it belongs to. -/
def mem (b : Block) (x : ℕ × ℕ) : Bool :=
  decide (b.memoryIdx = x.1 ∧ b.addr ≤ x.2 ∧ x.2 < b.stop)

theorem mem_iff {b : Block} {i x : ℕ} :
    b.mem (i, x) = true ↔ b.memoryIdx = i ∧ b.addr ≤ x ∧ x < b.stop :=
  decide_eq_true_iff

theorem bytes_pos (b : Block) : 0 < b.bytes :=
  Nat.mul_pos (Nat.two_pow_pos _) (by decide)

theorem addr_lt_stop (b : Block) : b.addr < b.stop :=
  Nat.lt_add_of_pos_right b.bytes_pos

/-- A block is at least a page. -/
theorem pageSize_le_bytes (b : Block) : pageSize ≤ b.bytes :=
  Nat.le_mul_of_pos_left pageSize (Nat.two_pow_pos _)

/-- The blocks share no byte. -/
def Apart (b c : Block) : Prop := b.stop ≤ c.addr ∨ c.stop ≤ b.addr

instance : Std.Symm Apart := ⟨fun _ _ h => h.symm⟩

/-- A block that lies within another one is of at most its level. -/
theorem level_le_of_within {b r : Block} (h₁ : r.addr ≤ b.addr) (h₂ : b.stop ≤ r.stop) :
    b.level ≤ r.level := by
  unfold stop bytes at h₂
  have hle : 2 ^ b.level * pageSize ≤ 2 ^ r.level * pageSize := by omega
  exact (Nat.pow_le_pow_iff_right (by decide)).mp (Nat.le_of_mul_le_mul_right hle (by decide))

/-- Blocks that share no byte start at different addresses. -/
theorem Apart.addr_ne {b c : Block} (h : b.Apart c) : b.addr ≠ c.addr := by
  have hb := b.addr_lt_stop
  have hc := c.addr_lt_stop
  unfold Apart at h
  omega

/-- The header of the block, as far as the block determines it. -/
def head (b : Block) : BlockHead where
  previous := 0
  next := 0
  size := 0
  level := b.level
  hostPid := b.hostPid
  memoryIdx := b.memoryIdx
  isFree := 1
  isFirst := b.isFirst
  crc := crc32

/-- Whether the allocator takes the blocks for buddies when `b` is being
released and `c` is on the list of its level. -/
def isBuddy (b c : Block) : Bool := buddyIsBuddy b.addr b.head c.addr c.head

/-- The two halves of a block. -/
def lower (b : Block) : Block := { b with level := b.level - 1, isFirst := 0 }

def upper (b : Block) : Block :=
  { b with addr := b.addr + 2 ^ (b.level - 1) * pageSize, level := b.level - 1, isFirst := 1 }

/-- Two blocks merged into one. -/
def merge (b c : Block) : Block :=
  { (if b.addr < c.addr then b else c) with level := b.level + 1 }

/-- The conditions `buddyIsBuddy` tests. -/
theorem buddyIsBuddy_iff {a c : ℕ} {f g : BlockHead} :
    buddyIsBuddy a f c g = true ↔ f.level = g.level
      ∧ ¬ (f.isFirst ≠ 0 ∧ g.isFirst = 0) ∧ f.hostPid = g.hostPid
      ∧ f.memoryIdx = g.memoryIdx
      ∧ (a > c ∧ a - c = calculateBlockSize f.level
        ∨ a < c ∧ c - a = calculateBlockSize f.level) := by
  unfold buddyIsBuddy
  split_ifs with h₁ h₂ h₃ h₄ h₅ h₆ <;> simp_all

/-- An interval cut at `b` is counted in two parts. -/
theorem toNat_split {i j a b c x : ℕ} (h₁ : a ≤ b) (h₂ : b ≤ c) :
    (decide (i = j ∧ a ≤ x ∧ x < b)).toNat + (decide (i = j ∧ b ≤ x ∧ x < c)).toNat
      = (decide (i = j ∧ a ≤ x ∧ x < c)).toNat := by
  by_cases hb : x < b
  · rw [decide_eq_false (show ¬ (i = j ∧ b ≤ x ∧ x < c) by omega), Bool.toNat_false,
      Nat.add_zero]
    exact congrArg Bool.toNat (decide_eq_decide.mpr (by omega))
  · rw [decide_eq_false (show ¬ (i = j ∧ a ≤ x ∧ x < b) by omega), Bool.toNat_false,
      Nat.zero_add]
    exact congrArg Bool.toNat (decide_eq_decide.mpr (by omega))

/-- **What the allocator takes for buddies**: blocks of one level and one
region that lie side by side, unless the first is flagged as an upper half
and the second is not. -/
theorem isBuddy_iff {b c : Block} (hb : b.level < 31) :
    b.isBuddy c = true ↔ b.level = c.level ∧ (b.isFirst = 0 ∨ c.isFirst ≠ 0)
      ∧ b.hostPid = c.hostPid ∧ b.memoryIdx = c.memoryIdx
      ∧ (c.stop = b.addr ∨ b.stop = c.addr) := by
  have hpos := b.bytes_pos
  have hsize : calculateBlockSize b.head.level = b.bytes := calculateBlockSize_of_lt hb
  unfold isBuddy
  rw [buddyIsBuddy_iff, hsize]
  refine and_congr_right (fun hl => and_congr ?_ (and_congr_right (fun _ =>
    and_congr_right (fun _ => ?_))))
  · show ¬ (b.isFirst ≠ 0 ∧ c.isFirst = 0) ↔ _
    omega
  · have hl' : b.level = c.level := hl
    have hbytes : c.bytes = b.bytes := by
      unfold bytes
      rw [hl']
    unfold stop
    rw [hbytes]
    omega

/-- The halves of a block, by where they lie. -/
theorem halves_spec {b : Block} (h : 0 < b.level) :
    b.lower.addr = b.addr ∧ b.lower.stop = b.upper.addr ∧ b.upper.stop = b.stop := by
  refine ⟨rfl, rfl, ?_⟩
  have hbytes : b.bytes = 2 ^ (b.level - 1) * pageSize + 2 ^ (b.level - 1) * pageSize := by
    unfold bytes
    rw [show b.level = b.level - 1 + 1 by omega, pow_succ, Nat.add_sub_cancel]
    ring
  unfold stop
  rw [hbytes, ← Nat.add_assoc]
  rfl

/-- The halves of a block cover what the block covers. -/
theorem mem_halves {b : Block} (h : 0 < b.level) (x : ℕ × ℕ) :
    (b.lower.mem x).toNat + (b.upper.mem x).toNat = (b.mem x).toNat := by
  obtain ⟨i, x⟩ := x
  obtain ⟨haddr, hmid, hstop⟩ := halves_spec h
  have hlow := b.lower.addr_lt_stop
  have hup := b.upper.addr_lt_stop
  have hi₁ : b.lower.memoryIdx = b.memoryIdx := rfl
  have hi₂ : b.upper.memoryIdx = b.memoryIdx := rfl
  unfold mem
  rw [hi₁, hi₂, hmid, hstop, haddr]
  rw [hmid, haddr] at hlow
  rw [hstop] at hup
  exact toNat_split (le_of_lt hlow) (le_of_lt hup)

/-- The merge of two blocks is one of them, raised by a level. -/
theorem merge_eq {b c : Block} (hl : b.level = c.level) : ∃ e, (e = b ∨ e = c)
    ∧ b.merge c = { e with level := e.level + 1 }
    ∧ (if b.addr < c.addr then b.addr else c.addr) = e.addr := by
  unfold merge
  split
  · exact ⟨b, Or.inl rfl, rfl, rfl⟩
  · exact ⟨c, Or.inr rfl, by rw [hl], rfl⟩

/-- The merge of two blocks side by side, lower one first. -/
theorem merge_spec {b c : Block} (hl : b.level = c.level) (hm : b.memoryIdx = c.memoryIdx)
    (h : c.stop = b.addr ∨ b.stop = c.addr) :
    (b.merge c).addr = min b.addr c.addr ∧ (b.merge c).level = b.level + 1
      ∧ (b.merge c).memoryIdx = b.memoryIdx
      ∧ (b.merge c).stop = max b.stop c.stop := by
  have hb := b.addr_lt_stop
  have hc := c.addr_lt_stop
  have hbytes : c.bytes = b.bytes := by
    unfold bytes
    rw [hl]
  have hstop : (b.merge c).stop = (b.merge c).addr + (b.bytes + b.bytes) := by
    unfold stop bytes merge
    rw [pow_succ]
    ring
  unfold stop at h hb hc ⊢
  rw [hbytes] at h hc ⊢
  have haddr : (b.merge c).addr = min b.addr c.addr := by
    unfold merge
    split
    · rw [min_eq_left (by omega)]
    · rw [min_eq_right (by omega)]
  refine ⟨haddr, rfl, ?_, ?_⟩
  · unfold merge
    split
    · rfl
    · exact hm.symm
  · show (b.merge c).stop = _
    rw [hstop, haddr]
    rcases h with h | h <;> omega

/-- Two blocks side by side cover what their merge covers. -/
theorem mem_merge {b c : Block} (hl : b.level = c.level) (hm : b.memoryIdx = c.memoryIdx)
    (h : c.stop = b.addr ∨ b.stop = c.addr) (x : ℕ × ℕ) :
    (b.mem x).toNat + (c.mem x).toNat = ((b.merge c).mem x).toNat := by
  obtain ⟨i, x⟩ := x
  obtain ⟨haddr, -, hidx, hstop⟩ := merge_spec hl hm h
  have hb := b.addr_lt_stop
  have hc := c.addr_lt_stop
  unfold mem
  rw [haddr, hidx, hstop, ← hm]
  rcases h with h | h
  · rw [Nat.add_comm, min_eq_right (by omega), max_eq_left (by omega), h]
    exact toNat_split (by omega) (by omega)
  · rw [min_eq_left (by omega), max_eq_right (by omega), h]
    exact toNat_split (by omega) (by omega)

end Block

/-! ## Pools -/

/-- **A pool**: the free blocks of each level, and the blocks in use. -/
structure Pool where
  free : ℕ → List Block
  used : List Block

/-- **What is asked of the attached regions**: they are representable, and
they are told apart by their index and by where they lie. -/
structure Regions (R : List Block) : Prop where
  level_lt : ∀ r ∈ R, r.level < 31
  addr_pos : ∀ r ∈ R, 0 < r.addr
  stop_le : ∀ r ∈ R, r.stop ≤ 2 ^ 64
  idx_ne : R.Pairwise (fun r r' => r.memoryIdx ≠ r'.memoryIdx)
  apart : R.Pairwise Block.Apart

namespace Regions

variable {R : List Block} {r r' : Block}

theorem tail (hR : Regions (r :: R)) : Regions R where
  level_lt := fun r' hr' => hR.level_lt r' (List.mem_cons_of_mem r hr')
  addr_pos := fun r' hr' => hR.addr_pos r' (List.mem_cons_of_mem r hr')
  stop_le := fun r' hr' => hR.stop_le r' (List.mem_cons_of_mem r hr')
  idx_ne := (List.pairwise_cons.mp hR.idx_ne).2
  apart := (List.pairwise_cons.mp hR.apart).2

theorem eq_of_memoryIdx (hR : Regions R) (hr : r ∈ R) (hr' : r' ∈ R)
    (h : r.memoryIdx = r'.memoryIdx) : r = r' := by
  by_contra hne
  have : Std.Symm (fun r r' : Block => r.memoryIdx ≠ r'.memoryIdx) := ⟨fun _ _ h => h.symm⟩
  exact hR.idx_ne.forall hr hr' hne h

theorem eq_of_overlap (hR : Regions R) (hr : r ∈ R) (hr' : r' ∈ R)
    (h₁ : r.addr < r'.stop) (h₂ : r'.addr < r.stop) : r = r' := by
  by_contra hne
  rcases hR.apart.forall hr hr' hne with h | h
  · exact absurd h₂ (not_lt.mpr h)
  · exact absurd h₁ (not_lt.mpr h)

/-- The regions cover no byte twice. -/
theorem cover_le_one (hR : Regions R) (x : ℕ × ℕ) : cover Block.mem R x ≤ 1 := by
  refine cover_le_one_iff.mpr (hR.idx_ne.imp (fun h y hy => h ?_)) x
  exact (Block.mem_iff.mp hy.1).1.trans (Block.mem_iff.mp hy.2).1.symm

/-- **Regions take room**: there are no more of them than pages. -/
theorem length_mul_le (hR : Regions R) {top : ℕ} (h : ∀ r ∈ R, r.stop ≤ top) :
    R.length * pageSize ≤ top := by
  -- the addresses of the regions, which are disjoint
  suffices hcard : ∃ s : Finset ℕ, R.length * pageSize ≤ s.card
      ∧ ∀ a ∈ s, ∃ r ∈ R, r.addr ≤ a ∧ a < r.stop by
    obtain ⟨s, hcard, hs⟩ := hcard
    have hsub : s ⊆ Finset.range top := fun a ha => by
      obtain ⟨r, hr, -, hlt⟩ := hs a ha
      exact Finset.mem_range.mpr (hlt.trans_le (h r hr))
    exact (hcard.trans (Finset.card_le_card hsub)).trans_eq (Finset.card_range top)
  clear h
  induction R with
  | nil => exact ⟨∅, (Nat.zero_mul _).le, nofun⟩
  | cons r R ih =>
    obtain ⟨s, hcard, hs⟩ := ih hR.tail
    have hdisj : Disjoint (Finset.Ico r.addr r.stop) s := by
      refine Finset.disjoint_left.mpr fun a ha has => ?_
      obtain ⟨hle, hlt⟩ := Finset.mem_Ico.mp ha
      obtain ⟨r', hr', hle', hlt'⟩ := hs a has
      rcases (List.pairwise_cons.mp hR.apart).1 r' hr' with hbelow | habove
      · omega
      · omega
    refine ⟨Finset.Ico r.addr r.stop ∪ s, ?_, fun a ha => ?_⟩
    · rw [Finset.card_union_of_disjoint hdisj, Nat.card_Ico, List.length_cons, Nat.add_mul,
        Nat.one_mul, Nat.add_comm]
      refine Nat.add_le_add (r.pageSize_le_bytes.trans ?_) hcard
      unfold Block.stop
      rw [Nat.add_sub_cancel_left]
    · rcases Finset.mem_union.mp ha with ha | ha
      · exact ⟨r, List.mem_cons_self, Finset.mem_Ico.mp ha⟩
      · obtain ⟨r', hr', hle⟩ := hs a ha
        exact ⟨r', List.mem_cons_of_mem r hr', hle⟩

end Regions

namespace Pool

/-- All blocks of a pool. -/
def blocks (A : Pool) : List Block := gather maxBlockNum A.free ++ A.used

/-- **The invariant of a pool over the regions `R`**: every free block is
on the list of its level, the lists are in the order of the addresses,
blocks start at pages of their region, and the blocks cover exactly what
the regions do. -/
structure Inv (R : List Block) (A : Pool) : Prop where
  level_eq : ∀ k, ∀ b ∈ A.free k, b.level = k
  free_nil : ∀ k, maxBlockNum ≤ k → A.free k = []
  sorted : ∀ k, (A.free k).Pairwise (fun b c => b.addr < c.addr)
  page : ∀ b ∈ A.blocks, ∀ r ∈ R, r.memoryIdx = b.memoryIdx →
    b.addr % pageSize = r.addr % pageSize
  cover_eq : ∀ x, cover Block.mem A.blocks x = cover Block.mem R x

variable {R : List Block} {A : Pool} {b c r : Block} {k idx : ℕ}

/-- A level with a free block is one of the levels. -/
theorem Inv.lt_of_mem (h : A.Inv R) (hb : b ∈ A.free k) : k < maxBlockNum := by
  by_contra hk
  rw [h.free_nil k (not_lt.mp hk)] at hb
  cases hb

theorem Inv.mem_blocks (h : A.Inv R) :
    b ∈ A.blocks ↔ (∃ k, b ∈ A.free k) ∨ b ∈ A.used := by
  unfold blocks
  rw [List.mem_append, mem_gather]
  exact or_congr_left ⟨fun ⟨k, _, hb⟩ => ⟨k, hb⟩, fun ⟨k, hb⟩ => ⟨k, h.lt_of_mem hb, hb⟩⟩

theorem Inv.mem_of_free (h : A.Inv R) (hb : b ∈ A.free k) : b ∈ A.blocks :=
  h.mem_blocks.mpr (Or.inl ⟨k, hb⟩)

theorem mem_of_used (hb : b ∈ A.used) : b ∈ A.blocks := List.mem_append_right _ hb

/-- **A block lies within the region it belongs to.** -/
theorem Inv.region (h : A.Inv R) (hR : Regions R) (hb : b ∈ A.blocks) :
    ∃ r ∈ R, r.memoryIdx = b.memoryIdx ∧ r.addr ≤ b.addr ∧ b.stop ≤ r.stop := by
  have hlt := b.addr_lt_stop
  have hin : ∀ x, b.addr ≤ x → x < b.stop →
      ∃ r ∈ R, r.memoryIdx = b.memoryIdx ∧ r.addr ≤ x ∧ x < r.stop := by
    intro x h₁ h₂
    have hpos := cover_pos_of_mem hb (Block.mem_iff.mpr ⟨rfl, h₁, h₂⟩)
    rw [h.cover_eq] at hpos
    obtain ⟨r, hr, hrx⟩ := cover_pos_iff.mp hpos
    exact ⟨r, hr, Block.mem_iff.mp hrx⟩
  obtain ⟨r, hr, hidx, h₁, -⟩ := hin b.addr le_rfl hlt
  obtain ⟨r', hr', hidx', -, h₂⟩ := hin (b.stop - 1) (by omega) (by omega)
  have heq := hR.eq_of_memoryIdx hr hr' (hidx.trans hidx'.symm)
  exact ⟨r, hr, hidx, h₁, by rw [heq]; omega⟩

/-- A block has at most the level of its region. -/
theorem Inv.level_lt (h : A.Inv R) (hR : Regions R) (hb : b ∈ A.blocks) :
    b.level < 31 := by
  obtain ⟨r, hr, -, h₁, h₂⟩ := h.region hR hb
  exact lt_of_le_of_lt (Block.level_le_of_within h₁ h₂) (hR.level_lt r hr)

/-- **The blocks of a pool are pairwise disjoint.** -/
theorem Inv.apart (h : A.Inv R) (hR : Regions R) :
    A.blocks.Pairwise Block.Apart := by
  have hcov : ∀ x, cover Block.mem A.blocks x ≤ 1 := fun x => by
    rw [h.cover_eq]
    exact hR.cover_le_one x
  refine (cover_le_one_iff.mp hcov).imp_of_mem (fun {b c} hb hc hne => ?_)
  by_contra hov
  unfold Block.Apart at hov
  obtain ⟨r, hr, hidx, h₁, h₂⟩ := h.region hR hb
  obtain ⟨r', hr', hidx', h₁', h₂'⟩ := h.region hR hc
  have hb' := b.addr_lt_stop
  have hc' := c.addr_lt_stop
  have heq := hR.eq_of_overlap hr hr' (by omega) (by omega)
  have hbc : b.memoryIdx = c.memoryIdx := by rw [← hidx, ← hidx', heq]
  refine hne (c.memoryIdx, max b.addr c.addr) ⟨?_, ?_⟩
  · exact Block.mem_iff.mpr ⟨hbc, le_max_left _ _, by omega⟩
  · exact Block.mem_iff.mpr ⟨rfl, le_max_right _ _, by omega⟩

theorem Inv.apart_free_used (h : A.Inv R) (hR : Regions R) (hb : b ∈ A.free k)
    (hc : c ∈ A.used) : b.Apart c :=
  (List.pairwise_append.mp (h.apart hR)).2.2 b
    (mem_gather.mpr ⟨k, h.lt_of_mem hb, hb⟩) c hc

theorem Inv.apart_of_ne (h : A.Inv R) (hR : Regions R) (hb : b ∈ A.blocks)
    (hc : c ∈ A.blocks) (hne : b ≠ c) : b.Apart c := (h.apart hR).forall hb hc hne

/-- Only the blocks in use count, not their order. -/
theorem Inv.perm {F : ℕ → List Block} {u v : List Block} (h : (Pool.mk F u).Inv R)
    (huv : u.Perm v) : (Pool.mk F v).Inv R where
  level_eq := h.level_eq
  free_nil := h.free_nil
  sorted := h.sorted
  page := fun b hb => h.page b (((huv.append_left _).mem_iff).mpr hb)
  cover_eq := fun x => (cover_perm (huv.append_left _).symm).trans (h.cover_eq x)

/-- **The invariant after replacing one list**: what has to be checked when
the list of one level and the blocks in use change. -/
theorem Inv.update {F : ℕ → List Block} {u v l : List Block} (h : (Pool.mk F u).Inv R)
    (hk : k < maxBlockNum) (hl : ∀ b ∈ l, b.level = k)
    (hs : l.Pairwise (fun b c => b.addr < c.addr))
    (hp : ∀ b, b ∈ l ∨ b ∈ v → ∀ r ∈ R, r.memoryIdx = b.memoryIdx →
      b.addr % pageSize = r.addr % pageSize)
    (hc : ∀ x, cover Block.mem l x + cover Block.mem v x
      = cover Block.mem (F k) x + cover Block.mem u x) :
    (Pool.mk (Function.update F k l) v).Inv R where
  level_eq := fun j b (hb : b ∈ Function.update F k l j) => by
    by_cases hj : j = k
    · subst hj
      rw [Function.update_self] at hb
      exact hl b hb
    · rw [Function.update_of_ne hj] at hb
      exact h.level_eq j b hb
  free_nil := fun j hj => by
    show Function.update F k l j = []
    rw [Function.update_of_ne (by omega)]
    exact h.free_nil j hj
  sorted := fun j => by
    show (Function.update F k l j).Pairwise _
    by_cases hj : j = k
    · subst hj
      rw [Function.update_self]
      exact hs
    · rw [Function.update_of_ne hj]
      exact h.sorted j
  page := fun b hb => by
    rcases List.mem_append.mp hb with hb | hb
    · obtain ⟨j, hj, hb⟩ := mem_gather.mp hb
      dsimp only at hb
      by_cases hjk : j = k
      · subst hjk
        rw [Function.update_self] at hb
        exact hp b (Or.inl hb)
      · rw [Function.update_of_ne hjk] at hb
        exact h.page b (h.mem_of_free (A := ⟨F, u⟩) hb)
    · exact hp b (Or.inr hb)
  cover_eq := fun x => by
    have hold := h.cover_eq x
    have hup : cover Block.mem (gather maxBlockNum (Function.update F k l)) x + _ = _ :=
      cover_gather_update hk F l x
    have hnew := hc x
    unfold blocks at hold ⊢
    rw [cover_append] at hold ⊢
    dsimp only at hold ⊢
    omega

/-! ## Cutting and taking blocks -/

/-- Cut the first block of level `idx + 1`; its halves become the list of
level `idx`. -/
def split (A : Pool) (idx : ℕ) : Pool :=
  match A.free (idx + 1) with
  | [] => A
  | b :: rest =>
    ⟨Function.update (Function.update A.free (idx + 1) rest) idx [b.lower, b.upper], A.used⟩

/-- Cut blocks from level `idx` down to `level`, as long as there are any. -/
def splitDown (level : ℕ) : ℕ → Pool → Pool
  | 0, A => A
  | idx + 1, A =>
    if A.free (idx + 1) ≠ [] ∧ level < idx + 1 then splitDown level idx (A.split idx) else A

/-- Take the first block of a level into use. -/
def take (A : Pool) (k : ℕ) : Pool :=
  match A.free k with
  | [] => A
  | b :: rest => ⟨Function.update A.free k rest, b :: A.used⟩

/-- What is left of the level when its first block is taken. -/
theorem take_eq {l : List Block} (h : A.free k = b :: l) :
    A.take k = ⟨Function.update A.free k l, b :: A.used⟩ := by
  unfold Pool.take
  rw [h]

/-- **Taking keeps the invariant.** -/
theorem Inv.take (h : A.Inv R) : (A.take k).Inv R := by
  cases hfree : A.free k with
  | nil =>
    unfold Pool.take
    rw [hfree]
    exact h
  | cons b rest =>
    rw [take_eq hfree]
    have hb : b ∈ A.free k := by rw [hfree]; exact List.mem_cons_self
    have hsorted := h.sorted k
    rw [hfree] at hsorted
    refine h.update (h.lt_of_mem hb) (fun c hc => h.level_eq _ c ?_)
      (List.pairwise_cons.mp hsorted).2 (fun c hc => h.page c ?_) (fun x => ?_)
    · rw [hfree]
      exact List.mem_cons_of_mem b hc
    · rcases hc with hc | hc
      · exact h.mem_of_free (by rw [hfree]; exact List.mem_cons_of_mem b hc)
      · rcases List.mem_cons.mp hc with rfl | hc
        · exact h.mem_of_free hb
        · exact mem_of_used hc
    · rw [hfree, cover_cons, cover_cons]
      omega

/-- Taking a block moves it, and adds none. -/
theorem Inv.mem_of_take (h : A.Inv R) {c : Block} (hc : c ∈ (A.take k).blocks) :
    c ∈ A.blocks := by
  have hc' := h.take.mem_blocks.mp hc
  cases hfree : A.free k with
  | nil =>
    unfold Pool.take at hc
    rw [hfree] at hc
    exact hc
  | cons b rest =>
    rw [take_eq hfree] at hc'
    rcases hc' with ⟨j, hj⟩ | hc'
    · refine h.mem_of_free (k := j) ?_
      change c ∈ Function.update A.free k rest j at hj
      by_cases hjk : j = k
      · rw [hjk, Function.update_self] at hj
        rw [hjk, hfree]
        exact List.mem_cons_of_mem b hj
      · rwa [Function.update_of_ne hjk] at hj
    · rcases List.mem_cons.mp hc' with rfl | hc'
      · exact h.mem_of_free (hfree ▸ List.mem_cons_self)
      · exact mem_of_used hc'

theorem upper_page {b : Block} {p : ℕ} (h : b.addr % pageSize = p) :
    b.upper.addr % pageSize = p := by
  show (b.addr + 2 ^ (b.level - 1) * pageSize) % pageSize = p
  rw [Nat.add_mul_mod_self_right]
  exact h

/-- **Cutting keeps the invariant.** -/
theorem Inv.split (h : A.Inv R) (hidx : idx + 1 < maxBlockNum) (hnil : A.free idx = []) :
    (A.split idx).Inv R := by
  unfold Pool.split
  split
  · exact h
  · next b rest hfree =>
    have hb : b ∈ A.free (idx + 1) := by rw [hfree]; exact List.mem_cons_self
    have hlevel : b.level = idx + 1 := h.level_eq (idx + 1) b hb
    have hpage := h.page b (h.mem_of_free hb)
    obtain ⟨haddr, hmid, -⟩ := Block.halves_spec (b := b) (by omega)
    have hlow := b.lower.addr_lt_stop
    -- the block is first taken out of its list, then put back in halves
    have hout := h.take (k := idx + 1)
    rw [take_eq hfree] at hout
    refine hout.update (by omega) (fun c hc => ?_) ?_ (fun c hc => ?_) (fun x => ?_)
    · rcases List.mem_pair.mp hc with rfl | rfl
      · exact show b.level - 1 = idx by omega
      · exact show b.level - 1 = idx by omega
    · refine List.pairwise_pair.mpr ?_
      rw [← hmid]
      exact hlow
    · rcases hc with hc | hc
      · rcases List.mem_pair.mp hc with rfl | rfl
        · exact hpage
        · exact fun r hr hidx => upper_page (hpage r hr hidx)
      · exact h.page c (mem_of_used hc)
    · rw [Function.update_of_ne (by omega), hnil, cover_cons, cover_cons, cover_cons,
        ← Block.mem_halves (b := b) (by omega) x]
      omega

theorem split_used : (A.split idx).used = A.used := by
  unfold Pool.split
  split <;> rfl

theorem splitDown_used {level : ℕ} : (A.splitDown level idx).used = A.used := by
  induction idx generalizing A with
  | zero => rfl
  | succ idx ih =>
    rw [Pool.splitDown]
    split
    · exact ih.trans split_used
    · rfl

/-- The lists after a cut. -/
theorem split_free {l : List Block} (h : A.free (idx + 1) = b :: l) : (A.split idx).free
    = Function.update (Function.update A.free (idx + 1) l) idx [b.lower, b.upper] := by
  unfold Pool.split
  rw [h]

/-- Below the level cut, only the list of the halves changes. -/
theorem split_free_of_lt {j : ℕ} (hj : j < idx) : (A.split idx).free j = A.free j := by
  unfold Pool.split
  split
  · rfl
  · show Function.update (Function.update A.free (idx + 1) _) idx _ j = A.free j
    rw [Function.update_of_ne (by omega), Function.update_of_ne (by omega)]

/-- Cutting downwards leaves the first piece at the head of its list, where
the block cut was. -/
theorem splitDown_head {level : ℕ} {l : List Block} (hF : A.free idx = b :: l) (hle : level ≤ idx) :
    ∃ c t, (A.splitDown level idx).free level = c :: t ∧ c.addr = b.addr := by
  induction idx generalizing A b l with
  | zero =>
    rw [Nat.le_zero.mp hle]
    exact ⟨b, l, hF, rfl⟩
  | succ idx ih =>
    rw [Pool.splitDown]
    split
    · next hcut =>
      have hF₁ : (A.split idx).free idx = b.lower :: [b.upper] := by
        rw [split_free hF, Function.update_self]
      obtain ⟨c, t, hc, hca⟩ := ih hF₁ (by omega)
      exact ⟨c, t, hc, hca⟩
    · next hcut =>
      have heq : level = idx + 1 := by
        by_contra hne
        exact hcut ⟨hF ▸ List.cons_ne_nil b l, by omega⟩
      rw [heq]
      exact ⟨b, l, hF, rfl⟩

/-- **Cutting downwards**, through levels whose lists are empty, keeps the
invariant. -/
theorem Inv.splitDown {level : ℕ} (h : A.Inv R) (hidx : idx < maxBlockNum)
    (hnil : ∀ j, level ≤ j → j < idx → A.free j = []) : (A.splitDown level idx).Inv R := by
  induction idx generalizing A with
  | zero => exact h
  | succ idx ih =>
    rw [Pool.splitDown]
    split
    · next hcut =>
      refine ih (h.split hidx (hnil idx (by omega) (by omega))) (by omega) (fun j hj hlt => ?_)
      rw [split_free_of_lt hlt]
      exact hnil j hj (by omega)
    · exact h

/-! ## Releasing blocks -/

/-- What becomes of a block that is offered to the list of its level: it is
put on the list, or it is merged with a block of it. -/
inductive Placed where
  /-- The list with the block on it. -/
  | inserted (l : List Block)
  /-- The merged block, and the list without the other half. -/
  | merged (b : Block) (l : List Block)

/-- Offer a block to a list: the first block it is taken for a buddy of is
merged with it; if there is none before the first larger address, the block
is put there. -/
def place (b : Block) : List Block → Placed
  | [] => .inserted [b]
  | c :: l =>
    if b.isBuddy c then .merged (b.merge c) l
    else if b.addr < c.addr then .inserted (b :: c :: l)
    else
      match place b l with
      | .inserted l' => .inserted (c :: l')
      | .merged d l' => .merged d (c :: l')

/-- **Release a block**: merge it upwards as long as that is possible, and
put it on a list. Each merge goes one level up. -/
def release : ℕ → (ℕ → List Block) → Block → ℕ → List Block
  | 0, F, _ => F
  | fuel + 1, F, b =>
    match place b (F b.level) with
    | .inserted l => Function.update F b.level l
    | .merged c l => release fuel (Function.update F b.level l) c

/-- The block passes over the blocks of the list: it is not taken for a
buddy of any, and none has a larger address. -/
def Passes (b : Block) (l : List Block) : Prop :=
  ∀ c ∈ l, b.isBuddy c = false ∧ ¬ b.addr < c.addr

theorem passes_nil (b : Block) : Passes b [] := List.forall_mem_nil _

theorem passes_cons {l : List Block} : Passes b (c :: l)
    ↔ (b.isBuddy c = false ∧ ¬ b.addr < c.addr) ∧ Passes b l := List.forall_mem_cons

/-- **Where a block is placed**: behind the blocks it passes over it meets
its buddy, or a larger address, or the end of the list. -/
theorem place_cases (b : Block) (l : List Block) :
    (∃ l₁ c l₂, l = l₁ ++ c :: l₂ ∧ Passes b l₁ ∧ b.isBuddy c = true
      ∧ place b l = .merged (b.merge c) (l₁ ++ l₂))
    ∨ (∃ l₁ l₂, l = l₁ ++ l₂ ∧ Passes b l₁
      ∧ (∀ c ∈ l₂.head?, b.isBuddy c = false ∧ b.addr < c.addr)
      ∧ place b l = .inserted (l₁ ++ b :: l₂)) := by
  induction l with
  | nil => exact Or.inr ⟨[], [], rfl, passes_nil b, fun c hc => (by cases hc), rfl⟩
  | cons c l ih =>
    cases hb : b.isBuddy c with
    | true =>
      refine Or.inl ⟨[], c, l, rfl, passes_nil b, hb, ?_⟩
      rw [place, if_pos hb, List.nil_append]
    | false =>
      have hb' : ¬ b.isBuddy c = true := by rw [hb]; exact Bool.false_ne_true
      by_cases hlt : b.addr < c.addr
      · refine Or.inr ⟨[], c :: l, rfl, passes_nil b, fun d hd => ?_, ?_⟩
        · rw [← Option.mem_some_iff.mp hd]
          exact ⟨hb, hlt⟩
        · rw [place, if_neg hb', if_pos hlt, List.nil_append]
      · rw [place, if_neg hb', if_neg hlt]
        rcases ih with ⟨l₁, d, l₂, rfl, hp, hd, hpl⟩ | ⟨l₁, l₂, rfl, hp, hd, hpl⟩
        · refine Or.inl ⟨c :: l₁, d, l₂, rfl, passes_cons.mpr ⟨⟨hb, hlt⟩, hp⟩, hd, ?_⟩
          rw [hpl]
          rfl
        · refine Or.inr ⟨c :: l₁, l₂, rfl, passes_cons.mpr ⟨⟨hb, hlt⟩, hp⟩, hd, ?_⟩
          rw [hpl]
          rfl

/-- A block that is put on a list is on it. -/
theorem mem_of_place {l l' : List Block} (h : place b l = .inserted l') : b ∈ l' := by
  rcases place_cases b l with ⟨l₁, d, l₂, -, -, -, hpl⟩ | ⟨l₁, l₂, -, -, -, hpl⟩
  · rw [hpl] at h
    cases h
  · rw [hpl] at h
    cases h
    exact List.mem_append_right l₁ List.mem_cons_self

/-- **Putting a block on its list keeps the invariant.** -/
theorem Inv.insert {F : ℕ → List Block} {u l₁ l₂ : List Block} (h : (Pool.mk F (b :: u)).Inv R)
    (hR : Regions R) (hl : F b.level = l₁ ++ l₂) (h₁ : ∀ c ∈ l₁, ¬ b.addr < c.addr)
    (h₂ : ∀ c ∈ l₂.head?, b.addr < c.addr) :
    (Pool.mk (Function.update F b.level (l₁ ++ b :: l₂)) u).Inv R := by
  have hb : b ∈ (Pool.mk F (b :: u)).used := List.mem_cons_self
  have hmem : ∀ c ∈ l₁ ++ l₂, c ∈ (Pool.mk F (b :: u)).free b.level := fun c hc => by
    show c ∈ F b.level
    rw [hl]
    exact hc
  have hperm : (l₁ ++ b :: l₂).Perm (b :: (l₁ ++ l₂)) := List.perm_middle
  have hsorted : (l₁ ++ l₂).Pairwise (fun b c => b.addr < c.addr) := by
    have := h.sorted b.level
    rwa [show (Pool.mk F (b :: u)).free b.level = l₁ ++ l₂ from hl] at this
  obtain ⟨hs₁, hs₂, hs₁₂⟩ := List.pairwise_append.mp hsorted
  have hlow : ∀ c ∈ l₁, c.addr < b.addr := fun c hc => by
    have hne := (h.apart_free_used hR (hmem c (List.mem_append_left l₂ hc)) hb).addr_ne
    have hle := h₁ c hc
    omega
  have hhigh : ∀ c ∈ l₂, b.addr < c.addr := by
    cases l₂ with
    | nil => exact fun c hc => by cases hc
    | cons d l₂ =>
      have hd := h₂ d rfl
      exact List.forall_mem_cons.mpr
        ⟨hd, fun c hc => hd.trans ((List.pairwise_cons.mp hs₂).1 c hc)⟩
  refine h.update (lt_trans (h.level_lt hR (mem_of_used hb)) (by decide)) (fun c hc => ?_) ?_
    (fun c hc => h.page c ?_) (fun x => ?_)
  · rcases List.mem_cons.mp (hperm.mem_iff.mp hc) with rfl | hc
    · rfl
    · exact h.level_eq b.level c (hmem c hc)
  · refine List.pairwise_append.mpr ⟨hs₁, List.pairwise_cons.mpr ⟨hhigh, hs₂⟩, fun c hc d hd => ?_⟩
    rcases List.mem_cons.mp hd with rfl | hd
    · exact hlow c hc
    · exact hs₁₂ c hc d hd
  · rcases hc with hc | hc
    · rcases List.mem_cons.mp (hperm.mem_iff.mp hc) with rfl | hc
      · exact mem_of_used hb
      · exact h.mem_of_free (hmem c hc)
    · exact mem_of_used (List.mem_cons_of_mem b hc)
  · rw [hl, cover_perm hperm, cover_cons, cover_cons]
    omega

/-- **Merging a block with its buddy keeps the invariant.** -/
theorem Inv.merge {F : ℕ → List Block} {u l₁ l₂ : List Block} (h : (Pool.mk F (b :: u)).Inv R)
    (hR : Regions R) (hl : F b.level = l₁ ++ c :: l₂) (hbc : b.isBuddy c = true) :
    (Pool.mk (Function.update F b.level (l₁ ++ l₂)) (b.merge c :: u)).Inv R := by
  have hb : b ∈ (Pool.mk F (b :: u)).used := List.mem_cons_self
  have hlt := h.level_lt hR (mem_of_used hb)
  have hmem : ∀ d ∈ l₁ ++ c :: l₂, d ∈ (Pool.mk F (b :: u)).free b.level := fun d hd => by
    show d ∈ F b.level
    rw [hl]
    exact hd
  have hperm : (l₁ ++ c :: l₂).Perm (c :: (l₁ ++ l₂)) := List.perm_middle
  have hsub : ∀ d ∈ l₁ ++ l₂, d ∈ l₁ ++ c :: l₂ := fun d hd =>
    hperm.mem_iff.mpr (List.mem_cons_of_mem c hd)
  have hc := hmem c (hperm.mem_iff.mpr List.mem_cons_self)
  have hsorted : (l₁ ++ c :: l₂).Pairwise (fun b c => b.addr < c.addr) := by
    have := h.sorted b.level
    rwa [show (Pool.mk F (b :: u)).free b.level = l₁ ++ c :: l₂ from hl] at this
  obtain ⟨hbl, -, -, hidx, hside⟩ := (Block.isBuddy_iff (by omega)).mp hbc
  refine h.update (lt_trans hlt (by decide)) (fun d hd => h.level_eq b.level d (hmem d (hsub d hd)))
    (hsorted.sublist ((List.sublist_cons_self c l₂).append_left l₁)) (fun d hd => ?_) (fun x => ?_)
  · rcases hd with hd | hd
    · exact h.page d (h.mem_of_free (hmem d (hsub d hd)))
    · rcases List.mem_cons.mp hd with rfl | hd
      · -- the merge starts where one of the two starts
        unfold Block.merge
        split
        · exact h.page b (mem_of_used hb)
        · exact h.page c (h.mem_of_free hc)
      · exact h.page d (mem_of_used (List.mem_cons_of_mem b hd))
  · have hcov := Block.mem_merge hbl hidx hside x
    rw [hl, cover_perm hperm, cover_cons, cover_cons, cover_cons]
    omega

/-- **Releasing keeps the invariant.** The fuel is enough, since a block
of the pool has a level below 31 and each merge goes one level up. -/
theorem Inv.release (hR : Regions R) {fuel : ℕ} {F : ℕ → List Block} {u : List Block}
    (h : (Pool.mk F (b :: u)).Inv R) (hfuel : 31 ≤ b.level + fuel) :
    (Pool.mk (Pool.release fuel F b) u).Inv R := by
  induction fuel generalizing F b with
  | zero =>
    have hlt := h.level_lt hR (mem_of_used (List.mem_cons_self (a := b)))
    omega
  | succ fuel ih =>
    rw [Pool.release]
    rcases place_cases b (F b.level) with ⟨l₁, c, l₂, hl, -, hc, hp⟩ | ⟨l₁, l₂, hl, h₁, h₂, hp⟩
    · rw [hp]
      refine ih (h.merge hR hl hc) ?_
      show 31 ≤ b.level + 1 + fuel
      omega
    · rw [hp]
      exact h.insert hR hl (fun c hc => (h₁ c hc).2) (fun c hc => (h₂ c hc).2)

end Pool
