import CoinData.BuddyPool
import CoinData.BuddyHeaders
import CoinData.LinkedList

/-!
# The memory of a buddy system holds a pool

The functions of the allocator work on headers and links in memory; the
operations of `BuddyPool` work on lists of blocks. Here the two are
connected: `Represents` says that a memory and the array of lists hold the
free blocks of a pool, and each function of the allocator is shown to do
to the memory what its counterpart does to the pool, without a fault, and
to write only the headers it names.
-/

/-! ## Where headers may be -/

/-- The page starts of the regions. -/
def places (R : List Block) : Set ℕ :=
  {a | ∃ r ∈ R, r.addr ≤ a ∧ a + pageSize ≤ r.stop ∧ a % pageSize = r.addr % pageSize}

/-- Headers at the page starts of disjoint regions do not overlap. -/
theorem Regions.spaced {R : List Block} (hR : Regions R) : Spaced (places R) where
  pos := fun a ⟨r, hr, hle, _⟩ => (hR.addr_pos r hr).trans_le hle
  lt := fun a ⟨r, hr, _, hstop, _⟩ => by
    have hle := hR.stop_le r hr
    unfold pageSize at hstop
    omega
  apart := by
    rintro a ⟨r, hr, ha, hastop, hamod⟩ b ⟨r', hr', hb, hbstop, hbmod⟩ hne
    unfold buddyCalculateBlockHeadSize
    unfold pageSize at *
    by_cases heq : r = r'
    · subst heq
      omega
    · rcases hR.apart.forall hr hr' heq with h | h
      · left
        omega
      · right
        omega

namespace Pool

variable {R : List Block} {A : Pool} {b c : Block} {j k : ℕ}

/-- Blocks have their headers at page starts. -/
theorem Inv.place (h : A.Inv R) (hR : Regions R) (hb : b ∈ A.blocks) :
    b.addr ∈ places R := by
  obtain ⟨r, hr, hidx, hle, hstop⟩ := h.region hR hb
  refine ⟨r, hr, hle, le_trans ?_ hstop, h.page b hb r hr hidx⟩
  exact Nat.add_le_add_left b.pageSize_le_bytes b.addr

/-- A block is determined by its address. -/
theorem Inv.eq_of_addr (h : A.Inv R) (hR : Regions R) (hb : b ∈ A.blocks)
    (hc : c ∈ A.blocks) (heq : b.addr = c.addr) : b = c := by
  by_contra hne
  exact (h.apart_of_ne hR hb hc hne).addr_ne heq

/-- A list is determined by the address of a block on it. -/
theorem Inv.level_of_addr (h : A.Inv R) (hR : Regions R) (hb : b ∈ A.free j)
    (hc : c ∈ A.free k) (heq : b.addr = c.addr) : j = k := by
  rw [← h.level_eq j b hb, ← h.level_eq k c hc,
    h.eq_of_addr hR (h.mem_of_free hb) (h.mem_of_free hc) heq]

theorem Inv.nodup (h : A.Inv R) (k : ℕ) : ((A.free k).map Block.addr).Nodup :=
  List.pairwise_map.mpr ((h.sorted k).imp ne_of_lt)

end Pool

/-! ## Reading blocks from memory -/

/-- The link back from the block at an address. -/
def prevLink (m : ByteStore) (a : ℕ) : ℕ := (blockHead m a).previous

/-- The link forward from the block at an address. -/
def nextLink (m : ByteStore) (a : ℕ) : ℕ := (blockHead m a).next

/-- The block whose header is at an address. -/
def blockAt (m : ByteStore) (a : ℕ) : Block where
  addr := a
  level := (blockHead m a).level
  isFirst := (blockHead m a).isFirst
  hostPid := (blockHead m a).hostPid
  memoryIdx := (blockHead m a).memoryIdx

/-- **The memory holds the block**: its header is the block's. -/
structure Holds (m : ByteStore) (b : Block) : Prop where
  block : blockAt m b.addr = b
  crc : (blockHead m b.addr).crc = crc32

/-- The block at an address is marked free. -/
def MarkedFree (m : ByteStore) (a : ℕ) : Prop := (blockHead m a).isFree = 1

/-- **The memory and the array of lists represent the free blocks** of a
pool: the lists are doubly linked, and the headers are those of the blocks. -/
structure Represents (s : Buddy) (F : ℕ → List Block) : Prop where
  linked : ∀ k, Linked (prevLink s.mem) (nextLink s.mem) 0 (s.head.list k)
    ((F k).map Block.addr) 0
  holds : ∀ k, ∀ b ∈ F k, Holds s.mem b
  marked : ∀ k, ∀ b ∈ F k, MarkedFree s.mem b.addr

theorem prevLink_lt (m : ByteStore) (a : ℕ) : prevLink m a < 2 ^ 64 := by
  unfold prevLink blockHead
  exact (Layout.previous.get_lt m a).trans_eq (by decide)

theorem nextLink_lt (m : ByteStore) (a : ℕ) : nextLink m a < 2 ^ 64 := by
  unfold nextLink blockHead
  exact (Layout.next.get_lt m a).trans_eq (by decide)

theorem Holds.level {m : ByteStore} {b : Block} (h : Holds m b) :
    (blockHead m b.addr).level = b.level := congrArg Block.level h.block

theorem Holds.isFirst {m : ByteStore} {b : Block} (h : Holds m b) :
    (blockHead m b.addr).isFirst = b.isFirst := congrArg Block.isFirst h.block

/-- A block is held as long as its header is left alone. -/
theorem Holds.congr {m m' : ByteStore} {b : Block} (h : Holds m b)
    (heq : blockHead m' b.addr = blockHead m b.addr) : Holds m' b := by
  refine ⟨?_, heq ▸ h.crc⟩
  have hblock := h.block
  unfold blockAt at hblock ⊢
  rw [heq]
  exact hblock

/-- Initializing the header of a block gives it another level and flag. -/
theorem Holds.initFreeBlock {S : Set ℕ} (hS : Spaced S) {m : ByteStore} {b : Block}
    {p n l f : ℕ} (h : Holds m b) (hb : b.addr ∈ S) (hp : p < 2 ^ 64) (hn : n < 2 ^ 64)
    (hl : l < 2 ^ 64) (hf : f < 2 ^ 32) :
    Holds (initFreeBlock m b.addr p n l f) { b with level := l, isFirst := f } := by
  have heq := hS.blockHead_initFreeBlock (m := m) hb hb hp hn hl hf
  rw [if_pos rfl] at heq
  refine ⟨?_, ?_⟩
  · have hpid : (blockHead m b.addr).hostPid = b.hostPid := congrArg Block.hostPid h.block
    have hidx : (blockHead m b.addr).memoryIdx = b.memoryIdx := congrArg Block.memoryIdx h.block
    unfold blockAt
    dsimp only
    rw [heq, ← hpid, ← hidx]
  · dsimp only
    rw [heq]

/-- The test for buddies, on blocks the memory holds. -/
theorem buddyIsBuddy_of_holds {m : ByteStore} {b c : Block} (hb : Holds m b)
    (hc : Holds m c) :
    buddyIsBuddy b.addr (blockHead m b.addr) c.addr (blockHead m c.addr) = b.isBuddy c := by
  have hpid : ∀ {b}, Holds m b → (blockHead m b.addr).hostPid = b.hostPid := fun h =>
    congrArg Block.hostPid h.block
  have hidx : ∀ {b}, Holds m b → (blockHead m b.addr).memoryIdx = b.memoryIdx := fun h =>
    congrArg Block.memoryIdx h.block
  unfold Block.isBuddy buddyIsBuddy
  rw [hb.level, hc.level, hb.isFirst, hc.isFirst, hpid hb, hpid hc, hidx hb, hidx hc]
  rfl

theorem Holds.crc32Check {m : ByteStore} {b : Block} (h : Holds m b) :
    crc32Check m b.addr buddyCalculateBlockHeadSize = true := crc32Check_of_crc h.crc

/-! ## Relinking -/

/-- **The memory `m'` differs from `m` by relinking free blocks** at
addresses of `W`: what the headers at the places `S` say apart from their
links is as before. -/
structure Relinks (S W : Set ℕ) (m m' : ByteStore) : Prop where
  writes : WritesOnly W m m'
  block : ∀ a ∈ S, blockAt m' a = blockAt m a
  crc : ∀ a ∈ S, (blockHead m a).crc = crc32 → (blockHead m' a).crc = crc32
  marked : ∀ a ∈ S, MarkedFree m a → MarkedFree m' a

namespace Relinks

variable {S W W' : Set ℕ} {m m' m'' : ByteStore} {a c p n v : ℕ}

theorem refl (S W : Set ℕ) (m : ByteStore) : Relinks S W m m :=
  ⟨.refl W m, fun _ _ => rfl, fun _ _ h => h, fun _ _ h => h⟩

theorem trans (h : Relinks S W m m') (h' : Relinks S W m' m'') : Relinks S W m m'' where
  writes := h.writes.trans h'.writes
  block := fun a ha => (h'.block a ha).trans (h.block a ha)
  crc := fun a ha hc => h'.crc a ha (h.crc a ha hc)
  marked := fun a ha hm => h'.marked a ha (h.marked a ha hm)

theorem mono (hW : W ⊆ W') (h : Relinks S W m m') : Relinks S W' m m' :=
  ⟨h.writes.mono hW, h.block, h.crc, h.marked⟩

theorem holds (h : Relinks S W m m') {b : Block} (hb : b.addr ∈ S) (hm : Holds m b) :
    Holds m' b :=
  ⟨(h.block b.addr hb).trans hm.block, h.crc b.addr hb hm.crc⟩

/-- Rewriting the links of one block. -/
theorem relinkBlock (hS : Spaced S) (ha : a ∈ S) (hp : p < 2 ^ 64) (hn : n < 2 ^ 64) :
    Relinks S {a} m (relinkBlock m a p n) where
  writes := writesOnly_relinkBlock
  block := fun c hc => by
    unfold blockAt
    rw [hS.blockHead_relinkBlock ha hc hp hn]
    split
    · next h => rw [h]
    · rfl
  crc := fun c hc h => by
    rw [hS.blockHead_relinkBlock ha hc hp hn]
    split
    · rfl
    · exact h
  marked := fun c hc h => by
    unfold MarkedFree
    rw [hS.blockHead_relinkBlock ha hc hp hn]
    split
    · rfl
    · exact h

end Relinks

/-- **No mark is lost**: what is marked free at a place of `S` stays so. -/
def KeepsMarks (S : Set ℕ) (m m' : ByteStore) : Prop := ∀ a ∈ S, MarkedFree m a → MarkedFree m' a

namespace KeepsMarks

variable {S : Set ℕ} {m m' m'' : ByteStore} {a p n l f : ℕ}

theorem trans (h : KeepsMarks S m m') (h' : KeepsMarks S m' m'') : KeepsMarks S m m'' :=
  fun a ha hm => h' a ha (h a ha hm)

/-- Initializing a free block marks it, and keeps the marks of the others. -/
theorem initFreeBlock (hS : Spaced S) (ha : a ∈ S) (hp : p < 2 ^ 64) (hn : n < 2 ^ 64)
    (hl : l < 2 ^ 64) (hf : f < 2 ^ 32) :
    MarkedFree (initFreeBlock m a p n l f) a ∧ KeepsMarks S m (initFreeBlock m a p n l f) := by
  have heq := fun c hc => hS.blockHead_initFreeBlock (m := m) (b := c) ha hc hp hn hl hf
  refine ⟨?_, fun c hc hm => ?_⟩
  · unfold MarkedFree
    rw [heq a ha, if_pos rfl]
  · unfold MarkedFree
    rw [heq c hc]
    split
    · rfl
    · exact hm

end KeepsMarks

section Links

variable {S : Set ℕ} {m : ByteStore} {a c p n : ℕ}

theorem prevLink_relinkBlock (hS : Spaced S) (ha : a ∈ S) (hc : c ∈ S) (hp : p < 2 ^ 64)
    (hn : n < 2 ^ 64) :
    prevLink (relinkBlock m a p n) c = if c = a then p else prevLink m c := by
  unfold prevLink
  rw [hS.blockHead_relinkBlock ha hc hp hn]
  split <;> rfl

theorem nextLink_relinkBlock (hS : Spaced S) (ha : a ∈ S) (hc : c ∈ S) (hp : p < 2 ^ 64)
    (hn : n < 2 ^ 64) :
    nextLink (relinkBlock m a p n) c = if c = a then n else nextLink m c := by
  unfold nextLink
  rw [hS.blockHead_relinkBlock ha hc hp hn]
  split <;> rfl

/-- Rewriting the link back only. -/
theorem nextLink_relinkPrev (hS : Spaced S) (ha : a ∈ S) (hc : c ∈ S) (hp : p < 2 ^ 64) :
    nextLink (relinkBlock m a p (nextLink m a)) c = nextLink m c := by
  rw [nextLink_relinkBlock hS ha hc hp (nextLink_lt m a)]
  split
  · next h => rw [h]
  · rfl

/-- Rewriting the link forward only. -/
theorem prevLink_relinkNext (hS : Spaced S) (ha : a ∈ S) (hc : c ∈ S) (hn : n < 2 ^ 64) :
    prevLink (relinkBlock m a (prevLink m a) n) c = prevLink m c := by
  rw [prevLink_relinkBlock hS ha hc (prevLink_lt m a) hn]
  split
  · next h => rw [h]
  · rfl

end Links

/-! ## Lists in memory and lists of blocks -/

section Lists

variable {R : List Block} {F : ℕ → List Block} {u l₁ l₂ : List Block} {b c : Block}
variable {s s' : Buddy} {W : Set ℕ} {j k : ℕ}

/-- A list that none of the changed links belongs to. -/
theorem Represents.linked_of_eq (h : Represents s F) (hlist : s'.head.list j = s.head.list j)
    (hp : ∀ c ∈ F j, prevLink s'.mem c.addr = prevLink s.mem c.addr)
    (hn : ∀ c ∈ F j, nextLink s'.mem c.addr = nextLink s.mem c.addr) :
    Linked (prevLink s'.mem) (nextLink s'.mem) 0 (s'.head.list j) ((F j).map Block.addr) 0 := by
  rw [hlist]
  exact (h.linked j).congr (List.forall_mem_map.mpr hp) (List.forall_mem_map.mpr hn)

/-- The free blocks are represented as long as their headers and the lists
are left alone. -/
theorem Represents.frame (h : Represents s F) (hlist : ∀ j, s'.head.list j = s.head.list j)
    (hhead : ∀ j, ∀ c ∈ F j, blockHead s'.mem c.addr = blockHead s.mem c.addr) :
    Represents s' F where
  linked := fun j => h.linked_of_eq (hlist j)
    (fun c hc => congrArg BlockHead.previous (hhead j c hc))
    (fun c hc => congrArg BlockHead.next (hhead j c hc))
  holds := fun j c hc => (h.holds j c hc).congr (hhead j c hc)
  marked := fun j c hc => (congrArg BlockHead.isFree (hhead j c hc)).trans (h.marked j c hc)

/-- **Replacing a list** by one that is linked and held in memory. -/
theorem Represents.update {l : List Block} (h : Represents s F)
    (hlist : ∀ j, j ≠ k → s'.head.list j = s.head.list j)
    (hhead : ∀ j, j ≠ k → ∀ c ∈ F j, blockHead s'.mem c.addr = blockHead s.mem c.addr)
    (hl : Linked (prevLink s'.mem) (nextLink s'.mem) 0 (s'.head.list k) (l.map Block.addr) 0)
    (hh : ∀ c ∈ l, Holds s'.mem c ∧ MarkedFree s'.mem c.addr) :
    Represents s' (Function.update F k l) := by
  refine ⟨fun j => ?_, fun j c hc => ?_, fun j c hc => ?_⟩ <;> by_cases hj : j = k
  · rw [hj, Function.update_self]
    exact hl
  · rw [Function.update_of_ne hj]
    exact h.linked_of_eq (hlist j hj) (fun c hc => congrArg BlockHead.previous (hhead j hj c hc))
      (fun c hc => congrArg BlockHead.next (hhead j hj c hc))
  · rw [hj, Function.update_self] at hc
    exact (hh c hc).1
  · rw [Function.update_of_ne hj] at hc
    exact (h.holds j c hc).congr (hhead j hj c hc)
  · rw [hj, Function.update_self] at hc
    exact (hh c hc).2
  · rw [Function.update_of_ne hj] at hc
    exact (congrArg BlockHead.isFree (hhead j hj c hc)).trans (h.marked j c hc)

/-- **Putting a block on a list.** The memory changes only by relinking:
the block is linked to its neighbours, the neighbours to the block. -/
theorem Represents.link (hA : (Pool.mk F (b :: u)).Inv R) (hR : Regions R)
    (h : Represents s F) (hF : F b.level = l₁ ++ l₂)
    (hrel : Relinks (places R) W s.mem s'.mem) (hb : Holds s.mem b)
    (hfree : MarkedFree s'.mem b.addr)
    (hlist : ∀ j, s'.head.list j
      = if j = b.level ∧ l₁ = [] then b.addr else s.head.list j)
    (hpb : prevLink s'.mem b.addr = (l₁.map Block.addr).getLastD 0)
    (hnb : nextLink s'.mem b.addr = (l₂.map Block.addr).headD 0)
    (hp : ∀ k, ∀ c ∈ F k, prevLink s'.mem c.addr
      = if (l₂.map Block.addr).head? = some c.addr then b.addr else prevLink s.mem c.addr)
    (hn : ∀ k, ∀ c ∈ F k, nextLink s'.mem c.addr
      = if (l₁.map Block.addr).getLast? = some c.addr then b.addr else nextLink s.mem c.addr) :
    Represents s' (Function.update F b.level (l₁ ++ b :: l₂)) := by
  have hmem : ∀ {k c}, c ∈ F k → c.addr ∈ places R := fun hc =>
    hA.place hR (hA.mem_of_free hc)
  have hin : ∀ {k c}, c ∈ Function.update F b.level (l₁ ++ b :: l₂) k →
      c = b ∨ ∃ j, c ∈ F j := by
    intro k c hc
    by_cases hk : k = b.level
    · rw [hk, Function.update_self] at hc
      rcases List.mem_cons.mp (List.perm_middle.mem_iff.mp hc) with hc | hc
      · exact Or.inl hc
      · exact Or.inr ⟨b.level, hF ▸ hc⟩
    · rw [Function.update_of_ne hk] at hc
      exact Or.inr ⟨k, hc⟩
  refine ⟨fun k => ?_, fun k c hc => ?_, fun k c hc => ?_⟩
  · by_cases hk : k = b.level
    · subst hk
      have hlinked := h.linked b.level
      have hnodup := hA.nodup b.level
      have hmap : (Pool.mk F (b :: u)).free b.level = l₁ ++ l₂ := hF
      rw [hF, List.map_append] at hlinked
      rw [hmap, List.map_append] at hnodup
      have hall : ∀ a ∈ l₁.map Block.addr ++ l₂.map Block.addr, ∃ c ∈ F b.level, c.addr = a := by
        intro a ha
        rw [← List.map_append, ← hF] at ha
        exact List.mem_map.mp ha
      rw [Function.update_self, List.map_append, List.map_cons, hlist]
      have hins := Linked.insert hnodup hlinked hpb hnb
        (fun a ha => by
          obtain ⟨c, hc, rfl⟩ := hall a ha
          exact hp b.level c hc)
        (fun a ha => by
          obtain ⟨c, hc, rfl⟩ := hall a ha
          exact hn b.level c hc)
      simpa only [true_and, List.map_eq_nil_iff] using hins
    · have hother : ∀ c ∈ F k, ∀ d ∈ F b.level, d.addr ≠ c.addr := fun c hc d hd he =>
        hk (hA.level_of_addr hR hc hd he.symm)
      rw [Function.update_of_ne hk]
      refine h.linked_of_eq ?_ (fun c hc => ?_) (fun c hc => ?_)
      · rw [hlist, if_neg (fun he => hk he.1)]
      · rw [hp k c hc, if_neg]
        intro he
        obtain ⟨d, hd, hda⟩ := List.mem_map.mp (List.mem_of_head? he)
        exact hother c hc d (hF ▸ List.mem_append_right l₁ hd) hda
      · rw [hn k c hc, if_neg]
        intro he
        obtain ⟨d, hd, hda⟩ := List.mem_map.mp (List.mem_of_getLast? he)
        exact hother c hc d (hF ▸ List.mem_append_left l₂ hd) hda
  · rcases hin hc with rfl | ⟨j, hj⟩
    · exact hrel.holds (hA.place hR (Pool.mem_of_used List.mem_cons_self)) hb
    · exact hrel.holds (hmem hj) (h.holds j c hj)
  · rcases hin hc with rfl | ⟨j, hj⟩
    · exact hfree
    · exact hrel.marked c.addr (hmem hj) (h.marked j c hj)

/-- **Taking a block off a list.** Its neighbours are linked to each
other; the block itself may be changed in any way. -/
theorem Represents.unlink (hA : (Pool.mk F u).Inv R) (hR : Regions R)
    (h : Represents s F) (hF : F k = l₁ ++ b :: l₂)
    (hlist : ∀ j, s'.head.list j
      = if j = k ∧ l₁ = [] then nextLink s.mem b.addr else s.head.list j)
    (hkeep : ∀ j, ∀ c ∈ F j, c ≠ b → Holds s'.mem c ∧ MarkedFree s'.mem c.addr)
    (hp : ∀ j, ∀ c ∈ F j, c ≠ b → prevLink s'.mem c.addr
      = if (l₂.map Block.addr).head? = some c.addr then prevLink s.mem b.addr
        else prevLink s.mem c.addr)
    (hn : ∀ j, ∀ c ∈ F j, c ≠ b → nextLink s'.mem c.addr
      = if (l₁.map Block.addr).getLast? = some c.addr then nextLink s.mem b.addr
        else nextLink s.mem c.addr) :
    Represents s' (Function.update F k (l₁ ++ l₂)) := by
  have hbk : b ∈ F k := by
    rw [hF]
    exact List.mem_append_right l₁ List.mem_cons_self
  have hnodup := hA.nodup k
  rw [show (Pool.mk F u).free k = l₁ ++ b :: l₂ from hF, List.map_append, List.map_cons,
    List.nodup_middle, List.nodup_cons] at hnodup
  have hsub : ∀ c ∈ l₁ ++ l₂, c ∈ F k ∧ c ≠ b := by
    intro c hc
    refine ⟨hF ▸ List.perm_middle.mem_iff.mpr (List.mem_cons_of_mem b hc), ?_⟩
    rintro rfl
    rw [← List.map_append] at hnodup
    exact hnodup.1 (List.mem_map_of_mem hc)
  have hin : ∀ {j c}, c ∈ Function.update F k (l₁ ++ l₂) j → c ∈ F j ∧ c ≠ b := by
    intro j c hc
    by_cases hj : j = k
    · rw [hj, Function.update_self] at hc
      rw [hj]
      exact hsub c hc
    · rw [Function.update_of_ne hj] at hc
      refine ⟨hc, ?_⟩
      rintro rfl
      exact hj (hA.level_of_addr hR hc hbk rfl)
  refine ⟨fun j => ?_, fun j c hc => (hkeep j c (hin hc).1 (hin hc).2).1,
    fun j c hc => (hkeep j c (hin hc).1 (hin hc).2).2⟩
  by_cases hj : j = k
  · subst hj
    have hlinked := h.linked j
    rw [hF, List.map_append, List.map_cons] at hlinked
    have hall : ∀ a ∈ l₁.map Block.addr ++ l₂.map Block.addr,
        ∃ c, (c ∈ F j ∧ c ≠ b) ∧ c.addr = a := by
      intro a ha
      rw [← List.map_append] at ha
      obtain ⟨c, hc, rfl⟩ := List.mem_map.mp ha
      exact ⟨c, hsub c hc, rfl⟩
    rw [Function.update_self, List.map_append, hlist]
    have hrem := Linked.remove hnodup.2 hlinked
      (fun a ha => by
        obtain ⟨c, hc, rfl⟩ := hall a ha
        exact hp j c hc.1 hc.2)
      (fun a ha => by
        obtain ⟨c, hc, rfl⟩ := hall a ha
        exact hn j c hc.1 hc.2)
    simpa only [true_and, List.map_eq_nil_iff] using hrem
  · have hother : ∀ c ∈ F j, ∀ d ∈ F k, d.addr ≠ c.addr := fun c hc d hd he =>
      hj (hA.level_of_addr hR hc hd he.symm)
    have hne : ∀ c ∈ F j, c ≠ b := fun c hc he => hother c hc b hbk (congrArg Block.addr he.symm)
    rw [Function.update_of_ne hj]
    refine h.linked_of_eq ?_ (fun c hc => ?_) (fun c hc => ?_)
    · rw [hlist, if_neg (fun he => hj he.1)]
    · rw [hp j c hc (hne c hc), if_neg]
      intro he
      obtain ⟨d, hd, hda⟩ := List.mem_map.mp (List.mem_of_head? he)
      exact hother c hc d (hsub d (List.mem_append_right l₁ hd)).1 hda
    · rw [hn j c hc (hne c hc), if_neg]
      intro he
      obtain ⟨d, hd, hda⟩ := List.mem_map.mp (List.mem_of_getLast? he)
      exact hother c hc d (hsub d (List.mem_append_left l₂ hd)).1 hda

end Lists

/-! ## The writers of links -/

section Writers

variable {S : Set ℕ} {m : ByteStore} {a c p n l : ℕ}

/-- Rewriting the link forward of a block, unless it is `NULL`. -/
theorem relinkNext_spec (hS : Spaced S) (hp : p ≠ 0 → p ∈ S) (hn : n < 2 ^ 64) {m' : ByteStore}
    (hm' : m' = if p ≠ 0 then relinkBlock m p (prevLink m p) n else m) :
    Relinks S (S ∩ {p}) m m'
      ∧ (∀ c ∈ S, prevLink m' c = prevLink m c)
      ∧ (∀ c ∈ S, nextLink m' c = if c = p then n else nextLink m c) := by
  subst hm'
  split
  · next h =>
    have hpS := hp h
    refine ⟨(Relinks.relinkBlock hS hpS (prevLink_lt m p) hn).mono ?_,
      fun c hc => prevLink_relinkNext hS hpS hc hn,
      fun c hc => nextLink_relinkBlock hS hpS hc (prevLink_lt m p) hn⟩
    exact Set.subset_inter (Set.singleton_subset_iff.mpr hpS) le_rfl
  · next h =>
    refine ⟨.refl S _ m, fun _ _ => rfl, fun c hc => (if_neg ?_).symm⟩
    rintro rfl
    exact h (hS.ne_zero hc)

/-- Rewriting the link back of a block, unless it is `NULL`. -/
theorem relinkPrev_spec (hS : Spaced S) (hn : n ≠ 0 → n ∈ S) (hp : p < 2 ^ 64) {m' : ByteStore}
    (hm' : m' = if n ≠ 0 then relinkBlock m n p (nextLink m n) else m) :
    Relinks S (S ∩ {n}) m m'
      ∧ (∀ c ∈ S, prevLink m' c = if c = n then p else prevLink m c)
      ∧ (∀ c ∈ S, nextLink m' c = nextLink m c) := by
  subst hm'
  split
  · next h =>
    have hnS := hn h
    refine ⟨(Relinks.relinkBlock hS hnS hp (nextLink_lt m n)).mono ?_,
      fun c hc => prevLink_relinkBlock hS hnS hc hp (nextLink_lt m n),
      fun c hc => nextLink_relinkPrev hS hnS hc hp⟩
    exact Set.subset_inter (Set.singleton_subset_iff.mpr hnS) le_rfl
  · next h =>
    refine ⟨.refl S _ m, fun c hc => (if_neg ?_).symm, fun _ _ => rfl⟩
    rintro rfl
    exact h (hS.ne_zero hc)

/-- **What `buddyRemoveBlock` writes**: the neighbours of the block are
linked to each other. -/
theorem buddyRemoveBlock_spec (hS : Spaced S) (hp : prevLink m a ≠ 0 → prevLink m a ∈ S)
    (hn : nextLink m a ≠ 0 → nextLink m a ∈ S) :
    (buddyRemoveBlock m l a).1 = (if a = l then nextLink m a else l)
      ∧ Relinks S (S ∩ {prevLink m a, nextLink m a}) m (buddyRemoveBlock m l a).2
      ∧ (∀ c ∈ S, prevLink (buddyRemoveBlock m l a).2 c
          = if c = nextLink m a then prevLink m a else prevLink m c)
      ∧ (∀ c ∈ S, nextLink (buddyRemoveBlock m l a).2 c
          = if c = prevLink m a then nextLink m a else nextLink m c) := by
  obtain ⟨m₁, hm₁⟩ : ∃ m₁, m₁ = if prevLink m a ≠ 0 then
      relinkBlock m (prevLink m a) (prevLink m (prevLink m a)) (nextLink m a) else m := ⟨_, rfl⟩
  have hm₂ : (buddyRemoveBlock m l a).2 = if nextLink m a ≠ 0 then
      relinkBlock m₁ (nextLink m a) (prevLink m a) (nextLink m₁ (nextLink m a)) else m₁ := by
    rw [hm₁]
    rfl
  obtain ⟨hrel, hprev, hnext⟩ := relinkNext_spec hS hp (nextLink_lt m a) hm₁
  obtain ⟨hrel', hprev', hnext'⟩ := relinkPrev_spec hS hn (prevLink_lt m a) hm₂
  refine ⟨rfl, ?_, fun c hc => ?_, fun c hc => (hnext' c hc).trans (hnext c hc)⟩
  · refine (hrel.mono ?_).trans (hrel'.mono ?_)
    · exact Set.inter_subset_inter_right S (Set.singleton_subset_iff.mpr (Or.inl rfl))
    · exact Set.inter_subset_inter_right S (Set.singleton_subset_iff.mpr (Or.inr rfl))
  · rw [hprev' c hc, hprev c hc]

end Writers

/-! ## What the links of a free block name -/

/-- The addresses of the free blocks. -/
def freeAddrs (F : ℕ → List Block) : Set ℕ := {a | ∃ k, ∃ c ∈ F k, c.addr = a}

section Positions

variable {α : Type*} {l : List ℕ} {a : ℕ}

/-- A cell other than `NULL` is the first if the walk starts there. -/
theorem head?_eq_some_iff (ha : a ≠ 0) : l.head? = some a ↔ a = l.headD 0 := by
  cases l with
  | nil => exact ⟨fun h => (by cases h), fun h => absurd h ha⟩
  | cons b l => exact ⟨fun h => (Option.some.inj h).symm, fun h => congrArg some h.symm⟩

theorem getLast?_eq_some_iff (ha : a ≠ 0) : l.getLast? = some a ↔ a = l.getLastD 0 := by
  rw [List.getLastD_eq_getLast?]
  cases l.getLast? with
  | none => exact ⟨fun h => (by cases h), fun h => absurd h ha⟩
  | some b => exact ⟨fun h => (Option.some.inj h).symm, fun h => congrArg some h.symm⟩

theorem headD_mem (h : l.headD 0 ≠ 0) : l.headD 0 ∈ l := by
  cases l with
  | nil => exact absurd rfl h
  | cons b l => exact List.mem_cons_self

theorem getLastD_mem (h : l.getLastD 0 ≠ 0) : l.getLastD 0 ∈ l :=
  List.mem_of_getLast? ((getLast?_eq_some_iff h).mpr rfl)

end Positions

section Represented

variable {R : List Block} {F : ℕ → List Block} {u l₁ l₂ : List Block} {b c d : Block}
variable {s : Buddy} {k : ℕ}

theorem Represents.list_eq (h : Represents s F) (k : ℕ) :
    s.head.list k = ((F k).map Block.addr).headD 0 := (h.linked k).first_eq

theorem Represents.prev_eq (h : Represents s F) (hF : F k = l₁ ++ c :: l₂) :
    prevLink s.mem c.addr = (l₁.map Block.addr).getLastD 0 := by
  have hl := h.linked k
  rw [hF, List.map_append, List.map_cons] at hl
  exact hl.prev_of_append

theorem Represents.next_eq (h : Represents s F) (hF : F k = l₁ ++ c :: l₂) :
    nextLink s.mem c.addr = (l₂.map Block.addr).headD 0 := by
  have hl := h.linked k
  rw [hF, List.map_append, List.map_cons] at hl
  exact hl.next_of_append

/-- The free blocks have their headers at page starts. -/
theorem Pool.Inv.freeAddrs_subset (hA : (Pool.mk F u).Inv R) (hR : Regions R) :
    freeAddrs F ⊆ places R := by
  rintro a ⟨k, c, hc, rfl⟩
  exact hA.place hR (hA.mem_of_free (A := ⟨F, u⟩) hc)

/-- A link of a free block that is not `NULL` names a free block. -/
theorem Represents.prev_mem (h : Represents s F) (hF : F k = l₁ ++ c :: l₂)
    (hne : prevLink s.mem c.addr ≠ 0) : prevLink s.mem c.addr ∈ freeAddrs F := by
  rw [h.prev_eq hF] at hne ⊢
  obtain ⟨d, hd, hda⟩ := List.mem_map.mp (getLastD_mem hne)
  exact ⟨k, d, hF ▸ List.mem_append_left _ hd, hda⟩

theorem Represents.next_mem (h : Represents s F) (hF : F k = l₁ ++ c :: l₂)
    (hne : nextLink s.mem c.addr ≠ 0) : nextLink s.mem c.addr ∈ freeAddrs F := by
  rw [h.next_eq hF] at hne ⊢
  obtain ⟨d, hd, hda⟩ := List.mem_map.mp (headD_mem hne)
  exact ⟨k, d, hF ▸ List.mem_append_right _ (List.mem_cons_of_mem c hd), hda⟩

/-- The array of lists, where a list changes at its front. -/
theorem list_setList_front {h : BuddyHead} {a j : ℕ} {p : Prop} [Decidable p]
    (hk : k < maxBlockNum) (hp : ¬ p → a = h.list k) :
    (h.setList k a).list j = if j = k ∧ p then a else h.list j := by
  rw [BuddyHead.list_setList]
  by_cases hj : j = k
  · subst hj
    by_cases hpp : p
    · rw [if_pos ⟨rfl, hk⟩, if_pos ⟨rfl, hpp⟩]
    · rw [if_pos ⟨rfl, hk⟩, if_neg (fun h => hpp h.2), hp hpp]
  · rw [if_neg (fun h => hj h.1), if_neg (fun h => hj h.1)]

/-- A walk is not longer than there are addresses. -/
theorem Pool.Inv.length_lt (hA : (Pool.mk F u).Inv R) (hR : Regions R) (k : ℕ) :
    (F k).length < addressCount := by
  have hsub : ((F k).map Block.addr).toFinset ⊆ (Finset.range addressCount).erase 0 := by
    intro a ha
    obtain ⟨c, hc, rfl⟩ := List.mem_map.mp (List.mem_toFinset.mp ha)
    have hplace := hA.place hR (hA.mem_of_free (A := ⟨F, u⟩) hc)
    exact Finset.mem_erase.mpr
      ⟨hR.spaced.ne_zero hplace, Finset.mem_range.mpr (hR.spaced.lt _ hplace)⟩
  have hle := Finset.card_le_card hsub
  rw [List.toFinset_card_of_nodup (hA.nodup k), List.length_map,
    Finset.card_erase_of_mem (Finset.mem_range.mpr (by decide)), Finset.card_range] at hle
  have hpos : 0 < addressCount := by decide
  exact lt_of_le_of_lt hle (Nat.sub_lt hpos Nat.one_pos)

/-- A list starts with a block exactly if nothing is before it. -/
theorem Represents.first_iff (hA : (Pool.mk F u).Inv R) (h : Represents s F)
    (hF : F k = l₁ ++ c :: l₂) : c.addr = s.head.list k ↔ l₁ = [] := by
  have hlist := h.list_eq k
  have hsorted := hA.sorted k
  rw [hF] at hlist
  rw [show (Pool.mk F u).free k = l₁ ++ c :: l₂ from hF] at hsorted
  cases l₁ with
  | nil => exact ⟨fun _ => rfl, fun _ => hlist.symm⟩
  | cons e l₁ =>
    have hlt := (List.pairwise_cons.mp hsorted).1 c (List.mem_append_right l₁ List.mem_cons_self)
    refine ⟨fun heq => ?_, fun heq => by cases heq⟩
    have he : c.addr = e.addr := heq.trans hlist
    omega

/-- A list is empty in memory exactly if no block is on it. -/
theorem Represents.list_eq_zero_iff {A : Pool} (hA : A.Inv R) (hR : Regions R)
    (h : Represents s A.free) (k : ℕ) : s.head.list k = 0 ↔ A.free k = [] := by
  rw [h.list_eq]
  cases hF : A.free k with
  | nil => exact ⟨fun _ => rfl, fun _ => rfl⟩
  | cons b l =>
    have hb : b ∈ A.free k := hF ▸ List.mem_cons_self
    have hne : b.addr ≠ 0 := hR.spaced.ne_zero (hA.place hR (hA.mem_of_free hb))
    exact ⟨fun h0 => absurd h0 hne, fun hnil => by cases hnil⟩

/-- A free block is the first of its list exactly if it has no link back. -/
theorem Represents.prev_eq_zero_iff (hA : (Pool.mk F u).Inv R) (hR : Regions R)
    (h : Represents s F) (hF : F k = l₁ ++ c :: l₂) :
    prevLink s.mem c.addr = 0 ↔ l₁ = [] := by
  rw [h.prev_eq hF]
  rcases List.eq_nil_or_concat l₁ with rfl | ⟨l, e, rfl⟩
  · exact ⟨fun _ => rfl, fun _ => rfl⟩
  · have he : e ∈ F k := by
      rw [hF, List.concat_eq_append]
      exact List.mem_append_left _ (List.mem_append_right l List.mem_cons_self)
    have hne := hR.spaced.ne_zero (hA.place hR (hA.mem_of_free (A := ⟨F, u⟩) he))
    rw [List.concat_eq_append, List.map_append, List.map_singleton, List.getLastD_concat]
    exact ⟨fun h0 => absurd h0 hne, fun hnil => absurd hnil (List.append_ne_nil_of_right_ne_nil l
      (List.cons_ne_nil e []))⟩

end Represented
