import CoinData.BuddyAllocate
import CoinData.Runs

/-!
# The buddy system in operation

Regions are attached, memory is allocated and released, and callers write
to the memory they were given, in any order. `buddySystem` is the
transition system of these calls. Its states are memories, so its
invariant says that a pool over the attached regions is represented there
(`BuddyState.Inv`); each call keeps it, returns, and writes only where it
may. That blocks tile the regions, and what a call leaves alone, are then
read off.
-/

/-- **A buddy system in operation**: its memory, the regions attached to it
(where they start, and their sizes) and the allocations that are live (the
address returned, and the size asked for). -/
structure BuddyState where
  buddy : Buddy
  regions : List (ℕ × ℕ)
  live : List (ℕ × ℕ)

/-- What is done with a buddy system. -/
inductive BuddyCall where
  /-- A process attaches a region. -/
  | attach (addr size pid : ℕ)
  /-- Memory is allocated. -/
  | malloc (size : ℕ)
  /-- An allocation is released. -/
  | free (addr : ℕ)
  /-- A caller writes a byte to its memory. -/
  | write (addr : ℕ) (byte : UInt8)
deriving DecidableEq, Repr

namespace BuddyState

/-- **What callers respect**: regions are attached in the order of their
addresses, are no smaller than a page and representable; requests are not
beyond all levels; only live allocations are released, and written to. -/
def Admits (σ : BuddyState) : BuddyCall → Prop
  | .attach addr size _ => 0 < addr ∧ pageSize ≤ size ∧ size < 2 ^ 42 ∧ addr + size ≤ 2 ^ 64
      ∧ ∀ r ∈ σ.regions, r.1 + r.2 ≤ addr
  | .malloc size => size + buddyCalculateBlockHeadSize ≤ 2 ^ 42
  | .free addr => ∃ e ∈ σ.live, e.1 = addr
  | .write addr _ => ∃ e ∈ σ.live, e.1 ≤ addr ∧ addr < e.1 + e.2

/-- Perform a call. -/
def run (σ : BuddyState) : BuddyCall → Except Fault BuddyState
  | .attach addr size pid => do
    let (_, s) ← buddyAttchMemory σ.buddy addr size pid
    .ok ⟨s, (addr, size) :: σ.regions, σ.live⟩
  | .malloc size => do
    let (p, s) ← buddyMalloc σ.buddy size
    .ok ⟨s, σ.regions, if p = 0 then σ.live else (p, size) :: σ.live⟩
  | .free addr => do
    let s ← buddyFree σ.buddy addr
    .ok ⟨s, σ.regions, σ.live.filter (fun e => e.1 ≠ addr)⟩
  | .write addr byte =>
    .ok { σ with buddy := { σ.buddy with mem := Function.update σ.buddy.mem addr byte } }

instance (σ : BuddyState) : (c : BuddyCall) → Decidable (σ.Admits c)
  | .attach addr size _ => inferInstanceAs (Decidable (0 < addr ∧ pageSize ≤ size
      ∧ size < 2 ^ 42 ∧ addr + size ≤ 2 ^ 64 ∧ ∀ r ∈ σ.regions, r.1 + r.2 ≤ addr))
  | .malloc size => inferInstanceAs (Decidable (size + buddyCalculateBlockHeadSize ≤ 2 ^ 42))
  | .free addr => inferInstanceAs (Decidable (∃ e ∈ σ.live, e.1 = addr))
  | .write addr _ => inferInstanceAs (Decidable (∃ e ∈ σ.live, e.1 ≤ addr ∧ addr < e.1 + e.2))

/-- Perform calls one after the other, as long as each is admitted and
returns. -/
def exec (σ : BuddyState) : List BuddyCall → Option BuddyState
  | [] => some σ
  | c :: cs =>
    if σ.Admits c then
      match σ.run c with
      | .ok σ' => exec σ' cs
      | .error _ => none
    else none

/-! What a state says about blocks is read from its memory. -/

/-- Following the list of level `k` visits the block at `c`. -/
def OnList (σ : BuddyState) (k c : ℕ) : Prop :=
  Reaches (nextLink σ.buddy.mem) 0 (σ.buddy.head.list k) c

/-- The block at `c` is allocated. -/
def IsLive (σ : BuddyState) (c : ℕ) : Prop :=
  ∃ e ∈ σ.live, e.1 = c + buddyCalculateBlockHeadSize

/-- There is a block at `c`, free or allocated. -/
def IsBlock (σ : BuddyState) (c : ℕ) : Prop := (∃ k, σ.OnList k c) ∨ σ.IsLive c

/-- The level in the header at `c`. -/
def level (σ : BuddyState) (c : ℕ) : ℕ := (blockHead σ.buddy.mem c).level

/-- The end of the block at `c`, which spans `2 ^ level` pages. -/
def stop (σ : BuddyState) (c : ℕ) : ℕ := c + 2 ^ σ.level c * pageSize

/-- The end of the part of a region that is managed: the largest block that
fits into it. -/
def managedStop (r : ℕ × ℕ) : ℕ := r.1 + 2 ^ calculateBlockLevel r.2 * pageSize

end BuddyState

/-- **The buddy system**, from a freshly initialized head over a segment of
`size` bytes. -/
def buddySystem (size : ℕ) : TransitionSystem BuddyState BuddyCall where
  init σ := σ.buddy.head = buddyInitSystem size ∧ σ.regions = [] ∧ σ.live = []
  step σ c σ' := σ.Admits c ∧ σ.run c = .ok σ'

/-- A fresh system over an empty memory. -/
def BuddyState.fresh : BuddyState := ⟨⟨buddyInitSystem 0, fun _ => 0⟩, [], []⟩

theorem BuddyState.exec_cons {σ σ' : BuddyState} {c : BuddyCall} {cs : List BuddyCall} :
    σ.exec (c :: cs) = some σ' ↔ σ.Admits c ∧ ∃ σ₁, σ.run c = .ok σ₁ ∧ σ₁.exec cs = some σ' := by
  rw [BuddyState.exec]
  split
  · next hadm =>
    split
    · next σ₁ hrun =>
      exact ⟨fun h => ⟨hadm, σ₁, hrun, h⟩, fun ⟨_, σ₂, hrun', h⟩ => by
        rw [hrun] at hrun'
        rw [Except.ok.inj hrun']
        exact h⟩
    · next f hrun =>
      refine ⟨fun h => (by cases h), fun ⟨_, σ₂, hrun', _⟩ => ?_⟩
      rw [hrun] at hrun'
      cases hrun'
  · next hadm => exact ⟨fun h => (by cases h), fun h => absurd h.1 hadm⟩

theorem BuddyState.run_of_exec {n : ℕ} {σ σ' : BuddyState} {cs : List BuddyCall}
    {tr : List (BuddyState × BuddyCall)} (hr : (buddySystem n).Run tr σ)
    (he : σ.exec cs = some σ') : ∃ tr', (buddySystem n).Run tr' σ' := by
  induction cs generalizing σ tr with
  | nil => exact ⟨tr, Option.some.inj he ▸ hr⟩
  | cons c cs ih =>
    obtain ⟨hadm, σ₁, hrun, he'⟩ := BuddyState.exec_cons.mp he
    exact ih (.snoc hr ⟨hadm, hrun⟩) he'

/-! ## The invariant -/

/-- **The state represents a pool** `A` over the regions `R`, the latest of
them first. -/
structure BuddyState.Inv (σ : BuddyState) (R : List Block) (A : Pool) : Prop where
  regions : Regions R
  pool : A.Inv R
  free : Represents σ.buddy A.free
  held : ∀ b ∈ A.used, Holds σ.buddy.mem b
  busy : ∀ b ∈ A.used, (blockHead σ.buddy.mem b.addr).isFree = 0
  live_iff : ∀ c, σ.IsLive c ↔ ∃ b ∈ A.used, b.addr = c
  live_nodup : (σ.live.map Prod.fst).Nodup
  payload : ∀ e ∈ σ.live, ∃ b ∈ A.used,
    e.1 = b.addr + buddyCalculateBlockHeadSize ∧ e.1 + e.2 ≤ b.stop
  attached : σ.regions.map (fun r => (r.1, calculateBlockLevel r.2))
    = R.map (fun r => (r.addr, r.level))
  fits : ∀ r ∈ σ.regions, BuddyState.managedStop r ≤ r.1 + r.2
  memoryIdx : σ.buddy.head.memoryIdx = R.length
  idx_le : ∀ r ∈ R, r.memoryIdx ≤ R.length
  room : ∀ top, (∀ r ∈ σ.regions, r.1 + r.2 ≤ top) → R.length * pageSize ≤ top

namespace BuddyState.Inv

variable {σ : BuddyState} {R : List Block} {A : Pool} {b c : Block} {k x size : ℕ}

/-- A list in memory visits the free blocks of its level. -/
theorem onList_iff (h : σ.Inv R A) : σ.OnList k x ↔ ∃ b ∈ A.free k, b.addr = x := by
  have hnull : 0 ∉ (A.free k).map Block.addr := fun h0 => by
    obtain ⟨b, hb, hb0⟩ := List.mem_map.mp h0
    exact h.regions.spaced.ne_zero (h.pool.place h.regions (h.pool.mem_of_free hb)) hb0
  unfold BuddyState.OnList
  rw [(h.free.linked k).reaches_iff hnull, List.mem_map]

/-- The blocks of the state are those of the pool. -/
theorem isBlock_iff (h : σ.Inv R A) : σ.IsBlock x ↔ ∃ b ∈ A.blocks, b.addr = x := by
  unfold BuddyState.IsBlock
  rw [h.live_iff]
  constructor
  · rintro (⟨k, hk⟩ | ⟨b, hb, rfl⟩)
    · obtain ⟨b, hb, rfl⟩ := h.onList_iff.mp hk
      exact ⟨b, h.pool.mem_of_free hb, rfl⟩
    · exact ⟨b, Pool.mem_of_used hb, rfl⟩
  · rintro ⟨b, hb, rfl⟩
    rcases h.pool.mem_blocks.mp hb with ⟨k, hk⟩ | hb
    · exact Or.inl ⟨k, h.onList_iff.mpr ⟨b, hk, rfl⟩⟩
    · exact Or.inr ⟨b, hb, rfl⟩

/-- The memory holds every block of the pool. -/
theorem holds (h : σ.Inv R A) (hb : b ∈ A.blocks) : Holds σ.buddy.mem b := by
  rcases h.pool.mem_blocks.mp hb with ⟨k, hk⟩ | hb
  · exact h.free.holds k b hk
  · exact h.held b hb

theorem level_eq (h : σ.Inv R A) (hb : b ∈ A.blocks) : σ.level b.addr = b.level :=
  (h.holds hb).level

theorem stop_eq (h : σ.Inv R A) (hb : b ∈ A.blocks) : σ.stop b.addr = b.stop := by
  unfold BuddyState.stop
  rw [h.level_eq hb]
  rfl

/-- The attached regions are those of the pool. -/
theorem mem_regions (h : σ.Inv R A) {r : Block} (hr : r ∈ R) :
    ∃ r' ∈ σ.regions, r'.1 = r.addr ∧ BuddyState.managedStop r' = r.stop := by
  have hmem : (r.addr, r.level) ∈ σ.regions.map (fun r => (r.1, calculateBlockLevel r.2)) := by
    rw [h.attached]
    exact List.mem_map.mpr ⟨r, hr, rfl⟩
  obtain ⟨r', hr', heq⟩ := List.mem_map.mp hmem
  obtain ⟨ha, hl⟩ := Prod.mk.inj heq
  refine ⟨r', hr', ha, ?_⟩
  unfold BuddyState.managedStop
  rw [ha, hl]
  rfl

theorem regions_mem (h : σ.Inv R A) {r' : ℕ × ℕ} (hr' : r' ∈ σ.regions) :
    ∃ r ∈ R, r'.1 = r.addr ∧ BuddyState.managedStop r' = r.stop := by
  have hmem : (r'.1, calculateBlockLevel r'.2) ∈ R.map (fun r => (r.addr, r.level)) := by
    rw [← h.attached]
    exact List.mem_map.mpr ⟨r', hr', rfl⟩
  obtain ⟨r, hr, heq⟩ := List.mem_map.mp hmem
  obtain ⟨ha, hl⟩ := Prod.mk.inj heq
  refine ⟨r, hr, ha.symm, ?_⟩
  unfold BuddyState.managedStop
  rw [← ha, ← hl]
  rfl

/-! ## What each call does -/

/-- A header inside a block lies outside the blocks apart from it. -/
theorem outside_of_apart {w : ℕ} (h : c.Apart b) (h₁ : c.addr ≤ w)
    (h₂ : w + buddyCalculateBlockHeadSize ≤ c.stop) :
    b.stop ≤ w ∨ w + buddyCalculateBlockHeadSize ≤ b.addr := by
  unfold Block.Apart at h
  omega

/-- Blocks whose headers are outside what is written keep them. -/
theorem blockHead_of_outside {W : Set ℕ} {m m' : ByteStore} (hw : WritesOnly W m m')
    (hW : ∀ w ∈ W, b.stop ≤ w ∨ w + buddyCalculateBlockHeadSize ≤ b.addr) :
    blockHead m' b.addr = blockHead m b.addr := by
  have hhead : buddyCalculateBlockHeadSize ≤ pageSize := by decide
  have hsize := b.pageSize_le_bytes
  refine hw.blockHead_eq (fun w hw => ?_)
  rcases hW w hw with h | h
  · left
    unfold Block.stop at h
    omega
  · exact Or.inr h

/-- The headers of the free blocks lie outside the blocks in use. -/
theorem outside_free (h : σ.Inv R A) (hb : b ∈ A.used) {w : ℕ} (hw : w ∈ freeAddrs A.free) :
    b.stop ≤ w ∨ w + buddyCalculateBlockHeadSize ≤ b.addr := by
  obtain ⟨k, c, hc, rfl⟩ := hw
  have hhead : buddyCalculateBlockHeadSize ≤ pageSize := by decide
  have hsize := c.pageSize_le_bytes
  refine outside_of_apart (h.pool.apart_free_used h.regions hc hb) le_rfl ?_
  unfold Block.stop
  omega

/-- The halves of a free block lie outside the blocks in use. -/
theorem outside_halves (h : σ.Inv R A) (hb : b ∈ A.used) (hc : c ∈ A.free k) {level w : ℕ}
    (hw : w ∈ halves c.addr level k) :
    b.stop ≤ w ∨ w + buddyCalculateBlockHeadSize ≤ b.addr := by
  obtain ⟨i, -, hi, rfl⟩ := hw
  have hlevel := h.pool.level_eq k c hc
  have hlt := h.pool.level_lt h.regions (h.pool.mem_of_free hc)
  have hhead : buddyCalculateBlockHeadSize ≤ pageSize := by decide
  have hpow : 2 ^ i * 2 ≤ 2 ^ c.level := by
    rw [← pow_succ]
    exact Nat.pow_le_pow_right (by decide) (by omega)
  have hpos : 0 < 2 ^ i := Nat.two_pow_pos i
  have hmul : (2 ^ i + 1) * pageSize ≤ 2 ^ c.level * pageSize :=
    Nat.mul_le_mul_right pageSize (by omega)
  rw [calculateBlockSize_of_lt (by omega)]
  refine outside_of_apart (h.pool.apart_free_used h.regions hc hb) (Nat.le_add_right _ _) ?_
  unfold Block.stop Block.bytes
  rw [Nat.add_mul, Nat.one_mul] at hmul
  omega

/-- **A fresh system** represents the empty pool. -/
theorem init {size : ℕ} (hinit : (buddySystem size).init σ) : σ.Inv [] ⟨fun _ => [], []⟩ := by
  obtain ⟨hhead, hregions, hlive⟩ := hinit
  have hlist : ∀ k, σ.buddy.head.list k = 0 := fun k => by
    rw [hhead]
    unfold BuddyHead.list buddyInitSystem
    split <;> rfl
  have hlive' : ∀ c, ¬ σ.IsLive c := fun c ⟨e, he, _⟩ => by
    rw [hlive] at he
    cases he
  refine ⟨⟨?_, ?_, ?_, .nil, .nil⟩, ⟨?_, fun _ _ => rfl, fun _ => .nil, ?_, fun _ => rfl⟩,
    ⟨hlist, ?_, ?_⟩, ?_, ?_, ?_, ?_, ?_, ?_, ?_, ?_, ?_, ?_⟩
  · exact fun r hr => by cases hr
  · exact fun r hr => by cases hr
  · exact fun r hr => by cases hr
  · exact fun k b hb => by cases hb
  · exact fun b _ r hr => by cases hr
  · exact fun k b hb => by cases hb
  · exact fun k b hb => by cases hb
  · exact fun b hb => by cases hb
  · exact fun b hb => by cases hb
  · exact fun c => ⟨fun hc => absurd hc (hlive' c), fun ⟨b, hb, _⟩ => by cases hb⟩
  · rw [hlive]
    exact .nil
  · rw [hlive]
    exact fun e he => by cases he
  · rw [hregions]
    rfl
  · rw [hregions]
    exact fun r hr => by cases hr
  · rw [hhead]
    rfl
  · exact fun r hr => by cases hr
  · intro top _
    rw [List.length_nil, Nat.zero_mul]
    exact Nat.zero_le top

/-- **A region as a block**, if it is apart from those attached. -/
theorem newRegion (h : σ.Inv R A) {addr : ℕ} (pid : ℕ) (hpos : 0 < addr) (hpage : pageSize ≤ size)
    (hmax : size < 2 ^ 64 - 2 ^ 43) (hstop : addr + size ≤ 2 ^ 64)
    (hapart : ∀ r ∈ σ.regions, r.1 + r.2 ≤ addr ∨ addr + size ≤ r.1) :
    ∃ r : Block, r.addr = addr ∧ r.level = calculateBlockLevel size ∧ r.isFirst = 1
      ∧ r.memoryIdx = R.length + 1
      ∧ r.memoryIdx = (σ.buddy.head.memoryIdx + 1) % 2 ^ 64
      ∧ r.hostPid = Layout.hostPid.get (Layout.hostPid.set σ.buddy.mem addr pid) addr
      ∧ r.stop ≤ addr + size ∧ Regions (r :: R) := by
  obtain ⟨hlevel, hfit⟩ := calculateBlockLevel_spec hpage hmax
  have hroom := h.regions.length_mul_le h.regions.stop_le
  have hlen : R.length + 1 < 2 ^ 64 := by
    unfold pageSize at hroom
    omega
  have hrstop : addr + 2 ^ calculateBlockLevel size * pageSize ≤ addr + size :=
    Nat.add_le_add_left hfit addr
  refine ⟨⟨addr, calculateBlockLevel size, 1, _, R.length + 1⟩, rfl, rfl, rfl, rfl, ?_, rfl,
    hrstop, ?_⟩
  · rw [h.memoryIdx, Nat.mod_eq_of_lt hlen]
  · refine ⟨List.forall_mem_cons.mpr ⟨hlevel, h.regions.level_lt⟩,
      List.forall_mem_cons.mpr ⟨hpos, h.regions.addr_pos⟩,
      List.forall_mem_cons.mpr ⟨hrstop.trans hstop, h.regions.stop_le⟩,
      List.pairwise_cons.mpr ⟨fun r' hr' => ?_, h.regions.idx_ne⟩,
      List.pairwise_cons.mpr ⟨fun r' hr' => ?_, h.regions.apart⟩⟩
    · have hle := h.idx_le r' hr'
      show R.length + 1 ≠ r'.memoryIdx
      omega
    · obtain ⟨q, hq, hqa, hqs⟩ := h.mem_regions hr'
      rcases hapart q hq with hbelow | habove
      · exact Or.inr (hqs ▸ (h.fits q hq).trans hbelow)
      · exact Or.inl (hqa ▸ hrstop.trans habove)

/-- **Attaching**, where the region is not in front of all free blocks of its
level, adds a region to the pool. -/
theorem attachAmong (h : σ.Inv R A) {addr : ℕ} (pid : ℕ) {l₁ l₂ : List Block} (hpos : 0 < addr)
    (hpage : pageSize ≤ size) (hmax : size < 2 ^ 64 - 2 ^ 43) (hstop : addr + size ≤ 2 ^ 64)
    (hapart : ∀ r ∈ σ.regions, r.1 + r.2 ≤ addr ∨ addr + size ≤ r.1)
    (hF : A.free (calculateBlockLevel size) = l₁ ++ l₂) (h₁ : ∀ c ∈ l₁, c.addr < addr)
    (h₂ : ∀ c ∈ l₂, addr < c.addr) (hfront : l₁ = [] → l₂ = []) :
    ∃ s' r, buddyAttchMemory σ.buddy addr size pid = .ok (0, s') ∧ r.addr = addr
      ∧ r.level = calculateBlockLevel size ∧ r.isFirst = 1
      ∧ (BuddyState.mk s' ((addr, size) :: σ.regions) σ.live).Inv (r :: R)
        ⟨Function.update A.free (calculateBlockLevel size) (l₁ ++ r :: l₂), A.used⟩ := by
  obtain ⟨-, hfit⟩ := calculateBlockLevel_spec hpage hmax
  obtain ⟨r, hraddr, hrlevel, hrfirst, hridx, hridx', hrpid, hrstop, hregions⟩ :=
    h.newRegion pid hpos hpage hmax hstop hapart
  rw [← hrlevel] at hF
  obtain ⟨s', hcall, hpool, hrep, hw, hidx⟩ := buddyAttchMemory_spec (q := pid) h.pool h.free
    hrlevel hraddr hrfirst hridx' hrpid hregions hF h₁ h₂ hfront
  have hused : ∀ b ∈ A.used, blockHead s'.mem b.addr = blockHead σ.buddy.mem b.addr := by
    intro b hb
    refine blockHead_of_outside hw (fun w hw => ?_)
    rcases hw with rfl | hw
    · obtain ⟨r', hr', -, hba, hbs⟩ := h.pool.region h.regions (Pool.mem_of_used hb)
      have hhead : buddyCalculateBlockHeadSize ≤ pageSize := by decide
      have hsize := r.pageSize_le_bytes
      rcases (List.pairwise_cons.mp hregions.apart).1 r' hr' with hlow | hhigh
      · unfold Block.stop at hlow
        right
        omega
      · left
        omega
    · exact h.outside_free hb hw
  refine ⟨s', r, hcall, hraddr, hrlevel, hrfirst, ?_⟩
  rw [hrlevel] at hpool hrep
  exact {
    regions := hregions
    pool := hpool
    free := hrep
    held := fun b hb => (h.held b hb).congr (hused b hb)
    busy := fun b hb => by rw [hused b hb]; exact h.busy b hb
    live_iff := h.live_iff
    live_nodup := h.live_nodup
    payload := h.payload
    attached := by
      rw [List.map_cons, List.map_cons, h.attached, hraddr, hrlevel]
    fits := List.forall_mem_cons.mpr
      ⟨Nat.add_le_add_left hfit addr, h.fits⟩
    memoryIdx := hidx.trans hridx
    idx_le := List.forall_mem_cons.mpr
      ⟨hridx.le, fun r' hr' => (h.idx_le r' hr').trans (Nat.le_succ _)⟩
    room := fun top htop => by
      obtain ⟨hnew, hold⟩ := List.forall_mem_cons.mp htop
      refine hregions.length_mul_le (List.forall_mem_cons.mpr ⟨hrstop.trans hnew, fun r' hr' => ?_⟩)
      obtain ⟨q, hq, -, hqs⟩ := h.mem_regions hr'
      exact hqs ▸ (h.fits q hq).trans (hold q hq) }

/-- **Attaching** behind all other regions adds a region to the pool. -/
theorem attach (h : σ.Inv R A) {addr : ℕ} (pid : ℕ) (hpos : 0 < addr) (hpage : pageSize ≤ size)
    (hmax : size < 2 ^ 64 - 2 ^ 43) (hstop : addr + size ≤ 2 ^ 64)
    (hafter : ∀ r ∈ σ.regions, r.1 + r.2 ≤ addr) :
    ∃ σ' r, σ.run (.attach addr size pid) = .ok σ' ∧ r.addr = addr
      ∧ r.level = calculateBlockLevel size ∧ r.isFirst = 1 ∧ σ'.Inv (r :: R) (A.attach r) := by
  have hlow : ∀ c ∈ A.free (calculateBlockLevel size), c.addr < addr := fun c hc => by
    obtain ⟨r', hr', -, -, hstop⟩ := h.pool.region h.regions (h.pool.mem_of_free hc)
    obtain ⟨q, hq, -, hqs⟩ := h.mem_regions hr'
    exact c.addr_lt_stop.trans_le (hstop.trans (hqs ▸ (h.fits q hq).trans (hafter q hq)))
  obtain ⟨s', r, hcall, hraddr, hrlevel, hrfirst, hinv⟩ := h.attachAmong pid hpos hpage hmax hstop
    (fun q hq => Or.inl (hafter q hq)) (List.append_nil _).symm hlow nofun (fun _ => rfl)
  refine ⟨⟨s', (addr, size) :: σ.regions, σ.live⟩, r, ?_, hraddr, hrlevel, hrfirst, ?_⟩
  · dsimp only [BuddyState.run]
    rw [hcall]
    rfl
  · unfold Pool.attach
    rw [hrlevel]
    exact hinv

/-- **Allocating** takes the first block of the level of the request, after
cutting down the first block there is from that level on; if there is none,
nothing changes. What is then known of the payload is `payload` bytes, if
that many fit behind the header. -/
theorem allocate (h : σ.Inv R A) {level idx : ℕ} (payload : ℕ)
    (hlevel : calculateWhichLevel ((size + buddyCalculateBlockHeadSize) % 2 ^ 64) = level)
    (hlt : level < maxBlockNum) (hidx : searchLevel σ.buddy.head maxBlockNum level = idx)
    (hfit : payload + buddyCalculateBlockHeadSize ≤ 2 ^ level * pageSize) :
    ((∀ j, level ≤ j → A.free j = []) ∧ buddyMalloc σ.buddy size = .ok (0, σ.buddy))
    ∨ (∃ b c s', b ∈ A.free idx ∧ σ.buddy.head.list idx = b.addr ∧ level ≤ idx
      ∧ (∀ j, level ≤ j → j < idx → A.free j = [])
      ∧ buddyMalloc σ.buddy size = .ok (b.addr + buddyCalculateBlockHeadSize, s')
      ∧ (A.allocate level idx).used = c :: A.used ∧ c.addr = b.addr ∧ c.level = level
      ∧ (BuddyState.mk s' σ.regions ((b.addr + buddyCalculateBlockHeadSize, payload)
          :: σ.live)).Inv R (A.allocate level idx)
      ∧ WritesOnly (halves b.addr level idx ∪ freeAddrs A.free) σ.buddy.mem s'.mem) := by
  rcases buddyMalloc_spec h.pool h.regions h.free hlevel hlt hidx with
    ⟨-, hnil, hcall⟩ | ⟨b, c, s', hb, hlist, hnil, hcall, hpool, hrep, hused, hca, hcl, hhold,
      hbusy, hw, hmidx⟩
  · exact Or.inl ⟨hnil, hcall⟩
  · right
    have hlevelidx : level ≤ idx := by
      rw [← hidx]
      exact (searchLevel_spec hlt (by omega)).1
    have hkeep : ∀ d ∈ A.used, blockHead s'.mem d.addr = blockHead σ.buddy.mem d.addr := by
      intro d hd
      refine blockHead_of_outside hw (fun w hw => ?_)
      rcases hw with hw | hw
      · exact h.outside_halves hd hb hw
      · exact h.outside_free hd hw
    have hstop : c.addr + buddyCalculateBlockHeadSize + payload ≤ c.stop := by
      unfold Block.stop Block.bytes
      rw [hcl]
      omega
    refine ⟨b, c, s', hb, hlist, hlevelidx, hnil, hcall, hused, hca, hcl, ?_, hw⟩
    · have hnew : ∀ x, x = c.addr ∨ (∃ d ∈ A.used, d.addr = x)
          ↔ ∃ d ∈ (A.allocate level idx).used, d.addr = x := by
        intro x
        rw [hused]
        constructor
        · rintro (rfl | ⟨d, hd, rfl⟩)
          · exact ⟨c, List.mem_cons_self, rfl⟩
          · exact ⟨d, List.mem_cons_of_mem c hd, rfl⟩
        · rintro ⟨d, hd, rfl⟩
          rcases List.mem_cons.mp hd with rfl | hd
          · exact Or.inl rfl
          · exact Or.inr ⟨d, hd, rfl⟩
      exact {
        regions := h.regions
        pool := hpool
        free := hrep
        held := fun d hd => by
          rw [hused] at hd
          rcases List.mem_cons.mp hd with rfl | hd
          · exact hhold
          · exact (h.held d hd).congr (hkeep d hd)
        busy := fun d hd => by
          rw [hused] at hd
          rcases List.mem_cons.mp hd with rfl | hd
          · exact hbusy
          · rw [hkeep d hd]
            exact h.busy d hd
        live_iff := fun x => by
          rw [← hnew x, ← h.live_iff x]
          unfold BuddyState.IsLive
          rw [List.exists_mem_cons_iff, hca]
          refine or_congr_left ⟨fun he => ?_, fun he => by rw [he]⟩
          exact (Nat.add_right_cancel he).symm
        live_nodup := by
          -- the new address is not among those of the live blocks, which are apart from it
          refine List.nodup_cons.mpr ⟨fun hmem => ?_, h.live_nodup⟩
          obtain ⟨e, he, hea⟩ := List.mem_map.mp hmem
          obtain ⟨d, hd, hda⟩ := (h.live_iff b.addr).mp ⟨e, he, hea⟩
          exact (h.pool.apart_free_used h.regions hb hd).addr_ne hda.symm
        payload := by
          refine List.forall_mem_cons.mpr ⟨⟨c, ?_, ?_, ?_⟩, fun e he => ?_⟩
          · rw [hused]
            exact List.mem_cons_self
          · rw [hca]
          · rw [← hca]
            exact hstop
          · obtain ⟨d, hd, hrest⟩ := h.payload e he
            exact ⟨d, hused ▸ List.mem_cons_of_mem c hd, hrest⟩
        attached := h.attached
        fits := h.fits
        memoryIdx := hmidx.trans h.memoryIdx
        idx_le := h.idx_le
        room := h.room }

/-- A request within the bounds of the callers is kept as it is. -/
theorem malloc (h : σ.Inv R A) (hadm : σ.Admits (.malloc size)) {level idx : ℕ}
    (hlevel : calculateWhichLevel (size + buddyCalculateBlockHeadSize) = level)
    (hidx : searchLevel σ.buddy.head maxBlockNum level = idx) :
    ((∀ j, level ≤ j → A.free j = []) ∧ σ.run (.malloc size) = .ok σ)
    ∨ (∃ b σ', b ∈ A.free idx ∧ σ.buddy.head.list idx = b.addr ∧ level ≤ idx
      ∧ (∀ j, level ≤ j → j < idx → A.free j = [])
      ∧ σ.run (.malloc size) = .ok σ' ∧ σ'.Inv R (A.allocate level idx)
      ∧ σ'.live = (b.addr + buddyCalculateBlockHeadSize, size) :: σ.live
      ∧ σ'.regions = σ.regions
      ∧ WritesOnly (halves b.addr level idx ∪ freeAddrs A.free) σ.buddy.mem σ'.buddy.mem) := by
  have hmod : (size + buddyCalculateBlockHeadSize) % 2 ^ 64
      = size + buddyCalculateBlockHeadSize :=
    Nat.mod_eq_of_lt (lt_of_le_of_lt hadm (by decide))
  obtain ⟨hle, hfit, -⟩ := calculateWhichLevel_spec hadm
  rw [hlevel] at hle hfit
  rcases h.allocate size (by rw [hmod]; exact hlevel) (lt_of_le_of_lt hle (by decide)) hidx hfit with
    ⟨hnil, hcall⟩ | ⟨b, c, s', hb, hlist, hlevelidx, hnil, hcall, -, -, -, hinv, hw⟩
  · left
    refine ⟨hnil, ?_⟩
    dsimp only [BuddyState.run]
    rw [hcall]
    rfl
  · right
    have hp0 : b.addr + buddyCalculateBlockHeadSize ≠ 0 := by
      unfold buddyCalculateBlockHeadSize
      omega
    refine ⟨b, _, hb, hlist, hlevelidx, hnil, ?_, hinv, rfl, rfl, hw⟩
    dsimp only [BuddyState.run]
    rw [hcall]
    show Except.ok (BuddyState.mk s' σ.regions (if _ = 0 then _ else _)) = _
    rw [if_neg hp0]

/-- **Releasing** an allocation releases its block. -/
theorem release (h : σ.Inv R A) (hb : b ∈ A.used) :
    ∃ σ', σ.run (.free (b.addr + buddyCalculateBlockHeadSize)) = .ok σ'
      ∧ σ'.Inv R ⟨Pool.release maxBlockNum A.free b, A.used.erase b⟩
      ∧ σ'.live = σ.live.filter (fun e => e.1 ≠ b.addr + buddyCalculateBlockHeadSize)
      ∧ σ'.regions = σ.regions
      ∧ WritesOnly (insert b.addr (freeAddrs A.free)) σ.buddy.mem σ'.buddy.mem := by
  have hperm := List.perm_cons_erase hb
  have hA : (Pool.mk A.free (b :: A.used.erase b)).Inv R := h.pool.perm hperm
  obtain ⟨s', hcall, hrep, hw, -, hmidx⟩ := buddyFree_spec h.regions hA h.free (h.held b hb)
    (h.busy b hb)
  have hnodup : (b :: A.used.erase b).Nodup :=
    (List.pairwise_append.mp (hA.apart h.regions)).2.1.imp (fun {c d} hcd he =>
      (he ▸ hcd.addr_ne) rfl)
  have hmem : ∀ d, d ∈ A.used.erase b ↔ d ∈ A.used ∧ d ≠ b := by
    intro d
    rw [hperm.mem_iff, List.mem_cons]
    refine ⟨fun hd => ⟨Or.inr hd, ?_⟩, fun ⟨hd, hne⟩ => hd.resolve_left hne⟩
    rintro rfl
    exact (List.nodup_cons.mp hnodup).1 hd
  have hkeep : ∀ d ∈ A.used, d ≠ b → blockHead s'.mem d.addr = blockHead σ.buddy.mem d.addr := by
    intro d hd hne
    refine blockHead_of_outside hw (fun w hw => ?_)
    rcases hw with rfl | hw
    · have hap := h.pool.apart_of_ne h.regions (Pool.mem_of_used hb) (Pool.mem_of_used hd) hne.symm
      have hhead : buddyCalculateBlockHeadSize ≤ pageSize := by decide
      have hsize := b.pageSize_le_bytes
      refine outside_of_apart hap le_rfl ?_
      unfold Block.stop
      omega
    · exact h.outside_free hd hw
  have haddr : ∀ d ∈ A.used, d.addr = b.addr → d = b := fun d hd he =>
    h.pool.eq_of_addr h.regions (Pool.mem_of_used hd) (Pool.mem_of_used hb) he
  refine ⟨⟨s', σ.regions, σ.live.filter (fun e => e.1 ≠ b.addr + buddyCalculateBlockHeadSize)⟩,
    ?_, ?_, rfl, rfl, hw⟩
  · dsimp only [BuddyState.run]
    rw [hcall]
    rfl
  · exact {
      regions := h.regions
      pool := hA.release h.regions (by unfold maxBlockNum; omega)
      free := hrep
      held := fun d hd => by
        obtain ⟨hd, hne⟩ := (hmem d).mp hd
        exact (h.held d hd).congr (hkeep d hd hne)
      busy := fun d hd => by
        obtain ⟨hd, hne⟩ := (hmem d).mp hd
        rw [hkeep d hd hne]
        exact h.busy d hd
      live_iff := fun x => by
        constructor
        · rintro ⟨e, he, hex⟩
          obtain ⟨he, hne⟩ := List.mem_filter.mp he
          obtain ⟨d, hd, hdx⟩ := (h.live_iff x).mp ⟨e, he, hex⟩
          refine ⟨d, (hmem d).mpr ⟨hd, ?_⟩, hdx⟩
          rintro rfl
          exact (of_decide_eq_true hne) (by rw [hex, hdx])
        · rintro ⟨d, hd, rfl⟩
          obtain ⟨hd, hne⟩ := (hmem d).mp hd
          obtain ⟨e, he, hea⟩ := (h.live_iff d.addr).mpr ⟨d, hd, rfl⟩
          refine ⟨e, List.mem_filter.mpr ⟨he, decide_eq_true (fun heq => ?_)⟩, hea⟩
          rw [hea] at heq
          exact hne (haddr d hd (Nat.add_right_cancel heq))
      live_nodup := h.live_nodup.sublist (List.filter_sublist.map _)
      payload := fun e he => by
        obtain ⟨he, hne⟩ := List.mem_filter.mp he
        obtain ⟨d, hd, hea, hstop⟩ := h.payload e he
        refine ⟨d, (hmem d).mpr ⟨hd, ?_⟩, hea, hstop⟩
        rintro rfl
        exact (of_decide_eq_true hne) hea
      attached := h.attached
      fits := h.fits
      memoryIdx := hmidx.trans h.memoryIdx
      idx_le := h.idx_le
      room := h.room }

/-- **Writing to an allocation**, up to the end of its block, changes no
header. -/
theorem write (h : σ.Inv R A) (byte : UInt8) (hb : b ∈ A.used)
    (hlow : b.addr + buddyCalculateBlockHeadSize ≤ x) (hhigh : x < b.stop) :
    ∃ σ', σ.run (.write x byte) = .ok σ' ∧ σ'.Inv R A ∧ σ'.regions = σ.regions
      ∧ σ'.live = σ.live := by
  refine ⟨_, rfl, ?_, rfl, rfl⟩
  have hhead : ∀ c ∈ A.blocks, blockHead (Function.update σ.buddy.mem x byte) c.addr
      = blockHead σ.buddy.mem c.addr := by
    intro c hc
    refine blockHead_congr (fun y h₁ h₂ => Function.update_of_ne ?_ _ _)
    rintro rfl
    have hsize : buddyCalculateBlockHeadSize ≤ pageSize := by decide
    have hbytes := c.pageSize_le_bytes
    by_cases hbc : c = b
    · rw [hbc] at h₂
      omega
    · have hap := h.pool.apart_of_ne h.regions hc (Pool.mem_of_used hb) hbc
      unfold Block.Apart at hap
      unfold Block.stop at hap hhigh
      omega
  exact {
    regions := h.regions
    pool := h.pool
    free := h.free.frame (fun _ => rfl) (fun j c hc => hhead c (h.pool.mem_of_free hc))
    held := fun c hc => (h.held c hc).congr (hhead c (Pool.mem_of_used hc))
    busy := fun c hc => by
      dsimp only
      rw [hhead c (Pool.mem_of_used hc)]
      exact h.busy c hc
    live_iff := h.live_iff
    live_nodup := h.live_nodup
    payload := h.payload
    attached := h.attached
    fits := h.fits
    memoryIdx := h.memoryIdx
    idx_le := h.idx_le
    room := h.room }

end BuddyState.Inv

/-- **Every reachable state represents a pool**, and every call that is
admitted returns. -/
theorem BuddyState.Inv.step {σ : BuddyState} {R : List Block} {A : Pool} (h : σ.Inv R A)
    {c : BuddyCall} (hadm : σ.Admits c) :
    ∃ σ' R' A', σ.run c = .ok σ' ∧ σ'.Inv R' A' := by
  cases c with
  | attach addr size pid =>
    obtain ⟨hpos, hpage, hmax, hstop, hafter⟩ := hadm
    obtain ⟨σ', r, hrun, -, -, -, hinv⟩ := h.attach pid hpos hpage (hmax.trans (by decide)) hstop
      hafter
    exact ⟨σ', _, _, hrun, hinv⟩
  | malloc size =>
    rcases h.malloc hadm rfl rfl with ⟨-, hrun⟩ | ⟨b, σ', -, -, -, -, hrun, hinv, -⟩
    · exact ⟨σ, R, A, hrun, h⟩
    · exact ⟨σ', R, _, hrun, hinv⟩
  | free addr =>
    obtain ⟨e, he, rfl⟩ := hadm
    obtain ⟨b, hb, hea, -⟩ := h.payload e he
    obtain ⟨σ', hrun, hinv, -⟩ := h.release hb
    exact ⟨σ', R, _, by rw [hea]; exact hrun, hinv⟩
  | write addr byte =>
    obtain ⟨e, he, hlow, hhigh⟩ := hadm
    obtain ⟨b, hb, hea, hstop⟩ := h.payload e he
    obtain ⟨σ', hrun, hinv, -⟩ := h.write byte hb (hea ▸ hlow) (hhigh.trans_le hstop)
    exact ⟨σ', R, A, hrun, hinv⟩

theorem BuddyState.exists_inv {size : ℕ} {σ : BuddyState}
    (hσ : (buddySystem size).Reachable σ) : ∃ R A, σ.Inv R A := by
  refine hσ.invariant (I := fun σ => ∃ R A, σ.Inv R A)
    (fun σ hinit => ⟨_, _, BuddyState.Inv.init hinit⟩) ?_
  rintro σ c σ' - ⟨R, A, h⟩ ⟨hadm, hrun⟩
  obtain ⟨σ'', R', A', hrun', h'⟩ := h.step hadm
  rw [hrun] at hrun'
  rw [Except.ok.inj hrun']
  exact ⟨R', A', h'⟩

/-! ## The blocks tile the regions -/

/-- **The blocks of a state tile the attached regions**, as far as these
are managed. -/
structure BuddyState.Tiled (σ : BuddyState) : Prop where
  /-- The lists are doubly linked, end, and are in the order of the addresses. -/
  linked : ∀ k, ∃ l : List ℕ, Linked (prevLink σ.buddy.mem) (nextLink σ.buddy.mem) 0
    (σ.buddy.head.list k) l 0 ∧ l.Pairwise (· < ·)
  /-- A free block is on the list of its own level. -/
  level_eq : ∀ k c, σ.OnList k c → k < maxBlockNum ∧ σ.level c = k
  /-- No block is free and allocated. -/
  not_live : ∀ k c, σ.OnList k c → ¬ σ.IsLive c
  /-- No address is handed out twice. -/
  live_nodup : (σ.live.map Prod.fst).Nodup
  /-- What is handed out lies in its block, behind the header. -/
  payload : ∀ e ∈ σ.live, ∃ c, e.1 = c + buddyCalculateBlockHeadSize ∧ e.1 + e.2 ≤ σ.stop c
  /-- Blocks are pairwise disjoint. -/
  apart : ∀ c d, σ.IsBlock c → σ.IsBlock d → c ≠ d → σ.stop c ≤ d ∨ σ.stop d ≤ c
  /-- A block lies within one region. -/
  within : ∀ c, σ.IsBlock c → ∃ r ∈ σ.regions, r.1 ≤ c ∧ σ.stop c ≤ managedStop r
  /-- Every byte of the managed part of a region lies in a block. -/
  covered : ∀ r ∈ σ.regions, ∀ x, r.1 ≤ x → x < managedStop r →
    ∃ c, σ.IsBlock c ∧ c ≤ x ∧ x < σ.stop c

theorem BuddyState.Inv.tiled {σ : BuddyState} {R : List Block} {A : Pool} (h : σ.Inv R A) :
    σ.Tiled where
  linked := fun k => ⟨(A.free k).map Block.addr, h.free.linked k,
    List.pairwise_map.mpr (h.pool.sorted k)⟩
  level_eq := fun k c hc => by
    obtain ⟨b, hb, rfl⟩ := h.onList_iff.mp hc
    rw [h.level_eq (h.pool.mem_of_free hb)]
    exact ⟨h.pool.lt_of_mem hb, h.pool.level_eq k b hb⟩
  not_live := fun k c hc hlive => by
    obtain ⟨b, hb, rfl⟩ := h.onList_iff.mp hc
    obtain ⟨d, hd, hda⟩ := (h.live_iff _).mp hlive
    exact (h.pool.apart_free_used h.regions hb hd).addr_ne hda.symm
  live_nodup := h.live_nodup
  payload := fun e he => by
    obtain ⟨b, hb, hea, hstop⟩ := h.payload e he
    exact ⟨b.addr, hea, by rw [h.stop_eq (Pool.mem_of_used hb)]; exact hstop⟩
  apart := fun c d hc hd hne => by
    obtain ⟨b, hb, rfl⟩ := h.isBlock_iff.mp hc
    obtain ⟨b', hb', rfl⟩ := h.isBlock_iff.mp hd
    rw [h.stop_eq hb, h.stop_eq hb']
    exact h.pool.apart_of_ne h.regions hb hb' (fun he => hne (congrArg Block.addr he))
  within := fun c hc => by
    obtain ⟨b, hb, rfl⟩ := h.isBlock_iff.mp hc
    obtain ⟨r, hr, -, hle, hstop⟩ := h.pool.region h.regions hb
    obtain ⟨r', hr', hra, hrs⟩ := h.mem_regions hr
    exact ⟨r', hr', by rw [hra]; exact hle, by rw [h.stop_eq hb, hrs]; exact hstop⟩
  covered := fun r' hr' x hlow hhigh => by
    obtain ⟨r, hr, hra, hrs⟩ := h.regions_mem hr'
    rw [hra] at hlow
    rw [hrs] at hhigh
    have hpos := cover_pos_of_mem hr (Block.mem_iff.mpr ⟨rfl, hlow, hhigh⟩)
    rw [← h.pool.cover_eq] at hpos
    obtain ⟨b, hb, hbx⟩ := cover_pos_iff.mp hpos
    obtain ⟨-, h₁, h₂⟩ := Block.mem_iff.mp hbx
    exact ⟨b.addr, h.isBlock_iff.mpr ⟨b, hb, rfl⟩, h₁, by rw [h.stop_eq hb]; exact h₂⟩

/-- **The blocks tile the regions in every reachable state**, whatever was
attached, allocated and released before, and no admitted call fails. -/
theorem buddy_tiled {size : ℕ} {σ : BuddyState} (hσ : (buddySystem size).Reachable σ) :
    σ.Tiled ∧ ∀ c, σ.Admits c → ∃ σ', (buddySystem size).step σ c σ' := by
  obtain ⟨R, A, h⟩ := BuddyState.exists_inv hσ
  refine ⟨h.tiled, fun c hadm => ?_⟩
  obtain ⟨σ', -, -, hrun, -⟩ := h.step hadm
  exact ⟨σ', hadm, hrun⟩

/-- Two regions, a request that splits, and a release. -/
theorem buddy_tiled_two_regions : ∃ σ, (buddySystem 0).Reachable σ
    ∧ σ.regions.length = 2 ∧ σ.live.length = 1 ∧ σ.Tiled := by
  have hexec : (BuddyState.fresh.exec [.attach 0x10000 0x4000 7, .attach 0x20000 0x1800 8,
      .malloc 100, .malloc 5000, .free 0x1003c]).map
      (fun σ => (σ.regions.length, σ.live.length)) = some (2, 1) := by decide +kernel
  obtain ⟨σ, hσ, heq⟩ := Option.map_eq_some_iff.mp hexec
  obtain ⟨hregions, hlive⟩ := Prod.mk.inj heq
  obtain ⟨tr, hr⟩ := BuddyState.run_of_exec (n := 0) (.start ⟨rfl, rfl, rfl⟩) hσ
  exact ⟨σ, hr.reachable, hregions, hlive, (buddy_tiled hr.reachable).1⟩

/-! ## What a call leaves alone -/

/-- The addresses at which an allocation starts new blocks: it cuts the
first block of the level its search finds down to the level of the request. -/
def BuddyState.cuts (σ : BuddyState) (size : ℕ) : Set ℕ :=
  let level := calculateWhichLevel (size + buddyCalculateBlockHeadSize)
  let idx := searchLevel σ.buddy.head maxBlockNum level
  {w | σ.OnList idx (σ.buddy.head.list idx) ∧ w ∈ halves (σ.buddy.head.list idx) level idx}

/-- **The frame of allocation and release.** A call writes only headers of
blocks that are free, of halves it cuts, or of the block it releases, and
leaves every byte of every other allocated block alone. -/
structure BuddyState.Frame (σ : BuddyState) (c : BuddyCall) (σ' : BuddyState) : Prop where
  /-- A changed byte lies in a header of one of these kinds. -/
  header : ∀ x, σ'.buddy.mem x ≠ σ.buddy.mem x → ∃ w, w ≤ x
    ∧ x < w + buddyCalculateBlockHeadSize ∧ ((∃ k, σ.OnList k w)
      ∨ (∃ size, c = .malloc size ∧ w ∈ σ.cuts size)
      ∨ c = .free (w + buddyCalculateBlockHeadSize))
  /-- The blocks of other allocations keep all their bytes. -/
  live : ∀ d, σ.IsLive d → c ≠ .free (d + buddyCalculateBlockHeadSize) →
    ∀ x, d ≤ x → x < σ.stop d → σ'.buddy.mem x = σ.buddy.mem x

/-- A byte that changed lies in a header that was written. -/
theorem WritesOnly.exists_header {W : Set ℕ} {m m' : ByteStore} (h : WritesOnly W m m') {x : ℕ}
    (hx : m' x ≠ m x) : ∃ w ∈ W, w ≤ x ∧ x < w + buddyCalculateBlockHeadSize := by
  by_contra hcon
  refine hx (h x (fun w hw => ?_))
  by_contra hin
  exact hcon ⟨w, hw, by omega, by omega⟩

theorem BuddyState.Inv.frame_malloc {σ σ' : BuddyState} {R : List Block} {A : Pool}
    (h : σ.Inv R A) {size : ℕ} (hstep : (buddySystem 0).step σ (.malloc size) σ') :
    σ.Frame (.malloc size) σ' := by
  obtain ⟨hadm, hrun⟩ := hstep
  rcases h.malloc hadm rfl rfl with ⟨-, hrun'⟩ | ⟨b, σ'', hb, hlist, -, -, hrun', -, -, -, hw⟩
  · rw [hrun] at hrun'
    rw [Except.ok.inj hrun']
    exact ⟨fun x hx => absurd rfl hx, fun _ _ _ _ _ _ => rfl⟩
  · rw [hrun] at hrun'
    rw [Except.ok.inj hrun']
    refine ⟨fun x hx => ?_, fun d hd _ x h₁ h₂ => ?_⟩
    · obtain ⟨w, hwW, hlow, hhigh⟩ := hw.exists_header hx
      refine ⟨w, hlow, hhigh, ?_⟩
      rcases hwW with hcut | ⟨k, c, hc, rfl⟩
      · refine Or.inr (Or.inl ⟨size, rfl, ?_, ?_⟩)
        · exact h.onList_iff.mpr ⟨b, hb, hlist.symm⟩
        · rw [hlist]
          exact hcut
      · exact Or.inl ⟨k, h.onList_iff.mpr ⟨c, hc, rfl⟩⟩
    · obtain ⟨c, hc, rfl⟩ := (h.live_iff d).mp hd
      rw [h.stop_eq (Pool.mem_of_used hc)] at h₂
      refine hw x (fun w hwW => ?_)
      have hout : c.stop ≤ w ∨ w + buddyCalculateBlockHeadSize ≤ c.addr := by
        rcases hwW with hcut | hfree
        · exact h.outside_halves hc hb hcut
        · exact h.outside_free hc hfree
      omega

theorem BuddyState.Inv.frame_free {σ σ' : BuddyState} {R : List Block} {A : Pool}
    (h : σ.Inv R A) {addr : ℕ} (hstep : (buddySystem 0).step σ (.free addr) σ') :
    σ.Frame (.free addr) σ' := by
  obtain ⟨⟨e, he, rfl⟩, hrun⟩ := hstep
  obtain ⟨b, hb, hea, -⟩ := h.payload e he
  obtain ⟨σ'', hrun', -, -, -, hw⟩ := h.release hb
  rw [← hea, hrun] at hrun'
  rw [Except.ok.inj hrun']
  refine ⟨fun x hx => ?_, fun d hd hne x h₁ h₂ => ?_⟩
  · obtain ⟨w, hwW, hlow, hhigh⟩ := hw.exists_header hx
    refine ⟨w, hlow, hhigh, ?_⟩
    rcases hwW with rfl | ⟨k, c, hc, rfl⟩
    · exact Or.inr (Or.inr (by rw [hea]))
    · exact Or.inl ⟨k, h.onList_iff.mpr ⟨c, hc, rfl⟩⟩
  · obtain ⟨c, hc, rfl⟩ := (h.live_iff d).mp hd
    rw [h.stop_eq (Pool.mem_of_used hc)] at h₂
    have hcb : b ≠ c := by
      rintro rfl
      exact hne (by rw [hea])
    refine hw x (fun w hwW => ?_)
    have hout : c.stop ≤ w ∨ w + buddyCalculateBlockHeadSize ≤ c.addr := by
      rcases hwW with rfl | hfree
      · have hap := h.pool.apart_of_ne h.regions (Pool.mem_of_used hb) (Pool.mem_of_used hc) hcb
        have hhead : buddyCalculateBlockHeadSize ≤ pageSize := by decide
        have hsize := b.pageSize_le_bytes
        refine BuddyState.Inv.outside_of_apart hap le_rfl ?_
        unfold Block.stop
        omega
      · exact h.outside_free hc hfree
    omega

/-- **Allocation and release write only what they may**, in every reachable
state. -/
theorem buddy_frame {size : ℕ} {σ σ' : BuddyState} {c : BuddyCall}
    (hσ : (buddySystem size).Reachable σ) (hstep : (buddySystem size).step σ c σ')
    (hc : (∃ n, c = .malloc n) ∨ ∃ p, c = .free p) : σ.Frame c σ' := by
  obtain ⟨R, A, h⟩ := BuddyState.exists_inv hσ
  rcases hc with ⟨n, rfl⟩ | ⟨p, rfl⟩
  · exact h.frame_malloc hstep
  · exact h.frame_free hstep

/-- A request that cuts the only block down to a page. -/
theorem buddy_frame_cut : ∃ σ σ', (buddySystem 0).Reachable σ
    ∧ (buddySystem 0).step σ (.malloc 100) σ' ∧ σ.Frame (.malloc 100) σ' := by
  have hexec : (BuddyState.fresh.exec [.attach 0x10000 0x4000 7]).isSome = true := by
    decide +kernel
  obtain ⟨σ, hσ⟩ := Option.isSome_iff_exists.mp hexec
  obtain ⟨tr, hr⟩ := BuddyState.run_of_exec (n := 0) (.start ⟨rfl, rfl, rfl⟩) hσ
  obtain ⟨R, A, h⟩ := BuddyState.exists_inv hr.reachable
  have hadm : σ.Admits (.malloc 100) := show 100 + buddyCalculateBlockHeadSize ≤ 2 ^ 42 by decide
  obtain ⟨σ', -, -, hrun, -⟩ := h.step hadm
  exact ⟨σ, σ', hr.reachable, ⟨hadm, hrun⟩,
    buddy_frame hr.reachable ⟨hadm, hrun⟩ (Or.inl ⟨100, rfl⟩)⟩
