import CoinData.BuddySystem
import CoinData.Results

/-!
# Requests of any size

What `buddyMalloc` does on a request is settled by the lists from the level
of the request on. `buddyRequestSystem` asks less of the callers than
`buddySystem`: a request may be of any 64-bit size, also of one that no
level holds, or whose sum with the header wraps around, so that the caller
gets less than was asked for; and a caller may write to the whole of the
block it was given, behind the header.

Three questions are answered in every state reached so: what exactly a
request takes and leaves (`buddyMalloc_takes_least`), when the elements
that `Allocator::allocate` asks for lie in the block that is handed out
(`allocate_within_iff`), and when all reads of the array of lists are in
range (`buddyMalloc_bounded_iff`).
-/

/-! ## The system -/

namespace BuddyState

/-- **What callers respect**: regions are attached in the order of their
addresses, in the half of the address space that is a process's, and are no
smaller than a page; requests are of 64 bits; only live allocations are
released, and written to, within their block. -/
def Allows (σ : BuddyState) : BuddyCall → Prop
  | .attach addr size _ => 0 < addr ∧ pageSize ≤ size ∧ addr + size ≤ 2 ^ 63
      ∧ ∀ r ∈ σ.regions, r.1 + r.2 ≤ addr
  | .malloc size => size < 2 ^ 64
  | .free addr => ∃ e ∈ σ.live, e.1 = addr
  | .write addr _ => ∃ e ∈ σ.live, e.1 ≤ addr ∧ addr < σ.stop (e.1 - buddyCalculateBlockHeadSize)

instance (σ : BuddyState) : (c : BuddyCall) → Decidable (σ.Allows c)
  | .attach addr size _ => inferInstanceAs (Decidable (0 < addr ∧ pageSize ≤ size
      ∧ addr + size ≤ 2 ^ 63 ∧ ∀ r ∈ σ.regions, r.1 + r.2 ≤ addr))
  | .malloc size => inferInstanceAs (Decidable (size < 2 ^ 64))
  | .free addr => inferInstanceAs (Decidable (∃ e ∈ σ.live, e.1 = addr))
  | .write addr _ => inferInstanceAs (Decidable (∃ e ∈ σ.live, e.1 ≤ addr
      ∧ addr < σ.stop (e.1 - buddyCalculateBlockHeadSize)))

/-- Perform a call that is allowed. -/
def next (σ : BuddyState) (c : BuddyCall) : Option BuddyState :=
  if σ.Allows c then (σ.run c).toOption else none

end BuddyState

/-- **The buddy system with requests of any size**, from a freshly
initialized head over a segment of `size` bytes. -/
def buddyRequestSystem (size : ℕ) : TransitionSystem BuddyState BuddyCall where
  init := (buddySystem size).init
  step σ c σ' := σ.Allows c ∧ σ.run c = .ok σ'

/-- The scripted runs of the system. -/
theorem BuddyState.step_of_next {n : ℕ} {σ σ' : BuddyState} {c : BuddyCall}
    (h : σ.next c = some σ') : (buddyRequestSystem n).step σ c σ' := by
  unfold BuddyState.next at h
  split at h
  · next hallows => exact ⟨hallows, Except.toOption_eq_some.mp h⟩
  · cases h

theorem BuddyState.reachable_of_trace {σ : BuddyState} {cs : List BuddyCall}
    {tr : List (BuddyState × BuddyCall)}
    (h : TransitionSystem.trace BuddyState.next [] BuddyState.fresh cs = some (tr, σ)) :
    (buddyRequestSystem 0).Reachable σ :=
  (TransitionSystem.Run.of_trace (fun _ _ _ h => BuddyState.step_of_next h)
    (.start ⟨rfl, rfl, rfl⟩) h).reachable

/-! ## What a request does to the lists -/

/-- **The list of level `k` visits the blocks at `l`**, all of which are of
this level. -/
structure FreeList (s : Buddy) (k : ℕ) (l : List ℕ) : Prop where
  linked : Linked (prevLink s.mem) (nextLink s.mem) 0 (s.head.list k) l 0
  level : ∀ a ∈ l, (blockHead s.mem a).level = k

/-- **An allocation at level `k` from the list of level `K`**, which returns
`p`. -/
structure TakesFrom (s s' : Buddy) (k K p : ℕ) : Prop where
  /-- The head of the list starts the block that is handed out. -/
  addr : p = s.head.list K + buddyCalculateBlockHeadSize
  /-- This block is of level `k`, and in use. -/
  level : (blockHead s'.mem (s.head.list K)).level = k
  busy : (blockHead s'.mem (s.head.list K)).isFree = 0
  /-- The list loses exactly its head. -/
  source : ∃ l, FreeList s K (s.head.list K :: l) ∧ FreeList s' K l
  /-- The lists below it, down to level `k`, become exactly the upper half
  cut off at their level. -/
  halves : ∀ i, k ≤ i → i < K → FreeList s' i [s.head.list K + 2 ^ i * pageSize]
  /-- All other lists are as they were. -/
  others : ∀ j, j < k ∨ K < j → ∃ l, FreeList s j l ∧ FreeList s' j l

/-! ## The elements that are asked for -/

/-- `Allocator::allocate` for `n` elements of `elementSize` bytes: the
product is one of 64-bit numbers, and `abort` is called on `NULL`. -/
def Allocator.allocate (s : Buddy) (n elementSize : ℕ) : Except Fault (ℕ × Buddy) := do
  let (ptr, s) ← buddyMalloc s (n * elementSize % 2 ^ 64)
  if ptr = 0 then .error .abort else .ok (ptr, s)

/-- **The elements lie in the block**: what is returned, and the bytes of
the elements from there on, are in the pages of the block allocated. -/
def Allocator.Within (s : Buddy) (n elementSize : ℕ) : Prop :=
  ∀ p s', Allocator.allocate s n elementSize = .ok (p, s') →
    p + n * elementSize ≤ p - buddyCalculateBlockHeadSize
      + 2 ^ (blockHead s'.mem (p - buddyCalculateBlockHeadSize)).level * pageSize

/-! ## The reads of the array of lists -/

/-- The entries `searchLevel` reads. -/
def searchReads (h : BuddyHead) : ℕ → ℕ → List ℕ
  | 0, _ => []
  | fuel + 1, levelIdx =>
    levelIdx ::
      if h.list levelIdx ≠ 0 then []
      else if levelIdx + 1 < maxBlockNum then searchReads h fuel (levelIdx + 1)
      else []

/-- `splitDown`, with the entries it reads: the condition of the loop reads
one, a turn reads this and the one below. -/
def splitDownLogged (level : ℕ) : ℕ → Buddy → Except Fault (Buddy × List ℕ)
  | 0, s => .ok (s, [0])
  | idx + 1, s =>
    if s.head.list (idx + 1) ≠ 0 ∧ level < idx + 1 then do
      let s ← splitBlock s idx
      let (s, reads) ← splitDownLogged level idx s
      .ok (s, [idx + 1, idx + 1, idx] ++ reads)
    else .ok (s, [idx + 1])

/-- **`buddyMalloc`, with the entries of the array of lists it reads.** -/
def buddyMallocLogged (s : Buddy) (size : ℕ) : Except Fault ((ℕ × Buddy) × List ℕ) := do
  let level := calculateWhichLevel ((size + buddyCalculateBlockHeadSize) % 2 ^ 64)
  let levelIdx := searchLevel s.head maxBlockNum level
  let (s', reads) ← splitDownLogged level levelIdx s
  .ok (takeBlock s' level size, searchReads s.head maxBlockNum level ++ reads ++ [level])

/-- **A request stays in bounds**: all entries it reads are entries of the
array, and `NULL` is returned from an unchanged system. -/
def StaysInBounds (s : Buddy) (size : ℕ) : Prop :=
  ∃ p s' reads, buddyMallocLogged s size = .ok ((p, s'), reads)
    ∧ (∀ i ∈ reads, i < maxBlockNum) ∧ (p = 0 → s' = s)

/-- Logging changes nothing. -/
theorem splitDownLogged_fst (level idx : ℕ) (s : Buddy) :
    (splitDownLogged level idx s).map Prod.fst = splitDown level idx s := by
  induction idx generalizing s with
  | zero => rfl
  | succ idx ih =>
    rw [splitDownLogged, splitDown]
    split
    · cases hsplit : splitBlock s idx with
      | error e => rfl
      | ok s₁ =>
        show Except.map Prod.fst (splitDownLogged level idx s₁ >>= fun r =>
          .ok (r.1, [idx + 1, idx + 1, idx] ++ r.2)) = splitDown level idx s₁
        rw [← ih s₁]
        cases splitDownLogged level idx s₁ <;> rfl
    · rfl

/-- **What is logged is the call itself.** -/
theorem buddyMallocLogged_fst (s : Buddy) (size : ℕ) :
    (buddyMallocLogged s size).map Prod.fst = buddyMalloc s size := by
  unfold buddyMallocLogged buddyMalloc
  dsimp only
  rw [← splitDownLogged_fst]
  cases splitDownLogged _ _ s <;> rfl

/-! ## The invariant -/

/-- The blocks that were handed out are kept, whatever was asked for: the
invariant holds of the state with payloads that fit. -/
def BuddyState.Serves (σ : BuddyState) (R : List Block) (A : Pool) : Prop :=
  ∃ live, live.map Prod.fst = σ.live.map Prod.fst
    ∧ (BuddyState.mk σ.buddy σ.regions live).Inv R A

/-- Where a loop over the levels ends. -/
theorem firstLevel_eq_or (p : ℕ → Bool) (n : ℕ) :
    firstLevel p n = n ∨ firstLevel p n < n ∧ p (firstLevel p n) = true := by
  unfold firstLevel
  cases h : (List.range n).find? p with
  | none => exact Or.inl rfl
  | some k =>
    obtain ⟨hk, hmem, -⟩ := List.find?_range_eq_some.mp h
    exact Or.inr ⟨List.mem_range.mp hmem, hk⟩

/-- There are levels up to 32. -/
theorem calculateWhichLevel_le (size : ℕ) : calculateWhichLevel size ≤ maxBlockNum := by
  unfold calculateWhichLevel
  rcases firstLevel_eq_or (fun l => size ≤ calculateBlockSize l) maxBlockNum with h | ⟨h, -⟩
  · exact h.le
  · exact h.le

/-- The levels of requests that are not beyond all blocks. -/
theorem le_of_calculateWhichLevel_lt {size : ℕ} (h : calculateWhichLevel size < 31) :
    size ≤ 2 ^ 42 := by
  unfold calculateWhichLevel at h
  rcases firstLevel_eq_or (fun l => size ≤ calculateBlockSize l) maxBlockNum with heq | ⟨-, hp⟩
  · rw [heq] at h
    exact absurd h (by decide)
  · have hle := of_decide_eq_true hp
    rw [calculateBlockSize_of_lt h] at hle
    have hpow : 2 ^ firstLevel (fun l => size ≤ calculateBlockSize l) maxBlockNum ≤ 2 ^ 30 :=
      Nat.pow_le_pow_right (by decide) (by omega)
    exact hle.trans (Nat.mul_le_mul_right pageSize hpow)

namespace BuddyState

variable {σ σ' : BuddyState} {R : List Block} {A : Pool} {n size k j : ℕ}

theorem Inv.serves (h : σ.Inv R A) : σ.Serves R A := ⟨σ.live, rfl, h⟩

theorem Serves.list_eq_zero_iff (h : σ.Serves R A) (j : ℕ) :
    σ.buddy.head.list j = 0 ↔ A.free j = [] := by
  obtain ⟨live, -, hinv⟩ := h
  exact hinv.free.list_eq_zero_iff hinv.pool hinv.regions j

/-- No block is of level 31. -/
theorem Serves.free_nil (h : σ.Serves R A) (hj : 31 ≤ j) : A.free j = [] := by
  obtain ⟨live, -, hinv⟩ := h
  by_contra hne
  obtain ⟨b, l, hb⟩ := List.exists_cons_of_ne_nil hne
  have hmem : b ∈ A.free j := hb ▸ List.mem_cons_self
  have hlevel := hinv.pool.level_eq j b hmem
  have hlt := hinv.pool.level_lt hinv.regions (hinv.pool.mem_of_free hmem)
  omega

/-- The lists of a state that serves a pool. -/
theorem Serves.freeList (h : σ.Serves R A) (j : ℕ) :
    FreeList σ.buddy j ((A.free j).map Block.addr) := by
  obtain ⟨live, -, hinv⟩ := h
  refine ⟨hinv.free.linked j, fun a ha => ?_⟩
  obtain ⟨b, hb, rfl⟩ := List.mem_map.mp ha
  rw [(hinv.free.holds j b hb).level]
  exact hinv.pool.level_eq j b hb

/-- **What a request of any size does.** If no list from its level on has a
block, it returns `NULL` and changes nothing; otherwise the first block of
the first such list is cut down to the level, and taken. -/
theorem Serves.malloc (h : σ.Serves R A) (size : ℕ)
    (hlevel : calculateWhichLevel ((size + buddyCalculateBlockHeadSize) % 2 ^ 64) = k) :
    ((∀ j, k ≤ j → σ.buddy.head.list j = 0) ∧ buddyMalloc σ.buddy size = .ok (0, σ.buddy))
    ∨ (∃ K b l c s', A.free K = b :: l ∧ σ.buddy.head.list K = b.addr ∧ k ≤ K ∧ K < 31
      ∧ (∀ j, k ≤ j → j < K → A.free j = [])
      ∧ buddyMalloc σ.buddy size = .ok (b.addr + buddyCalculateBlockHeadSize, s')
      ∧ (A.allocate k K).used = c :: A.used ∧ c.addr = b.addr ∧ c.level = k
      ∧ ∀ live, live.map Prod.fst
          = (b.addr + buddyCalculateBlockHeadSize) :: σ.live.map Prod.fst →
        (BuddyState.mk s' σ.regions live).Serves R (A.allocate k K)) := by
  by_cases hnone : ∀ j, k ≤ j → σ.buddy.head.list j = 0
  · exact Or.inl ⟨hnone, buddyMalloc_null hlevel hnone⟩
  right
  push Not at hnone
  obtain ⟨j, hkj, hj⟩ := hnone
  have hj31 : j < 31 := by
    by_contra hle
    exact hj ((h.list_eq_zero_iff j).mpr (h.free_nil (not_lt.mp hle)))
  obtain ⟨live, hlive, hinv⟩ := h
  set w := (size + buddyCalculateBlockHeadSize) % 2 ^ 64 with hw
  have hwle : w ≤ 2 ^ 42 := le_of_calculateWhichLevel_lt (by omega)
  obtain ⟨-, hfits, -⟩ := calculateWhichLevel_spec hwle
  rw [hlevel] at hfits
  have hpage : pageSize ≤ 2 ^ k * pageSize := Nat.le_mul_of_pos_left pageSize (Nat.two_pow_pos k)
  have hhead : buddyCalculateBlockHeadSize ≤ pageSize := by decide
  -- what is recorded of the payload is what is left behind the header
  rcases hinv.allocate (w - buddyCalculateBlockHeadSize) hlevel
    (lt_of_le_of_lt hkj (hj31.trans (by decide))) rfl (by omega) with
    ⟨hnil, -⟩ | ⟨b, c, s', hb, hlist, hle, hnil, hcall, hused, hca, hcl, hinv', -⟩
  · exact absurd ((hinv.free.list_eq_zero_iff hinv.pool hinv.regions j).mpr (hnil j hkj)) hj
  · obtain ⟨l₁, l₂, hsplit⟩ := List.append_of_mem hb
    have hfirst : A.free (searchLevel σ.buddy.head maxBlockNum k) = b :: l₂ := by
      cases l₁ with
      | nil => exact hsplit
      | cons d l₁ =>
        -- the first block is the one the list starts with
        have hd := hinv.free.list_eq (searchLevel σ.buddy.head maxBlockNum k)
        rw [hsplit] at hd
        have hdmem : d ∈ A.free (searchLevel σ.buddy.head maxBlockNum k) := by
          rw [hsplit]
          exact List.mem_cons_self
        have hdb : d = b := hinv.pool.eq_of_addr hinv.regions (hinv.pool.mem_of_free hdmem)
          (hinv.pool.mem_of_free hb) (hd.symm.trans hlist)
        have hnodup := hinv.pool.nodup (searchLevel σ.buddy.head maxBlockNum k)
        rw [hsplit, hdb] at hnodup
        simp at hnodup
    have hK : searchLevel σ.buddy.head maxBlockNum k < 31 := by
      rw [← hinv.pool.level_eq _ b hb]
      exact hinv.pool.level_lt hinv.regions (hinv.pool.mem_of_free hb)
    refine ⟨_, b, l₂, c, s', hfirst, hlist, hle, hK, hnil, hcall, hused, hca, hcl, ?_⟩
    intro live' hlive'
    exact ⟨_, by rw [hlive', List.map_cons, hlive], hinv'⟩

/-- A live allocation belongs to a block in use. -/
theorem Serves.exists_used (h : σ.Serves R A) {addr : ℕ} (hlive : ∃ e ∈ σ.live, e.1 = addr) :
    ∃ b ∈ A.used, addr = b.addr + buddyCalculateBlockHeadSize := by
  obtain ⟨live, hmap, hinv⟩ := h
  obtain ⟨e, he, rfl⟩ := hlive
  have hmem : e.1 ∈ live.map Prod.fst := by
    rw [hmap]
    exact List.mem_map_of_mem he
  obtain ⟨e', he', hea'⟩ := List.mem_map.mp hmem
  obtain ⟨b, hb, hea, -⟩ := hinv.payload e' he'
  exact ⟨b, hb, hea'.symm.trans hea⟩

/-- **What releasing a live allocation does**: the block the address belongs
to is released. -/
theorem Serves.free (h : σ.Serves R A) {addr : ℕ} (hlive : ∃ e ∈ σ.live, e.1 = addr) :
    ∃ b s', b ∈ A.used ∧ addr = b.addr + buddyCalculateBlockHeadSize
      ∧ buddyFree σ.buddy addr = .ok s'
      ∧ (BuddyState.mk s' σ.regions (σ.live.filter fun e => e.1 ≠ addr)).Serves R
        ⟨Pool.release maxBlockNum A.free b, A.used.erase b⟩
      ∧ WritesOnly (insert b.addr (freeAddrs A.free)) σ.buddy.mem s'.mem
      ∧ KeepsMarks (places R) σ.buddy.mem s'.mem := by
  obtain ⟨b, hb, hea⟩ := h.exists_used hlive
  obtain ⟨live, hmap, hinv⟩ := h
  obtain ⟨σ₁, hrun, hinv₁, hlive₁, hregions₁, hw⟩ := hinv.release hb
  obtain ⟨s', hcall, -, -, hmarks, -⟩ := buddyFree_spec hinv.regions
    (hinv.pool.perm (List.perm_cons_erase hb)) hinv.free (hinv.held b hb) (hinv.busy b hb)
  rw [← hea] at hrun hlive₁ hcall
  dsimp only [BuddyState.run] at hrun hcall
  rw [hcall] at hrun
  cases hrun
  refine ⟨b, s', hb, hea, hcall, ⟨_, ?_, hinv₁⟩, hw, hmarks⟩
  have hfilter : ∀ l : List (ℕ × ℕ), (l.filter fun x => x.1 ≠ addr).map Prod.fst
      = (l.map Prod.fst).filter fun a => a ≠ addr := fun l => by
    rw [List.filter_map]
    rfl
  rw [hfilter, hfilter, hmap]

/-- **Every call that is allowed returns**, and keeps a pool served. -/
theorem Serves.returns (h : σ.Serves R A) {c : BuddyCall} (hallows : σ.Allows c) :
    ∃ σ' R' A', σ.run c = .ok σ' ∧ σ'.Serves R' A' := by
  cases c with
  | attach addr size pid =>
    obtain ⟨live, hlive, hinv⟩ := h
    obtain ⟨hpos, hpage, hstop, hafter⟩ := hallows
    obtain ⟨σ₁, r, hrun₁, -, -, -, hinv₁⟩ := hinv.attach pid hpos hpage (by omega) (by omega) hafter
    dsimp only [BuddyState.run] at hrun₁ ⊢
    cases hcall : buddyAttchMemory σ.buddy addr size pid with
    | error e =>
      rw [hcall] at hrun₁
      cases hrun₁
    | ok r =>
      rw [hcall] at hrun₁
      cases hrun₁
      exact ⟨_, _, _, rfl, live, hlive, hinv₁⟩
  | malloc size =>
    dsimp only [BuddyState.run]
    rcases h.malloc size rfl with ⟨-, hcall⟩ |
      ⟨K, b, l, c, s', -, -, -, -, -, hcall, -, -, -, hserves⟩
    · rw [hcall]
      exact ⟨_, R, A, rfl, h⟩
    · rw [hcall]
      have hp0 : b.addr + buddyCalculateBlockHeadSize ≠ 0 := by
        unfold buddyCalculateBlockHeadSize
        omega
      refine ⟨_, R, _, rfl, hserves _ ?_⟩
      rw [if_neg hp0, List.map_cons]
  | free addr =>
    obtain ⟨b, s', -, -, hcall, hserves, -⟩ := h.free hallows
    dsimp only [BuddyState.run]
    rw [hcall]
    exact ⟨_, _, _, rfl, hserves⟩
  | write addr byte =>
    obtain ⟨e, he, hlow, hhigh⟩ := hallows
    obtain ⟨b, hb, hea⟩ := h.exists_used ⟨e, he, rfl⟩
    obtain ⟨live, hlive, hinv⟩ := h
    have hstop : σ.stop (e.1 - buddyCalculateBlockHeadSize) = b.stop := by
      rw [hea, Nat.add_sub_cancel]
      exact hinv.stop_eq (Pool.mem_of_used hb)
    rw [hstop] at hhigh
    obtain ⟨σ₁, hrun₁, hinv₁, -⟩ := hinv.write byte hb (hea ▸ hlow) hhigh
    cases hrun₁
    exact ⟨_, _, _, rfl, live, hlive, hinv₁⟩

theorem Serves.step (h : σ.Serves R A) {c : BuddyCall} (hallows : σ.Allows c)
    (hrun : σ.run c = .ok σ') : ∃ R' A', σ'.Serves R' A' := by
  obtain ⟨σ₁, R', A', hrun₁, h₁⟩ := h.returns hallows
  cases hrun.symm.trans hrun₁
  exact ⟨R', A', h₁⟩

/-- **Every reachable state serves a pool.** -/
theorem exists_serves (hσ : (buddyRequestSystem n).Reachable σ) : ∃ R A, σ.Serves R A := by
  refine hσ.invariant (I := fun σ => ∃ R A, σ.Serves R A) (fun σ hinit => ?_) ?_
  · have hinit' : (buddySystem n).init σ := hinit
    exact ⟨_, _, (Inv.init hinit').serves⟩
  · rintro σ c σ' - ⟨R, A, h⟩ ⟨hallows, hrun⟩
    exact h.step hallows hrun

end BuddyState

/-! ## What an allocation takes and leaves -/

/-- The upper half that is cut off at level `i`. -/
def Block.piece (b : Block) (i : ℕ) : Block :=
  { b with addr := b.addr + 2 ^ i * pageSize, level := i, isFirst := 1 }

/-- **The lists of a pool after an allocation**: the pieces cut off are the
lists below the one the block was taken from. -/
theorem Pool.allocate_free {A : Pool} {b : Block} {l : List Block} {k K : ℕ}
    (hF : A.free K = b :: l) (hlevel : b.level = K) (hle : k ≤ K) (j : ℕ) :
    (A.allocate k K).free j
      = if k ≤ j ∧ j < K then [b.piece j] else if j = K then l else A.free j := by
  induction K generalizing A b l with
  | zero =>
    cases Nat.le_zero.mp hle
    rw [if_neg (by omega)]
    show (A.take 0).free j = _
    rw [Pool.take_eq hF]
    exact Function.update_apply _ _ _ _
  | succ K ih =>
    by_cases hk : k = K + 1
    · subst hk
      rw [if_neg (by omega)]
      have hstop : A.splitDown (K + 1) (K + 1) = A := by
        rw [Pool.splitDown, if_neg (fun h => lt_irrefl _ h.2)]
      unfold Pool.allocate
      rw [hstop, Pool.take_eq hF]
      exact Function.update_apply _ _ _ _
    · have hcut : A.allocate k (K + 1) = (A.split K).allocate k K := by
        unfold Pool.allocate
        rw [Pool.splitDown, if_pos ⟨hF ▸ List.cons_ne_nil b l, by omega⟩]
      have hF₁ : (A.split K).free K = b.lower :: [b.upper] := by
        rw [Pool.split_free hF, Function.update_self]
      have hlower : b.lower.level = K := by
        show b.level - 1 = K
        omega
      have hupper : b.upper = b.piece K := by
        unfold Block.upper Block.piece
        rw [hlevel, Nat.add_sub_cancel]
      rw [hcut, ih hF₁ hlower (by omega), Pool.split_free hF]
      by_cases hj : k ≤ j ∧ j < K
      · rw [if_pos hj, if_pos ⟨hj.1, hj.2.trans (Nat.lt_succ_self K)⟩]
        rfl
      · rw [if_neg hj]
        by_cases hjK : j = K
        · rw [if_pos hjK, hjK, if_pos ⟨by omega, Nat.lt_succ_self K⟩, hupper]
        · rw [if_neg hjK, Function.update_of_ne hjK, if_neg (by omega)]
          exact Function.update_apply _ _ _ _

section Requests

open BuddyState

variable {σ : BuddyState} {n size k K j : ℕ}

/-- **What is taken, from a state that serves a pool.** -/
theorem BuddyState.Serves.takesFrom {R : List Block} {A : Pool} {b c : Block} {l : List Block}
    {s' : Buddy} (h : σ.Serves R A)
    (h' : (BuddyState.mk s' σ.regions ((b.addr + buddyCalculateBlockHeadSize, 0)
      :: σ.live)).Serves R (A.allocate k K))
    (hF : A.free K = b :: l) (hlist : σ.buddy.head.list K = b.addr) (hle : k ≤ K)
    (hused : (A.allocate k K).used = c :: A.used) (hca : c.addr = b.addr) (hcl : c.level = k) :
    TakesFrom σ.buddy s' k K (b.addr + buddyCalculateBlockHeadSize) := by
  have hlevel : b.level = K := by
    obtain ⟨live, -, hinv⟩ := h
    exact hinv.pool.level_eq K b (hF ▸ List.mem_cons_self)
  have hfree := Pool.allocate_free hF hlevel hle
  have hold := h.freeList
  have hnew := h'.freeList
  obtain ⟨live, -, hinv'⟩ := h'
  have hc : c ∈ (A.allocate k K).used := hused ▸ List.mem_cons_self
  refine ⟨by rw [hlist], ?_, ?_, ⟨l.map Block.addr, ?_, ?_⟩, fun i hki hiK => ?_, fun j hj => ?_⟩
  · rw [hlist, ← hca]
    exact (hinv'.held c hc).level.trans hcl
  · rw [hlist, ← hca]
    exact hinv'.busy c hc
  · have hK := hold K
    rw [hF, List.map_cons] at hK
    rw [hlist]
    exact hK
  · have hK := hnew K
    rw [hfree K, if_neg (by omega), if_pos rfl] at hK
    exact hK
  · have hi := hnew i
    rw [hfree i, if_pos ⟨hki, hiK⟩] at hi
    rw [hlist]
    exact hi
  · refine ⟨_, hold j, ?_⟩
    have hj' := hnew j
    rw [hfree j, if_neg (by omega), if_neg (by omega)] at hj'
    exact hj'

/-- **A request takes the least block there is.** For a size that some level
holds, with `k` the least such level: a block is handed out exactly if a
list from level `k` on has one; with `K` the least such level, the first
block of list `K` loses its upper halves down to level `k` and is handed
out, and no other list changes; otherwise nothing does. -/
theorem buddyMalloc_takes_least (hσ : (buddyRequestSystem n).Reachable σ)
    (hsize : size ≤ 2 ^ 42 - buddyCalculateBlockHeadSize)
    (hfits : size + buddyCalculateBlockHeadSize ≤ 2 ^ k * pageSize)
    (hleast : ∀ i < k, 2 ^ i * pageSize < size + buddyCalculateBlockHeadSize) :
    ∃ p s', buddyMalloc σ.buddy size = .ok (p, s')
      ∧ (p ≠ 0 ↔ ∃ j, k ≤ j ∧ σ.buddy.head.list j ≠ 0)
      ∧ (p = 0 → s' = σ.buddy)
      ∧ ∀ K, k ≤ K → σ.buddy.head.list K ≠ 0 →
        (∀ j, k ≤ j → j < K → σ.buddy.head.list j = 0) → TakesFrom σ.buddy s' k K p := by
  obtain ⟨R, A, h⟩ := exists_serves hσ
  have hle : size + buddyCalculateBlockHeadSize ≤ 2 ^ 42 := by
    have hhead : buddyCalculateBlockHeadSize ≤ 2 ^ 42 := by decide
    omega
  have hlevel : calculateWhichLevel ((size + buddyCalculateBlockHeadSize) % 2 ^ 64) = k := by
    rw [Nat.mod_eq_of_lt (lt_of_le_of_lt hle (by decide))]
    obtain ⟨-, hfits', hleast'⟩ := calculateWhichLevel_spec hle
    rcases lt_trichotomy (calculateWhichLevel (size + buddyCalculateBlockHeadSize)) k with
      hlt | heq | hgt
    · exact absurd hfits' (not_le.mpr (hleast _ hlt))
    · exact heq
    · exact absurd hfits (not_le.mpr (hleast' k hgt))
  rcases h.malloc size hlevel with ⟨hnone, hcall⟩ |
    ⟨K, b, l, c, s', hF, hlist, hkK, -, hnil, hcall, hused, hca, hcl, hserves⟩
  · refine ⟨0, σ.buddy, hcall, ?_, fun _ => rfl, fun K hkK hK => absurd (hnone K hkK) hK⟩
    exact iff_of_false (fun h => h rfl) fun ⟨j, hkj, hj⟩ => hj (hnone j hkj)
  · have hp : b.addr + buddyCalculateBlockHeadSize ≠ 0 := by
      unfold buddyCalculateBlockHeadSize
      omega
    have hK : σ.buddy.head.list K ≠ 0 := by
      rw [Ne, h.list_eq_zero_iff, hF]
      exact List.cons_ne_nil b l
    refine ⟨_, s', hcall, iff_of_true hp ⟨K, hkK, hK⟩, fun h0 => absurd h0 hp, ?_⟩
    intro K' hkK' hK' hmin
    -- the first list with a block is the one the search finds
    have hKK : K' = K := by
      rcases lt_trichotomy K' K with hlt | heq | hgt
      · exact absurd ((h.list_eq_zero_iff K').mpr (hnil K' hkK' hlt)) hK'
      · exact heq
      · exact absurd (hmin K hkK hgt) hK
    subst hKK
    exact h.takesFrom (hserves _ rfl) hF hlist hkK hused hca hcl

/-- A region of four pages, of which a request for 5000 bytes takes two. -/
theorem buddyMalloc_takes_least_two_pages : ∃ σ, (buddyRequestSystem 0).Reachable σ
    ∧ ∃ p s', buddyMalloc σ.buddy 5000 = .ok (p, s')
      ∧ (p ≠ 0 ↔ ∃ j, 1 ≤ j ∧ σ.buddy.head.list j ≠ 0)
      ∧ (p = 0 → s' = σ.buddy)
      ∧ ∀ K, 1 ≤ K → σ.buddy.head.list K ≠ 0 →
        (∀ j, 1 ≤ j → j < K → σ.buddy.head.list j = 0) → TakesFrom σ.buddy s' 1 K p := by
  have hrun : (TransitionSystem.trace next [] fresh [.attach 0x10000 0x4000 7]).isSome = true := by
    decide +kernel
  obtain ⟨⟨tr, σ⟩, hr⟩ := Option.isSome_iff_exists.mp hrun
  have hσ := reachable_of_trace hr
  exact ⟨σ, hσ, buddyMalloc_takes_least hσ (by decide) (by decide) (by decide)⟩

/-! ## Where the elements lie -/

/-- **The elements lie in the block exactly if their size does not wrap
around, or nothing is handed out.** -/
theorem allocate_within_iff (hσ : (buddyRequestSystem n).Reachable σ) (count elementSize : ℕ) :
    Allocator.Within σ.buddy count elementSize
      ↔ count * elementSize + buddyCalculateBlockHeadSize < 2 ^ 64
        ∨ ∀ j, calculateWhichLevel ((count * elementSize + buddyCalculateBlockHeadSize) % 2 ^ 64) ≤ j
          → σ.buddy.head.list j = 0 := by
  obtain ⟨R, A, h⟩ := exists_serves hσ
  set w := count * elementSize + buddyCalculateBlockHeadSize with hw
  have hmod : (count * elementSize % 2 ^ 64 + buddyCalculateBlockHeadSize) % 2 ^ 64
      = w % 2 ^ 64 := Nat.mod_add_mod _ _ _
  have hcall : Allocator.allocate σ.buddy count elementSize =
      buddyMalloc σ.buddy (count * elementSize % 2 ^ 64) >>= fun r =>
        if r.1 = 0 then .error .abort else .ok r := rfl
  rcases h.malloc (count * elementSize % 2 ^ 64) (by rw [hmod]) with ⟨hnone, hnull⟩ |
    ⟨K, b, l, c, s', hF, hlist, hkK, hK, hnil, hmalloc, hused, hca, hcl, hserves⟩
  · -- `NULL`: the allocator aborts
    refine iff_of_true (fun p s' hp => ?_) (.inr hnone)
    rw [hcall, hnull] at hp
    cases hp
  · have hp : b.addr + buddyCalculateBlockHeadSize ≠ 0 := by
      unfold buddyCalculateBlockHeadSize
      omega
    have hlevel : (blockHead s'.mem b.addr).level = calculateWhichLevel (w % 2 ^ 64) := by
      obtain ⟨live, -, hinv⟩ :=
        hserves ((b.addr + buddyCalculateBlockHeadSize, 0) :: σ.live) rfl
      rw [← hca]
      exact (hinv.held c (hused ▸ List.mem_cons_self)).level.trans hcl
    have hwithin : Allocator.Within σ.buddy count elementSize
        ↔ w ≤ 2 ^ calculateWhichLevel (w % 2 ^ 64) * pageSize := by
      have hok : Allocator.allocate σ.buddy count elementSize =
          .ok (b.addr + buddyCalculateBlockHeadSize, s') := by
        rw [hcall, hmalloc]
        show (if b.addr + buddyCalculateBlockHeadSize = 0 then Except.error Fault.abort
          else Except.ok (b.addr + buddyCalculateBlockHeadSize, s')) = _
        rw [if_neg hp]
      unfold Allocator.Within
      rw [hok]
      constructor
      · intro h
        have hle := h _ _ rfl
        rw [Nat.add_sub_cancel, hlevel] at hle
        omega
      · rintro hle p s'' heq
        cases heq
        rw [Nat.add_sub_cancel, hlevel]
        omega
    have hsome : ¬ ∀ j, calculateWhichLevel (w % 2 ^ 64) ≤ j → σ.buddy.head.list j = 0 := by
      intro hnone
      have h0 := (h.list_eq_zero_iff K).mp (hnone K hkK)
      rw [hF] at h0
      cases h0
    have hlt : calculateWhichLevel (w % 2 ^ 64) < 31 := lt_of_le_of_lt hkK hK
    have hpow : 2 ^ calculateWhichLevel (w % 2 ^ 64) * pageSize < 2 ^ 64 := by
      have hpow : 2 ^ calculateWhichLevel (w % 2 ^ 64) ≤ 2 ^ 30 :=
        Nat.pow_le_pow_right (by decide) (by omega)
      exact lt_of_le_of_lt (Nat.mul_le_mul_right pageSize hpow) (by decide)
    rw [hwithin, or_iff_left hsome]
    refine ⟨fun hle => lt_of_le_of_lt hle hpow, fun hlt64 => ?_⟩
    have hmod' : w % 2 ^ 64 = w := Nat.mod_eq_of_lt hlt64
    rw [hmod'] at hlt ⊢
    exact (calculateWhichLevel_spec (le_of_calculateWhichLevel_lt hlt)).2.1

/-- Three elements of 100 bytes. -/
theorem allocate_within_iff_three : ∃ σ, (buddyRequestSystem 0).Reachable σ
    ∧ Allocator.Within σ.buddy 3 100 := by
  have hrun : (TransitionSystem.trace next [] fresh [.attach 0x10000 0x4000 7]).isSome = true := by
    decide +kernel
  obtain ⟨⟨tr, σ⟩, hr⟩ := Option.isSome_iff_exists.mp hrun
  have hσ := reachable_of_trace hr
  exact ⟨σ, hσ, (allocate_within_iff hσ 3 100).mpr (.inl (by decide))⟩

/-- **`2 ^ 61` elements of eight bytes are granted in one page**: their size
is zero modulo `2 ^ 64`. -/
theorem allocate_not_within :
    ¬ ∀ σ, (buddyRequestSystem 0).Reachable σ → ∀ count < 2 ^ 64, ∀ elementSize < 2 ^ 64,
      Allocator.Within σ.buddy count elementSize := by
  intro h
  have hrun : (TransitionSystem.trace next [] fresh [.attach 0x10000 0x4000 7]).map
      (fun r => (Allocator.allocate r.2.buddy (2 ^ 61) 8).toOption.map
        fun q => (q.1, (blockHead q.2.mem 0x10000).level)) = some (some (0x1003c, 0)) := by
    decide +kernel
  obtain ⟨⟨tr, σ⟩, hr, hcall⟩ := Option.map_eq_some_iff.mp hrun
  have hσ := reachable_of_trace hr
  obtain ⟨⟨p, s'⟩, hok, hq⟩ := Option.map_eq_some_iff.mp hcall
  obtain ⟨rfl, hlevel⟩ := Prod.mk.inj hq
  have hallocate : Allocator.allocate σ.buddy (2 ^ 61) 8 = .ok (0x1003c, s') := by
    cases hres : Allocator.allocate σ.buddy (2 ^ 61) 8 with
    | error e =>
      rw [hres] at hok
      cases hok
    | ok q =>
      rw [hres] at hok
      exact congrArg Except.ok (Option.some.inj hok)
  have hwithin := h σ hσ (2 ^ 61) (by decide) 8 (by decide) _ _ hallocate
  dsimp only at hlevel
  rw [show 0x1003c - buddyCalculateBlockHeadSize = 0x10000 from rfl, hlevel] at hwithin
  exact absurd hwithin (by decide)

/-! ## Which entries are read -/

/-- The search stays within the array, if it starts there. -/
theorem searchReads_lt {h : BuddyHead} {level i : ℕ} (hlt : level < maxBlockNum)
    (hi : i ∈ searchReads h n level) : i < maxBlockNum := by
  induction n generalizing level with
  | zero => cases hi
  | succ n ih =>
    rw [searchReads] at hi
    rcases List.mem_cons.mp hi with rfl | hi
    · exact hlt
    · split at hi
      · cases hi
      · split at hi
        · next hnext => exact ih hnext hi
        · cases hi

/-- The cuts go down from where they start. -/
theorem splitDownLogged_le {level idx i : ℕ} {s s' : Buddy} {reads : List ℕ}
    (h : splitDownLogged level idx s = .ok (s', reads)) (hi : i ∈ reads) : i ≤ idx := by
  induction idx generalizing s s' reads with
  | zero =>
    cases h
    exact (List.mem_singleton.mp hi).le
  | succ idx ih =>
    rw [splitDownLogged] at h
    split at h
    · obtain ⟨s₁, -, h⟩ := Except.bind_eq_ok.mp h
      obtain ⟨r, hlogged, h⟩ := Except.bind_eq_ok.mp h
      cases h
      rcases List.mem_append.mp hi with hi | hi
      · simp only [List.mem_cons, List.not_mem_nil, or_false] at hi
        omega
      · exact (ih hlogged hi).trans (Nat.le_succ idx)
    · cases h
      exact (List.mem_singleton.mp hi).le

/-- What a logged call has read. -/
theorem reads_of_buddyMallocLogged {s : Buddy} {size level : ℕ} {r : ℕ × Buddy} {reads : List ℕ}
    (hlevel : calculateWhichLevel ((size + buddyCalculateBlockHeadSize) % 2 ^ 64) = level)
    (h : buddyMallocLogged s size = .ok (r, reads)) :
    ∃ s₁ cuts, splitDownLogged level (searchLevel s.head maxBlockNum level) s = .ok (s₁, cuts)
      ∧ reads = searchReads s.head maxBlockNum level ++ cuts ++ [level] := by
  unfold buddyMallocLogged at h
  dsimp only at h
  rw [hlevel] at h
  obtain ⟨q, hcut, h⟩ := Except.bind_eq_ok.mp h
  exact ⟨q.1, q.2, hcut, (congrArg Prod.snd (Except.ok.inj h)).symm⟩

/-- **A request stays within the array of lists exactly if a list from its
level on has a block**; that `NULL` is returned from an unchanged system
holds anyway. -/
theorem buddyMalloc_bounded_iff (hσ : (buddyRequestSystem n).Reachable σ) (size : ℕ) :
    StaysInBounds σ.buddy size
      ↔ ∃ j, calculateWhichLevel ((size + buddyCalculateBlockHeadSize) % 2 ^ 64) ≤ j
        ∧ j < maxBlockNum ∧ σ.buddy.head.list j ≠ 0 := by
  obtain ⟨R, A, h⟩ := exists_serves hσ
  set level := calculateWhichLevel ((size + buddyCalculateBlockHeadSize) % 2 ^ 64) with hlevel
  have hle : level ≤ maxBlockNum := calculateWhichLevel_le _
  constructor
  · rintro ⟨p, s', reads, hlogged, hreads, -⟩
    by_contra hnone
    push Not at hnone
    -- then the entry after the last is read, by the search or by the cuts
    suffices hmem : maxBlockNum ∈ reads by exact lt_irrefl _ (hreads _ hmem)
    obtain ⟨s₁, cuts, hcut, rfl⟩ := reads_of_buddyMallocLogged hlevel.symm hlogged
    rcases Nat.lt_or_eq_of_le hle with hlt | heq
    · obtain ⟨hge, hmax, -, hfound⟩ := searchLevel_spec (h := σ.buddy.head) (n := maxBlockNum)
        hlt (by omega)
      have hend : searchLevel σ.buddy.head maxBlockNum level = maxBlockNum := by
        by_contra hne
        have hlt' := Nat.lt_of_le_of_ne hmax hne
        exact hfound hlt' (hnone _ hge hlt')
      rw [hend] at hcut
      have hnull : σ.buddy.head.list maxBlockNum = 0 := dif_neg (lt_irrefl _)
      have hstop : splitDownLogged level maxBlockNum σ.buddy = .ok (σ.buddy, [maxBlockNum]) :=
        if_neg fun h => h.1 hnull
      rw [hstop] at hcut
      cases hcut
      exact List.mem_append_left _ (List.mem_append_right _ List.mem_cons_self)
    · rw [heq]
      exact List.mem_append_left _ (List.mem_append_left _ List.mem_cons_self)
  · rintro ⟨j, hlj, hj, hne⟩
    have hlt : level < maxBlockNum := lt_of_le_of_lt hlj hj
    obtain ⟨hge, hmax, hnil, -⟩ := searchLevel_spec (h := σ.buddy.head) (n := maxBlockNum)
      hlt (by omega)
    have hidx : searchLevel σ.buddy.head maxBlockNum level < maxBlockNum := by
      by_contra hnot
      exact hne (hnil j hlj (by omega))
    -- the call returns, and so does its logged form
    have hcall : ∃ p s', buddyMalloc σ.buddy size = .ok (p, s') ∧ (p = 0 → s' = σ.buddy) := by
      rcases h.malloc size rfl with ⟨-, hcall⟩ |
        ⟨K, b, l, c, s', -, -, -, -, -, hcall, -⟩
      · exact ⟨0, _, hcall, fun _ => rfl⟩
      · refine ⟨_, s', hcall, fun h0 => ?_⟩
        unfold buddyCalculateBlockHeadSize at h0
        omega
    obtain ⟨p, s', hcall, hnull⟩ := hcall
    rw [← buddyMallocLogged_fst] at hcall
    cases hlogged : buddyMallocLogged σ.buddy size with
    | error e =>
      rw [hlogged] at hcall
      cases hcall
    | ok r =>
      obtain ⟨⟨p', s''⟩, reads⟩ := r
      rw [hlogged] at hcall
      cases hcall
      refine ⟨p, s', reads, hlogged, fun i hi => ?_, hnull⟩
      obtain ⟨s₁, cuts, hcut, rfl⟩ := reads_of_buddyMallocLogged hlevel.symm hlogged
      rcases List.mem_append.mp hi with hi | hi
      · rcases List.mem_append.mp hi with hi | hi
        · exact searchReads_lt hlt hi
        · exact lt_of_le_of_lt (splitDownLogged_le hcut hi) hidx
      · exact (List.mem_singleton.mp hi).trans_lt hlt

/-- A request that is granted, and one that is not. -/
theorem buddyMalloc_bounded_iff_two : ∃ σ, (buddyRequestSystem 0).Reachable σ
    ∧ (StaysInBounds σ.buddy 5000 ↔ True) ∧ (StaysInBounds σ.buddy 50000 ↔ False) := by
  have hrun : (TransitionSystem.trace next [] fresh [.attach 0x10000 0x4000 7]).map
      (fun r => (List.range maxBlockNum).map r.2.buddy.head.list) =
      some ([0, 0, 0x10000] ++ List.replicate 29 0) := by
    decide +kernel
  obtain ⟨⟨tr, σ⟩, hr, hlist⟩ := Option.map_eq_some_iff.mp hrun
  have hσ := reachable_of_trace hr
  have hlist' : ∀ j < maxBlockNum, σ.buddy.head.list j
      = ([0, 0, 0x10000] ++ List.replicate 29 0)[j]?.getD 0 := by
    intro j hj
    rw [← hlist, List.getElem?_map, List.getElem?_range hj]
    rfl
  refine ⟨σ, hσ, (buddyMalloc_bounded_iff hσ 5000).trans (iff_of_true ⟨2, ?_⟩ trivial),
    (buddyMalloc_bounded_iff hσ 50000).trans (iff_false_intro ?_)⟩
  · rw [hlist' 2 (by decide)]
    decide
  · rintro ⟨j, hle, hj, hne⟩
    have hnone : ∀ j < maxBlockNum,
        calculateWhichLevel ((50000 + buddyCalculateBlockHeadSize) % 2 ^ 64) ≤ j →
        ([0, 0, 0x10000] ++ List.replicate 29 0)[j]?.getD 0 = 0 := by
      decide +kernel
    exact hne ((hlist' j hj).trans (hnone j hj hle))

/-- **Exhaustion reads past the array**: no list has a block for the
request, and the search goes on to the entry after the last. -/
theorem buddyMalloc_not_bounded :
    ¬ ∀ σ, (buddyRequestSystem 0).Reachable σ → ∀ size < 2 ^ 64, StaysInBounds σ.buddy size := by
  intro h
  have hrun : (TransitionSystem.trace next [] fresh [.attach 0x10000 0x4000 7]).map
      (fun r => (buddyMallocLogged r.2.buddy 50000).toOption.map
        fun q => decide (maxBlockNum ∈ q.2)) = some (some true) := by
    decide +kernel
  obtain ⟨⟨tr, σ⟩, hr, hcall⟩ := Option.map_eq_some_iff.mp hrun
  obtain ⟨p, s', reads, hlogged, hreads, -⟩ := h σ (reachable_of_trace hr) 50000 (by decide)
  dsimp only at hcall
  rw [hlogged] at hcall
  have hmem : maxBlockNum ∈ reads := of_decide_eq_true (Option.some.inj hcall)
  exact lt_irrefl _ (hreads _ hmem)

end Requests
