import CoinData.BuddySystem
import CoinData.BuddySiblings

/-!
# A buddy system over one region

What a buddy system promises over its blocks' sizes and places – that a
block starts at a multiple of its size, and that memory which is released
comes together again – hangs on the merges in `buddyFree`. The test
`buddyIsBuddy` does not compare offsets: it accepts two neighbours of one
level whose flags are not in the wrong order, and the flags are assigned
when a block is cut and not restored when it is merged. So a release may
merge neighbours that are not halves of one block, and may refuse the
other half of its own.

The two theorems say exactly when this does not happen. Both conditions
are about the state before a release: following the blocks it comes to by
merging siblings, the first block the test accepts is the sibling, and the
sibling, if it is free, is accepted.
-/

/-- **A buddy system over one region**, of `n` bytes from address `a`: it is
attached to a fresh head, and nothing else is. -/
def regionSystem (a n pid : ℕ) : TransitionSystem BuddyState BuddyCall where
  init σ := ∃ size σ₀, (buddySystem size).init σ₀
    ∧ (buddySystem size).step σ₀ (.attach a n pid) σ
  step σ c σ' := (∀ addr size pid, c ≠ .attach addr size pid) ∧ (buddySystem 0).step σ c σ'

/-- A script that attaches one region to a fresh system runs over it. -/
theorem region_run_of_exec {a n pid : ℕ} {cs : List BuddyCall} {σ : BuddyState}
    (hcs : ∀ c ∈ cs, ∀ addr size pid, c ≠ .attach addr size pid)
    (he : BuddyState.fresh.exec (.attach a n pid :: cs) = some σ) :
    ∃ tr, (regionSystem a n pid).Run tr σ := by
  obtain ⟨hadm, σ₁, hrun, he'⟩ := BuddyState.exec_cons.mp he
  have hstart : (regionSystem a n pid).Run [] σ₁ :=
    .start ⟨0, BuddyState.fresh, ⟨rfl, rfl, rfl⟩, hadm, hrun⟩
  generalize [] = tr at hstart
  clear he hadm hrun
  induction cs generalizing σ₁ tr with
  | nil => exact ⟨tr, Option.some.inj he' ▸ hstart⟩
  | cons c cs ih =>
    obtain ⟨hadm, σ₂, hrun, he''⟩ := BuddyState.exec_cons.mp he'
    obtain ⟨hc, hcs'⟩ := List.forall_mem_cons.mp hcs
    exact ih hcs' σ₂ he'' _ (.snoc hstart ⟨hc, hadm, hrun⟩)

namespace BuddyState

/-- Where the other half of the parent of a block of level `j` at `c`
starts. -/
def siblingOf (a j c : ℕ) : ℕ := a + sibling (2 ^ j * pageSize) (c - a)

/-- Whether a block at `c`, when it has come to level `j`, is taken for a
buddy of the block at `d`. -/
def Accepts (σ : BuddyState) (j c d : ℕ) : Prop :=
  buddyIsBuddy c { blockHead σ.buddy.mem c with level := j } d (blockHead σ.buddy.mem d) = true

/-- **The blocks a release comes to** by merging with siblings: level and
address, starting from the block at `c₀`. -/
inductive Climbs (σ : BuddyState) (a c₀ : ℕ) : ℕ → ℕ → Prop
  | start : Climbs σ a c₀ (σ.level c₀) c₀
  | up {j c : ℕ} : Climbs σ a c₀ j c → σ.OnList j (siblingOf a j c) →
      σ.Accepts j c (siblingOf a j c) → Climbs σ a c₀ (j + 1) (min c (siblingOf a j c))

/-- A release only meets siblings: if any free block is accepted, the first
one accepted is the sibling. -/
def MeetsSiblings (σ : BuddyState) (a : ℕ) : BuddyCall → Prop
  | .free p => ∀ j c, σ.Climbs a (p - buddyCalculateBlockHeadSize) j c →
      ∀ d, σ.OnList j d → σ.Accepts j c d → siblingOf a j c ≤ d
        ∧ σ.OnList j (siblingOf a j c) ∧ σ.Accepts j c (siblingOf a j c)
  | _ => True

/-- A release accepts its siblings: a sibling that is free is accepted. -/
def AcceptsSiblings (σ : BuddyState) (a : ℕ) : BuddyCall → Prop
  | .free p => ∀ j c, σ.Climbs a (p - buddyCalculateBlockHeadSize) j c →
      σ.OnList j (siblingOf a j c) → σ.Accepts j c (siblingOf a j c)
  | _ => True

/-- Every block starts at a multiple of its size in the region. -/
def AlignedBlocks (σ : BuddyState) (a : ℕ) : Prop :=
  ∀ c, σ.IsBlock c → 2 ^ σ.level c * pageSize ∣ c - a

/-- The only free block is the one at `a`, of level `L`. -/
def Coalesced (σ : BuddyState) (a L : ℕ) : Prop := ∀ k c, σ.OnList k c ↔ k = L ∧ c = a

/-- A request is granted. -/
def Grants (σ : BuddyState) (size : ℕ) : Prop :=
  ∃ p s, buddyMalloc σ.buddy size = .ok (p, s) ∧ p ≠ 0

namespace Inv

variable {σ σ' : BuddyState} {r b c e : Block} {A : Pool} {j x : ℕ}

/-! ## The conditions, on pools -/

/-- The test, on a block that has come to its level from the block whose
header it has. -/
theorem accepts_iff (h : σ.Inv [r] A)
    (hc : c = { blockAt σ.buddy.mem c.addr with level := c.level }) (he : e ∈ A.blocks) :
    σ.Accepts c.level c.addr e.addr ↔ c.isBuddy e = true := by
  have hblock := (h.holds he).block
  have hc₁ : (blockHead σ.buddy.mem c.addr).isFirst = c.isFirst := (congrArg Block.isFirst hc).symm
  have hc₂ : (blockHead σ.buddy.mem c.addr).hostPid = c.hostPid := (congrArg Block.hostPid hc).symm
  have hc₃ : (blockHead σ.buddy.mem c.addr).memoryIdx = c.memoryIdx :=
    (congrArg Block.memoryIdx hc).symm
  have he₀ : (blockHead σ.buddy.mem e.addr).level = e.level := congrArg Block.level hblock
  have he₁ : (blockHead σ.buddy.mem e.addr).isFirst = e.isFirst := congrArg Block.isFirst hblock
  have he₂ : (blockHead σ.buddy.mem e.addr).hostPid = e.hostPid := congrArg Block.hostPid hblock
  have he₃ : (blockHead σ.buddy.mem e.addr).memoryIdx = e.memoryIdx :=
    congrArg Block.memoryIdx hblock
  unfold BuddyState.Accepts Block.isBuddy buddyIsBuddy
  dsimp only
  rw [hc₁, hc₂, hc₃, he₀, he₁, he₂, he₃]
  rfl

/-- A block a release comes to has the header that lies where it starts. -/
theorem header_of_climbs (h : σ.Inv [r] A) (hb : b ∈ A.used)
    (hc : Pool.Climbs r.addr A.free b c) :
    c = { blockAt σ.buddy.mem c.addr with level := c.level } := by
  induction hc with
  | start => rw [(h.held b hb).block]
  | @up c e _ he _ hbuddy ih =>
    have hel := h.pool.level_eq c.level e he
    obtain ⟨x, hx, hmerge, -⟩ := Block.merge_eq hel.symm
    rw [hmerge]
    rcases hx with rfl | rfl
    · have hlevel := congrArg (fun y : Block => { y with level := x.level + 1 }) ih
      exact hlevel
    · dsimp only
      rw [(h.holds (h.pool.mem_of_free he)).block]

/-- Where a merge with an accepted block starts, and its level. -/
theorem merge_addr (h : σ.Inv [r] A) (he : e ∈ A.free c.level) (hb : c.isBuddy e = true) :
    (c.merge e).addr = min c.addr e.addr ∧ (c.merge e).level = c.level + 1 := by
  have hel := h.pool.level_eq c.level e he
  have hlt := h.pool.level_lt h.regions (h.pool.mem_of_free he)
  obtain ⟨hl, -, -, hm, hside⟩ := (Block.isBuddy_iff (by omega)).mp hb
  obtain ⟨h₁, h₂, -, -⟩ := Block.merge_spec hl hm hside
  exact ⟨h₁, h₂⟩

/-- **The climb in memory is the climb in the pool.** -/
theorem climbs_iff (h : σ.Inv [r] A) (hb : b ∈ A.used) :
    σ.Climbs r.addr b.addr j x
      ↔ ∃ c, Pool.Climbs r.addr A.free b c ∧ c.level = j ∧ c.addr = x := by
  constructor
  · intro hcl
    induction hcl with
    | start => exact ⟨b, .start, (h.level_eq (Pool.mem_of_used hb)).symm, rfl⟩
    | up _ hlist hacc ih =>
      obtain ⟨c, hc, rfl, rfl⟩ := ih
      obtain ⟨e, he, hea⟩ := h.onList_iff.mp hlist
      have hs : e.addr = c.siblingAddr r.addr := hea
      rw [← hea] at hacc
      have hbuddy := (h.accepts_iff (h.header_of_climbs hb hc) (h.pool.mem_of_free he)).mp hacc
      obtain ⟨haddr, hlevel⟩ := h.merge_addr he hbuddy
      exact ⟨c.merge e, .up hc he hs hbuddy, hlevel, by rw [haddr, hea]⟩
  · rintro ⟨c, hc, rfl, rfl⟩
    induction hc with
    | start =>
      rw [← h.level_eq (Pool.mem_of_used hb)]
      exact .start
    | @up c e hc he hs hbuddy ih =>
      obtain ⟨haddr, hlevel⟩ := h.merge_addr he hbuddy
      have hacc := (h.accepts_iff (h.header_of_climbs hb hc) (h.pool.mem_of_free he)).mpr hbuddy
      have hs' : e.addr = BuddyState.siblingOf r.addr c.level c.addr := hs
      rw [haddr, hlevel, hs']
      rw [hs'] at hacc
      exact .up ih (h.onList_iff.mpr ⟨e, he, hs'⟩) hacc

/-- **The first condition on a release**, on the pool. -/
theorem meetsSiblings_iff (h : σ.Inv [r] A) (hb : b ∈ A.used) :
    σ.MeetsSiblings r.addr (.free (b.addr + buddyCalculateBlockHeadSize))
      ↔ ∀ c, Pool.Climbs r.addr A.free b c → Pool.MeetsSibling r.addr A.free c := by
  dsimp only [BuddyState.MeetsSiblings]
  rw [Nat.add_sub_cancel]
  constructor
  · intro hm c hc d hd hbd
    have hacc := fun {e} (he : e ∈ A.free c.level) =>
      h.accepts_iff (h.header_of_climbs hb hc) (h.pool.mem_of_free he)
    obtain ⟨hle, hlist, hs⟩ := hm c.level c.addr ((h.climbs_iff hb).mpr ⟨c, hc, rfl, rfl⟩) d.addr
      (h.onList_iff.mpr ⟨d, hd, rfl⟩) ((hacc hd).mpr hbd)
    obtain ⟨e, he, hea⟩ := h.onList_iff.mp hlist
    rw [← hea] at hs
    exact ⟨hle, e, he, hea, (hacc he).mp hs⟩
  · intro hm j x hcl d hlist hacc
    obtain ⟨c, hc, rfl, rfl⟩ := (h.climbs_iff hb).mp hcl
    have hacc' := fun {e} (he : e ∈ A.free c.level) =>
      h.accepts_iff (h.header_of_climbs hb hc) (h.pool.mem_of_free he)
    obtain ⟨d, hd, rfl⟩ := h.onList_iff.mp hlist
    obtain ⟨hle, e, he, hea, heb⟩ := hm c hc d hd ((hacc' hd).mp hacc)
    have hea' : e.addr = BuddyState.siblingOf r.addr c.level c.addr := hea
    refine ⟨hle, h.onList_iff.mpr ⟨e, he, hea'⟩, ?_⟩
    rw [← hea']
    exact (hacc' he).mpr heb

/-- **The second condition on a release**, on the pool. -/
theorem acceptsSiblings_iff (h : σ.Inv [r] A) (hb : b ∈ A.used) :
    σ.AcceptsSiblings r.addr (.free (b.addr + buddyCalculateBlockHeadSize))
      ↔ ∀ c, Pool.Climbs r.addr A.free b c → Pool.AcceptsSibling r.addr A.free c := by
  dsimp only [BuddyState.AcceptsSiblings]
  rw [Nat.add_sub_cancel]
  constructor
  · intro hm c hc e he hs
    have hs' : e.addr = BuddyState.siblingOf r.addr c.level c.addr := hs
    have hacc := hm c.level c.addr ((h.climbs_iff hb).mpr ⟨c, hc, rfl, rfl⟩)
      (h.onList_iff.mpr ⟨e, he, hs'⟩)
    rw [← hs'] at hacc
    exact (h.accepts_iff (h.header_of_climbs hb hc) (h.pool.mem_of_free he)).mp hacc
  · intro hm j x hcl hlist
    obtain ⟨c, hc, rfl, rfl⟩ := (h.climbs_iff hb).mp hcl
    obtain ⟨e, he, hea⟩ := h.onList_iff.mp hlist
    rw [← hea]
    exact (h.accepts_iff (h.header_of_climbs hb hc) (h.pool.mem_of_free he)).mpr (hm c hc e he hea)

/-- Alignment, on the pool. -/
theorem alignedBlocks_iff (h : σ.Inv [r] A) :
    σ.AlignedBlocks r.addr ↔ Pool.AlignedAll r.addr A := by
  constructor
  · intro hal b hb
    have hdvd := hal b.addr (h.isBlock_iff.mpr ⟨b, hb, rfl⟩)
    rw [h.level_eq hb] at hdvd
    exact hdvd
  · intro hal c hc
    obtain ⟨b, hb, rfl⟩ := h.isBlock_iff.mp hc
    rw [h.level_eq hb]
    exact hal b hb

end Inv

end BuddyState

/-! ## Steps -/

namespace BuddyState.Inv

variable {σ σ' : BuddyState} {r b : Block} {A : Pool} {a n pid size : ℕ} {call : BuddyCall}

/-- **What a step does to the pool** of a system over one region. -/
theorem region_cases (h : σ.Inv [r] A) (hstep : (regionSystem a n pid).step σ call σ') :
    (∃ A', σ'.Inv [r] A' ∧ (∀ p, call ≠ .free p) ∧ (A' = A ∨ ∃ idx level b l, A.free idx = b :: l
      ∧ level ≤ idx ∧ (∀ j, level ≤ j → j < idx → A.free j = []) ∧ A' = A.allocate level idx))
    ∨ (∃ b ∈ A.used, call = .free (b.addr + buddyCalculateBlockHeadSize)
      ∧ σ'.Inv [r] ⟨Pool.release maxBlockNum A.free b, A.used.erase b⟩) := by
  obtain ⟨hattach, hadm, hrun⟩ := hstep
  cases call with
  | attach addr size pid => exact absurd rfl (hattach addr size pid)
  | malloc size =>
    left
    rcases h.malloc hadm rfl rfl with ⟨-, hrun'⟩ | ⟨b, σ'', hb, -, hle, hnil, hrun', hinv, -⟩ <;>
      rw [hrun] at hrun' <;> rw [Except.ok.inj hrun']
    · exact ⟨A, h, nofun, Or.inl rfl⟩
    · cases hF : A.free (searchLevel σ.buddy.head maxBlockNum
          (calculateWhichLevel (size + buddyCalculateBlockHeadSize))) with
      | nil =>
        rw [hF] at hb
        cases hb
      | cons d l => exact ⟨_, hinv, nofun, Or.inr ⟨_, _, d, l, hF, hle, hnil, rfl⟩⟩
  | free addr =>
    right
    obtain ⟨e, he, rfl⟩ := hadm
    obtain ⟨b, hb, hea, -⟩ := h.payload e he
    obtain ⟨σ'', hrun', hinv, -⟩ := h.release hb
    rw [← hea, hrun] at hrun'
    rw [Except.ok.inj hrun']
    exact ⟨b, hb, by rw [hea], hinv⟩
  | write addr byte =>
    left
    obtain ⟨e, he, hlow, hhigh⟩ := hadm
    obtain ⟨b, hb, hea, hstop⟩ := h.payload e he
    obtain ⟨σ'', hrun', hinv, -⟩ := h.write byte hb (hea ▸ hlow) (hhigh.trans_le hstop)
    rw [hrun] at hrun'
    rw [Except.ok.inj hrun']
    exact ⟨A, hinv, nofun, Or.inl rfl⟩

/-- **The start**: the region is the only block. -/
theorem region_init (hinit : (regionSystem a n pid).init σ) : ∃ r A, σ.Inv [r] A ∧ r.addr = a
    ∧ r.level = calculateBlockLevel n ∧ A = ⟨Function.update (fun _ => []) r.level [r], []⟩ := by
  obtain ⟨size, σ₀, hinit, hadm, hrun⟩ := hinit
  obtain ⟨hpos, hpage, hmax, hstop, hafter⟩ := hadm
  obtain ⟨σ', r, hrun', hra, hrl, -, hinv⟩ := (BuddyState.Inv.init hinit).attach pid hpos hpage
    (hmax.trans (by decide)) hstop hafter
  rw [hrun] at hrun'
  rw [Except.ok.inj hrun']
  exact ⟨r, _, hinv, hra, hrl, rfl⟩

/-- What a pool over one region owes to be able to coalesce. -/
def Coalescible (r : Block) (A : Pool) : Prop :=
  Pool.AlignedAll r.addr A ∧ Pool.UnpairedBut r.addr ∅ A.free

/-- A fresh system over one region can coalesce. -/
theorem coalescible_init (h : σ.Inv [r] A)
    (hA : A = ⟨Function.update (fun _ => []) r.level [r], []⟩) : Coalescible r A := by
  have hmem : ∀ {k b}, b ∈ A.free k → b = r := by
    intro k b hb
    rw [hA] at hb
    change b ∈ Function.update (fun _ => []) r.level [r] k at hb
    by_cases hk : k = r.level
    · rw [hk, Function.update_self] at hb
      exact List.mem_singleton.mp hb
    · rw [Function.update_of_ne hk] at hb
      cases hb
  refine ⟨fun b hb => ?_, fun k b hb c hc hs => ?_⟩
  · have hbr : b = r := by
      rcases h.pool.mem_blocks.mp hb with ⟨k, hk⟩ | hb
      · exact hmem hk
      · rw [hA] at hb
        cases hb
    rw [hbr]
    unfold Block.Aligned
    rw [Nat.sub_self]
    exact Nat.dvd_zero _
  · rw [hmem hb, hmem hc] at hs
    exact absurd hs (r.addr_ne_siblingAddr r.addr)

/-- A release keeps a system aligned exactly if it only meets siblings. -/
theorem aligned_release_iff (h : σ.Inv [r] A) (hb : b ∈ A.used)
    (hinv : σ'.Inv [r] ⟨Pool.release maxBlockNum A.free b, A.used.erase b⟩)
    (hal : σ.AlignedBlocks r.addr) : σ'.AlignedBlocks r.addr
      ↔ σ.MeetsSiblings r.addr (.free (b.addr + buddyCalculateBlockHeadSize)) := by
  have hperm := List.perm_cons_erase hb
  have hA : (Pool.mk A.free (b :: A.used.erase b)).Inv [r] := h.pool.perm hperm
  have hal' : Pool.AlignedAll r.addr ⟨A.free, b :: A.used.erase b⟩ := by
    intro c hc
    refine h.alignedBlocks_iff.mp hal c ?_
    exact (hperm.append_left _).mem_iff.mpr hc
  rw [hinv.alignedBlocks_iff, h.meetsSiblings_iff hb]
  exact hA.alignedAll_release_iff h.regions hal' (by unfold maxBlockNum; omega)

end BuddyState.Inv

/-! ## Alignment -/

/-- **When blocks stay aligned.** In every run, all blocks are aligned in
every state exactly if every release only meets siblings. -/
theorem buddy_aligned_iff {a n pid : ℕ} {tr : List (BuddyState × BuddyCall)} {σ : BuddyState}
    (hr : (regionSystem a n pid).Run tr σ) :
    TransitionSystem.Throughout (fun σ => σ.AlignedBlocks a) tr σ
      ↔ TransitionSystem.Met (fun σ call => σ.MeetsSiblings a call) tr := by
  refine TransitionSystem.Run.forall_iff (J := fun σ => ∃ r A, σ.Inv [r] A ∧ r.addr = a)
    (fun σ hinit => ?_) ?_ ?_ hr
  · obtain ⟨r, A, h, rfl, -, hA⟩ := BuddyState.Inv.region_init hinit
    exact ⟨h.alignedBlocks_iff.mpr (h.coalescible_init hA).1, r, A, h, rfl⟩
  · rintro σ call σ' hal ⟨r, A, h, rfl⟩ hstep hcond
    rcases h.region_cases hstep with ⟨A', h', -, hA'⟩ | ⟨b, hb, rfl, h'⟩
    · refine ⟨h'.alignedBlocks_iff.mpr ?_, r, A', h', rfl⟩
      have hal' := h.alignedBlocks_iff.mp hal
      rcases hA' with rfl | ⟨idx, level, b, l, hF, hle, hnil, rfl⟩
      · exact hal'
      · exact h.pool.alignedAll_allocate h.regions hal' hF hle hnil
    · exact ⟨(h.aligned_release_iff hb h' hal).mpr hcond, r, _, h', rfl⟩
  · rintro σ call σ' hal ⟨r, A, h, rfl⟩ hstep hcond hal'
    rcases h.region_cases hstep with ⟨A', h', hfree, -⟩ | ⟨b, hb, rfl, h'⟩
    · refine hcond ?_
      cases call with
      | free p => exact absurd rfl (hfree p)
      | _ => trivial
    · exact hcond ((h.aligned_release_iff hb h' hal).mp hal')

/-- **Blocks do not always stay aligned**: four blocks of a page are handed
out, and the second and the third are released. They are halves of
different blocks, and are merged. -/
theorem buddy_misaligned_merge : ∃ tr σ, (regionSystem 0x10000 0x4000 7).Run tr σ
    ∧ ¬ σ.AlignedBlocks 0x10000 := by
  have hexec : (BuddyState.fresh.exec [.attach 0x10000 0x4000 7, .malloc 100, .malloc 100,
      .malloc 100, .malloc 100, .free 0x1103c, .free 0x1203c]).map
      (fun σ => (σ.buddy.head.list 1, σ.level 0x11000)) = some (0x11000, 1) := by decide +kernel
  obtain ⟨σ, hσ, heq⟩ := Option.map_eq_some_iff.mp hexec
  obtain ⟨hlist, hlevel⟩ := Prod.mk.inj heq
  obtain ⟨tr, hr⟩ := region_run_of_exec (by simp) hσ
  refine ⟨tr, σ, hr, fun hal => ?_⟩
  have hon : σ.OnList 1 0x11000 := by
    unfold BuddyState.OnList
    rw [hlist]
    exact .here (by decide)
  have hdvd := hal 0x11000 (Or.inl ⟨1, hon⟩)
  rw [hlevel] at hdvd
  revert hdvd
  decide

/-- The characterization, on that run: one of its releases meets a block
that is not the sibling. -/
theorem buddy_aligned_iff_misaligned : ∃ tr σ, (regionSystem 0x10000 0x4000 7).Run tr σ
    ∧ (TransitionSystem.Throughout (fun σ => σ.AlignedBlocks 0x10000) tr σ
      ↔ TransitionSystem.Met (fun σ call => σ.MeetsSiblings 0x10000 call) tr) := by
  have hexec : (BuddyState.fresh.exec [.attach 0x10000 0x4000 7, .malloc 100, .malloc 100,
      .malloc 100, .malloc 100, .free 0x1103c, .free 0x1203c]).isSome = true := by decide +kernel
  obtain ⟨σ, hσ⟩ := Option.isSome_iff_exists.mp hexec
  obtain ⟨tr, hr⟩ := region_run_of_exec (by simp) hσ
  exact ⟨tr, σ, hr, buddy_aligned_iff hr⟩

/-! ## Coalescing -/

namespace BuddyState.Inv

variable {σ σ' : BuddyState} {r b : Block} {A : Pool} {a n pid size : ℕ}

/-- A system that has nothing allocated and can coalesce has coalesced. -/
theorem coalesced (h : σ.Inv [r] A) (hA : Coalescible r A) (hlive : σ.live = []) :
    σ.Coalesced r.addr r.level := by
  have hused : A.used = [] := by
    by_contra hne
    obtain ⟨b, l, hb⟩ := List.exists_cons_of_ne_nil hne
    obtain ⟨e, he, -⟩ := (h.live_iff b.addr).mpr ⟨b, hb ▸ List.mem_cons_self, rfl⟩
    rw [hlive] at he
    cases he
  obtain ⟨⟨b, hb, hba⟩, hnil⟩ := h.pool.coalesced h.regions hA.1 hA.2 hused
  intro k c
  rw [h.onList_iff]
  constructor
  · rintro ⟨d, hd, rfl⟩
    by_cases hk : k = r.level
    · rw [hk, hb] at hd
      rw [List.mem_singleton.mp hd]
      exact ⟨hk, hba⟩
    · rw [hnil k hk] at hd
      cases hd
  · rintro ⟨rfl, rfl⟩
    exact ⟨b, hb ▸ List.mem_singleton.mpr rfl, hba⟩

/-- **A system that has coalesced grants the requests up to its level**, as
a fresh one does. -/
theorem grants_iff (h : σ.Inv [r] A) (hc : σ.Coalesced r.addr r.level) : σ.Grants size
    ↔ calculateWhichLevel ((size + buddyCalculateBlockHeadSize) % 2 ^ 64) ≤ r.level := by
  have hrlevel := h.regions.level_lt r (List.mem_singleton.mpr rfl)
  obtain ⟨b, hb, -⟩ := h.onList_iff.mp ((hc r.level r.addr).mpr ⟨rfl, rfl⟩)
  constructor
  · rintro ⟨p, s, hcall, hp⟩
    by_contra hlt
    -- all lists that would do are empty
    have hlist : ∀ j, calculateWhichLevel ((size + buddyCalculateBlockHeadSize) % 2 ^ 64) ≤ j →
        σ.buddy.head.list j = 0 := by
      intro j hj
      refine (h.free.list_eq_zero_iff h.pool h.regions j).mpr ?_
      by_contra hne
      obtain ⟨c, l, hcl⟩ := List.exists_cons_of_ne_nil hne
      have hon := (hc j c.addr).mp (h.onList_iff.mpr ⟨c, hcl ▸ List.mem_cons_self, rfl⟩)
      omega
    rw [buddyMalloc_null rfl hlist] at hcall
    exact hp (congrArg Prod.fst (Except.ok.inj hcall)).symm
  · intro hle
    have hlt : calculateWhichLevel ((size + buddyCalculateBlockHeadSize) % 2 ^ 64) < maxBlockNum := by
      unfold maxBlockNum
      omega
    rcases buddyMalloc_spec h.pool h.regions h.free rfl hlt rfl with
      ⟨-, hnil, -⟩ | ⟨d, e, s', -, -, -, hcall, -⟩
    · rw [hnil r.level hle] at hb
      cases hb
    · refine ⟨_, s', hcall, ?_⟩
      unfold buddyCalculateBlockHeadSize
      omega

/-- **A release keeps a system able to coalesce**, if it meets only siblings
and accepts them. -/
theorem coalescible_release (h : σ.Inv [r] A) (hA : Coalescible r A) (hb : b ∈ A.used)
    (hinv : σ'.Inv [r] ⟨Pool.release maxBlockNum A.free b, A.used.erase b⟩)
    (hm : σ.MeetsSiblings r.addr (.free (b.addr + buddyCalculateBlockHeadSize)))
    (hacc : σ.AcceptsSiblings r.addr (.free (b.addr + buddyCalculateBlockHeadSize))) :
    Coalescible r ⟨Pool.release maxBlockNum A.free b, A.used.erase b⟩ := by
  have hperm := List.perm_cons_erase hb
  have hpool : (Pool.mk A.free (b :: A.used.erase b)).Inv [r] := h.pool.perm hperm
  have hal : Pool.AlignedAll r.addr ⟨A.free, b :: A.used.erase b⟩ := fun c hc =>
    hA.1 c ((hperm.append_left _).mem_iff.mpr hc)
  refine ⟨hinv.alignedBlocks_iff.mp ?_, ?_⟩
  · exact (h.aligned_release_iff hb hinv (h.alignedBlocks_iff.mpr hA.1)).mpr hm
  · exact hpool.unpaired_release h.regions hal hA.2 (by unfold maxBlockNum; omega) (fun c hc =>
      ⟨(h.meetsSiblings_iff hb).mp hm c hc, (h.acceptsSiblings_iff hb).mp hacc c hc⟩)

end BuddyState.Inv

/-- **When memory comes together again.** In every run whose releases meet
only siblings and accept them, whenever nothing is allocated the region is
the only block again, and every request a fresh system grants is granted. -/
theorem buddy_coalesced {a n pid : ℕ} {tr : List (BuddyState × BuddyCall)} {σ : BuddyState}
    (hr : (regionSystem a n pid).Run tr σ)
    (hc : TransitionSystem.Met
      (fun σ call => σ.MeetsSiblings a call ∧ σ.AcceptsSiblings a call) tr) :
    TransitionSystem.Throughout (fun σ => σ.live = [] →
      σ.Coalesced a (calculateBlockLevel n)
        ∧ ∀ σ₀, (regionSystem a n pid).init σ₀ → ∀ size, σ₀.Grants size → σ.Grants size) tr σ := by
  have hthrough := hr.throughout_of_met (I := fun σ => ∃ r A, σ.Inv [r] A ∧ r.addr = a
      ∧ r.level = calculateBlockLevel n ∧ BuddyState.Inv.Coalescible r A)
    (fun σ hinit => ?_) ?_ hc
  · have hgoal : ∀ {σ : BuddyState}, (∃ r A, σ.Inv [r] A ∧ r.addr = a
        ∧ r.level = calculateBlockLevel n ∧ BuddyState.Inv.Coalescible r A) → σ.live = [] →
        σ.Coalesced a (calculateBlockLevel n)
          ∧ ∀ σ₀, (regionSystem a n pid).init σ₀ → ∀ size, σ₀.Grants size → σ.Grants size := by
      rintro σ ⟨r, A, h, rfl, hrl, hA⟩ hlive
      have hco := h.coalesced hA hlive
      rw [← hrl]
      refine ⟨hco, fun σ₀ hinit size hgrant => (h.grants_iff hco).mpr ?_⟩
      obtain ⟨r₀, A₀, h₀, hra₀, hrl₀, hA₀⟩ := BuddyState.Inv.region_init hinit
      have hlive₀ : σ₀.live = [] := by
        obtain ⟨m, σ₁, ⟨-, -, hlive₁⟩, -, hrun⟩ := hinit
        dsimp only [BuddyState.run] at hrun
        cases hcall : buddyAttchMemory σ₁.buddy r.addr n pid with
        | error f =>
          rw [hcall] at hrun
          cases hrun
        | ok p =>
          rw [hcall] at hrun
          rw [← Except.ok.inj hrun]
          exact hlive₁
      have hco₀ := h₀.coalesced (h₀.coalescible_init hA₀) hlive₀
      rw [← hrl₀.trans hrl.symm]
      exact (h₀.grants_iff hco₀).mp hgrant
    exact ⟨hgoal hthrough.1, fun e he => hgoal (hthrough.2 e he)⟩
  · obtain ⟨r, A, h, hra, hrl, hA⟩ := BuddyState.Inv.region_init hinit
    exact ⟨r, A, h, hra, hrl, h.coalescible_init hA⟩
  · rintro σ call σ' - ⟨r, A, h, rfl, hrl, hA⟩ hstep ⟨hm, hacc⟩
    rcases h.region_cases hstep with ⟨A', h', -, hA'⟩ | ⟨b, hb, rfl, h'⟩
    · refine ⟨r, A', h', rfl, hrl, ?_⟩
      rcases hA' with rfl | ⟨idx, level, b, l, hF, hle, hnil, rfl⟩
      · exact hA
      · exact ⟨h.pool.alignedAll_allocate h.regions hA.1 hF hle hnil,
          h.pool.unpaired_allocate h.regions hA.1 hF hle hnil hA.2⟩
    · exact ⟨r, _, h', rfl, hrl, h.coalescible_release hA hb h' hm hacc⟩

/-- **Memory does not always come together again**: two blocks of a page are
handed out and released in the order of their addresses. The second refuses
the first, and a request for the whole region is no longer granted. -/
theorem buddy_not_coalesced : ∃ tr σ σ₀, (regionSystem 0x10000 0x2000 7).Run tr σ
    ∧ σ.live = [] ∧ ¬ σ.Coalesced 0x10000 (calculateBlockLevel 0x2000)
    ∧ (regionSystem 0x10000 0x2000 7).init σ₀ ∧ σ₀.Grants 5000 ∧ ¬ σ.Grants 5000 := by
  have hexec : (BuddyState.fresh.exec [.attach 0x10000 0x2000 7, .malloc 100, .malloc 100,
      .free 0x1003c, .free 0x1103c]).map (fun σ => (σ.live, σ.buddy.head.list 1,
        (buddyMalloc σ.buddy 5000).toOption.map Prod.fst)) = some ([], 0, some 0) := by
    decide +kernel
  have hfresh : (BuddyState.fresh.exec [.attach 0x10000 0x2000 7]).map
      (fun σ => (buddyMalloc σ.buddy 5000).toOption.map Prod.fst) = some (some 0x1003c) := by
    decide +kernel
  obtain ⟨σ, hσ, heq⟩ := Option.map_eq_some_iff.mp hexec
  obtain ⟨hlive, heq'⟩ := Prod.mk.inj heq
  obtain ⟨hlist, hgrant⟩ := Prod.mk.inj heq'
  obtain ⟨σ₀, hσ₀, hgrant₀⟩ := Option.map_eq_some_iff.mp hfresh
  obtain ⟨tr, hr⟩ := region_run_of_exec (by simp) hσ
  have hinit : (regionSystem 0x10000 0x2000 7).init σ₀ := by
    obtain ⟨hadm, σ₁, hrun, he⟩ := BuddyState.exec_cons.mp hσ₀
    exact ⟨0, BuddyState.fresh, ⟨rfl, rfl, rfl⟩, hadm, Option.some.inj he ▸ hrun⟩
  refine ⟨tr, σ, σ₀, hr, hlive, fun hco => ?_, hinit, ?_, ?_⟩
  · have hon := (hco 1 0x10000).mpr ⟨by decide, rfl⟩
    unfold BuddyState.OnList at hon
    rw [hlist] at hon
    cases hon with
    | there h _ => exact h rfl
  · cases hcall : buddyMalloc σ₀.buddy 5000 with
    | error f =>
      rw [hcall] at hgrant₀
      cases hgrant₀
    | ok p =>
      rw [hcall] at hgrant₀
      have hp : p.1 = 0x1003c := Option.some.inj hgrant₀
      exact ⟨p.1, p.2, hcall, by rw [hp]; decide⟩
  · rintro ⟨p, s, hcall, hp⟩
    rw [hcall] at hgrant
    exact hp (Option.some.inj hgrant)

/-- One allocation of a page and its release: the halves come together
again. -/
theorem buddy_coalesced_page : ∃ tr σ, (regionSystem 0x10000 0x2000 7).Run tr σ
    ∧ tr.length = 2 ∧ σ.live = [] ∧ σ.Coalesced 0x10000 (calculateBlockLevel 0x2000) := by
  have hexec : (BuddyState.fresh.exec [.attach 0x10000 0x2000 7, .malloc 100]).map
      (fun σ => (σ.level 0x10000, σ.buddy.head.list 0, (blockHead σ.buddy.mem 0x11000).next,
        σ.buddy.head.list 1)) = some (0, 0x11000, 0, 0) := by decide +kernel
  have hexec' : (BuddyState.fresh.exec [.attach 0x10000 0x2000 7, .malloc 100]).map (fun σ =>
      (buddyIsBuddy 0x10000 { blockHead σ.buddy.mem 0x10000 with level := 0 } 0x11000
        (blockHead σ.buddy.mem 0x11000), (σ.exec [.free 0x1003c]).map (fun σ => σ.live)))
      = some (true, some []) := by decide +kernel
  obtain ⟨σ, hσ, heq⟩ := Option.map_eq_some_iff.mp hexec
  rw [hσ] at hexec'
  simp only [Prod.mk.injEq] at heq
  obtain ⟨hlevel, hlist₀, hnext, hlist₁⟩ := heq
  obtain ⟨hbuddy, hfree⟩ := Prod.mk.inj (Option.some.inj hexec')
  obtain ⟨σ', hσ', hlive⟩ := Option.map_eq_some_iff.mp hfree
  obtain ⟨hadm₀, σ₁, hrun₀, he₀⟩ := BuddyState.exec_cons.mp hσ
  obtain ⟨hadm₁, σ₂, hrun₁, he₁⟩ := BuddyState.exec_cons.mp he₀
  obtain ⟨hadm₂, σ₃, hrun₂, he₂⟩ := BuddyState.exec_cons.mp hσ'
  rw [Option.some.inj he₁] at hrun₁
  rw [Option.some.inj he₂] at hrun₂
  -- only the sibling is on the list the release comes to first, none on the next
  have hon₀ : ∀ d, σ.OnList 0 d → d = 0x11000 := fun d hd => by
    unfold BuddyState.OnList at hd
    rw [hlist₀] at hd
    cases hd with
    | here _ => rfl
    | there _ h =>
      rw [show nextLink σ.buddy.mem 0x11000 = 0 from hnext] at h
      cases h with
      | here h => exact absurd rfl h
      | there h _ => exact absurd rfl h
  have hon₁ : ∀ d, ¬ σ.OnList 1 d := fun d hd => by
    unfold BuddyState.OnList at hd
    rw [hlist₁] at hd
    cases hd with
    | here h => exact h rfl
    | there h _ => exact h rfl
  have hclimb : ∀ j c, σ.Climbs 0x10000 0x10000 j c → (j = 0 ∧ c = 0x10000) ∨ j = 1 := by
    intro j c h
    induction h with
    | start => exact Or.inl ⟨hlevel, rfl⟩
    | up _ hlist _ ih =>
      rcases ih with ⟨rfl, -⟩ | rfl
      · exact Or.inr rfl
      · exact absurd hlist (hon₁ _)
  have hsib : BuddyState.siblingOf 0x10000 0 0x10000 = 0x11000 := by decide
  have hcond : σ.MeetsSiblings 0x10000 (.free 0x1003c)
      ∧ σ.AcceptsSiblings 0x10000 (.free 0x1003c) := by
    constructor
    · intro j c h d hd hacc
      rcases hclimb j c h with ⟨rfl, rfl⟩ | rfl
      · rw [hsib, ← hon₀ d hd]
        exact ⟨le_rfl, hd, hacc⟩
      · exact absurd hd (hon₁ d)
    · intro j c h hs
      rcases hclimb j c h with ⟨rfl, rfl⟩ | rfl
      · rw [hsib]
        exact hbuddy
      · exact absurd hs (hon₁ _)
  have hr : (regionSystem 0x10000 0x2000 7).Run [(σ, .free 0x1003c), (σ₁, .malloc 100)] σ' :=
    .snoc (.snoc (.start ⟨0, BuddyState.fresh, ⟨rfl, rfl, rfl⟩, hadm₀, hrun₀⟩)
      ⟨nofun, hadm₁, hrun₁⟩) ⟨nofun, hadm₂, hrun₂⟩
  have hmet : TransitionSystem.Met (fun σ call => BuddyState.MeetsSiblings σ 0x10000 call
      ∧ BuddyState.AcceptsSiblings σ 0x10000 call) [(σ, .free 0x1003c), (σ₁, .malloc 100)] :=
    (TransitionSystem.met_cons _ _ _ _).mpr ⟨hcond, (TransitionSystem.met_cons _ _ _ _).mpr
      ⟨⟨trivial, trivial⟩, TransitionSystem.met_nil _⟩⟩
  exact ⟨_, σ', hr, rfl, hlive, ((buddy_coalesced hr hmet).1 hlive).1⟩
