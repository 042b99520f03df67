import Mathlib.Logic.Function.Basic
import Mathlib.Tactic.Common

/-!
# Files with inodes and segments with keys

Two things that processes find each other by. A path names a file, and a file
is an inode: who makes a path anew makes a new inode, and the old one is named
by no path again.

A shared memory segment is found by its key. A segment that is marked to be
removed gives up its key at once, and is there for as long as somebody is
attached to it; the next one to ask for the key makes a new segment. Zero is
the key of no segment. Who is attached to which segment is recorded; when a
process ends it is attached to nothing.
-/

/-! ## Files -/

/-- **The files of a directory**: the inode a path names, and the number of
inodes made so far. -/
structure InodeTable (π : Type*) where
  inode : π → Option ℕ
  next : ℕ

namespace InodeTable

variable {π : Type*} [DecidableEq π] {d : InodeTable π} {path path' : π} {i : ℕ}

/-- The inode of a file, which is made if there is none. -/
def ensure (d : InodeTable π) (path : π) : InodeTable π × ℕ :=
  match d.inode path with
  | some i => (d, i)
  | none => (⟨Function.update d.inode path (some d.next), d.next + 1⟩, d.next)

/-- `unlink`. -/
def remove (d : InodeTable π) (path : π) : InodeTable π :=
  { d with inode := Function.update d.inode path none }

/-- **A file has one path**, and an inode that was made. -/
structure WellFormed (d : InodeTable π) : Prop where
  inj : ∀ path path' i, d.inode path = some i → d.inode path' = some i → path = path'
  lt : ∀ path i, d.inode path = some i → i < d.next

theorem ensure_of_some (h : d.inode path = some i) : d.ensure path = (d, i) := by
  unfold ensure
  rw [h]

theorem ensure_of_none (h : d.inode path = none) :
    d.ensure path = (⟨Function.update d.inode path (some d.next), d.next + 1⟩, d.next) := by
  unfold ensure
  rw [h]

/-- **The file is there**, with the inode that was found or made. -/
@[simp] theorem ensure_inode : (d.ensure path).1.inode path = some (d.ensure path).2 := by
  cases h : d.inode path with
  | none =>
    rw [ensure_of_none h]
    exact Function.update_self _ _ _
  | some i =>
    rw [ensure_of_some h]
    exact h

/-- A file that was there is there with the same inode. -/
theorem ensure_inode_of_some (h : d.inode path' = some i) :
    (d.ensure path).1.inode path' = some i := by
  cases hpath : d.inode path with
  | none =>
    have hne : path' ≠ path := by
      rintro rfl
      rw [hpath] at h
      cases h
    rw [ensure_of_none hpath]
    exact (Function.update_of_ne hne _ _).trans h
  | some j =>
    rw [ensure_of_some hpath]
    exact h

/-- An inode is named as before, or is a new one. -/
theorem inode_of_ensure (h : (d.ensure path).1.inode path' = some i) :
    d.inode path' = some i ∨ path' = path ∧ i = d.next := by
  cases hpath : d.inode path with
  | none =>
    rw [ensure_of_none hpath] at h
    by_cases heq : path' = path
    · subst heq
      have hself := Function.update_self path' (some d.next) d.inode
      exact .inr ⟨rfl, Option.some.inj (h.symm.trans hself)⟩
    · exact .inl ((Function.update_of_ne heq _ _).symm.trans h)
  | some j =>
    rw [ensure_of_some hpath] at h
    exact .inl h

theorem le_ensure_next : d.next ≤ (d.ensure path).1.next := by
  cases h : d.inode path with
  | none =>
    rw [ensure_of_none h]
    exact Nat.le_succ _
  | some i =>
    exact Nat.le_of_eq (by rw [ensure_of_some h])

theorem WellFormed.ensure (h : d.WellFormed) : (d.ensure path).1.WellFormed := by
  cases hpath : d.inode path with
  | some i =>
    rw [ensure_of_some hpath]
    exact h
  | none =>
    refine ⟨fun p p' i hp hp' => ?_, fun p i hp => ?_⟩
    · rcases inode_of_ensure hp with hp | ⟨hpath, hi⟩ <;>
        rcases inode_of_ensure hp' with hp' | ⟨hpath', hi'⟩
      · exact h.inj p p' i hp hp'
      · exact absurd (h.lt p i hp) (hi' ▸ Nat.lt_irrefl _)
      · exact absurd (h.lt p' i hp') (hi ▸ Nat.lt_irrefl _)
      · exact hpath.trans hpath'.symm
    · rcases inode_of_ensure hp with hp | ⟨rfl, rfl⟩
      · exact Nat.lt_of_lt_of_le (h.lt p i hp) le_ensure_next
      · rw [ensure_of_none hpath]
        exact Nat.lt_succ_self _

@[simp] theorem remove_inode_self : (d.remove path).inode path = none := Function.update_self _ _ _

theorem remove_inode_of_ne (h : path' ≠ path) : (d.remove path).inode path' = d.inode path' :=
  Function.update_of_ne h _ _

theorem inode_of_remove (h : (d.remove path).inode path' = some i) : d.inode path' = some i := by
  by_cases heq : path' = path
  · subst heq
    rw [remove_inode_self] at h
    cases h
  · rwa [remove_inode_of_ne heq] at h

theorem WellFormed.remove (h : d.WellFormed) : (d.remove path).WellFormed where
  inj p p' i hp hp' := h.inj p p' i (inode_of_remove hp) (inode_of_remove hp')
  lt p i hp := h.lt p i (inode_of_remove hp)

end InodeTable

/-! ## Segments -/

/-- **Segments with keys of type `κ`**: the one with a key, the number of those
made so far, and who is attached to which. -/
structure KeyedSegments (κ ι : Type*) where
  byKey : κ → Option ℕ
  next : ℕ
  attached : List (ι × ℕ)

namespace KeyedSegments

variable {κ ι : Type*} {g : KeyedSegments κ ι} {k k' : κ} {holder : ι} {seg seg' : ℕ}

/-- `shm_nattch`. -/
def nattch (g : KeyedSegments κ ι) (seg : ℕ) : ℕ := g.attached.countP fun a => a.2 = seg

/-- `shmget(key, 0, 0)`. With the key zero it asks for a new segment of no
size, which there is not. -/
def get [Zero κ] [DecidableEq κ] (g : KeyedSegments κ ι) (k : κ) : Option ℕ :=
  if k = 0 then none else g.byKey k

/-- `shmget(key, size, IPC_CREAT | IPC_EXCL)`, when it can make a segment. With
the key zero it makes one that has no key. -/
def create [Zero κ] [DecidableEq κ] (g : KeyedSegments κ ι) (k : κ) : KeyedSegments κ ι :=
  if k = 0 then { g with next := g.next + 1 }
  else
    match g.byKey k with
    | some _ => g
    | none => { g with byKey := Function.update g.byKey k (some g.next), next := g.next + 1 }

/-- `shmat`, when it can attach. -/
def attach (g : KeyedSegments κ ι) (holder : ι) (seg : ℕ) : KeyedSegments κ ι :=
  { g with attached := (holder, seg) :: g.attached }

/-- `shmdt`. -/
def detach [DecidableEq ι] (g : KeyedSegments κ ι) (holder : ι) : KeyedSegments κ ι :=
  { g with attached := g.attached.filter fun a => a.1 ≠ holder }

/-- `IPC_RMID`: the segment gives up its key. -/
def remove (g : KeyedSegments κ ι) (seg : ℕ) : KeyedSegments κ ι :=
  { g with byKey := fun k => if g.byKey k = some seg then none else g.byKey k }

/-- **A segment has one key**, and was made. -/
structure WellFormed (g : KeyedSegments κ ι) : Prop where
  inj : ∀ k k' seg, g.byKey k = some seg → g.byKey k' = some seg → k = k'
  lt : ∀ k seg, g.byKey k = some seg → seg < g.next

/-- **Somebody is attached** exactly if the number is not zero. -/
theorem nattch_pos : 0 < g.nattch seg ↔ ∃ holder, (holder, seg) ∈ g.attached := by
  unfold nattch
  rw [List.countP_pos_iff]
  constructor
  · rintro ⟨⟨holder, seg'⟩, hmem, hseg⟩
    obtain rfl : seg' = seg := of_decide_eq_true hseg
    exact ⟨holder, hmem⟩
  · rintro ⟨holder, hmem⟩
    exact ⟨_, hmem, decide_eq_true rfl⟩

theorem nattch_attach_of_ne (h : seg ≠ seg') : (g.attach holder seg).nattch seg' = g.nattch seg' :=
  List.countP_cons_of_neg (by simpa using h)

@[simp] theorem nattch_create [Zero κ] [DecidableEq κ] :
    (g.create k).nattch seg = g.nattch seg := by
  unfold create
  split
  · rfl
  · split <;> rfl

theorem remove_byKey_of_ne (h : g.byKey k ≠ some seg) : (g.remove seg).byKey k = g.byKey k :=
  if_neg h

theorem remove_byKey_self (h : g.byKey k = some seg) : (g.remove seg).byKey k = none := if_pos h

theorem byKey_of_remove (h : (g.remove seg).byKey k = some seg') :
    g.byKey k = some seg' ∧ seg' ≠ seg := by
  obtain ⟨hne, heq⟩ := Option.ite_none_left_eq_some.mp h
  refine ⟨heq, ?_⟩
  rintro rfl
  exact hne heq

theorem WellFormed.remove (h : g.WellFormed) : (g.remove seg).WellFormed where
  inj k k' seg' hk hk' := h.inj k k' seg' (byKey_of_remove hk).1 (byKey_of_remove hk').1
  lt k seg' hk := h.lt k seg' (byKey_of_remove hk).1

section Keys

variable [Zero κ] [DecidableEq κ]

/-- **What is made has the key**, if no other segment has. -/
theorem byKey_create : (g.create k).byKey k' = some seg ↔
    g.byKey k' = some seg ∨ g.byKey k' = none ∧ k' ≠ 0 ∧ k' = k ∧ seg = g.next := by
  unfold create
  by_cases hk : k = 0
  · rw [if_pos hk]
    refine ⟨.inl, ?_⟩
    rintro (h | ⟨_, hne, rfl, _⟩)
    · exact h
    · exact absurd hk hne
  · rw [if_neg hk]
    cases hkey : g.byKey k with
    | some seg' =>
      refine ⟨.inl, ?_⟩
      rintro (h | ⟨hnone, _, rfl, _⟩)
      · exact h
      · rw [hkey] at hnone
        cases hnone
    | none =>
      by_cases heq : k' = k
      · subst heq
        simp only [Function.update_self, hkey]
        simp [hk, eq_comm]
      · simp only [Function.update_of_ne heq]
        simp [heq]

theorem le_create_next : g.next ≤ (g.create k).next := by
  unfold create
  split
  · exact Nat.le_succ _
  · split
    · exact Nat.le_refl _
    · exact Nat.le_succ _

theorem create_attached : (g.create k).attached = g.attached := by
  unfold create
  split
  · rfl
  · split <;> rfl

theorem WellFormed.create (h : g.WellFormed) : (g.create k).WellFormed := by
  refine ⟨fun p p' seg hp hp' => ?_, fun p seg hp => ?_⟩
  · rcases byKey_create.mp hp with hp | ⟨_, _, hk, hseg⟩ <;>
      rcases byKey_create.mp hp' with hp' | ⟨_, _, hk', hseg'⟩
    · exact h.inj p p' seg hp hp'
    · exact absurd (h.lt p seg hp) (hseg' ▸ Nat.lt_irrefl _)
    · exact absurd (h.lt p' seg hp') (hseg ▸ Nat.lt_irrefl _)
    · exact hk.trans hk'.symm
  · rcases byKey_create.mp hp with hp | ⟨hnone, hne, rfl, rfl⟩
    · exact Nat.lt_of_lt_of_le (h.lt p seg hp) le_create_next
    · unfold KeyedSegments.create
      rw [if_neg hne, hnone]
      exact Nat.lt_succ_self _

end Keys

end KeyedSegments
