import CoinData.Buddy
import Mathlib.Data.Set.Basic

/-!
# What the header operations of the buddy system do

The functions of the buddy system only ever touch memory through the block
headers, a handful of fields at a time. This module says once what the two
initializers leave in the header they are given, that they leave every
other header alone, and which bytes they write – so that nothing later
unfolds a write to memory.

The addresses in play are kept in a set that is `Spaced`: no two headers at
its addresses overlap. On such a set the headers are independent cells, and
a write to one is a case distinction on the address.
-/

/-- **A set of places for headers**: not `NULL`, representable, and far
enough from one another that the headers there do not overlap. -/
structure Spaced (S : Set ℕ) : Prop where
  pos : ∀ a ∈ S, 0 < a
  lt : ∀ a ∈ S, a < 2 ^ 64
  apart : ∀ a ∈ S, ∀ b ∈ S, a ≠ b →
    a + buddyCalculateBlockHeadSize ≤ b ∨ b + buddyCalculateBlockHeadSize ≤ a

theorem Spaced.ne_zero {S : Set ℕ} (hS : Spaced S) {a : ℕ} (ha : a ∈ S) :
    a ≠ 0 := (hS.pos a ha).ne'

/-- The memory `m'` differs from `m` only in headers at addresses of `W`. -/
def WritesOnly (W : Set ℕ) (m m' : ByteStore) : Prop :=
  ∀ x, (∀ w ∈ W, x < w ∨ w + buddyCalculateBlockHeadSize ≤ x) → m' x = m x

namespace WritesOnly

variable {W W' : Set ℕ} {m m₁ m₂ m₃ : ByteStore}

theorem refl (W : Set ℕ) (m : ByteStore) : WritesOnly W m m := fun _ _ => rfl

theorem trans (h₁ : WritesOnly W m₁ m₂) (h₂ : WritesOnly W m₂ m₃) :
    WritesOnly W m₁ m₃ := fun x hx => (h₂ x hx).trans (h₁ x hx)

theorem mono (hW : W ⊆ W') (h : WritesOnly W m₁ m₂) : WritesOnly W' m₁ m₂ :=
  fun x hx => h x (fun w hw => hx w (hW hw))

end WritesOnly

/-! ## Fields -/

section Fields

variable {m : ByteStore} {a b v : ℕ}

theorem level_lt (m : ByteStore) (a : ℕ) : (blockHead m a).level < 2 ^ 64 := by
  unfold blockHead
  exact (Layout.level.get_lt m a).trans_eq (by decide)

theorem isFirst_lt (m : ByteStore) (a : ℕ) : (blockHead m a).isFirst < 2 ^ 32 := by
  unfold blockHead
  exact (Layout.isFirst.get_lt m a).trans_eq (by decide)

/-- Assigning a field of a header writes only that header. -/
theorem writesOnly_set {f : ByteField} (hf : f.Within buddyCalculateBlockHeadSize) :
    WritesOnly {a} m (f.set m a v) :=
  fun _ hx => ByteField.set_of_not_mem m v hf (hx a rfl)

/-- Clearing the links of a header. -/
theorem blockHead_unlink : blockHead (Layout.previous.set (Layout.next.set m a 0) a 0) a
    = { blockHead m a with previous := 0, next := 0 } := by
  unfold blockHead
  simp (disch := decide) only [ByteField.get_set_of_apart, ByteField.get_set_self]

/-- Assigning the owner of a block. -/
theorem blockHead_own {p i : ℕ} (hp : p < 2 ^ 64) (hi : i < 2 ^ 64) :
    blockHead (Layout.memoryIdx.set (Layout.hostPid.set m a p) a i) a
      = { blockHead m a with hostPid := p, memoryIdx := i } := by
  have hp' : p < 256 ^ Layout.hostPid.width := hp
  have hi' : i < 256 ^ Layout.memoryIdx.width := hi
  unfold blockHead
  simp (disch := first | assumption | decide) only
    [ByteField.get_set_of_apart, ByteField.get_set_self]

/-- Assigning the owner of a block, up to the width of the field. -/
theorem blockHead_own' {p i : ℕ} (hi : i < 2 ^ 64) :
    blockHead (Layout.memoryIdx.set (Layout.hostPid.set m a p) a i) a
      = { blockHead m a with
          hostPid := Layout.hostPid.get (Layout.hostPid.set m a p) a, memoryIdx := i } := by
  have hi' : i < 256 ^ Layout.memoryIdx.width := hi
  unfold blockHead
  simp (disch := first | assumption | decide) only
    [ByteField.get_set_of_apart, ByteField.get_set_self]

/-- Assigning the size of a block. -/
theorem blockHead_resize {v : ℕ} : ∃ w, blockHead (Layout.size.set m a v) a
    = { blockHead m a with size := w } := by
  refine ⟨(blockHead (Layout.size.set m a v) a).size, ?_⟩
  unfold blockHead
  simp (disch := decide) only [ByteField.get_set_of_apart]

/-- The checksum check reads the checksum field. -/
theorem crc32Check_of_crc (h : (blockHead m a).crc = crc32) :
    crc32Check m a buddyCalculateBlockHeadSize = true := by
  have h₀ : (m (a + 56)).toNat < 256 := (m (a + 56)).toNat_lt
  have h₁ : (m (a + 56 + 1)).toNat < 256 := (m (a + 56 + 1)).toNat_lt
  unfold blockHead at h
  have hcrc : (m (a + 56)).toNat + 256 * ((m (a + 56 + 1)).toNat
      + 256 * ByteStore.load m (a + 56 + 1 + 1) 2) = 0x55AA := h
  have hlow : m (a + 56) = 0xAA := UInt8.toNat_inj.mp (show _ = 170 by omega)
  have hhigh : m (a + 57) = 0x55 := UInt8.toNat_inj.mp (show (m (a + 56 + 1)).toNat = 85 by omega)
  unfold crc32Check buddyCalculateBlockHeadSize
  rw [show a + 60 - 3 = a + 57 by omega, show a + 60 - 4 = a + 56 by omega, hlow, hhigh]
  rfl

/-- A header is the record its bytes hold. -/
theorem blockHead_congr {m' : ByteStore}
    (h : ∀ x, b ≤ x → x < b + buddyCalculateBlockHeadSize → m' x = m x) :
    blockHead m' b = blockHead m b := by
  have hget : ∀ f : ByteField, f.Within buddyCalculateBlockHeadSize →
      f.get m' b = f.get m b := fun f hf => ByteField.get_congr hf h
  unfold blockHead
  simp (disch := decide) only [hget]

/-- Writes to other headers do not change a header. -/
theorem WritesOnly.blockHead_eq {W : Set ℕ} {m' : ByteStore} (h : WritesOnly W m m')
    (hb : ∀ w ∈ W, b + buddyCalculateBlockHeadSize ≤ w
      ∨ w + buddyCalculateBlockHeadSize ≤ b) :
    blockHead m' b = blockHead m b := by
  refine blockHead_congr (fun x h₁ h₂ => h x (fun w hw => ?_))
  rcases hb w hw with hb | hb
  · exact Or.inl (lt_of_lt_of_le h₂ hb)
  · exact Or.inr (le_trans hb h₁)

end Fields

/-! ## The initializers -/

section Init

variable {m : ByteStore} {a b previous next level isFirst : ℕ}

/-- **The header `initFreeBlock` leaves**: free, with the links, level and
flag it is given; who owns the block is left as it is. -/
theorem blockHead_initFreeBlock_self (ha : a ≠ 0) (hp : previous < 2 ^ 64)
    (hn : next < 2 ^ 64) (hl : level < 2 ^ 64) (hf : isFirst < 2 ^ 32) :
    blockHead (initFreeBlock m a previous next level isFirst) a
      = { blockHead m a with
          previous := previous, next := next, size := 0, level := level,
          isFree := 1, isFirst := isFirst, crc := crc32 } := by
  have hp' : previous < 256 ^ Layout.previous.width := hp
  have hn' : next < 256 ^ Layout.next.width := hn
  have hl' : level < 256 ^ Layout.level.width := hl
  have hf' : isFirst < 256 ^ Layout.isFirst.width := hf
  unfold initFreeBlock
  rw [if_neg ha]
  unfold blockHead
  simp (disch := first | assumption | decide) only
    [ByteField.get_set_of_apart, ByteField.get_set_self]

/-- **The header `initUsedBlock` leaves**: not free and not linked. -/
theorem blockHead_initUsedBlock_self (ha : a ≠ 0) :
    blockHead (initUsedBlock m a) a
      = { blockHead m a with
          previous := 0, next := 0, size := 0, isFree := 0, crc := crc32 } := by
  unfold initUsedBlock
  rw [if_neg ha]
  unfold blockHead
  simp (disch := decide) only [ByteField.get_set_of_apart, ByteField.get_set_self]

theorem writesOnly_initFreeBlock :
    WritesOnly {a} m (initFreeBlock m a previous next level isFirst) := by
  unfold initFreeBlock
  split
  · exact .refl _ m
  · exact (writesOnly_set (by decide)).trans <| (writesOnly_set (by decide)).trans <|
      (writesOnly_set (by decide)).trans <| (writesOnly_set (by decide)).trans <|
      (writesOnly_set (by decide)).trans <| (writesOnly_set (by decide)).trans <|
      (writesOnly_set (by decide)).trans (writesOnly_set (by decide))

theorem writesOnly_initUsedBlock : WritesOnly {a} m (initUsedBlock m a) := by
  unfold initUsedBlock
  split
  · exact .refl _ m
  · exact (writesOnly_set (by decide)).trans <| (writesOnly_set (by decide)).trans <|
      (writesOnly_set (by decide)).trans <| (writesOnly_set (by decide)).trans <|
      (writesOnly_set (by decide)).trans (writesOnly_set (by decide))

theorem writesOnly_relinkBlock : WritesOnly {a} m (relinkBlock m a previous next) :=
  writesOnly_initFreeBlock

end Init

/-! ## Headers as independent cells -/

namespace Spaced

variable {S : Set ℕ} {m : ByteStore} {a b previous next level isFirst : ℕ}

/-- A write to one header leaves the others. -/
theorem blockHead_of_writesOnly (hS : Spaced S) (ha : a ∈ S) (hb : b ∈ S) (hab : b ≠ a)
    {m' : ByteStore} (h : WritesOnly {a} m m') : blockHead m' b = blockHead m b :=
  h.blockHead_eq (fun w hw => by
    rw [Set.mem_singleton_iff.mp hw]
    exact hS.apart b hb a ha hab)

/-- **The headers after `initFreeBlock`.** -/
theorem blockHead_initFreeBlock (hS : Spaced S) (ha : a ∈ S) (hb : b ∈ S)
    (hp : previous < 2 ^ 64) (hn : next < 2 ^ 64) (hl : level < 2 ^ 64)
    (hf : isFirst < 2 ^ 32) :
    blockHead (initFreeBlock m a previous next level isFirst) b
      = if b = a then { blockHead m a with
          previous := previous, next := next, size := 0, level := level,
          isFree := 1, isFirst := isFirst, crc := crc32 }
        else blockHead m b := by
  split
  · next h =>
    rw [h]
    exact blockHead_initFreeBlock_self (hS.ne_zero ha) hp hn hl hf
  · next h => exact hS.blockHead_of_writesOnly ha hb h writesOnly_initFreeBlock

/-- **The headers after `relinkBlock`**: only the links of the block
change, and it becomes free. -/
theorem blockHead_relinkBlock (hS : Spaced S) (ha : a ∈ S) (hb : b ∈ S)
    (hp : previous < 2 ^ 64) (hn : next < 2 ^ 64) :
    blockHead (relinkBlock m a previous next) b
      = if b = a then { blockHead m a with
          previous := previous, next := next, size := 0, isFree := 1, crc := crc32 }
        else blockHead m b :=
  hS.blockHead_initFreeBlock ha hb hp hn (level_lt m a) (isFirst_lt m a)

end Spaced
