import CoinData.CircularBuffer
import CoinData.Results
import Mathlib.Data.List.GetD
import Mathlib.Tactic.Common

/-!
# The circular buffer in memory

`SharedCircularBuffer` takes the counters as unbounded and the elements as
given. Here is the buffer as it lies in memory: the counters are 64-bit
words, the elements a vector which has a length of its own, and an access
is checked where the processor or the vector would not: `%` needs a
divisor that is not zero, and an element a number below the length.

An element need not become what is assigned to it: `assign old val` is
what is there after `old` was assigned `val`. For a shared pointer, to
which null cannot be assigned, this is not `val`.

As long as the tail counts the pushes, the buffer in memory represents the
one with unbounded counters (`CircularCells.Represents`), and what a push
keeps there is kept here.
-/

/-- What an access to the elements may break on. -/
inductive CellFault where
  /-- A number is taken modulo zero. -/
  | divByZero
  /-- There is no element of this number. -/
  | outOfBounds
deriving DecidableEq, Repr

/-- `SharedCircularBuffer<T>` as it lies in shared memory. -/
structure CircularCells (α : Type) where
  head : UInt64
  tail : UInt64
  totalSize : UInt64
  buffer : List α
deriving DecidableEq, Repr

namespace CircularCells

variable {α : Type}

/-- `%` of two `size_t`. -/
def modulo (a b : UInt64) : Except CellFault UInt64 :=
  if b = 0 then .error .divByZero else .ok (a % b)

/-- `buffer_[idx]` as it is read. -/
def cell (ring : CircularCells α) (idx : UInt64) : Except CellFault α :=
  match ring.buffer[idx.toNat]? with
  | some val => .ok val
  | none => .error .outOfBounds

/-- The constructor, for any size: `size` elements, each with the default
value. -/
def ofSize [Inhabited α] (size : UInt64) : CircularCells α :=
  ⟨0, 0, size, List.replicate size.toNat default⟩

/-- What `push_back` does when it is left. -/
def advance (ring : CircularCells α) : CircularCells α :=
  if ring.totalSize ≤ ring.tail + 1 - ring.head then
    { ring with tail := ring.tail + 1, head := ring.head + 1 }
  else
    { ring with tail := ring.tail + 1 }

/-- The element the next `push_back` writes to. -/
def writeSlot (ring : CircularCells α) : Except CellFault UInt64 :=
  modulo ring.tail ring.totalSize

/-- `push_back`. -/
def pushBack (assign : α → α → α) (ring : CircularCells α) (val : α) :
    Except CellFault (CircularCells α) := do
  let idx ← ring.writeSlot
  let old ← ring.cell idx
  return advance { ring with buffer := ring.buffer.set idx.toNat (assign old val) }

/-- The index which is used instead of the given one. -/
def clamp (ring : CircularCells α) (idx : UInt64) : UInt64 :=
  if idx < ring.head then ring.head
  else if ring.tail ≤ idx then ring.tail - 1
  else idx

/-- `operator[]`: which element the reference it returns is to. -/
def element (ring : CircularCells α) (idx : UInt64) : Except CellFault UInt64 := do
  let i ← modulo (ring.clamp idx) ring.totalSize
  let _ ← ring.cell i
  return i

/-- `copy`. -/
def copy (ring : CircularCells α) (idx : UInt64) : Except CellFault α := do
  let i ← modulo (ring.clamp idx) ring.totalSize
  ring.cell i

/-- What is read through the reference `operator[]` returns. -/
def deref (ring : CircularCells α) (idx : UInt64) : Except CellFault α := do
  let i ← ring.element idx
  ring.cell i

/-- `clear`: the counters stay, and so does `total_size_`. -/
def clear (ring : CircularCells α) : CircularCells α := { ring with buffer := [] }

/-- A sequence of pushes. -/
def pushAll (assign : α → α → α) (ring : CircularCells α) (vals : List α) :
    Except CellFault (CircularCells α) :=
  vals.foldlM (pushBack assign) ring

/-! ## Accesses

Whether an access breaks does not depend on the counters: the number of
the element is below `total_size_` whatever they are. -/

/-- **The elements are there**: their number is `total_size_`, and it is
not zero. -/
structure Ready (ring : CircularCells α) : Prop where
  pos : 0 < ring.totalSize.toNat
  length_eq : ring.buffer.length = ring.totalSize.toNat

variable {ring : CircularCells α}

theorem modulo_eq_ok {a b : UInt64} (hb : 0 < b.toNat) : modulo a b = .ok (a % b) := by
  have hne : b ≠ 0 := by
    rintro rfl
    exact absurd hb (lt_irrefl 0)
  exact if_neg hne

/-- **An element below the length can be accessed.** -/
theorem cell_eq_ok {idx : UInt64} {val : α} (h : ring.buffer[idx.toNat]? = some val) :
    ring.cell idx = .ok val := by
  unfold cell
  rw [h]

theorem cell_eq_error {idx : UInt64} (h : ring.buffer.length ≤ idx.toNat) :
    ring.cell idx = .error .outOfBounds := by
  unfold cell
  rw [List.getElem?_eq_none h]

@[simp] theorem totalSize_advance : ring.advance.totalSize = ring.totalSize := by
  unfold advance
  split <;> rfl

@[simp] theorem buffer_advance : ring.advance.buffer = ring.buffer := by
  unfold advance
  split <;> rfl

namespace Ready

theorem ofSize [Inhabited α] {size : UInt64} (hsize : 0 < size.toNat) :
    (CircularCells.ofSize size : CircularCells α).Ready :=
  ⟨hsize, List.length_replicate⟩

/-- The element a number is taken to. -/
theorem exists_cell (h : ring.Ready) (i : UInt64) :
    ∃ val, ring.buffer[(i % ring.totalSize).toNat]? = some val := by
  have hlt : (i % ring.totalSize).toNat < ring.buffer.length := by
    rw [h.length_eq, UInt64.toNat_mod]
    exact Nat.mod_lt _ h.pos
  exact ⟨_, List.getElem?_eq_getElem hlt⟩

/-- **A push finds its element.** -/
theorem pushBack_eq (h : ring.Ready) (assign : α → α → α) (val : α) :
    ∃ old, ring.buffer[(ring.tail % ring.totalSize).toNat]? = some old ∧
      ring.pushBack assign val = .ok (advance { ring with
        buffer := ring.buffer.set (ring.tail % ring.totalSize).toNat (assign old val) }) := by
  obtain ⟨old, hold⟩ := h.exists_cell ring.tail
  refine ⟨old, hold, ?_⟩
  unfold CircularCells.pushBack writeSlot
  rw [modulo_eq_ok h.pos, Except.ok_bind, cell_eq_ok hold, Except.ok_bind]
  rfl

/-- **What an index is given.** -/
theorem copy_eq (h : ring.Ready) (idx : UInt64) :
    ∃ val, ring.buffer[(ring.clamp idx % ring.totalSize).toNat]? = some val ∧
      ring.element idx = .ok (ring.clamp idx % ring.totalSize) ∧
      ring.copy idx = .ok val ∧ ring.deref idx = .ok val := by
  obtain ⟨val, hval⟩ := h.exists_cell (ring.clamp idx)
  have helement : ring.element idx = .ok (ring.clamp idx % ring.totalSize) := by
    unfold element
    rw [modulo_eq_ok h.pos, Except.ok_bind, cell_eq_ok hval]
    rfl
  refine ⟨val, hval, helement, ?_, ?_⟩
  · unfold copy
    rw [modulo_eq_ok h.pos, Except.ok_bind, cell_eq_ok hval]
  · unfold deref
    rw [helement, Except.ok_bind, cell_eq_ok hval]

/-- A push leaves the elements there. -/
theorem of_pushBack (h : ring.Ready) {assign : α → α → α} {val : α} {ring' : CircularCells α}
    (hpush : ring.pushBack assign val = .ok ring') : ring'.Ready := by
  obtain ⟨old, -, heq⟩ := h.pushBack_eq assign val
  rw [heq] at hpush
  cases hpush
  refine ⟨?_, ?_⟩
  · rw [totalSize_advance]
    exact h.pos
  · rw [totalSize_advance, buffer_advance, List.length_set]
    exact h.length_eq

end Ready

/-- **No access without elements**: a buffer of size zero divides by it,
and one that was cleared has no element of any number. -/
theorem access_eq_error {β : Type} (hempty : ring.buffer = []) (i : UInt64)
    (f : UInt64 → α → Except CellFault β) :
    (modulo i ring.totalSize >>= fun j => ring.cell j >>= f j) =
      .error (if ring.totalSize = 0 then .divByZero else .outOfBounds) := by
  unfold modulo
  split
  · rfl
  · have hlen : ring.buffer.length ≤ (i % ring.totalSize).toNat := by
      rw [hempty]
      exact Nat.zero_le _
    rw [Except.ok_bind, cell_eq_error hlen]
    rfl

/-! ## The buffer with unbounded counters -/

/-- **The buffer in memory is the one with unbounded counters**: a word
counts what its counter counts, and the elements are the same. -/
structure Represents (ring : CircularCells α) (wide : SharedCircularBuffer α) : Prop where
  head_eq : ring.head.toNat = wide.head
  tail_eq : ring.tail.toNat = wide.tail
  size_eq : ring.totalSize.toNat = wide.totalSize
  length_eq : ring.buffer.length = wide.totalSize
  get : ∀ i, i < wide.totalSize → ring.buffer[i]? = some (wide.buffer i)

namespace Represents

variable {wide : SharedCircularBuffer α} {n : ℕ}

theorem ofSize [Inhabited α] (size : UInt64) :
    (CircularCells.ofSize size : CircularCells α).Represents
      (SharedCircularBuffer.ofSize size.toNat) := by
  refine ⟨rfl, rfl, rfl, List.length_replicate, fun i hi => ?_⟩
  show (List.replicate size.toNat default)[i]? = some default
  rw [List.getElem?_replicate]
  exact if_pos hi

theorem ready (h : ring.Represents wide) (hwin : wide.Window n) : ring.Ready := by
  refine ⟨?_, h.length_eq.trans h.size_eq.symm⟩
  rw [h.size_eq, hwin.size]
  exact hwin.pos

/-- The counters after a push. -/
theorem advance (h : ring.Represents wide) (hwin : wide.Window n) (htail : wide.tail + 1 < 2 ^ 64)
    (val : α) :
    ring.advance.head.toNat = (wide.pushBack val).head ∧
      ring.advance.tail.toNat = (wide.pushBack val).tail := by
  have hhead := hwin.head_eq
  have hpos := hwin.pos
  have htail' : (ring.tail + 1).toNat = wide.tail + 1 := by
    rw [UInt64.toNat_add, h.tail_eq]
    exact Nat.mod_eq_of_lt htail
  have hle : (ring.totalSize ≤ ring.tail + 1 - ring.head) ↔
      wide.totalSize ≤ wide.tail + 1 - wide.head := by
    rw [UInt64.le_iff_toNat_le, UInt64.toNat_sub, htail', h.head_eq, h.size_eq]
    omega
  unfold CircularCells.advance SharedCircularBuffer.pushBack
  by_cases hfull : ring.totalSize ≤ ring.tail + 1 - ring.head
  · rw [if_pos hfull, if_pos (hle.mp hfull)]
    refine ⟨?_, htail'⟩
    show (ring.head + 1).toNat = wide.head + 1
    have hlt : wide.head + 1 < 2 ^ 64 := by omega
    rw [UInt64.toNat_add, h.head_eq]
    exact Nat.mod_eq_of_lt hlt
  · rw [if_neg hfull, if_neg (mt hle.mpr hfull)]
    exact ⟨h.head_eq, htail'⟩

/-- **A push in memory** is a push, if the tail can count it. -/
theorem pushBack (h : ring.Represents wide) (hwin : wide.Window n)
    (htail : wide.tail + 1 < 2 ^ 64) {assign : α → α → α}
    (hassign : ∀ old val, assign old val = val) (val : α) :
    ∃ ring', ring.pushBack assign val = .ok ring' ∧ ring'.Represents (wide.pushBack val) := by
  obtain ⟨old, -, heq⟩ := (h.ready hwin).pushBack_eq assign val
  have hslot : (ring.tail % ring.totalSize).toNat = wide.tail % wide.totalSize := by
    rw [UInt64.toNat_mod, h.tail_eq, h.size_eq]
  obtain ⟨hhead', htail'⟩ := h.advance hwin htail val
  refine ⟨_, heq, ?_⟩
  rw [hassign, hslot]
  -- the counters do not depend on the elements
  have hcounters : ∀ buffer : List α,
      (CircularCells.advance { ring with buffer := buffer }).head = ring.advance.head ∧
        (CircularCells.advance { ring with buffer := buffer }).tail = ring.advance.tail := by
    intro buffer
    unfold CircularCells.advance
    dsimp only
    split <;> exact ⟨rfl, rfl⟩
  refine ⟨?_, ?_, ?_, ?_, fun i hi => ?_⟩
  · rw [(hcounters _).1]
    exact hhead'
  · rw [(hcounters _).2]
    exact htail'
  · rw [totalSize_advance]
    exact h.size_eq
  · rw [buffer_advance, List.length_set]
    exact h.length_eq
  · rw [buffer_advance]
    show (ring.buffer.set (wide.tail % wide.totalSize) val)[i]? =
      some (Function.update wide.buffer (wide.tail % wide.totalSize) val i)
    rcases eq_or_ne i (wide.tail % wide.totalSize) with rfl | hne
    · rw [Function.update_self, List.getElem?_set_self]
      rw [h.length_eq]
      exact hi
    · rw [Function.update_of_ne hne, List.getElem?_set_ne hne.symm]
      exact h.get i hi

/-- **An index in memory** is taken to the same element. -/
theorem element (h : ring.Represents wide) (idx : UInt64) :
    (ring.clamp idx % ring.totalSize).toNat = wide.element idx.toNat := by
  have hclamp : (ring.clamp idx).toNat =
      if idx.toNat < wide.head then wide.head
      else if wide.tail ≤ idx.toNat then (wide.tail + (2 ^ 64 - 1)) % 2 ^ 64
      else idx.toNat := by
    have hlt : idx < ring.head ↔ idx.toNat < wide.head := by
      rw [UInt64.lt_iff_toNat_lt, h.head_eq]
    have hle : ring.tail ≤ idx ↔ wide.tail ≤ idx.toNat := by
      rw [UInt64.le_iff_toNat_le, h.tail_eq]
    unfold clamp
    simp only [hlt, hle]
    split
    · exact h.head_eq
    · split
      · rw [UInt64.toNat_sub, h.tail_eq, Nat.add_comm]
        rfl
      · rfl
  rw [UInt64.toNat_mod, hclamp, h.size_eq]
  rfl

/-- **What an index is given**, in memory as without bounds. -/
theorem get_of_element (h : ring.Represents wide) (hwin : wide.Window n) (idx : UInt64) {val : α}
    (hval : wide.copy idx.toNat = val) :
    ring.copy idx = .ok val ∧ ring.deref idx = .ok val := by
  obtain ⟨val', hval', -, hcopy, hderef⟩ := (h.ready hwin).copy_eq idx
  have hlt : wide.element idx.toNat < wide.totalSize := by
    refine Nat.mod_lt _ ?_
    rw [hwin.size]
    exact hwin.pos
  rw [h.element, h.get _ hlt, Option.some_inj] at hval'
  have heq : val' = val := hval'.symm.trans hval
  rw [heq] at hcopy hderef
  exact ⟨hcopy, hderef⟩

/-- **A sequence of pushes in memory**, of which number `i` is `f i`. -/
theorem pushAll (h : ring.Represents wide) {f : ℕ → α} (hkeeps : wide.Keeps n f)
    {assign : α → α → α} (hassign : ∀ old val, assign old val = val) (vals : List α)
    (hvals : ∀ i (hi : i < vals.length), vals[i] = f (wide.tail + i))
    (hlen : wide.tail + vals.length < 2 ^ 64) :
    ∃ ring' wide', ring.pushAll assign vals = .ok ring' ∧ ring'.Represents wide' ∧
      wide'.Keeps n f ∧ wide'.tail = wide.tail + vals.length := by
  induction vals generalizing ring wide with
  | nil => exact ⟨ring, wide, rfl, h, hkeeps, rfl⟩
  | cons val vals ih =>
    rw [List.length_cons] at hlen
    have hval : val = f wide.tail := hvals 0 (Nat.succ_pos _)
    obtain ⟨ring₁, hpush, h₁⟩ := h.pushBack hkeeps.toWindow (by omega) hassign val
    have hkeeps₁ : (wide.pushBack val).Keeps n f := by
      rw [hval]
      exact hkeeps.pushBack
    have htail₁ : (wide.pushBack val).tail = wide.tail + 1 := rfl
    obtain ⟨ring', wide', hall, h', hkeeps', htail'⟩ := ih h₁ hkeeps₁
      (fun i hi => by
        rw [htail₁, Nat.add_assoc, Nat.add_comm 1 i]
        exact hvals (i + 1) (Nat.succ_lt_succ hi))
      (by rw [htail₁]; omega)
    refine ⟨ring', wide', ?_, h', hkeeps', ?_⟩
    · unfold CircularCells.pushAll at hall ⊢
      rw [List.foldlM_cons, hpush, Except.ok_bind]
      exact hall
    · rw [htail', htail₁, List.length_cons]
      omega

/-- The element an index at or above the tail is taken to, which is the
last one, unless nothing was pushed. -/
theorem element_of_tail_le (h : ring.Represents wide) (hwin : wide.Window n) {idx : ℕ}
    (hidx : wide.tail ≤ idx) (htail : 0 < wide.tail) :
    wide.element idx = (wide.tail - 1) % n := by
  have hhead := hwin.head_eq
  have hpos := hwin.pos
  have hbound : wide.tail < 2 ^ 64 := by
    rw [← h.tail_eq]
    exact ring.tail.toNat_lt
  have hmod : (wide.tail + (2 ^ 64 - 1)) % 2 ^ 64 = wide.tail - 1 := by omega
  unfold SharedCircularBuffer.element
  rw [if_neg (by omega), if_pos hidx, hmod, hwin.size]

/-- **What every index gives**, in the three cases. -/
theorem gives (h : ring.Represents wide) {f : ℕ → α} (hkeeps : wide.Keeps n f) (idx : UInt64) :
    (ring.head ≤ idx → idx < ring.tail →
      ring.copy idx = .ok (f idx.toNat) ∧ ring.deref idx = .ok (f idx.toNat)) ∧
    (idx < ring.head → 2 ≤ n →
      ring.copy idx = .ok (f wide.head) ∧ ring.deref idx = .ok (f wide.head)) ∧
    (ring.tail ≤ idx → 0 < wide.tail →
      ring.copy idx = .ok (f (wide.tail - 1)) ∧ ring.deref idx = .ok (f (wide.tail - 1))) := by
  have hwin := hkeeps.toWindow
  have hhead := hwin.head_eq
  have hpos := hwin.pos
  simp only [UInt64.lt_iff_toNat_lt, UInt64.le_iff_toNat_le, h.head_eq, h.tail_eq]
  refine ⟨fun hle hlt => ?_, fun hlt hn => ?_, fun hle htail => ?_⟩
  · refine h.get_of_element hwin idx ?_
    unfold SharedCircularBuffer.copy
    rw [hwin.element_eq hle hlt]
    exact hkeeps.get _ hlt (by omega)
  · refine h.get_of_element hwin idx ?_
    unfold SharedCircularBuffer.copy
    rw [hwin.element_of_lt hlt]
    exact hkeeps.get _ (by omega) (by omega)
  · refine h.get_of_element hwin idx ?_
    unfold SharedCircularBuffer.copy
    rw [h.element_of_tail_le hwin hle htail]
    exact hkeeps.get _ (by omega) (by omega)

/-- The element an index gives, and the one the next push writes to. -/
theorem element_eq_writeSlot_iff (h : ring.Represents wide) (hwin : wide.Window n)
    (idx : UInt64) :
    ring.element idx = ring.writeSlot ↔ wide.element idx.toNat = wide.tail % n := by
  have hready := h.ready hwin
  obtain ⟨val, -, helement, -, -⟩ := hready.copy_eq idx
  have hslot : ring.writeSlot = .ok (ring.tail % ring.totalSize) := modulo_eq_ok hready.pos
  have hnat : (ring.tail % ring.totalSize).toNat = wide.tail % n := by
    rw [UInt64.toNat_mod, h.tail_eq, h.size_eq, hwin.size]
  rw [helement, hslot, Except.ok.injEq, ← UInt64.toNat_inj, h.element, hnat]

/-- **The element the next push writes to** has no index in the window. -/
theorem element_ne_writeSlot (h : ring.Represents wide) (hwin : wide.Window n) {idx : UInt64}
    (hhead : ring.head ≤ idx) (htail : idx < ring.tail) : ring.element idx ≠ ring.writeSlot := by
  rw [UInt64.le_iff_toNat_le, h.head_eq] at hhead
  rw [UInt64.lt_iff_toNat_lt, h.tail_eq] at htail
  have heq := hwin.head_eq
  rw [ne_eq, h.element_eq_writeSlot_iff hwin, hwin.element_eq hhead htail]
  exact Nat.mod_ne_of_lt_add htail (by omega)

/-- **When an index reaches the element the next push writes to**: if there
is only one element, or if nothing was pushed and the index before the
first is taken to element 0. -/
theorem exists_element_eq_writeSlot_iff (h : ring.Represents wide) (hwin : wide.Window n) :
    (∃ idx, ring.element idx = ring.writeSlot) ↔
      n = 1 ∨ wide.tail = 0 ∧ (2 ^ 64 - 1) % n = 0 := by
  have hhead := hwin.head_eq
  have hpos := hwin.pos
  simp only [h.element_eq_writeSlot_iff hwin]
  constructor
  · rintro ⟨idx, hidx⟩
    by_contra! hne
    obtain ⟨hone, hempty⟩ := hne
    rcases Nat.eq_zero_or_pos wide.tail with h0 | htail
    · -- every index is taken to the one before the first
      refine hempty h0 ?_
      unfold SharedCircularBuffer.element at hidx
      rw [if_neg (by omega), if_pos (by omega), h0, hwin.size] at hidx
      exact hidx.trans (Nat.zero_mod n)
    · -- the window is not empty, and every index is taken into it
      have hne : ∀ i, wide.head ≤ i → i < wide.tail → i % n ≠ wide.tail % n :=
        fun i hi hi' => Nat.mod_ne_of_lt_add hi' (by omega)
      rcases lt_or_ge idx.toNat wide.tail with hlt | hge
      · rw [hwin.element_eq_max hlt] at hidx
        exact hne _ (le_max_right _ _) (by omega) hidx
      · rw [h.element_of_tail_le hwin hge htail] at hidx
        exact hne _ (by omega) (by omega) hidx
  · rintro (rfl | ⟨h0, hmod⟩)
    · refine ⟨0, ?_⟩
      unfold SharedCircularBuffer.element
      rw [hwin.size, Nat.mod_one, Nat.mod_one]
    · refine ⟨0, ?_⟩
      unfold SharedCircularBuffer.element
      rw [if_neg (by omega), if_pos (by omega), h0, hwin.size]
      exact hmod.trans (Nat.zero_mod n).symm

end Represents

/-- **What a new buffer holds after pushes** `vals`, fewer than `2 ^ 64`:
the tail counts them, the window is the last of them, but fewer than there
are elements, and an index gives the value of its number, from below the
window the first one and from above the last one. The next push writes to
an element which no index in the window is taken to; it is one some index
is taken to exactly if it is the only one, or if nothing was pushed yet and
the index before the first, `2 ^ 64 - 1`, is taken to element 0. -/
theorem pushAll_ofSize [Inhabited α] {assign : α → α → α} (hassign : ∀ old val, assign old val = val)
    {size : UInt64} (hsize : 1 ≤ size) (vals : List α) (hlen : vals.length < 2 ^ 64) :
    ∃ ring, (ofSize size : CircularCells α).pushAll assign vals = .ok ring ∧
      ring.tail.toNat = vals.length ∧
      ring.head.toNat = vals.length - min vals.length (size.toNat - 1) ∧
      (∀ idx,
        (ring.head ≤ idx → idx < ring.tail → ∃ val, vals[idx.toNat]? = some val ∧
          ring.copy idx = .ok val ∧ ring.deref idx = .ok val) ∧
        (idx < ring.head → 2 ≤ size → ∃ val, vals[ring.head.toNat]? = some val ∧
          ring.copy idx = .ok val ∧ ring.deref idx = .ok val) ∧
        (ring.tail ≤ idx → 1 ≤ vals.length → ∃ val, vals[vals.length - 1]? = some val ∧
          ring.copy idx = .ok val ∧ ring.deref idx = .ok val)) ∧
      (∀ idx, ring.head ≤ idx → idx < ring.tail → ring.element idx ≠ ring.writeSlot) ∧
      ((∃ idx, ring.element idx = ring.writeSlot) ↔
        size = 1 ∨ vals = [] ∧ (2 ^ 64 - 1) % size.toNat = 0) := by
  have hpos : 0 < size.toNat := UInt64.le_iff_toNat_le.mp hsize
  set f : ℕ → α := fun i => vals.getD i default with hf
  have hget : ∀ i, i < vals.length → vals[i]? = some (f i) := by
    intro i hi
    rw [hf, List.getElem?_eq_getElem hi]
    exact congrArg some (List.getD_eq_getElem vals default hi).symm
  obtain ⟨ring, wide, hall, h, hkeeps, htail⟩ :=
    (Represents.ofSize size).pushAll (SharedCircularBuffer.Keeps.ofSize hpos f) hassign vals
      (fun i hi => by
        rw [show (SharedCircularBuffer.ofSize size.toNat : SharedCircularBuffer α).tail = 0 from rfl,
          Nat.zero_add]
        exact (List.getD_eq_getElem vals default hi).symm)
      (by
        rw [show (SharedCircularBuffer.ofSize size.toNat : SharedCircularBuffer α).tail = 0 from rfl]
        omega)
  have htail' : wide.tail = vals.length := htail.trans (Nat.zero_add _)
  have hwin := hkeeps.toWindow
  have hhead := hwin.head_eq
  refine ⟨ring, hall, h.tail_eq.trans htail', ?_, fun idx => ?_,
    fun idx => h.element_ne_writeSlot hwin, ?_⟩
  · rw [h.head_eq, hhead, htail']
    omega
  · obtain ⟨hin, hbelow, habove⟩ := h.gives hkeeps idx
    refine ⟨fun hle hlt => ⟨f idx.toNat, ?_, hin hle hlt⟩,
      fun hlt htwo => ?_, fun hle hone => ⟨f (wide.tail - 1), ?_, habove hle (by omega)⟩⟩
    · refine hget _ ?_
      rw [← htail', ← h.tail_eq]
      exact UInt64.lt_iff_toNat_lt.mp hlt
    · have htwo' : 2 ≤ size.toNat := UInt64.le_iff_toNat_le.mp htwo
      rw [h.head_eq]
      refine ⟨f wide.head, hget _ ?_, hbelow hlt htwo'⟩
      have hpos' : 0 < wide.head := by
        rw [← h.head_eq]
        exact lt_of_le_of_lt (Nat.zero_le _) (UInt64.lt_iff_toNat_lt.mp hlt)
      omega
    · rw [htail']
      exact hget _ (by omega)
  · rw [h.exists_element_eq_writeSlot_iff hwin, htail', List.length_eq_zero_iff,
      ← UInt64.toNat_inj]
    rfl

/-- Five pushes to a buffer of three elements, of which the last two can be
read. -/
theorem pushAll_ofSize_three :
    ∃ ring, (ofSize 3 : CircularCells ℕ).pushAll (fun _ val => val) [10, 11, 12, 13, 14] = .ok ring ∧
      ring.tail.toNat = 5 ∧ ring.head.toNat = 3 := by
  obtain ⟨ring, hring, htail, hhead, -⟩ :=
    pushAll_ofSize (fun _ _ => rfl) (by decide : (1 : UInt64) ≤ 3) [10, 11, 12, 13, 14] (by decide)
  exact ⟨ring, hring, htail, hhead⟩

/-- With a single element, whoever reads what was pushed reads the element
which the next push writes to. -/
theorem pushAll_ofSize_one :
    ∃ ring, (ofSize 1 : CircularCells ℕ).pushAll (fun _ val => val) [10] = .ok ring ∧
      ring.copy 1 = .ok 10 ∧ ring.element 1 = .ok 0 ∧ ring.writeSlot = .ok 0 :=
  ⟨⟨1, 1, 1, [10]⟩, rfl, rfl, rfl, rfl⟩

/-! ## Sequences of calls -/

/-- The calls on a buffer. -/
inductive Call (α : Type) where
  | pushBack (val : α)
  | element (idx : UInt64)
  | copy (idx : UInt64)
  | head
  | tail
  | size
  | clear

/-- Which calls access an element. -/
def Call.Accesses : Call α → Prop
  | .pushBack _ | .element _ | .copy _ => True
  | .head | .tail | .size | .clear => False

/-- The buffer a call leaves; what the call returns is not kept. -/
def call (assign : α → α → α) (ring : CircularCells α) :
    Call α → Except CellFault (CircularCells α)
  | .pushBack val => ring.pushBack assign val
  | .element idx => do
    let _ ← ring.element idx
    return ring
  | .copy idx => do
    let _ ← ring.copy idx
    return ring
  | .head | .tail | .size => return ring
  | .clear => return ring.clear

/-- A sequence of calls, which ends with the first that breaks. -/
def callAll (assign : α → α → α) (ring : CircularCells α) (calls : List (Call α)) :
    Except CellFault (CircularCells α) :=
  calls.foldlM (call assign) ring

theorem callAll_cons (assign : α → α → α) (c : Call α) (calls : List (Call α)) :
    ring.callAll assign (c :: calls) =
      (ring.call assign c >>= fun ring' => ring'.callAll assign calls) := by
  unfold callAll
  exact List.foldlM_cons

/-- **With its elements there, a call returns**, and they stay there unless
it is `clear`. -/
theorem Ready.call (h : ring.Ready) (assign : α → α → α) (c : Call α) :
    ∃ ring', ring.call assign c = .ok ring' ∧
      ((c = .clear ∧ ring'.buffer = []) ∨ (c ≠ .clear ∧ ring'.Ready)) := by
  have hsame : ring.Ready := h
  cases c with
  | pushBack val =>
    obtain ⟨old, -, heq⟩ := h.pushBack_eq assign val
    exact ⟨_, heq, .inr ⟨by simp, h.of_pushBack heq⟩⟩
  | element idx =>
    obtain ⟨val, -, helement, -, -⟩ := h.copy_eq idx
    refine ⟨ring, ?_, .inr ⟨by simp, h⟩⟩
    show (ring.element idx >>= fun _ => Except.ok ring) = _
    rw [helement, Except.ok_bind]
  | copy idx =>
    obtain ⟨val, -, -, hcopy, -⟩ := h.copy_eq idx
    refine ⟨ring, ?_, .inr ⟨by simp, h⟩⟩
    show (ring.copy idx >>= fun _ => Except.ok ring) = _
    rw [hcopy, Except.ok_bind]
  | head => exact ⟨ring, rfl, .inr ⟨by simp, hsame⟩⟩
  | tail => exact ⟨ring, rfl, .inr ⟨by simp, hsame⟩⟩
  | size => exact ⟨ring, rfl, .inr ⟨by simp, hsame⟩⟩
  | clear => exact ⟨ring.clear, rfl, .inl ⟨rfl, rfl⟩⟩

/-- **Without elements** a call returns exactly if it accesses none. -/
theorem call_of_empty (hempty : ring.buffer = []) (assign : α → α → α) (c : Call α) :
    (c.Accesses ∧ ∃ e, ring.call assign c = .error e) ∨
      (¬ c.Accesses ∧ ∃ ring', ring.call assign c = .ok ring' ∧ ring'.buffer = []) := by
  cases c with
  | pushBack val => exact .inl ⟨trivial, _, access_eq_error hempty ring.tail _⟩
  | element idx =>
    refine .inl ⟨trivial, if ring.totalSize = 0 then .divByZero else .outOfBounds, ?_⟩
    show (ring.element idx >>= fun _ => Except.ok ring) = _
    unfold element
    rw [access_eq_error hempty]
    rfl
  | copy idx =>
    refine .inl ⟨trivial, if ring.totalSize = 0 then .divByZero else .outOfBounds, ?_⟩
    have hcopy := access_eq_error hempty (ring.clamp idx) fun _ val => pure val
    simp only [bind_pure] at hcopy
    show (ring.copy idx >>= fun _ => Except.ok ring) = _
    unfold copy
    rw [hcopy]
    rfl
  | head => exact .inr ⟨id, ring, rfl, hempty⟩
  | tail => exact .inr ⟨id, ring, rfl, hempty⟩
  | size => exact .inr ⟨id, ring, rfl, hempty⟩
  | clear => exact .inr ⟨id, ring.clear, rfl, rfl⟩

/-- **A buffer without elements** supports the sequences that access none. -/
theorem callAll_of_empty (hempty : ring.buffer = []) (assign : α → α → α)
    (calls : List (Call α)) :
    (∃ ring', ring.callAll assign calls = .ok ring') ↔ ∀ c ∈ calls, ¬ c.Accesses := by
  induction calls generalizing ring with
  | nil => exact ⟨fun _ => List.forall_mem_nil _, fun _ => ⟨ring, rfl⟩⟩
  | cons c calls ih =>
    rw [callAll_cons, List.forall_mem_cons]
    rcases call_of_empty hempty assign c with ⟨hacc, e, he⟩ | ⟨hacc, ring₁, he, hempty₁⟩
    · rw [he]
      refine ⟨?_, fun h => absurd hacc h.1⟩
      rintro ⟨ring', hring'⟩
      cases hring'
    · rw [he, Except.ok_bind, ih hempty₁]
      exact ⟨fun h => ⟨hacc, h⟩, And.right⟩

/-- **Which sequences find every element they access**: the size is not
zero, and nothing is accessed after `clear`. -/
def ElementsThere (size : UInt64) (calls : List (Call α)) : Prop :=
  ∀ before c after, calls = before ++ c :: after → c.Accesses →
    size ≠ 0 ∧ Call.clear ∉ before

/-- **A buffer with its elements** supports the sequences which access none
after `clear`. -/
theorem Ready.callAll (h : ring.Ready) (assign : α → α → α) (calls : List (Call α)) :
    (∃ ring', ring.callAll assign calls = .ok ring') ↔
      ∀ before c after, calls = before ++ c :: after → c.Accesses → Call.clear ∉ before := by
  induction calls generalizing ring with
  | nil =>
    refine ⟨fun _ before c after heq => ?_, fun _ => ⟨ring, rfl⟩⟩
    cases List.nil_eq_append_iff.mp heq |>.2
  | cons c calls ih =>
    rw [callAll_cons]
    obtain ⟨ring₁, he, ⟨rfl, hempty⟩ | ⟨hne, hready⟩⟩ := h.call assign c
    · rw [he, Except.ok_bind, callAll_of_empty hempty]
      refine ⟨fun hnone before c' after heq hacc => ?_, fun hall c' hc' hacc => ?_⟩
      · rcases before with _ | ⟨c₀, before⟩
        · exact List.not_mem_nil
        · obtain ⟨-, rfl⟩ := List.cons_eq_cons.mp heq
          exact absurd hacc (hnone c' (List.mem_append_right _ List.mem_cons_self))
      · obtain ⟨before, after, rfl⟩ := List.append_of_mem hc'
        exact hall (.clear :: before) c' after rfl hacc List.mem_cons_self
    · rw [he, Except.ok_bind, ih hready]
      refine ⟨fun hall before c' after heq hacc => ?_, fun hall before c' after heq hacc => ?_⟩
      · rcases before with _ | ⟨c₀, before⟩
        · exact List.not_mem_nil
        · obtain ⟨rfl, rfl⟩ := List.cons_eq_cons.mp heq
          rw [List.mem_cons]
          rintro (heq' | hmem)
          · exact hne heq'.symm
          · exact hall before c' after rfl hacc hmem
      · have hmem := hall (c :: before) c' after (by rw [heq]; rfl) hacc
        exact fun hc => hmem (List.mem_cons_of_mem c hc)

/-- **When no call on a circular buffer breaks**: exactly if the elements
are there whenever one is accessed. Neither the constructor refuses a size
of zero, by which every access divides, nor does `clear` leave the elements
which every later access takes for granted. -/
theorem callAll_ok_iff [Inhabited α] (assign : α → α → α) (size : UInt64)
    (calls : List (Call α)) :
    (∃ ring, (ofSize size : CircularCells α).callAll assign calls = .ok ring) ↔
      ElementsThere size calls := by
  by_cases hsize : size = 0
  · have hempty : (ofSize size : CircularCells α).buffer = [] := by
      rw [hsize]
      rfl
    rw [callAll_of_empty hempty]
    refine ⟨fun hnone before c after heq hacc => ?_, fun hall c hc hacc => ?_⟩
    · rw [heq] at hnone
      exact absurd hacc (hnone c (List.mem_append_right _ List.mem_cons_self))
    · obtain ⟨before, after, rfl⟩ := List.append_of_mem hc
      exact (hall before c after rfl hacc).1 hsize
  · have hpos : 0 < size.toNat := Nat.pos_of_ne_zero fun h0 => hsize (UInt64.toNat_inj.mp h0)
    rw [(Ready.ofSize hpos).callAll]
    exact ⟨fun hall before c after heq hacc => ⟨hsize, hall before c after heq hacc⟩,
      fun hall before c after heq hacc => (hall before c after heq hacc).2⟩

/-- A publisher of size zero divides by zero with its first message; a
buffer that was cleared is accessed outside its elements. -/
theorem callAll_breaks :
    (ofSize 0 : CircularCells ℕ).callAll (fun _ val => val) [.pushBack 1] =
        .error .divByZero ∧
      (ofSize 4 : CircularCells ℕ).callAll (fun _ val => val)
        [.pushBack 1, .clear, .copy 0] = .error .outOfBounds := by
  decide

end CircularCells
