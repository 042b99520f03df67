import CoinData.Bytes
import Mathlib.Tactic.Set

/-!
# The buddy allocator

The shared memory of a node is handed out by a buddy system: memory is
managed in **blocks** of `2 ^ level` pages, free blocks of one level are
kept on one address-ordered doubly linked list, an allocation takes a block
of the least level that fits – splitting larger ones – and a release
merges a block with its buddy as long as there is one.

The block headers live inside the managed memory, at the start of each
block, next to the callers' data. The model keeps it so: the memory is a
byte store, a header is a record in it, and every function below reads and
writes headers at addresses, in the order of the source; addresses are numbers,
and `0` is `NULL`. The head of the system, which holds the lists, lies in a
segment of its own and is a value of its own.

What C++ leaves open is made explicit. A loop that walks a list is bounded
by the number of addresses, so that a walk which exceeds the bound is a
walk which does not end; dereferencing `NULL` and indexing the array of
lists out of range are faults. Only the read of `block_list[32]` in
`buddyMalloc`, the field after the last, is not one: it is read as `NULL`.
-/

/-- How a call stops without returning. -/
inductive Fault where
  /-- The call of `abort`. -/
  | abort
  /-- A null pointer is dereferenced. -/
  | nullDeref
  /-- An array is indexed out of range. -/
  | outOfBounds
  /-- A loop does not end. -/
  | diverges
deriving DecidableEq, Repr

/-! ## Sizes and levels -/

/-- Bytes of a page. -/
def pageSize : ℕ := 2 ^ 12

/-- How many lists there are. -/
def maxBlockNum : ℕ := 32

/-- `0x1 << level`, a shift of a 32-bit `int`, converted to `size_t`: bit
31 is the sign, and is extended. A shift by 32 or more is undefined; the
value given to it is the processor's. -/
def shiftedOne (level : ℕ) : ℕ :=
  if level % 32 = 31 then 2 ^ 64 - 2 ^ 31 else 2 ^ (level % 32)

/-- The size of a block of the level, in bytes. -/
def calculateBlockSize (level : ℕ) : ℕ := shiftedOne level * pageSize % 2 ^ 64

/-- The level a loop `for (l = 0; l < n; l++) if (p l) break;` ends with. -/
def firstLevel (p : ℕ → Bool) (n : ℕ) : ℕ := ((List.range n).find? p).getD n

/-- The level of a memory region: the largest whose blocks fit into it. -/
def calculateBlockLevel (memorySize : ℕ) : ℕ :=
  if memorySize < pageSize then 2 ^ 64 - 1
  else (firstLevel (fun l => memorySize < calculateBlockSize l) 32 + 2 ^ 64 - 1) % 2 ^ 64

/-- The least level whose blocks hold `memorySize` bytes. -/
def calculateWhichLevel (memorySize : ℕ) : ℕ :=
  firstLevel (fun l => memorySize ≤ calculateBlockSize l) maxBlockNum

/-- Where the loop ends, if it ends early. -/
theorem firstLevel_spec {p : ℕ → Bool} {n i : ℕ} (hi : i < n) (hp : p i = true) :
    firstLevel p n ≤ i ∧ p (firstLevel p n) = true
      ∧ ∀ j < firstLevel p n, p j = false := by
  unfold firstLevel
  cases h : (List.range n).find? p with
  | none =>
    have := List.find?_eq_none.mp h i (List.mem_range.mpr hi)
    exact absurd hp this
  | some k =>
    obtain ⟨hk, _, hmin⟩ := List.find?_range_eq_some.mp h
    have hmin' : ∀ j < k, p j = false := fun j hj => by simpa using hmin j hj
    refine ⟨?_, hk, hmin'⟩
    by_contra hlt
    exact absurd hp (by rw [hmin' i (not_le.mp hlt)]; exact Bool.false_ne_true)

/-- Below level 31 a block of a level is `2 ^ level` pages. -/
theorem calculateBlockSize_of_lt {level : ℕ} (h : level < 31) :
    calculateBlockSize level = 2 ^ level * pageSize := by
  have hpow : 2 ^ level ≤ 2 ^ 30 := Nat.pow_le_pow_right (by decide) (by omega)
  unfold calculateBlockSize shiftedOne
  rw [Nat.mod_eq_of_lt (show level < 32 by omega), if_neg (by omega)]
  refine Nat.mod_eq_of_lt (lt_of_le_of_lt (Nat.mul_le_mul_right pageSize hpow) ?_)
  decide

/-- **The level of a region**: its blocks fit into it. -/
theorem calculateBlockLevel_spec {size : ℕ} (h₁ : pageSize ≤ size) (h₂ : size < 2 ^ 64 - 2 ^ 43) :
    calculateBlockLevel size < 31 ∧ 2 ^ calculateBlockLevel size * pageSize ≤ size := by
  set p : ℕ → Bool := fun l => size < calculateBlockSize l with hp
  have h31 : p 31 = true := decide_eq_true h₂
  obtain ⟨hle, htrue, hmin⟩ := firstLevel_spec (n := 32) (by decide) h31
  have hpos : firstLevel p 32 ≠ 0 := by
    intro h0
    have hlt : size < calculateBlockSize 0 := of_decide_eq_true (h0 ▸ htrue)
    rw [calculateBlockSize_of_lt (by decide), pow_zero, one_mul] at hlt
    omega
  obtain ⟨l, hl⟩ := Nat.exists_eq_succ_of_ne_zero hpos
  have hlevel : calculateBlockLevel size = l := by
    unfold calculateBlockLevel
    rw [if_neg (by omega), ← hp, hl]
    omega
  have hl' : l < 31 := by omega
  have hle' : ¬ size < calculateBlockSize l := of_decide_eq_false (hmin l (by omega))
  rw [calculateBlockSize_of_lt hl'] at hle'
  rw [hlevel]
  exact ⟨hl', by omega⟩

/-- **The level of a request**: the least one whose blocks hold it. -/
theorem calculateWhichLevel_spec {size : ℕ} (h : size ≤ 2 ^ 42) :
    calculateWhichLevel size ≤ 30
      ∧ size ≤ 2 ^ calculateWhichLevel size * pageSize
      ∧ ∀ l < calculateWhichLevel size, 2 ^ l * pageSize < size := by
  set p : ℕ → Bool := fun l => size ≤ calculateBlockSize l with hp
  have h30 : p 30 = true := by
    rw [hp]
    exact decide_eq_true (by rw [calculateBlockSize_of_lt (by decide)]; exact h)
  obtain ⟨hle, htrue, hmin⟩ := firstLevel_spec (n := maxBlockNum) (by decide) h30
  have hlevel : calculateWhichLevel size = firstLevel p maxBlockNum := rfl
  rw [hlevel]
  have hsize : size ≤ calculateBlockSize (firstLevel p maxBlockNum) := of_decide_eq_true htrue
  rw [calculateBlockSize_of_lt (by omega)] at hsize
  refine ⟨hle, hsize, fun l hl => ?_⟩
  have hlt : ¬ size ≤ calculateBlockSize l := of_decide_eq_false (hmin l hl)
  rw [calculateBlockSize_of_lt (by omega)] at hlt
  omega

/-! ## Block headers -/

/-- The header of a block. -/
structure BlockHead where
  previous : ℕ
  next : ℕ
  size : ℕ
  level : ℕ
  hostPid : ℕ
  memoryIdx : ℕ
  isFree : ℕ
  isFirst : ℕ
  crc : ℕ
deriving DecidableEq, Repr

/-- Bytes of a block header; the structure is packed to 4 bytes. -/
def buddyCalculateBlockHeadSize : ℕ := 60

/-! The layout of the packed structure. -/

namespace Layout

def previous : ByteField := ⟨0, 8⟩
def next : ByteField := ⟨8, 8⟩
def size : ByteField := ⟨16, 8⟩
def level : ByteField := ⟨24, 8⟩
def hostPid : ByteField := ⟨32, 8⟩
def memoryIdx : ByteField := ⟨40, 8⟩
def isFree : ByteField := ⟨48, 4⟩
def isFirst : ByteField := ⟨52, 4⟩
def crc : ByteField := ⟨56, 4⟩

end Layout

/-- The header at an address. -/
@[irreducible] def blockHead (m : ByteStore) (a : ℕ) : BlockHead where
  previous := Layout.previous.get m a
  next := Layout.next.get m a
  size := Layout.size.get m a
  level := Layout.level.get m a
  hostPid := Layout.hostPid.get m a
  memoryIdx := Layout.memoryIdx.get m a
  isFree := Layout.isFree.get m a
  isFirst := Layout.isFirst.get m a
  crc := Layout.crc.get m a

/-- The checksum, which is a constant. -/
def crc32 : ℕ := 0x55AA

/-- The check of the checksum: it reads the two low bytes of the last field
of a header of `size` bytes. -/
def crc32Check (m : ByteStore) (addr size : ℕ) : Bool :=
  m (addr + size - 3) == 0x55 && m (addr + size - 4) == 0xAA

/-- Initialize a block to the free state. -/
def initFreeBlock (m : ByteStore) (block previous next : ℕ)
    (level isFirst : ℕ) : ByteStore :=
  if block = 0 then m
  else
    let m := Layout.size.set m block 0
    let m := Layout.isFree.set m block 1
    let m := Layout.previous.set m block previous
    let m := Layout.next.set m block next
    let m := Layout.level.set m block level
    let m := Layout.isFirst.set m block isFirst
    let m := Layout.crc.set m block 0
    Layout.crc.set m block crc32

/-- Initialize a block to the used state; its level is left as it is. -/
def initUsedBlock (m : ByteStore) (block : ℕ) : ByteStore :=
  if block = 0 then m
  else
    let m := Layout.size.set m block 0
    let m := Layout.isFree.set m block 0
    let m := Layout.previous.set m block 0
    let m := Layout.next.set m block 0
    let m := Layout.crc.set m block 0
    Layout.crc.set m block crc32

/-- Rewrite the links of a block, as `initFreeBlock` called with the
block's own level and flag does. -/
def relinkBlock (m : ByteStore) (block previous next : ℕ) : ByteStore :=
  initFreeBlock m block previous next (blockHead m block).level (blockHead m block).isFirst

/-- **Whether two blocks are buddies**, from their addresses and headers. -/
def buddyIsBuddy (a : ℕ) (first : BlockHead) (b : ℕ) (second : BlockHead) : Bool :=
  if first.level ≠ second.level then false
  else if first.isFirst ≠ 0 ∧ second.isFirst = 0 then false
  else if first.hostPid ≠ second.hostPid then false
  else if first.memoryIdx ≠ second.memoryIdx then false
  else if a > b ∧ a - b = calculateBlockSize first.level then true
  else if a < b ∧ b - a = calculateBlockSize first.level then true
  else false

/-! ## The head of the system -/

/-- The head of a buddy system. The mutex that makes the calls exclude each
other is left out: a call is one step of the model. -/
structure BuddyHead where
  totalSize : ℕ
  headSize : ℕ
  memorySize : ℕ
  memoryIdx : ℕ
  blockList : Fin maxBlockNum → ℕ

namespace BuddyHead

/-- The entry of the array of lists, `NULL` past its end. -/
def list (h : BuddyHead) (i : ℕ) : ℕ :=
  if hi : i < maxBlockNum then h.blockList ⟨i, hi⟩ else 0

/-- Assign an entry of the array of lists. -/
def setList (h : BuddyHead) (i : ℕ) (a : ℕ) : BuddyHead :=
  { h with blockList := fun j => if j.val = i then a else h.blockList j }

@[simp] theorem list_setList (h : BuddyHead) (i j : ℕ) (a : ℕ) :
    (h.setList i a).list j
      = if j = i ∧ i < maxBlockNum then a else h.list j := by
  unfold list setList
  by_cases hj : j < maxBlockNum
  · by_cases he : j = i
    · subst he
      simp [hj]
    · simp [hj, he]
  · rw [dif_neg hj, dif_neg hj, if_neg]
    rintro ⟨rfl, hi⟩
    exact hj hi

theorem setList_self (h : BuddyHead) (i : ℕ) : h.setList i (h.list i) = h := by
  have hlist : (fun j : Fin maxBlockNum => if j.val = i then h.list i else h.blockList j)
      = h.blockList := by
    funext j
    split
    · next hj => rw [← hj, list, dif_pos j.isLt]
    · rfl
  unfold setList
  rw [hlist]

end BuddyHead

/-- A buddy system: its head and the memory it manages. -/
structure Buddy where
  head : BuddyHead
  mem : ByteStore

/-- Bytes of the head, rounded up to pages. -/
def calculateBuddyHeadSize : ℕ :=
  let structSize := 8 * 4 + 40 + 8 * maxBlockNum
  (structSize / pageSize + if structSize % pageSize = 0 then 0 else 1) * pageSize

/-- A freshly initialized head over a segment of `size` bytes. -/
def buddyInitSystem (size : ℕ) : BuddyHead where
  totalSize := size
  headSize := calculateBuddyHeadSize
  memorySize := (size + 2 ^ 64 - calculateBuddyHeadSize) % 2 ^ 64
  memoryIdx := 0
  blockList := fun _ => 0

/-- More steps than there are addresses: a walk of a list that takes as
many visits some block twice, and does not end. -/
def addressCount : ℕ := 2 ^ 64

/-! ## Lists -/

/-- The loop of `buddyInsertBlock`: the first block of the list after
`block`, or the last one. -/
def insertPoint (m : ByteStore) (block : ℕ) : ℕ → ℕ → Except Fault ℕ
  | 0, _ => .error .diverges
  | fuel + 1, insertBlock =>
    if (blockHead m insertBlock).next ≠ 0 then
      if block < insertBlock then .ok insertBlock
      else insertPoint m block fuel (blockHead m insertBlock).next
    else .ok insertBlock

/-- Insert a block into a list by address. `list` is the value of
`*block_list`; its new value is returned with the memory. -/
def buddyInsertBlock (m : ByteStore) (list block : ℕ) :
    Except Fault (ℕ × ByteStore) :=
  if list = 0 then .ok (block, m)
  else do
    let insertBlock ← insertPoint m block addressCount list
    if block < insertBlock then
      let previous := (blockHead m insertBlock).previous
      -- the source reads the fields of `previous` without testing it
      if previous = 0 then .error .nullDeref
      else
        let m := relinkBlock m previous (blockHead m previous).previous block
        let m := relinkBlock m block previous insertBlock
        let m := relinkBlock m insertBlock block (blockHead m insertBlock).next
        .ok (list, m)
    else
      let m := relinkBlock m insertBlock (blockHead m insertBlock).previous block
      let m := relinkBlock m block insertBlock 0
      .ok (list, m)

/-- Remove a block from a list. -/
def buddyRemoveBlock (m : ByteStore) (list block : ℕ) : ℕ × ByteStore :=
  let previous := (blockHead m block).previous
  let next := (blockHead m block).next
  let list := if block = list then (blockHead m block).next else list
  let m := if previous ≠ 0 then
      relinkBlock m previous (blockHead m previous).previous next else m
  let m := if next ≠ 0 then
      relinkBlock m next previous (blockHead m next).next else m
  (list, m)

/-! ## Attaching memory -/

/-- **Attach a memory region** to the system, on behalf of the process
`pid`. -/
def buddyAttchMemory (s : Buddy) (addr size pid : ℕ) : Except Fault (Int × Buddy) :=
  if addr = 0 then .ok (-1, s)
  else
    let level := calculateBlockLevel size
    let m := Layout.hostPid.set s.mem addr pid
    let memoryIdx := (s.head.memoryIdx + 1) % 2 ^ 64
    let m := Layout.memoryIdx.set m addr memoryIdx
    let m := initFreeBlock m addr 0 0 level 1
    if maxBlockNum ≤ level then .error .outOfBounds
    else do
      let (list, m) ← buddyInsertBlock m (s.head.list level) addr
      .ok (0, ⟨{ s.head with memoryIdx := memoryIdx }.setList level list, m⟩)

/-! ## Allocating -/

/-- The loop that looks for a level with a free block, from `levelIdx` on. -/
def searchLevel (h : BuddyHead) : ℕ → ℕ → ℕ
  | 0, levelIdx => levelIdx
  | fuel + 1, levelIdx =>
    if h.list levelIdx ≠ 0 then levelIdx
    else if levelIdx + 1 < maxBlockNum then searchLevel h fuel (levelIdx + 1)
    else levelIdx + 1

/-- The loop that follows a list to its end. -/
def listEnd (m : ByteStore) : ℕ → ℕ → Except Fault ℕ
  | 0, _ => .error .diverges
  | fuel + 1, p => if p = 0 then .ok 0 else listEnd m fuel (blockHead m p).next

/-- One turn of the splitting loop, at level `idx + 1`: the first block of
that level is cut into halves, which become the list of level `idx`. -/
def splitBlock (s : Buddy) (idx : ℕ) : Except Fault Buddy := do
  let takeHead := s.head.list (idx + 1)
  let rest := (blockHead s.mem takeHead).next
  let h := s.head.setList (idx + 1) rest
  let m := if rest ≠ 0 then
      initFreeBlock s.mem rest 0 (blockHead s.mem rest).next (idx + 1)
        (blockHead s.mem rest).isFirst
    else s.mem
  let m := Layout.next.set m takeHead 0
  let m := Layout.previous.set m takeHead 0
  let blockSecond := takeHead + calculateBlockSize idx
  -- the second half gets the identity of the first
  let m := Layout.hostPid.set m blockSecond (blockHead m takeHead).hostPid
  let m := Layout.memoryIdx.set m blockSecond (blockHead m takeHead).memoryIdx
  let m := initFreeBlock m blockSecond takeHead 0 idx 1
  -- the loop to the end of the list moves the list itself, and so empties it
  let _ ← listEnd m addressCount (h.list idx)
  let m := initFreeBlock m takeHead (blockHead m takeHead).previous blockSecond idx 0
  .ok ⟨h.setList idx takeHead, m⟩

/-- The splitting loop, down to `level`. -/
def splitDown (level : ℕ) : ℕ → Buddy → Except Fault Buddy
  | 0, s => .ok s
  | idx + 1, s =>
    if s.head.list (idx + 1) ≠ 0 ∧ level < idx + 1 then do
      let s ← splitBlock s idx
      splitDown level idx s
    else .ok s

/-- Take the first block of a level, for a request of `size` bytes. -/
def takeBlock (s : Buddy) (level size : ℕ) : ℕ × Buddy :=
  let ret := s.head.list level
  if ret = 0 then (0, s)
  else
    let rest := (blockHead s.mem ret).next
    let h := s.head.setList level rest
    let m := if rest ≠ 0 then
        relinkBlock s.mem rest 0 (blockHead s.mem rest).next
      else s.mem
    let m := initUsedBlock m ret
    let m := Layout.size.set m ret size
    (ret + buddyCalculateBlockHeadSize, ⟨h, m⟩)

/-- **Allocate `size` bytes.** -/
def buddyMalloc (s : Buddy) (size : ℕ) : Except Fault (ℕ × Buddy) := do
  let level := calculateWhichLevel ((size + buddyCalculateBlockHeadSize) % 2 ^ 64)
  let levelIdx := searchLevel s.head maxBlockNum level
  let s ← splitDown level levelIdx s
  .ok (takeBlock s level size)

/-! ## Releasing -/

/-- The inner loop of `buddyFree`, from the list entry `insertPoint` on:
either the block is merged with a buddy, and the merged block is returned,
or it is inserted, and `NULL` is. -/
def freeScan (s : Buddy) (head : ℕ) : ℕ → ℕ → Except Fault (ℕ × Buddy)
  | 0, _ => .error .diverges
  | fuel + 1, insertPoint =>
    let m := s.mem
    let level := (blockHead m head).level
    if insertPoint = 0 then .ok (head, s)
    else if buddyIsBuddy head (blockHead m head) insertPoint (blockHead m insertPoint) then
      let insertLevel := (blockHead m insertPoint).level
      let (list, m) := buddyRemoveBlock m (s.head.list insertLevel) insertPoint
      let addr := if head < insertPoint then head else insertPoint
      let m := initFreeBlock m addr 0 0 ((blockHead m addr).level + 1) (blockHead m addr).isFirst
      .ok (addr, ⟨s.head.setList insertLevel list, m⟩)
    else if head < insertPoint then
      let previous := (blockHead m insertPoint).previous
      let m := relinkBlock m head previous insertPoint
      let m := relinkBlock m insertPoint head (blockHead m insertPoint).next
      if previous = 0 then .ok (0, ⟨s.head.setList level head, m⟩)
      else
        let m := relinkBlock m previous (blockHead m previous).previous head
        .ok (0, ⟨s.head, m⟩)
    else if (blockHead m insertPoint).next = 0 then
      let m := relinkBlock m insertPoint (blockHead m insertPoint).previous head
      let m := relinkBlock m head insertPoint 0
      .ok (0, ⟨s.head, m⟩)
    else freeScan s head fuel (blockHead m insertPoint).next

/-- The outer loop of `buddyFree`. A turn that merges moves the block one
level up, so the number of levels bounds the turns. -/
def freeLoop : ℕ → Buddy → ℕ → Except Fault Buddy
  | 0, _, _ => .error .diverges
  | fuel + 1, s, head =>
    if head = 0 then .ok s
    else if !crc32Check s.mem head buddyCalculateBlockHeadSize then .error .abort
    else
      let level := (blockHead s.mem head).level
      let insertPoint := s.head.list level
      if maxBlockNum ≤ level then .error .outOfBounds
      else if insertPoint = 0 then
        .ok ⟨s.head.setList level head, relinkBlock s.mem head 0 0⟩
      else do
        let (head, s) ← freeScan s head addressCount insertPoint
        freeLoop fuel s head

/-- **Release the memory at `addr`.** -/
def buddyFree (s : Buddy) (addr : ℕ) : Except Fault Buddy :=
  let head := addr - buddyCalculateBlockHeadSize
  if (blockHead s.mem head).isFree ≠ 0 then .error .abort
  else if !crc32Check s.mem head buddyCalculateBlockHeadSize then .error .abort
  else freeLoop (maxBlockNum + 2) s head
